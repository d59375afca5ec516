import Bilbo.Linking

/-!
# The code of a compilation

`compile_parser` returns the function of the type. Here the code that it emits on the way is kept beside
it. A module defines no function twice, so where the compilation succeeds its functions are distinct, and
each of them has the code that was emitted for it.
-/

namespace Bilbo

open Base Base.Cfg Comp

/-- `Parser`: the function to call and the program it is in, with what they were compiled from and the
functions of the cells. -/
structure Parser where
  fid : FuncId
  program : Program Clif.Op
  ty : Ty
  cells : Cells
  recFns : List (RecCell × FuncId)

/-- A definition that succeeds is the first of its function; a declaration defines nothing. -/
structure JITModule.DefinesOnce {σ : Type} (m : JITModule σ) : Prop where
  define : ∀ s id calls s', (m.defineFunction id calls).run s = (.done (), s') →
    (∀ x ∈ m.defined s, x.1 ≠ id) ∧ m.defined s' = m.defined s ++ [(id, calls)]
  declare : ∀ s name o s', (m.declareFunction name).run s = (o, s') → m.defined s' = m.defined s

section Compile

variable {σ : Type} {m : JITModule σ} {cells : Cells} {recs recFns : List (RecCell × FuncId)}
  {j j' : Jit σ} {fid : FuncId} {ty : Ty} {d : ℕ}

/-- `Jit::compile_parser`, with the code that is emitted on the way. -/
def compileCode (m : JITModule σ) (cells : Cells) (d : ℕ) (ty : Ty) : Comp (Jit σ) String Parser := do
  let out ← collected cells d ty
  let recFns ← declareNodes m out
  defineNodes m cells recFns.reverse recFns
  let fid ← declareNext m topName
  defineOne m recFns.reverse fid ty
  match Emitter.compileModule cells recFns fid ty with
  | .ok P => pure ⟨fid, P, ty, cells, recFns⟩
  | .error e => fail e

/-- What a compilation that succeeds leaves in the slot. -/
structure Parser.Emitted (f : Parser) : Prop where
  /-- the functions are distinct -/
  ids : (f.fid :: f.recFns.map Prod.snd).Nodup
  code : Emitter.compileModule f.cells f.recFns f.fid f.ty = .ok f.program
  /-- there are functions for cells of the type only -/
  cells : ∀ c ∈ f.recFns.map Prod.fst, Reaches f.cells f.ty c

theorem onModule_eq_done {α : Type} {x : Comp σ String α} {a : α}
    (h : (onModule x).run j = (.done a, j')) : x.run j.module = (.done a, j'.module) := by
  simp only [onModule, Prod.mk.injEq] at h
  obtain ⟨ho, rfl⟩ := h
  exact Prod.ext ho rfl

theorem collected_eq_done {out : List RecCell} (h : (collected cells d ty).run j = (.done out, j')) :
    j' = j ∧ ∃ s, (collectCells cells d ty).run ⟨∅, []⟩ = (.done (), s) ∧ s.out = out := by
  simp only [collected] at h
  rcases hrun : (collectCells cells d ty).run ⟨∅, []⟩ with ⟨_ | _ | _ | _, s⟩ <;> rw [hrun] at h <;> cases h
  exact ⟨rfl, s, rfl, rfl⟩

theorem declareNext_defined (hm : m.DefinesOnce) {name : ℕ → String}
    (h : (declareNext m name).run j = (.done fid, j')) : m.defined j'.module = m.defined j.module := by
  rw [declareNext, modify_bind_run, get_bind_run] at h
  exact hm.declare _ _ _ _ (onModule_eq_done (j := ⟨j.module, (j.seq + 1) % 2 ^ 32⟩) h)

theorem declareNodes_fst {out : List RecCell} (h : (declareNodes m out).run j = (.done recFns, j')) :
    recFns.map Prod.fst = out := by
  induction out generalizing j recFns with
  | nil =>
    cases h
    rfl
  | cons c out ih =>
    obtain ⟨fid, j₁, -, h⟩ := bind_eq_done h
    obtain ⟨recFns, j₂, hrest, h⟩ := bind_eq_done h
    cases h
    rw [List.map_cons, ih hrest]

theorem defineOne_eq_done {body : Ty} {u : Unit} (h : (defineOne m recs fid body).run j = (.done u, j')) :
    ∃ calls, nodeCalls recs body = .ok calls ∧
      (m.defineFunction fid calls).run j.module = (.done (), j'.module) := by
  rw [defineOne] at h
  cases hcalls : nodeCalls recs body with
  | error e =>
    rw [hcalls] at h
    cases h
  | ok calls =>
    rw [hcalls] at h
    exact ⟨calls, rfl, onModule_eq_done h⟩

theorem defineNodes_cons {cell : RecCell} {u : Unit}
    (h : (defineNodes m cells recs ((cell, fid) :: recFns)).run j = (.done u, j')) :
    ∃ body j₁, cells cell = some body ∧ (defineOne m recs fid body).run j = (.done (), j₁) ∧
      (defineNodes m cells recs recFns).run j₁ = (.done (), j') := by
  rw [defineNodes] at h
  cases hcell : cells cell with
  | none =>
    rw [hcell] at h
    cases h
  | some body =>
    rw [hcell] at h
    obtain ⟨⟨⟩, j₁, hone, hrest⟩ := bind_eq_done h
    exact ⟨body, j₁, rfl, hone, hrest⟩

/-- Definitions that succeed are of cells that are set, whose bodies refer to cells with functions. -/
theorem defineNodes_calls {u : Unit} (h : (defineNodes m cells recs recFns).run j = (.done u, j')) :
    ∀ cell f, (cell, f) ∈ recFns →
      ∃ body calls, cells cell = some body ∧ nodeCalls recs body = .ok calls := by
  induction recFns generalizing j with
  | nil => exact fun _ _ hmem => absurd hmem List.not_mem_nil
  | cons y recFns ih =>
    obtain ⟨c, g⟩ := y
    obtain ⟨body, j₁, hbody, hone, hrest⟩ := defineNodes_cons h
    intro cell f hmem
    rcases List.mem_cons.1 hmem with heq | hmem
    · cases heq
      obtain ⟨calls, hcalls, -⟩ := defineOne_eq_done hone
      exact ⟨body, calls, hbody, hcalls⟩
    · exact ih hrest cell f hmem

/-- Definitions that succeed are of distinct functions, none of which was defined before. -/
theorem defineNodes_new (hm : m.DefinesOnce) {u : Unit}
    (h : (defineNodes m cells recs recFns).run j = (.done u, j')) :
    ∃ defs, m.defined j'.module = m.defined j.module ++ defs ∧
      defs.map Prod.fst = recFns.map Prod.snd ∧ (recFns.map Prod.snd).Nodup ∧
      ∀ f ∈ recFns.map Prod.snd, ∀ x ∈ m.defined j.module, x.1 ≠ f := by
  induction recFns generalizing j with
  | nil =>
    cases h
    exact ⟨[], (List.append_nil _).symm, rfl, List.nodup_nil, fun _ hf => absurd hf List.not_mem_nil⟩
  | cons y recFns ih =>
    obtain ⟨c, g⟩ := y
    obtain ⟨body, j₁, -, hone, hrest⟩ := defineNodes_cons h
    obtain ⟨calls, -, hdefine⟩ := defineOne_eq_done hone
    obtain ⟨hnew, hdef⟩ := hm.define _ _ _ _ hdefine
    obtain ⟨defs, hdef', hfst, hnodup, hlater⟩ := ih hrest
    rw [hdef] at hdef' hlater
    refine ⟨(g, calls) :: defs, ?_, ?_, ?_, ?_⟩
    · rw [hdef', List.append_assoc, List.singleton_append]
    · rw [List.map_cons, List.map_cons, hfst]
    · -- a function that is defined later is not the one that has just been defined
      rw [List.map_cons, List.nodup_cons]
      refine ⟨fun hmem => ?_, hnodup⟩
      exact hlater g hmem (g, calls) (List.mem_append_right _ List.mem_cons_self) rfl
    · intro f hf x hx
      rcases List.mem_cons.1 hf with rfl | hf
      · exact hnew x hx
      · exact hlater f hf x (List.mem_append_left _ hx)

/-! ## Which cells have functions -/

theorem keeps_forM {τ ε α : Type} {R : τ → τ → Prop} [IsPreorder τ R] {f : α → Comp τ ε Unit} {l : List α}
    (h : ∀ a ∈ l, Comp.Keeps R (f a)) : Comp.Keeps R (l.forM f) := by
  induction l with
  | nil => exact Comp.Keeps.pure ()
  | cons a l ih =>
    exact (h a List.mem_cons_self).bind fun _ => ih fun b hb => h b (List.mem_cons_of_mem _ hb)

/-- All that is new in the vector can be reached from a type. -/
def Finds (cells : Cells) (top : Ty) (s s' : Collected) : Prop :=
  ∀ c ∈ s'.out, c ∈ s.out ∨ Reaches cells top c

instance (top : Ty) : IsPreorder Collected (Finds cells top) where
  refl _ _ hc := .inl hc
  trans _ _ _ h h' c hc := (h' c hc).elim (h c) .inr

theorem collectCells_finds {top : Ty} {d : ℕ} {ty : Ty} (hty : ∀ c ∈ ty.refs, Reaches cells top c) :
    Comp.Keeps (Finds cells top) (collectCells cells d ty) := by
  induction d generalizing ty with
  | zero => exact fun _ _ hc => .inl hc
  | succ d ih =>
    have hfields : ∀ fields : List FieldTy, (∀ c ∈ Ty.fieldsRefs fields, Reaches cells top c) →
        Comp.Keeps (Finds cells top) (fields.forM fun f => collectCells cells d f.ty) := by
      intro fields hrefs
      exact keeps_forM fun f hf => ih fun c hc => hrefs c (mem_fieldsRefs.2 ⟨f, hf, hc⟩)
    cases ty with
    | struct name fields => exact hfields fields hty
    | tuple fields => exact hfields fields hty
    | vec elem size align seq => exact ih hty
    | boxed inner size align => exact ih hty
    | opt discOff discSize noneDiscr someDiscr payloadOff size inner => exact ih hty
    | map key ks val vs newAt insert =>
      refine (ih fun c hc => hty c ?_).bind fun _ => ih fun c hc => hty c ?_
      · exact List.mem_append_left _ hc
      · exact List.mem_append_right _ hc
    | ref c =>
      intro s
      rw [collectCells, get_bind_run]
      split
      · exact fun _ hx => .inl hx
      · have hc : Reaches cells top c := hty c List.mem_cons_self
        have hpush : Finds cells top s ⟨insert c s.seen, s.out ++ [c]⟩ := by
          intro x hx
          rcases List.mem_append.1 hx with hx | hx
          · exact .inl hx
          · rw [List.mem_singleton.1 hx]
            exact .inr hc
        rw [modify_bind_run]
        cases hbody : cells c with
        | none => exact hpush
        | some body => exact trans_of _ hpush (ih (fun x hx => hc.through hbody hx) _)
    | _ => exact Comp.Keeps.pure ()

/-! ## The whole compilation -/

/-- The parts of a compilation that succeeds. -/
def Compiles (m : JITModule σ) (cells : Cells) (d : ℕ) (ty : Ty) (recFns : List (RecCell × FuncId))
    (fid : FuncId) (j j' : Jit σ) : Prop :=
  ∃ out j₁ j₂ j₃, (collected cells d ty).run j = (.done out, j) ∧
    (declareNodes m out).run j = (.done recFns, j₁) ∧
    (defineNodes m cells recFns.reverse recFns).run j₁ = (.done (), j₂) ∧
    (declareNext m topName).run j₂ = (.done fid, j₃) ∧
    (defineOne m recFns.reverse fid ty).run j₃ = (.done (), j')

theorem compileParser_eq_done :
    (compileParser m cells d ty).run j = (.done fid, j') ↔
      ∃ recFns, Compiles m cells d ty recFns fid j j' := by
  constructor
  · intro h
    rw [compileParser] at h
    obtain ⟨out, j₀, hout, h⟩ := bind_eq_done h
    obtain ⟨recFns, j₁, hdeclare, h⟩ := bind_eq_done h
    obtain ⟨⟨⟩, j₂, hdefine, h⟩ := bind_eq_done h
    obtain ⟨fid, j₃, hnext, h⟩ := bind_eq_done h
    obtain ⟨⟨⟩, j₄, hone, h⟩ := bind_eq_done h
    cases h
    obtain ⟨rfl, -⟩ := collected_eq_done hout
    exact ⟨recFns, out, j₁, j₂, j₃, hout, hdeclare, hdefine, hnext, hone⟩
  · rintro ⟨recFns, out, j₁, j₂, j₃, hout, hdeclare, hdefine, hnext, hone⟩
    rw [compileParser, bind_done hout, bind_done hdeclare]
    dsimp only
    rw [bind_done hdefine, bind_done hnext, bind_done hone]
    rfl

theorem compileCode_eq_done {f : Parser} :
    (compileCode m cells d ty).run j = (.done f, j') ↔ Compiles m cells d ty f.recFns f.fid j j' ∧
      Emitter.compileModule cells f.recFns f.fid ty = .ok f.program ∧ f.ty = ty ∧ f.cells = cells := by
  constructor
  · intro h
    rw [compileCode] at h
    obtain ⟨out, j₀, hout, h⟩ := bind_eq_done h
    obtain ⟨recFns, j₁, hdeclare, h⟩ := bind_eq_done h
    obtain ⟨⟨⟩, j₂, hdefine, h⟩ := bind_eq_done h
    obtain ⟨fid, j₃, hnext, h⟩ := bind_eq_done h
    obtain ⟨⟨⟩, j₄, hone, hend⟩ := bind_eq_done h
    obtain ⟨rfl, -⟩ := collected_eq_done hout
    cases hcode : Emitter.compileModule cells recFns fid ty with
    | error e =>
      rw [hcode] at hend
      cases hend
    | ok P =>
      rw [hcode] at hend
      cases hend
      exact ⟨⟨out, j₁, j₂, j₃, hout, hdeclare, hdefine, hnext, hone⟩, hcode, rfl, rfl⟩
  · rintro ⟨⟨out, j₁, j₂, j₃, hout, hdeclare, hdefine, hnext, hone⟩, hcode, rfl, rfl⟩
    rw [compileCode, bind_done hout, bind_done hdeclare, bind_done hdefine, bind_done hnext,
      bind_done hone, hcode]
    rfl

/-- A compilation that succeeds has emitted code for all its functions. -/
theorem Compiles.code (h : Compiles m cells d ty recFns fid j j') :
    ∃ P, Emitter.compileModule cells recFns fid ty = .ok P := by
  obtain ⟨out, j₁, j₂, j₃, -, -, hdefine, -, hone⟩ := h
  obtain ⟨calls, hcalls, -⟩ := defineOne_eq_done hone
  exact Emitter.compileModule_total (defineNodes_calls hdefine) hcalls fid

/-- `compile_parser` succeeds just where it does with the code beside it. -/
theorem compileCode_iff : (compileParser m cells d ty).run j = (.done fid, j') ↔
    ∃ f, (compileCode m cells d ty).run j = (.done f, j') ∧ f.fid = fid := by
  constructor
  · intro h
    obtain ⟨recFns, h⟩ := compileParser_eq_done.1 h
    obtain ⟨P, hP⟩ := h.code
    exact ⟨⟨fid, P, ty, cells, recFns⟩, compileCode_eq_done.2 ⟨h, hP, rfl, rfl⟩, rfl⟩
  · rintro ⟨f, h, rfl⟩
    exact compileParser_eq_done.2 ⟨f.recFns, (compileCode_eq_done.1 h).1⟩

/-- The function of the type is defined last, so it is none of those of the cells. -/
theorem Compiles.ids (hm : m.DefinesOnce) (h : Compiles m cells d ty recFns fid j j') :
    (fid :: recFns.map Prod.snd).Nodup := by
  obtain ⟨out, j₁, j₂, j₃, -, -, hdefine, hnext, hone⟩ := h
  obtain ⟨defs, hdef, hfst, hnodup, -⟩ := defineNodes_new hm hdefine
  obtain ⟨calls, -, htop⟩ := defineOne_eq_done hone
  have hnew := (hm.define _ _ _ _ htop).1
  rw [declareNext_defined hm hnext, hdef] at hnew
  refine List.nodup_cons.2 ⟨fun hmem => ?_, hnodup⟩
  rw [← hfst] at hmem
  obtain ⟨x, hx, heq⟩ := List.mem_map.1 hmem
  exact hnew x (List.mem_append_right _ hx) heq

theorem Parser.emitted_of_run (hm : m.DefinesOnce) {f : Parser}
    (h : (compileCode m cells d ty).run j = (.done f, j')) : f.Emitted := by
  obtain ⟨hcompiles, hcode, rfl, rfl⟩ := compileCode_eq_done.1 h
  refine ⟨hcompiles.ids hm, hcode, fun c hc => ?_⟩
  obtain ⟨out, j₁, j₂, j₃, hout, hdeclare, -⟩ := hcompiles
  rw [declareNodes_fst hdeclare] at hc
  obtain ⟨-, s, hcollect, rfl⟩ := collected_eq_done hout
  have hfinds : Finds f.cells f.ty ⟨∅, []⟩ ((collectCells f.cells d f.ty).run ⟨∅, []⟩).2 :=
    collectCells_finds (fun c hc => .here hc) _
  rw [hcollect] at hfinds
  exact (hfinds c hc).resolve_left List.not_mem_nil

end Compile

end Bilbo
