import Bilbo.Emitting

/-!
# The functions of a module

`compile_parser` records in the module, for each function that it defines, the functions which this one
calls. The code that is emitted along the way is in `compileModule`. Neither the order of the emission
nor the type matters for what is shown here: a function has the code of its cell, the code calls just
the functions that were recorded, and every jump in it goes to a block that is there.
-/

namespace Bilbo

open Base Base.Cfg Comp

namespace Emitter

open Clif

/-! ## One function -/

theorem compileOne_ok {recs : List (RecCell × FuncId)} {body : Ty} {calls : List FuncId}
    (h : nodeCalls recs body = .ok calls) (isNode : Bool) : ∃ code,
      compileOne recs body isNode = .ok code ∧ (∀ f, code.Calls f ↔ f ∈ calls) ∧ code.Closed := by
  have hfinishes := Build.finishes (emitOne_yields recs body isNode)
  rw [h] at hfinishes
  exact hfinishes

/-- For every type the emitter does without the builder what it is asked for: a function is finished
unless the type has an unknown part or a cell without a function, and then the panic is the one of the
first of them. A finished function calls just the functions of the cells that the type refers to, and
each of its jumps goes to one of its blocks, with an argument for each parameter. -/
theorem compileOne_spec (recs : List (RecCell × FuncId)) (body : Ty) (isNode : Bool) :
    match nodeCalls recs body with
    | .ok calls => ∃ code, compileOne recs body isNode = .ok code ∧
        (∀ f, code.Calls f ↔ f ∈ calls) ∧ code.Closed
    | .error e => compileOne recs body isNode = .error e :=
  Build.finishes (emitOne_yields recs body isNode)

/-! ## All functions -/

section

variable {P : Program Op} {recs recFns : List (RecCell × FuncId)} {fid : FuncId} {ty : Ty} {cells : Cells}

theorem compileNodes_cons {cell : RecCell} {f : FuncId} {codes : List (FuncId × Code Op)}
    (h : compileNodes cells recs ((cell, f) :: recFns) = .ok codes) :
    ∃ body code codes', cells cell = some body ∧ compileOne recs body true = .ok code ∧
      compileNodes cells recs recFns = .ok codes' ∧ codes = (f, code) :: codes' := by
  rw [compileNodes] at h
  cases hcell : cells cell with
  | none =>
    rw [hcell] at h
    cases h
  | some body =>
    rw [hcell] at h
    cases hcode : compileOne recs body true with
    | error e =>
      simp only [hcode] at h
      cases h
    | ok code =>
      cases hcodes : compileNodes cells recs recFns with
      | error e =>
        simp only [hcode, hcodes] at h
        cases h
      | ok codes' =>
        simp only [hcode, hcodes] at h
        cases h
        exact ⟨body, code, codes', rfl, hcode, rfl, rfl⟩

theorem compileNodes_fst {codes : List (FuncId × Code Op)}
    (h : compileNodes cells recs recFns = .ok codes) : codes.map Prod.fst = recFns.map Prod.snd := by
  induction recFns generalizing codes with
  | nil =>
    cases h
    rfl
  | cons y recFns ih =>
    obtain ⟨body, code, codes', -, -, hcodes, rfl⟩ := compileNodes_cons h
    rw [List.map_cons, List.map_cons, ih hcodes]

theorem mem_compileNodes {codes : List (FuncId × Code Op)} {cell : RecCell} {f : FuncId}
    (h : compileNodes cells recs recFns = .ok codes) (hmem : (cell, f) ∈ recFns) :
    ∃ body code, cells cell = some body ∧ compileOne recs body true = .ok code ∧ (f, code) ∈ codes := by
  induction recFns generalizing codes with
  | nil => exact absurd hmem List.not_mem_nil
  | cons y recFns ih =>
    obtain ⟨body, code, codes', hcell, hcode, hcodes, rfl⟩ := compileNodes_cons h
    rcases List.mem_cons.1 hmem with rfl | hmem
    · exact ⟨body, code, hcell, hcode, List.mem_cons_self⟩
    · obtain ⟨body', code', hcell', hcode', hin⟩ := ih hcodes hmem
      exact ⟨body', code', hcell', hcode', List.mem_cons_of_mem _ hin⟩

theorem compileModule_ok (h : compileModule cells recFns fid ty = .ok P) :
    ∃ codes code, compileNodes cells recFns.reverse recFns = .ok codes ∧
      compileOne recFns.reverse ty false = .ok code ∧ P = fun f => ((fid, code) :: codes).lookup f := by
  rw [compileModule] at h
  cases hcodes : compileNodes cells recFns.reverse recFns with
  | error e =>
    simp only [hcodes] at h
    cases h
  | ok codes =>
    cases hcode : compileOne recFns.reverse ty false with
    | error e =>
      simp only [hcodes, hcode] at h
      cases h
    | ok code =>
      simp only [hcodes, hcode] at h
      cases h
      exact ⟨codes, code, rfl, rfl, rfl⟩

theorem compileModule_spec (hids : (fid :: recFns.map Prod.snd).Nodup)
    (h : compileModule cells recFns fid ty = .ok P) :
    (∃ code, compileOne recFns.reverse ty false = .ok code ∧ P fid = some code) ∧
      ∀ cell f, (cell, f) ∈ recFns → ∃ body code, cells cell = some body ∧
        compileOne recFns.reverse body true = .ok code ∧ P f = some code := by
  obtain ⟨codes, code, hcodes, hcode, rfl⟩ := compileModule_ok h
  have hnodup : (((fid, code) :: codes).map Prod.fst).Nodup := by
    rw [List.map_cons, compileNodes_fst hcodes]
    exact hids
  refine ⟨⟨code, hcode, List.lookup_cons_self⟩, fun cell f hmem => ?_⟩
  obtain ⟨body, code', hcell, hcode', hin⟩ := mem_compileNodes hcodes hmem
  exact ⟨body, code', hcell, hcode', (lookup_iff_mem hnodup).2 (List.mem_cons_of_mem _ hin)⟩

theorem compileNodes_total (h : ∀ cell f, (cell, f) ∈ recFns →
    ∃ body calls, cells cell = some body ∧ nodeCalls recs body = .ok calls) :
    ∃ codes, compileNodes cells recs recFns = .ok codes := by
  induction recFns with
  | nil => exact ⟨[], rfl⟩
  | cons y recFns ih =>
    obtain ⟨cell, f⟩ := y
    obtain ⟨body, calls, hcell, hcalls⟩ := h cell f List.mem_cons_self
    obtain ⟨code, hcode, -⟩ := compileOne_ok hcalls true
    obtain ⟨codes, hcodes⟩ := ih fun c g hmem => h c g (List.mem_cons_of_mem _ hmem)
    refine ⟨(f, code) :: codes, ?_⟩
    simp only [compileNodes, hcell, hcode, hcodes]
    rfl

theorem compileModule_total (h : ∀ cell f, (cell, f) ∈ recFns →
    ∃ body calls, cells cell = some body ∧ nodeCalls recFns.reverse body = .ok calls)
    {calls : List FuncId} (hty : nodeCalls recFns.reverse ty = .ok calls) (fid : FuncId) :
    ∃ P, compileModule cells recFns fid ty = .ok P := by
  obtain ⟨codes, hcodes⟩ := compileNodes_total h
  obtain ⟨code, hcode, -⟩ := compileOne_ok hty false
  refine ⟨fun f => ((fid, code) :: codes).lookup f, ?_⟩
  simp only [compileModule, hcodes, hcode]
  rfl

end

/-! ## What was recorded -/

/-- The code of a function calls the functions that are recorded for it. -/
def Realizes (P : Program Op) (x : FuncId × List FuncId) : Prop :=
  ∃ code, P x.1 = some code ∧ (∀ f, code.Calls f ↔ f ∈ x.2) ∧ code.Closed

section

variable {σ : Type} {m : JITModule σ} {cells : Cells} {ty : Ty} {out : List RecCell}
  {fn : RecCell → FuncId} {top : FuncId} {j j' : Jit σ}

/-- What `compile_parser` has recorded is what the code is. -/
theorem realizes_of_compiled (h : Compiled m cells ty out fn top j j')
    (hbodies : ∀ c ∈ out, ∃ body, cells c = some body ∧ body.known = true ∧ ∀ c' ∈ body.refs, c' ∈ out)
    (hknown : ty.known = true) (hty : ∀ c ∈ ty.refs, c ∈ out) :
    ∃ P, compileModule cells (out.map fun c => (c, fn c)) top ty = .ok P ∧
      ∀ x ∈ nodeDefs cells fn out ++ [(top, ty.refs.map fn)], Realizes P x := by
  have hcalls : ∀ body : Ty, body.known = true → (∀ c ∈ body.refs, c ∈ out) →
      nodeCalls (out.map fun c => (c, fn c)).reverse body = .ok (body.refs.map fn) := by
    intro body hknown hrefs
    rw [nodeCalls_eq fun c hc => lookup_reverse_map (hrefs c hc), emitted, if_pos hknown]
  have hnodes : ∀ cell f, (cell, f) ∈ out.map (fun c => (c, fn c)) → ∃ body calls,
      cells cell = some body ∧ nodeCalls (out.map fun c => (c, fn c)).reverse body = .ok calls := by
    intro cell f hmem
    obtain ⟨c, hc, heq⟩ := List.mem_map.1 hmem
    obtain ⟨rfl, rfl⟩ := Prod.mk.inj heq
    obtain ⟨body, hbody, hknown, hrefs⟩ := hbodies _ hc
    exact ⟨body, _, hbody, hcalls body hknown hrefs⟩
  obtain ⟨P, hP⟩ := compileModule_total hnodes (hcalls ty hknown hty) top
  refine ⟨P, hP, fun x hx => ?_⟩
  have hids : (top :: (out.map fun c => (c, fn c)).map Prod.snd).Nodup := by
    have hdistinct := h.distinct
    rw [List.map_map]
    exact (List.perm_append_singleton top _).nodup_iff.1 hdistinct
  obtain ⟨⟨code, hcode, htop⟩, hnodes⟩ := compileModule_spec hids hP
  rcases List.mem_append.1 hx with hx | hx
  · obtain ⟨c, hc, rfl⟩ := List.mem_map.1 hx
    obtain ⟨body, code', hbody, hcode', hf⟩ := hnodes c (fn c) (List.mem_map_of_mem hc)
    obtain ⟨body', hbody', hknown', hrefs⟩ := hbodies c hc
    obtain rfl : body = body' := Option.some.inj (hbody.symm.trans hbody')
    obtain ⟨code'', hcode'', hspec⟩ := compileOne_ok (hcalls body hknown' hrefs) true
    obtain rfl : code' = code'' := Except.ok.inj (hcode'.symm.trans hcode'')
    refine ⟨code', hf, ?_⟩
    rw [bodyRefs, hbody]
    exact hspec
  · rw [List.mem_singleton] at hx
    subst hx
    obtain ⟨code'', hcode'', hspec⟩ := compileOne_ok (hcalls ty hknown hty) false
    obtain rfl : code = code'' := Except.ok.inj (hcode.symm.trans hcode'')
    exact ⟨code, htop, hspec⟩

/-- `compile_parser`, on a type all of whose parts are known: the module it leaves behind records for each
function that was defined the calls that the code of the function makes. -/
theorem compileParser_realizes (m : JITModule σ) (hm : m.Documented) (cells : Cells)
    (V : Finset RecCell) (hV : Enclosed cells V) (ty : Ty) (hty : ∀ c ∈ ty.refs, c ∈ V)
    (hknown : ty.known = true)
    (hcells : ∀ c body, Reaches cells ty c → cells c = some body → body.known = true)
    (j : Jit σ) (hj : j.Ready m) (hseq : j.seq + V.card + 1 < 2 ^ 32) :
    ∃ (out : List RecCell) (fn : RecCell → FuncId) (top : FuncId) (j' : Jit σ) (P : Program Op),
      Runs (fun _ d => compileParser m cells d ty) j top j' ∧
      compileModule cells (out.map fun c => (c, fn c)) top ty = .ok P ∧
      (top :: out.map fn).Nodup ∧ (∀ c, c ∈ out ↔ Reaches cells ty c) ∧
      ∃ defs, m.defined j'.module = m.defined j.module ++ defs ∧
        defs.map Prod.fst = out.map fn ++ [top] ∧ ∀ x ∈ defs, Realizes P x := by
  obtain ⟨out, hout, hmem, hrun⟩ := collectCells_complete hV hty
  have hlen : out.length ≤ V.card := by
    rw [← List.toFinset_card_of_nodup hout]
    apply Finset.card_le_card
    intro c hc
    exact hV.of_reaches hty ((hmem c).1 (List.mem_toFinset.1 hc))
  have hroots : ∀ c ∈ ty.refs, c ∈ out := fun c hc => (hmem c).2 (.here hc)
  have hbodies : ∀ c ∈ out, ∃ body, cells c = some body ∧ body.known = true ∧
      ∀ c' ∈ body.refs, c' ∈ out := by
    intro c hc
    have hreach := (hmem c).1 hc
    obtain ⟨body, hbody, -⟩ := hV c (hV.of_reaches hty hreach)
    exact ⟨body, hbody, hcells c body hreach hbody,
      fun c' hc' => (hmem c').2 (hreach.through hbody hc')⟩
  obtain ⟨fn, top, j', hcompiled, hcomp⟩ := compile_known hm hj hout (by omega)
    (fun c hc => (hbodies c hc).imp fun _ h => ⟨h.1, h.2.2⟩) hroots hknown
    fun c hc body hbody => hcells c body ((hmem c).1 hc) hbody
  obtain ⟨P, hP, hrealizes⟩ := realizes_of_compiled hcompiled hbodies hknown hroots
  obtain ⟨N, hN⟩ := collected_runs hrun j
  refine ⟨out, fn, top, j', P, ⟨N, fun n hn d hd => hcomp d (hN n hn d hd)⟩, hP, ?_, hmem,
    nodeDefs cells fn out ++ [(top, ty.refs.map fn)], ?_, ?_, hrealizes⟩
  · exact (List.perm_append_singleton top _).nodup_iff.1 hcompiled.distinct
  · rw [hcompiled.defined, List.append_assoc]
  · rw [List.map_append, nodeDefs, List.map_map]
    rfl

theorem compileParser_realizes_nodeCells :
    ∃ (out : List RecCell) (fn : RecCell → FuncId) (top : FuncId)
      (j' : Jit (List String × List (FuncId × List FuncId))) (P : Program Op),
      Runs (fun _ d => compileParser listModule nodeCells d (.ref 0)) ⟨(shimNames, []), 0⟩ top j' ∧
      compileModule nodeCells (out.map fun c => (c, fn c)) top (.ref 0) = .ok P ∧
      (top :: out.map fn).Nodup ∧ (∀ c, c ∈ out ↔ Reaches nodeCells (.ref 0) c) ∧
      ∃ defs, listModule.defined j'.module = listModule.defined (shimNames, []) ++ defs ∧
        defs.map Prod.fst = out.map fn ++ [top] ∧ ∀ x ∈ defs, Realizes P x := by
  refine compileParser_realizes listModule listModule_documented nodeCells {0, 1} ?_ (.ref 0) (by decide) rfl
    ?_ ⟨(shimNames, []), 0⟩ listModule_ready (by decide)
  · intro c hc
    rw [Finset.mem_insert, Finset.mem_singleton] at hc
    rcases hc with rfl | rfl
    · exact ⟨_, rfl, by decide⟩
    · exact ⟨_, rfl, by decide⟩
  · intro c body _ hbody
    match c, hbody with
    | 0, rfl => rfl
    | 1, rfl => rfl

end

end Emitter

end Bilbo
