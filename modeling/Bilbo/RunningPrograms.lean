import Bilbo.Linking
import Bilbo.Parsing
import Bilbo.RunningContainers

/-!
# Running a compiled program

The functions of a compiled type call each other where the type goes through a cell. With each call
the parser goes one cell deeper, and the code makes at least one step; so code that has only so many
steps left has only so many cells to go through, and the bound on the nesting of the parser can be
chosen to be enough for them.

In the end stands the whole function: called with a destination and the input, the code writes what
the parser writes, fails where the parser stops, and goes on where the parser comes to no end.
-/

namespace Bilbo

open Base Base.Cfg Comp

/-! ## Types -/

mutual

/-- How far `parse` goes into a type before it comes to a cell. -/
def Ty.depth : Ty → ℕ
  | .struct _ fields => Ty.fieldsDepth fields + 1
  | .tuple fields => Ty.fieldsDepth fields + 1
  | .vec elem _ _ _ => elem.depth + 1
  | .boxed inner _ _ => inner.depth + 1
  | .opt _ _ _ _ _ _ inner => inner.depth + 1
  | .map key _ val _ _ _ => max key.depth val.depth + 1
  | _ => 1

/-- How far it goes into the fields of a struct or tuple. -/
def Ty.fieldsDepth : List (FieldOf Ty) → ℕ
  | [] => 0
  | f :: fs => max (Ty.fieldDepth f) (Ty.fieldsDepth fs)

/-- How far it goes into a field. -/
def Ty.fieldDepth : FieldOf Ty → ℕ
  | ⟨_, _, ty⟩ => ty.depth

end

theorem Ty.fieldDepth_eq (f : FieldTy) : Ty.fieldDepth f = f.ty.depth := by
  cases f
  rw [Ty.fieldDepth]

theorem Ty.depth_le_fields {fields : List FieldTy} {f : FieldTy} (hf : f ∈ fields) :
    f.ty.depth ≤ Ty.fieldsDepth fields := by
  induction fields with
  | nil => exact absurd hf List.not_mem_nil
  | cons g fs ih =>
    rw [Ty.fieldsDepth, Ty.fieldDepth_eq]
    rcases List.mem_cons.1 hf with rfl | hf
    · exact Nat.le_max_left _ _
    · exact (ih hf).trans (Nat.le_max_right _ _)

theorem Ty.depth_pos (ty : Ty) : 0 < ty.depth := by
  cases ty <;> simp only [Ty.depth] <;> omega

/-- The types the emitted code is exact for, as long as no loop makes more than `n` rounds: the numbers
are words, no key has 2 GiB, and there is no map and no unknown part. -/
inductive Emittable (n : ℕ) : Ty → Prop
  | bool : Emittable n .bool
  | char : Emittable n .char
  | u (size : ℕ) : Emittable n (.u size)
  | i (size : ℕ) : Emittable n (.i size)
  | f32 : Emittable n .f32
  | f64 : Emittable n .f64
  | str (seq : SeqLayout) : Emittable n (.str seq)
  | strRef (ptrOff lenOff : ℕ) : Emittable n (.strRef ptrOff lenOff)
  | unit : Emittable n .unit
  | ref (cell : RecCell) : Emittable n (.ref cell)
  | struct (name : String) {fields : List FieldTy} (hoff : ∀ f ∈ fields, f.offset < 2 ^ 64)
      (hkeys : ∀ f ∈ fields, f.key.length < maxSize) (h : ∀ f ∈ fields, Emittable n f.ty) :
      Emittable n (.struct name fields)
  | tuple {fields : List FieldTy} (hoff : ∀ f ∈ fields, f.offset < 2 ^ 64)
      (h : ∀ f ∈ fields, Emittable n f.ty) : Emittable n (.tuple fields)
  | vec {elem : Ty} {elemSize elemAlign : ℕ} (seq : SeqLayout) (halign : elemAlign < 2 ^ 64)
      (hcount : Emitter.Countable n elemSize) (h : Emittable n elem) : Emittable n (.vec elem elemSize elemAlign seq)
  | boxed {inner : Ty} {size align : ℕ} (hsize : size < 2 ^ 64) (halign : align < 2 ^ 64)
      (h : Emittable n inner) : Emittable n (.boxed inner size align)
  | opt (discOff discSize noneDiscr : ℕ) (someDiscr : Option ℕ) {payloadOff : ℕ} (size : ℕ) {inner : Ty}
      (hoff : payloadOff < 2 ^ 64) (h : Emittable n inner) :
      Emittable n (.opt discOff discSize noneDiscr someDiscr payloadOff size inner)

namespace Emitter

open Clif

variable {env : Env} {inp : Input} {P : Program Op} {recs : List (RecCell × FuncId)} {n D : ℕ}

/-! ## Calls -/

/-- The program has the function of each cell: the code of what the cell holds. -/
def Linked (env : Env) (recs : List (RecCell × FuncId)) (P : Program Op) (n D : ℕ) : Prop :=
  ∀ cell fid, recs.lookup cell = some fid → ∃ body code, env.cells cell = some body ∧
    Emittable n body ∧ body.depth ≤ D ∧ compileOne recs body true = .ok code ∧ P fid = some code

section Call

variable {fl : FloatOps} {x : Ctx Datum Scratch} {code : Code Op} {b b' : Builder Op}
  {fr : Frame Datum Scratch} {s : State} {N : ℕ} {body : Ty} {isNode : Bool} {u : Unit}

/-- The end of the input, as a parameter or behind the input. -/
theorem entryEnd_ran (fl : FloatOps) (g : Process) {entry : Blk} {c k r : ℕ}
    (h : Wrote code (entryEnd entry isNode) b r b') (hP : P x.func = some code) (hc : Carries b fr (entry.param 1) (.text c))
    (hend : Carries b fr (entry.param 2) (if isNode then .text inp.stop else .nat k)) (hk : k < 2 ^ 64)
    (hstop : isNode = false → c + k = inp.stop) :
    ∃ fr', Went (system fl inp P) x g b fr b' fr' ∧ Carries b' fr' r (.text inp.stop) ∧
      fr'.loc = fr.loc ∧ b'.slots = b.slots := by
  cases isNode with
  | true =>
    obtain ⟨rfl, rfl, -⟩ := wrote_pure.1 h
    exact ⟨fr, .refl, hend, rfl, rfl⟩
  | false =>
    have hadd : Wrote code (define .iadd [entry.param 1, entry.param 2]) b r b' := h
    obtain ⟨fr', hwent, hr, hloc⟩ := op_ran fl inp g hadd hP (.cons hc (.cons hend .nil)) rfl
    obtain ⟨-, rfl, -⟩ := wrote_addInst hadd
    rw [toNat_ofNat hk, hstop rfl] at hr
    exact ⟨fr', hwent, hr, hloc, rfl⟩

/-- The code of a function, up to where the parser of its type starts: block 0 has the arguments, and
there is one scratch slot. -/
theorem entry_steps (fl : FloatOps) (g : Process) (fr : Frame Datum Scratch) {ws : List Datum} {a c k : ℕ}
    (h : Wrote code (emitOne recs body isNode) .empty u b) (hP : P x.func = some code)
    (hws : ws = [.heap a, .text c, if isNode then .text inp.stop else .nat k]) (hk : k < 2 ^ 64)
    (hstop : isNode = false → c + k = inp.stop) :
    ∃ (entry : Blk) (p : Pctx) (b₁ b₂ : Builder Op) (fr' : Frame Datum Scratch) (nc : ℕ),
      entry.label = 0 ∧ entry.Written code ∧
      (system fl inp P).Steps (x.start entry ws fr g) (x.point b₁ fr' g) ∧ p.Live inp b₁ fr' ∧
      Carries b₁ fr' (entry.param 0) (.heap a) ∧ Carries b₁ fr' (entry.param 1) (.text c) ∧
      Wrote code (parse recs p body (entry.param 0) (entry.param 1)) b₁ nc b₂ ∧
      Wrote code (return_ (if isNode then [nc] else [])) b₂ u b := by
  simp only [emitOne, wrote_bind] at h
  obtain ⟨entry, b₁, h₁, ⟨⟩, b₂, h₂, end_, b₃, h₃, slot, b₄, h₄, sc, b₅, h₅, nc, b₆, h₆, h₇⟩ := h
  obtain ⟨k₁, hparams, -, hle⟩ := h₁.new
  have hlabel : entry.label = 0 := by
    obtain ⟨rfl, -⟩ := wrote_createBlock.1 h₁
    rfl
  have hslots₂ : b₂.slots = [] := by
    obtain ⟨-, rfl, -⟩ := wrote_createBlock.1 h₁
    obtain ⟨rfl, -⟩ := wrote_switchToBlock h₂
    rfl
  have hle₂ := hle.trans h₂.values
  have hcarries : ∀ {i : ℕ} {w : Datum}, ws[i]? = some w →
      Carries b₂ (fr.bind entry.params ws) (entry.param i) w :=
    .param fr hparams hle₂ (by rw [hws]; rfl)
  have ha₂ := hcarries (i := 0) (w := .heap a) (by rw [hws]; rfl)
  have hc₂ := hcarries (i := 1) (w := .text c) (by rw [hws]; rfl)
  have hend₂ := hcarries (i := 2) (w := if isNode then .text inp.stop else .nat k) (by rw [hws]; rfl)
  obtain ⟨fr₃, w₃, hend₃, -, hslots₃⟩ := entryEnd_ran fl g h₃ hP hc₂ hend₂ hk hstop
  obtain ⟨rfl, hb₄⟩ := wrote_createStackSlot h₄
  have hpoint : x.point b₃ fr₃ g = x.point b₄ fr₃ g := by
    rw [hb₄]
    rfl
  have hl₄ : Later b₃ fr₃ b₄ fr₃ := (Later.refl b₃ fr₃).widen h₄.values
  obtain ⟨fr₅, w₅, hsc, -⟩ := op_ran (x := x) fl inp g h₅ hP (.nil : List.Forall₂ (Carries b₄ fr₃) [] []) rfl
  rw [hslots₃, hslots₂] at hsc
  have hl := w₃.later.trans (hl₄.trans w₅.later)
  refine ⟨entry, ⟨end_, sc⟩, b₅, b₆, fr₅, nc, hlabel, (wrote_switchToBlock h₂).2, ?_,
    ⟨hend₃.later (hl₄.trans w₅.later), hsc⟩, ha₂.later hl, hc₂.later hl, h₆, h₇⟩
  rw [h₂.start_eq]
  refine w₃.steps.trans ?_
  rw [hpoint]
  exact w₅.steps

/-- A call of the function of a cell follows the parser of what the cell holds, when the code of the
function does. -/
theorem call_emits {fid : FuncId} {p : Pctx} {f : ℕ → ℕ → M ℕ} {N : ℕ}
    (hcompile : compileOne recs body true = .ok code) (hfid : P fid = some code)
    (hbody : ∀ p, Emits fl inp P N p (parse recs p body) f) :
    Emits fl inp P (N + 1) p (fun dst cur => call fid [dst, cur, p.end_]) f := by
  intro x code' b b' fr s dst cur r a c h hP hp ha hc
  obtain ⟨b₀, hwrote⟩ := Build.finish_wrote hcompile
  obtain ⟨entry, p', b₁, b₂, fr₁, nc, hlabel, hwritten, hsteps, hp', ha', hc', hparse, hret⟩ :=
    entry_steps (x := x.callee fid b fr r) (k := 0) fl s.proc (semantics fl inp).frame hwrote hfid rfl
      (by decide) Bool.noConfusion
  have hcall : (system fl inp P).step (x.point b fr s.proc) = _ :=
    h.call_step hP hfid hwritten hlabel
  have hargs : [dst, cur, p.end_].map fr.vals = [.heap a, .text c, .text inp.stop] :=
    map_vals (.cons ha (.cons hc (.cons hp.end_ .nil)))
  rw [hargs] at hcall
  refine .step hcall (.after hsteps ((hbody p' hparse hfid hp' ha' hc').further ?_))
  rintro c' s' cfg ⟨fr', rfl, -, hnc⟩
  have hreturn : (system fl inp P).step ((x.callee fid b fr r).point b₂ fr' s'.proc) = _ :=
    h.return_step hret hfid
  rw [hnc.2] at hreturn
  obtain ⟨rfl, hvalues⟩ := h.call_value
  refine ⟨_, .single hreturn, _, rfl, (Later.refl b fr).set h.values (Nat.le_refl _) _, by omega, ?_⟩
  exact Frame.vals_set_self _ _ _

end Call

/-! ## Types -/

/-- A cell: the parser gives the call its own scratch slot. -/
theorem parseRef_emits {cell : RecCell} {d N : ℕ} {p : Pctx} (hl : Linked env recs P n D)
    (hbody : ∀ body, Emittable n body → body.depth ≤ D → ∀ p,
      Emits env.float inp P (N - 1) p (parse recs p body) (Bilbo.parse env inp n d body)) :
    Emits env.float inp P N p (parse recs p (.ref cell)) (Bilbo.parse env inp n (d + 1) (.ref cell)) := by
  intro x code b b' fr s dst cur r a c h hP hp ha hc
  rw [parse] at h
  cases hfid : recs.lookup cell with
  | none =>
    rw [hfid] at h
    exact absurd h not_wrote_panic
  | some fid =>
    rw [hfid] at h
    obtain ⟨body, code', hcell, hemit, hdepth, hcompile, hfun⟩ := hl cell fid hfid
    have hcall := call_emits (s := s) hcompile hfun (hbody body hemit hdepth) h hP hp ha hc
    rw [parse_ref hcell]
    refine (hcall.le (by omega)).bind ?_
    rintro c' s' cfg hcfg
    exact .done hcfg

/-- The fields of a struct or tuple, when each type among them is emitted well. -/
theorem withEmit_emits {fl : FloatOps} {ps : Ty → ℕ → ℕ → M ℕ} {p : Pctx} {fields : List FieldTy}
    {N : ℕ} (hoff : ∀ f ∈ fields, f.offset < 2 ^ 64)
    (h : ∀ f ∈ fields, Emits fl inp P N p (parse recs p f.ty) (ps f.ty)) :
    FieldsEmit fl inp P N p ps (withEmit recs p fields) := by
  intro y hy
  obtain ⟨hmem, hemit⟩ := mem_withEmit hy
  rw [hemit]
  exact ⟨h _ hmem, hoff _ hmem⟩

/-- The code of a type follows the parser of the type. The induction is on the nesting that the parser
is allowed; each cell on the way costs it the depth of what the cell holds, and the code a step. -/
theorem parse_emits (hl : Linked env recs P n D) (hfl : Doubles env.float) {d N : ℕ}
    {ty : Ty} (hty : Emittable n ty) (hN : N ≤ n) (hd : 0 < N → ty.depth + N * D ≤ d) (p : Pctx) :
    Emits env.float inp P N p (parse recs p ty) (Bilbo.parse env inp n d ty) := by
  induction d generalizing N ty p with
  | zero =>
    intro x code b b' fr s dst cur r a c h hP hp ha hc
    have hN₀ : N = 0 := by
      by_contra hne
      have hpos := ty.depth_pos
      have hle := hd (Nat.pos_of_ne_zero hne)
      omega
    subst hN₀
    exact trivial
  | succ d ih =>
    have hfields : ∀ {fields : List FieldTy}, (0 < N → Ty.fieldsDepth fields + 1 + N * D ≤ d + 1) →
        (∀ f ∈ fields, f.offset < 2 ^ 64) → (∀ f ∈ fields, Emittable n f.ty) →
        FieldsEmit env.float inp P N p (Bilbo.parse env inp n d) (withEmit recs p fields) := by
      intro fields hd hoff h
      refine withEmit_emits hoff fun f hf => ih (h f hf) hN (fun hpos => ?_) p
      have hdepth := Ty.depth_le_fields hf
      have hle := hd hpos
      omega
    cases hty with
    | bool => exact parseBool_emits
    | u size => exact intval_emits hN
    | i size => exact intval_emits hN
    | f32 => exact parseFloat_emits hfl
    | f64 => exact parseFloat_emits hfl
    | char => exact parseChar_emits
    | str seq => exact parseStr_emits hN
    | strRef ptrOff lenOff => exact parseStrRef_emits hN
    | unit => exact parseUnit_emits
    | ref cell =>
      refine parseRef_emits hl fun body hbody hdepth p => ih hbody (by omega) (fun hpos => ?_) p
      have hle : 1 + N * D ≤ d + 1 := hd (by omega)
      have hsucc : N * D = (N - 1) * D + D := by
        rw [← Nat.succ_mul, Nat.succ_eq_add_one, Nat.sub_add_cancel (by omega)]
      omega
    | @struct name fields hoff hkeys h =>
      have hemits : Emits env.float inp P N p (parseStruct p (withEmit recs p fields))
          (Bilbo.parseStruct inp n (Bilbo.parse env inp n d) ((withEmit recs p fields).map Prod.fst)) :=
        parseStruct_emits (hfields hd hoff h) (fun y hy => hkeys _ (mem_withEmit hy).1) hN
      rw [withEmit_fst] at hemits
      exact hemits
    | @tuple fields hoff h =>
      have hemits : Emits env.float inp P N p (parseTuple p (withEmit recs p fields))
          (Bilbo.parseTuple inp (Bilbo.parse env inp n d) ((withEmit recs p fields).map Prod.fst)) :=
        parseTuple_emits (hfields hd hoff h)
      rw [withEmit_fst] at hemits
      exact hemits
    | @vec elem elemSize elemAlign seq halign hcount h =>
      refine parseVec_emits (ih h hN (fun hpos => ?_) p) halign hN hcount
      have hle : elem.depth + 1 + N * D ≤ d + 1 := hd hpos
      omega
    | @boxed inner size align hsize halign h =>
      refine parseBoxed_emits (ih h hN (fun hpos => ?_) p) hsize halign
      have hle : inner.depth + 1 + N * D ≤ d + 1 := hd hpos
      omega
    | @opt discOff discSize noneDiscr someDiscr payloadOff size inner hoff h =>
      refine parseOpt_emits (ih h hN (fun hpos => ?_) p) hoff
      have hle : inner.depth + 1 + N * D ≤ d + 1 := hd hpos
      omega

/-! ## Modules -/

section Module

variable {recFns : List (RecCell × FuncId)} {fid : FuncId} {ty : Ty} {cells : Cells}

/-- How deep the types in some cells are. -/
def cellsDepth (cells : Cells) : List RecCell → ℕ
  | [] => 0
  | cell :: rest => max ((cells cell).elim 0 Ty.depth) (cellsDepth cells rest)

theorem depth_le_cells {body : Ty} {cell : RecCell} {out : List RecCell} (hmem : cell ∈ out)
    (hcell : cells cell = some body) : body.depth ≤ cellsDepth cells out := by
  induction out with
  | nil => exact absurd hmem List.not_mem_nil
  | cons c out ih =>
    rw [cellsDepth]
    rcases List.mem_cons.1 hmem with rfl | hmem
    · rw [hcell]
      exact Nat.le_max_left _ _
    · exact (ih hmem).trans (Nat.le_max_right _ _)

theorem linked_of_compile {ty : Ty} (hids : (fid :: recFns.map Prod.snd).Nodup)
    (hcells : ∀ cell ∈ recFns.map Prod.fst, ∀ body, env.cells cell = some body → Emittable n body)
    (h : compileModule env.cells recFns fid ty = .ok P) :
    Linked env recFns.reverse P n (cellsDepth env.cells (recFns.map Prod.fst)) := by
  intro cell f hlookup
  have hmem : (cell, f) ∈ recFns := by
    obtain ⟨l₁, l₂, heq, -⟩ := List.lookup_eq_some_iff.1 hlookup
    rw [← List.mem_reverse, heq]
    exact List.mem_append_right _ List.mem_cons_self
  obtain ⟨body, code, hcell, hcode, hP⟩ := (compileModule_spec hids h).2 cell f hmem
  have hin : cell ∈ recFns.map Prod.fst := List.mem_map_of_mem hmem
  exact ⟨body, code, hcell, hcells cell hin body hcell, depth_le_cells hin hcell, hcode, hP⟩

end Module

/-! ## The whole program -/

/-- The call `f(dst, ptr, len)` of a compiled function. -/
def boot (fl : FloatOps) (inp : Input) (P : Program Op) (fid : FuncId) (dst : ℕ) (g : Process) :
    Option (Config Datum Scratch Process) :=
  (activate (semantics fl inp) P fid 0 [.heap dst, .text 0, .nat inp.stop]).map fun a => ⟨[a], g⟩

section Program

variable {recFns : List (RecCell × FuncId)} {fid : FuncId} {ty : Ty}

theorem boot_follows (hl : Linked env recs P n D) (hfl : Doubles env.float) {d N : ℕ}
    (hty : Emittable n ty) {code : Code Op} (hcode : compileOne recs ty false = .ok code)
    (hP : P fid = some code) (hN : N ≤ n) (hd : ty.depth + N * D ≤ d) (dst : ℕ) (s : State) :
    ∃ c, boot env.float inp P fid dst s.proc = some c ∧
      (system env.float inp P).Follows N c ((runParser env inp n d ty dst).run s) fun _ s' c' =>
        c' = ⟨[], s'.proc⟩ := by
  obtain ⟨b, hwrote⟩ := Build.finish_wrote hcode
  have hstop : inp.stop < 2 ^ 64 := lt_of_le_of_lt inp.short (by decide)
  obtain ⟨entry, p, b₁, b₂, fr₁, nc, hlabel, hwritten, hsteps, hp, ha, hc, hparse, hret⟩ :=
    entry_steps (x := ⟨fid, 0, []⟩) (P := P) (a := dst) (c := 0) env.float s.proc
      (semantics env.float inp).frame hwrote hP rfl hstop fun _ => Nat.zero_add _
  obtain ⟨is, t, hblock⟩ := hwritten
  rw [hlabel] at hblock
  refine ⟨_, ?_, .after hsteps ?_⟩
  · rw [boot, activate, hP, Option.bind_some, enter, hblock, Ctx.start, hlabel]
    rfl
  · refine (parse_emits hl hfl hty hN (fun _ => hd) p hparse hP hp ha hc).bind ?_
    rintro c' s' cfg ⟨fr', rfl, -, -⟩
    exact .of_step (hret.return_last hP rfl) (.done rfl)

/-- The same for the functions of a module. -/
theorem module_follows (hfl : Doubles env.float) (hids : (fid :: recFns.map Prod.snd).Nodup)
    (hcells : ∀ cell ∈ recFns.map Prod.fst, ∀ body, env.cells cell = some body → Emittable n body)
    (hty : Emittable n ty) (hcompile : compileModule env.cells recFns fid ty = .ok P) (inp : Input) {d N : ℕ}
    (hN : N ≤ n) (hd : ty.depth + N * cellsDepth env.cells (recFns.map Prod.fst) ≤ d) (dst : ℕ) (s : State) :
    ∃ c, boot env.float inp P fid dst s.proc = some c ∧
      (system env.float inp P).Follows N c ((runParser env inp n d ty dst).run s) fun _ s' c' =>
        c' = ⟨[], s'.proc⟩ := by
  obtain ⟨⟨code, hcode, hP⟩, -⟩ := compileModule_spec hids hcompile
  exact boot_follows (linked_of_compile hids hcells hcompile) hfl hty hcode hP hN hd dst s

/-- The compiled program does what the parser does. Where the parser returns, the program ends with its
process; where the parser stops, the program gets to the load past the input or to the panic that is the
reason; where the parser uses up a bound, the program makes at least as many steps as the bound allows. -/
theorem compiled_follows (hfl : Doubles env.float) (hids : (fid :: recFns.map Prod.snd).Nodup)
    (hcells : ∀ cell ∈ recFns.map Prod.fst, ∀ body, env.cells cell = some body → Emittable n body)
    (hty : Emittable n ty) (hcompile : compileModule env.cells recFns fid ty = .ok P) (inp : Input) {d N : ℕ}
    (hN : N ≤ n) (hd : ty.depth + N * cellsDepth env.cells (recFns.map Prod.fst) ≤ d) (dst : ℕ) (s : State) :
    ∃ c, boot env.float inp P fid dst s.proc = some c ∧
      match (runParser env inp n d ty dst).run s with
      | (.done _, s') => (system env.float inp P).Steps c ⟨[], s'.proc⟩
      | (.stop e, _) => ∃ c', (system env.float inp P).Steps c c' ∧ Fault env.float inp P e c'
      | (.deep, _) => (system env.float inp P).Lasts N c
      | (.spent, _) => (system env.float inp P).Lasts N c := by
  obtain ⟨c, hboot, h⟩ := module_follows hfl hids hcells hty hcompile inp hN hd dst s
  refine ⟨c, hboot, ?_⟩
  match (runParser env inp n d ty dst).run s, h with
  | (.done _, s'), ⟨_, hrun, rfl⟩ => exact hrun
  | (.stop _, _), h => exact h
  | (.deep, _), h => exact h
  | (.spent, _), h => exact h

theorem nodeTy_emittable (n : ℕ) : Emittable n nodeTy := by
  have hopt : Emittable n (.opt 0 8 0 none 0 8 (.boxed (.ref 0) 16 8)) :=
    .opt 0 8 0 none 8 (by decide) (.boxed (by decide) (by decide) (.ref 0))
  refine .struct "Node" ?_ ?_ ?_
  · decide
  · decide
  · exact List.forall_mem_cons.2 ⟨.u 8, List.forall_mem_singleton.2 hopt⟩

theorem nodeEnv_cells {cell : RecCell} {body : Ty} (h : nodeEnv.cells cell = some body) : body = nodeTy := by
  unfold nodeEnv at h
  simp only [Option.ite_none_right_eq_some, Option.some.injEq] at h
  exact h.2.symm

theorem nodeTy_compiles : ∃ P, compileModule nodeEnv.cells [(0, 1)] 0 nodeTy = .ok P := by
  have hcalls : nodeCalls [(0, 1)].reverse nodeTy = .ok [1] := rfl
  refine compileModule_total (fun cell f hmem => ?_) hcalls 0
  obtain ⟨rfl, rfl⟩ := Prod.mk.inj (List.mem_singleton.1 hmem)
  exact ⟨nodeTy, [1], rfl, hcalls⟩

theorem doubles_bare : Doubles Env.bare.float := fun _ _ h => absurd h (Option.not_mem_none _)

theorem doubles_node : Doubles nodeEnv.float := doubles_bare

/-- The text of a node, as an input. -/
def nodeInput : Input := ⟨nodeText, fun _ => 0, by decide⟩

theorem nodeParser_done :
    ((runParser nodeEnv nodeInput 9 99 nodeTy 0).run (State.initial 16)).1 = .done () := by
  decide +kernel

theorem compiled_follows_node : ∃ P c, compileModule nodeEnv.cells [(0, 1)] 0 nodeTy = .ok P ∧
    boot nodeEnv.float nodeInput P 0 0 (State.initial 16).proc = some c ∧
    (system nodeEnv.float nodeInput P).Steps c
      ⟨[], ((runParser nodeEnv nodeInput 9 99 nodeTy 0).run (State.initial 16)).2.proc⟩ := by
  obtain ⟨P, hP⟩ := nodeTy_compiles
  obtain ⟨c, hboot, h⟩ := compiled_follows doubles_node (by decide)
    (fun _ _ _ h => nodeEnv_cells h ▸ nodeTy_emittable 9) (nodeTy_emittable 9) hP nodeInput
    (Nat.le_refl 9) (d := 99) (by decide) 0 (State.initial 16)
  have hdone := nodeParser_done
  revert hdone h
  rcases (runParser nodeEnv nodeInput 9 99 nodeTy 0).run (State.initial 16) with ⟨o, s'⟩
  rintro h rfl
  exact ⟨P, c, hP, hboot, h⟩

/-- Where the compiled program ends, the parser has ended. Once its bounds are large enough, it returns
with the process that is left, unless the program has come past a fault; then the parser stops there. -/
theorem compiled_halts (hfl : Doubles env.float) (hids : (fid :: recFns.map Prod.snd).Nodup)
    (hcells : ∀ cell ∈ recFns.map Prod.fst, ∀ body, env.cells cell = some body → ∀ n, Emittable n body)
    (hty : ∀ n, Emittable n ty) (hcompile : compileModule env.cells recFns fid ty = .ok P) (inp : Input)
    (dst : ℕ) (s : State) {c c' : Config Datum Scratch Process} (hboot : boot env.float inp P fid dst s.proc = some c)
    (hrun : (system env.float inp P).Steps c c') (hend : (system env.float inp P).step c' = none) :
    ∃ B, ∀ n ≥ B, ∀ d ≥ B,
      (∃ s', (runParser env inp n d ty dst).run s = (.done (), s') ∧ c' = ⟨[], s'.proc⟩) ∨
      ∃ e s' c₁, (runParser env inp n d ty dst).run s = (.stop e, s') ∧
        (system env.float inp P).Steps c c₁ ∧ Fault env.float inp P e c₁ := by
  obtain ⟨N, hN⟩ := hrun.length_of_stuck hend
  refine ⟨max N (ty.depth + N * cellsDepth env.cells (recFns.map Prod.fst)), fun n hn d hd => ?_⟩
  obtain ⟨c₀, hboot₀, h⟩ := module_follows (n := n) (d := d) (N := N) hfl hids
    (fun cell hin body hbody => hcells cell hin body hbody n) (hty n) hcompile inp (by omega) (by omega)
    dst s
  obtain rfl : c = c₀ := Option.some.inj (hboot.symm.trans hboot₀)
  have hstuck : ∀ (a : Unit) (s' : State) cfg, cfg = ⟨[], s'.proc⟩ →
      (system env.float inp P).step cfg = none := by
    rintro a s' cfg rfl
    rfl
  rcases h.halts hrun hend hN hstuck with ⟨⟨⟩, s', hdone, hc'⟩ | hfault
  · exact .inl ⟨s', hdone, hc'⟩
  · exact .inr hfault

theorem compiled_halts_node : ∃ (P : Program Op) (c c' : Config Datum Scratch Process),
    compileModule nodeEnv.cells [(0, 1)] 0 nodeTy = .ok P ∧
    boot nodeEnv.float nodeInput P 0 0 (State.initial 16).proc = some c ∧
    (system nodeEnv.float nodeInput P).Steps c c' ∧ ∃ B, ∀ n ≥ B, ∀ d ≥ B,
      (∃ s', (runParser nodeEnv nodeInput n d nodeTy 0).run (State.initial 16) = (.done (), s') ∧
        c' = ⟨[], s'.proc⟩) ∨
      ∃ e s' c₁, (runParser nodeEnv nodeInput n d nodeTy 0).run (State.initial 16) = (.stop e, s') ∧
        (system nodeEnv.float nodeInput P).Steps c c₁ ∧ Fault nodeEnv.float nodeInput P e c₁ := by
  have hcells : ∀ cell ∈ [((0 : RecCell), 1)].map Prod.fst, ∀ body, nodeEnv.cells cell = some body →
      ∀ n, Emittable n body := fun _ _ _ h => nodeEnv_cells h ▸ nodeTy_emittable
  obtain ⟨P, hP⟩ := nodeTy_compiles
  -- the run to the end: the loop over the members, the box and the call of the node's function
  have hfollows : ∃ c, boot nodeEnv.float nodeInput P 0 0 (State.initial 16).proc = some c ∧
      (system nodeEnv.float nodeInput P).Follows 9 c
        ((runParser nodeEnv nodeInput 9 99 nodeTy 0).run (State.initial 16))
        fun _ s' c' => c' = ⟨[], s'.proc⟩ :=
    module_follows doubles_node (by decide) (fun cell h body hbody => hcells cell h body hbody 9)
      (nodeTy_emittable 9) hP nodeInput (Nat.le_refl 9) (by decide) 0 (State.initial 16)
  obtain ⟨c, hboot, h⟩ := hfollows
  have hdone := nodeParser_done
  revert hdone h
  rcases (runParser nodeEnv nodeInput 9 99 nodeTy 0).run (State.initial 16) with ⟨o, s'⟩
  rintro h rfl
  obtain ⟨c', hrun, rfl⟩ := h
  exact ⟨P, c, _, hP, hboot, hrun, compiled_halts doubles_node (by decide) hcells nodeTy_emittable hP
    nodeInput 0 (State.initial 16) hboot hrun rfl⟩

/-- The parser, on a text that spells a value of its type. -/
theorem runParser_spells {sz : RecCell → Option ℕ} (hok : CellsOk env sz) (htyok : Ty.Ok env sz ty) {v : Val}
    {t : Bytes} (hspells : Spells env.cells Quoted ty v t) (hlen : t.length < 2 ^ 31) (inp : Input)
    (hinp : inp.text = t) (dst : ℕ) (s : State) (hroom : Room s dst (ty.span sz)) :
    ∃ s', (∃ B, ∀ n ≥ B, ∀ d ≥ B, (runParser env inp n d ty dst).run s = (.done (), s')) ∧
      Holds env.cells sz s' s.brk s'.brk ty v dst ∧ Writes s s' dst (ty.span sz) := by
  have hrest : inp.rest 0 = t ++ [] := by
    rw [Input.rest, hinp, List.append_nil]
    rfl
  obtain ⟨s', ⟨B, hB⟩, hputs⟩ := (binds_spells hok hspells htyok hlen).parsesTo hrest trivial hroom
  refine ⟨s', ⟨B, fun n hn d hd => ?_⟩, hputs.holds, hputs.writes⟩
  rw [runParser, bind_done (hB n hn d hd)]
  rfl

/-- A program that is compiled from a type with a well-formed layout, run on a text that spells a value
of the type, ends; its process holds the value at the destination, and of the memory that was in use
before nothing else has changed. -/
theorem compiled_binds {sz : RecCell → Option ℕ} (hok : CellsOk env sz) (hfl : Doubles env.float)
    (hids : (fid :: recFns.map Prod.snd).Nodup)
    (hcells : ∀ cell ∈ recFns.map Prod.fst, ∀ body, env.cells cell = some body → ∀ n, Emittable n body)
    (hty : ∀ n, Emittable n ty) (hcompile : compileModule env.cells recFns fid ty = .ok P)
    (htyok : Ty.Ok env sz ty) {v : Val} {t : Bytes} (hspells : Spells env.cells Quoted ty v t)
    (hlen : t.length < 2 ^ 31) (inp : Input) (hinp : inp.text = t) (dst : ℕ) (s : State)
    (hroom : Room s dst (ty.span sz)) :
    ∃ c s', boot env.float inp P fid dst s.proc = some c ∧
      (system env.float inp P).Steps c ⟨[], s'.proc⟩ ∧ Holds env.cells sz s' s.brk s'.brk ty v dst ∧
      Writes s s' dst (ty.span sz) := by
  obtain ⟨s', ⟨B, hB⟩, hholds, hwrites⟩ := runParser_spells hok htyok hspells hlen inp hinp dst s hroom
  obtain ⟨c, hboot, h⟩ := module_follows (n := B) (d := max B ty.depth) (N := 0) hfl hids
    (fun cell hin body hbody => hcells cell hin body hbody B) (hty B) hcompile inp (Nat.zero_le B)
    (by omega) dst s
  rw [hB B (Nat.le_refl B) _ (Nat.le_max_left _ _)] at h
  obtain ⟨_, hrun, rfl⟩ := h
  exact ⟨c, s', hboot, hrun, hholds, hwrites⟩

theorem compiled_binds_node : ∃ P c s', compileModule nodeEnv.cells [(0, 1)] 0 nodeTy = .ok P ∧
    boot nodeEnv.float nodeInput P 0 0 (State.initial 16).proc = some c ∧
    (system nodeEnv.float nodeInput P).Steps c ⟨[], s'.proc⟩ ∧
    Holds nodeEnv.cells nodeSizes s' (State.initial 16).brk s'.brk nodeTy
      (.record [.int 1, .some (.boxed (.record [.int 2, .none]))]) 0 := by
  obtain ⟨P, hP⟩ := nodeTy_compiles
  obtain ⟨c, s', hboot, hrun, hholds, -⟩ := compiled_binds nodeEnv_ok doubles_node (by decide)
    (fun _ _ _ h => nodeEnv_cells h ▸ nodeTy_emittable) nodeTy_emittable hP nodeTy_ok spells_node (by decide)
    nodeInput rfl 0 (State.initial 16) (.inr (by decide))
  exact ⟨P, c, s', hP, hboot, hrun, hholds⟩

end Program

end Emitter

end Bilbo
