import Bilbo.Dispatch
import Bilbo.Halting
import Bilbo.Interp
import Bilbo.Progress
import Mathlib.Order.Filter.AtTopBot.Finite
import Mathlib.Order.WellFounded

/-!
# Recursion of the binders

A comment in `interp.rs` says that recursion terminates because the JSON data does. `Boxed`,
`Ref` and the payload of an option take nothing from the data: their code calls on for the
same value. `Idle` collects these calls, `Blind` those that the emitted code makes
without looking at the input at all, which includes the first field of a tuple. The binders
end on all data exactly when no cell starts an endless chain of either kind.
-/

namespace Bilbo

open Base Comp Filter

/-! ## Chains of calls -/

/-- The relation can be followed from `a` forever. -/
def Endless {α : Type} (r : α → α → Prop) (a : α) : Prop :=
  ∃ chain : ℕ → α, chain 0 = a ∧ ∀ i, r (chain i) (chain (i + 1))

theorem acc_of_not_endless {α : Type} {r : α → α → Prop} {a : α} (h : ¬ Endless r a) :
    Acc (fun b a => r a b) a := by
  by_contra hacc
  exact h (not_acc_iff_exists_descending_chain.1 hacc)

/-- The allocation of a box succeeds. -/
def BoxFits (size align : ℕ) : Prop := size = 0 ∨ layoutOk size (max align 1) = true

/-- Binding a value that is not `null` to the first type calls on for the second, on the same
value. -/
inductive Idle (env : Env) : Ty → Ty → Prop
  | boxed {inner : Ty} {size align : ℕ} : BoxFits size align →
      Idle env (.boxed inner size align) inner
  | opt {discOff discSize noneDiscr : ℕ} {someDiscr : Option ℕ} {payloadOff size : ℕ}
      {inner : Ty} :
      Idle env (.opt discOff discSize noneDiscr someDiscr payloadOff size inner) inner
  | ref {cell : RecCell} {body : Ty} : env.cells cell = some body → Idle env (.ref cell) body

/-- The code emitted for the first type calls on for the second before it has loaded a byte
that may lie behind the input. -/
inductive Blind (env : Env) : Ty → Ty → Prop
  | boxed {inner : Ty} {size align : ℕ} : BoxFits size align →
      Blind env (.boxed inner size align) inner
  | tuple {f : FieldTy} {fs : List FieldTy} : Blind env (.tuple (f :: fs)) f.ty
  | ref {cell : RecCell} {body : Ty} : env.cells cell = some body → Blind env (.ref cell) body

/-- No cell that can be reached from the type starts an endless chain of calls. -/
def Grounded (env : Env) (ty : Ty) : Prop :=
  ∀ c, Reaches env.cells ty c → ¬ Endless (Idle env) (.ref c) ∧ ¬ Endless (Blind env) (.ref c)

/-- The types that the code of a type can call on. -/
def Ty.callees (env : Env) : Ty → List Ty
  | .ref cell => (env.cells cell).toList
  | ty => ty.kids

variable {env : Env}

theorem Idle.mem_callees {ty p : Ty} (h : Idle env ty p) : p ∈ ty.callees env := by
  cases h with
  | boxed _ => exact List.mem_singleton_self _
  | opt => exact List.mem_singleton_self _
  | ref hc => exact Option.mem_toList.2 hc

theorem Blind.mem_callees {ty p : Ty} (h : Blind env ty p) : p ∈ ty.callees env := by
  cases h with
  | boxed _ => exact List.mem_singleton_self _
  | tuple => exact List.mem_cons_self
  | ref hc => exact Option.mem_toList.2 hc

theorem kids_subset_callees (ty : Ty) : ty.kids ⊆ ty.callees env := by
  cases ty with
  | ref cell => exact List.nil_subset _
  | _ => exact List.Subset.refl _

theorem Reaches.of_callee {ty p : Ty} (hp : p ∈ ty.callees env) {c : RecCell}
    (hc : Reaches env.cells p c) : Reaches env.cells ty c := by
  have hrefs : ∀ c ∈ p.refs, Reaches env.cells ty c := by
    intro c hc
    cases ty with
    | ref cell =>
      exact .through (.here List.mem_cons_self) (Option.mem_toList.1 hp) hc
    | _ => exact .here (refs_kids hp hc)
  induction hc with
  | here hc => exact hrefs _ hc
  | through _ hb hc' ih => exact ih.through hb hc'

theorem Reaches.trans {cells : Cells} {ty : Ty} {c c' : RecCell} (h : Reaches cells ty c)
    (h' : Reaches cells (.ref c) c') : Reaches cells ty c' := by
  induction h' with
  | here hc =>
    obtain rfl := List.mem_singleton.1 hc
    exact h
  | through _ hb hc ih => exact ih.through hb hc

theorem Grounded.callee {ty p : Ty} (h : Grounded env ty) (hp : p ∈ ty.callees env) :
    Grounded env p := fun c hc => h c (hc.of_callee hp)

/-- Induction over a type with the hypothesis for the types directly below it. -/
@[elab_as_elim] theorem kids_induction {P : Ty → Prop} (step : ∀ ty : Ty, (∀ k ∈ ty.kids, P k) → P ty)
    (ty : Ty) : P ty := by
  induction ty using Ty.induct with
  | struct name fields ih => exact step _ (List.forall_mem_map.2 ih)
  | tuple fields ih => exact step _ (List.forall_mem_map.2 ih)
  | vec elem esz eal seq ih => exact step _ (List.forall_mem_singleton.2 ih)
  | boxed inner size align ih => exact step _ (List.forall_mem_singleton.2 ih)
  | opt d ds nd sd po size inner ih => exact step _ (List.forall_mem_singleton.2 ih)
  | map key ks val vs na ins ihk ihv =>
    exact step _ (List.forall_mem_cons.2 ⟨ihk, List.forall_mem_singleton.2 ihv⟩)
  | _ => exact step _ fun k hk => absurd hk List.not_mem_nil

/-- A chain of calls comes to a cell, since types are finite. -/
theorem acc_of_cells {r : Ty → Ty → Prop} (hr : ∀ ty p, r ty p → p ∈ ty.callees env) (ty : Ty)
    (hcell : ∀ c, Reaches env.cells ty c → Acc (fun b a => r a b) (.ref c)) :
    Acc (fun b a => r a b) ty := by
  induction ty using kids_induction with
  | step ty ih =>
    cases ty with
    | ref c => exact hcell c (.here List.mem_cons_self)
    | _ =>
      refine Acc.intro _ fun p hp => ?_
      have hmem := hr _ _ hp
      exact ih p hmem fun c hc => hcell c (hc.of_callee hmem)

theorem Grounded.acc_idle {ty : Ty} (h : Grounded env ty) :
    Acc (fun b a => Idle env a b) ty :=
  acc_of_cells (fun _ _ => Idle.mem_callees) ty fun c hc => acc_of_not_endless (h c hc).1

theorem Grounded.acc_blind {ty : Ty} (h : Grounded env ty) :
    Acc (fun b a => Blind env a b) ty :=
  acc_of_cells (fun _ _ => Blind.mem_callees) ty fun c hc => acc_of_not_endless (h c hc).2

/-! ## Runs that stay within the bound -/

/-- Runs do not use up the bound on nested calls. -/
def callsLogic : Logic State where
  rel _ _ := True
  refl _ := trivial
  trans _ _ := trivial
  guard _ := True
  anti _ _ := trivial
  bound := .calls

/-- From no state, `x` uses up the bound on nested calls. -/
def Shallow {α : Type} (x : M α) : Prop := Triple callsLogic Any x fun _ _ => True

section

variable {α β : Type} {x : M α}

theorem Shallow.not_deep (h : Shallow x) (s : State) : (x.run s).1 ≠ .deep := by
  intro hdeep
  refine (h s trivial).2.2 trivial ?_
  rw [hdeep]
  trivial

theorem Quiet.shallow (h : Quiet x) : Shallow x := h.triple fun _ _ _ => trivial

/-- What a shallow run returns may be known from its progress. -/
theorem Shallow.and {env : Env} {inp : Input} {n : ℕ} {V : α → State → Prop} (h : Shallow x)
    (hV : Triple (progressLogic env inp n) Any x V) : Triple callsLogic Any x V :=
  (Triple.and h hV).post fun _ _ hv => hv.2

theorem Shallow.bind {f : α → M β} (hx : Shallow x) (hf : ∀ a, Shallow (f a)) :
    Shallow (x >>= f) := Triple.bind hx hf

theorem Shallow.forM {f : β → M Unit} {l : List β} (h : ∀ b ∈ l, Shallow (f b)) :
    Shallow (l.forM f) := by
  induction l with
  | nil => exact (Quiet.pure ()).shallow
  | cons b l ih =>
    exact (h b List.mem_cons_self).bind fun _ => ih fun b' hb' => h b' (List.mem_cons_of_mem b hb')

theorem Shallow.loop {body : β → M (β ⊕ α)} (h : ∀ b, Shallow (body b)) (n : ℕ) (b : β) :
    Shallow (loop body n b) := by
  refine Triple.loop_calls rfl (fun _ _ => True) (fun b => (h b).post fun r _ _ => ?_) n b
  cases r <;> trivial

end

/-- A property of all large enough bounds on nested calls, one call further in. -/
theorem eventually_of_succ {P : ℕ → Prop} {Q : ℕ → Prop} (h : ∀ᶠ d in atTop, P d)
    (hPQ : ∀ d, P d → Q (d + 1)) : ∀ᶠ d in atTop, Q d := by
  obtain ⟨D, hD⟩ := eventually_atTop.1 h
  refine eventually_atTop.2 ⟨D + 1, fun d hd => ?_⟩
  obtain ⟨d, rfl⟩ : ∃ k, d = k + 1 := ⟨d - 1, by omega⟩
  exact hPQ d (hD d (by omega))

theorem triple_alloc (size align : ℕ) :
    Triple callsLogic Any (alloc size align) fun _ _ => layoutOk size align = true := by
  rw [alloc]
  split
  · next h =>
    refine Triple.get.bind fun s => ?_
    exact (Triple.modify (fun _ _ => trivial) fun _ _ => trivial).bind fun _ =>
      Triple.pure (P := fun _ => True) fun _ _ => h
  · exact Triple.fail _

/-- A box is allocated when it fits. -/
theorem triple_rtBoxAlloc (size align : ℕ) :
    Triple callsLogic Any (rtBoxAlloc size align) fun _ _ => BoxFits size align := by
  rw [rtBoxAlloc]
  split
  · next h => exact Triple.pure fun _ _ => .inl h
  · exact (triple_alloc _ _).post fun _ _ h => .inr h

/-! ## The interpreter -/

theorem sizeOf_get {key : Bytes} {j v : Json} (h : j.get key = some v) : sizeOf v < sizeOf j := by
  cases j with
  | object kvs =>
    obtain ⟨kv, hkv, rfl⟩ := Option.map_eq_some_iff.1 h
    have hmem := List.sizeOf_lt_of_mem (List.mem_of_find?_eq_some hkv)
    have hsnd : sizeOf kv.2 < sizeOf kv := by
      cases kv
      simp
    simp only [Json.object.sizeOf_spec]
    omega
  | _ => cases h

theorem quiet_orPanic {α : Type} (x : Except String α) : Quiet (orPanic x) := by
  cases x with
  | ok a => exact Quiet.pure a
  | error e => exact Quiet.fail _

theorem quiet_writeBytes (dst k v : ℕ) : Quiet (writeBytes dst k v) :=
  Quiet.ite (quiet_storeInt _ _ _) (Quiet.fail _)

theorem quiet_writeSeq (dst : ℕ) (seq : SeqLayout) (ptr cap len : ℕ) :
    Quiet (writeSeq dst seq ptr cap len) :=
  (quiet_storePtr _ _).bind fun _ => (quiet_storeInt _ _ _).bind fun _ => quiet_storeInt _ _ _

theorem quiet_allocCopy (bytes : Bytes) (align : ℕ) : Quiet (allocCopy bytes align) :=
  Quiet.ite (Quiet.pure _)
    ((quiet_alloc _ _).bind fun _ => (quiet_storeCells _ _).bind fun _ => Quiet.pure _)

theorem shallow_forEach {α : Type} {f : ℕ → α → M Unit} {l : List α} (i : ℕ)
    (h : ∀ i, ∀ a ∈ l, Shallow (f i a)) : Shallow (forEach f i l) := by
  induction l generalizing i with
  | nil => exact (Quiet.pure ()).shallow
  | cons a l ih =>
    exact (h i a List.mem_cons_self).bind fun _ =>
      ih (i + 1) fun i b hb => h i b (List.mem_cons_of_mem a hb)

/-- An absent option calls nothing. -/
theorem shallow_run_absent {ty : Ty} (hty : ty.isOpt) (d dst : ℕ) :
    Shallow (run env (d + 1) dst ty .null) := by
  cases ty with
  | opt => exact ((quiet_storeCells _ _).bind fun _ => quiet_writeBytes _ _ _).shallow
  | _ => cases hty

/-- A call of `run` is shallow when those are that it makes: idle ones on the same value, and
others on parts of the value. -/
theorem shallow_run_succ {d : ℕ} (ty : Ty) (j : Json)
    (hidle : ∀ p, Idle env ty p → ∀ dst, Shallow (run env (d + 1) dst p j))
    (hkids : ∀ p ∈ ty.kids, ∀ v, sizeOf v < sizeOf j → ∀ dst, Shallow (run env (d + 1) dst p v))
    (dst : ℕ) : Shallow (run env (d + 2) dst ty j) := by
  cases ty with
  | bool => exact (quiet_storeInt _ _ _).shallow
  | char => exact ((quiet_orPanic _).bind fun _ => quiet_storeInt _ _ _).shallow
  | u size => exact ((quiet_orPanic _).bind fun _ => quiet_writeBytes _ _ _).shallow
  | i size => exact ((quiet_orPanic _).bind fun _ => quiet_writeBytes _ _ _).shallow
  | f32 => exact ((quiet_orPanic _).bind fun _ => quiet_storeInt _ _ _).shallow
  | f64 => exact ((quiet_orPanic _).bind fun _ => quiet_storeInt _ _ _).shallow
  | struct name fields =>
    refine Shallow.forM fun f hf => ?_
    split
    · next fv hget => exact hkids _ (List.mem_map_of_mem hf) fv (sizeOf_get hget) _
    · split
      · next hopt => exact shallow_run_absent hopt d _
      · exact (Quiet.fail _).shallow
  | tuple fields =>
    cases j with
    | array items =>
      refine Shallow.forM fun x hx => ?_
      obtain ⟨hf, hitem⟩ := List.of_mem_zip hx
      refine hkids _ (List.mem_map_of_mem hf) x.2 ?_ _
      have := List.sizeOf_lt_of_mem hitem
      simp only [Json.array.sizeOf_spec]
      omega
    | _ => exact (Quiet.fail _).shallow
  | str seq =>
    exact ((quiet_orPanic _).bind fun _ => (quiet_allocCopy _ _).bind fun _ =>
      quiet_writeSeq _ _ _ _ _).shallow
  | strRef ptrOff lenOff =>
    exact ((quiet_orPanic _).bind fun _ => (quiet_allocCopy _ _).bind fun _ =>
      (quiet_storePtr _ _).bind fun _ => quiet_storeInt _ _ _).shallow
  | vec elem elemSize elemAlign seq =>
    cases j with
    | array items =>
      rw [run]
      split
      · exact (quiet_writeSeq _ _ _ _ _).shallow
      · refine (quiet_alloc _ _).shallow.bind fun p => Shallow.bind ?_ fun _ =>
          (quiet_writeSeq _ _ _ _ _).shallow
        refine shallow_forEach 0 fun i item hitem => ?_
        refine hkids elem (List.mem_singleton_self _) item ?_ _
        have := List.sizeOf_lt_of_mem hitem
        simp only [Json.array.sizeOf_spec]
        omega
    | _ => exact (Quiet.fail _).shallow
  | boxed inner size align =>
    have hrest (p : ℕ) (hfits : BoxFits size align) :
        Shallow (run env (d + 1) p inner j >>= fun _ => storePtr dst p) :=
      (hidle inner (.boxed hfits) p).bind fun _ => (quiet_storePtr _ _).shallow
    rw [run]
    split
    · next hsize => exact hrest _ (.inl hsize)
    · exact (triple_alloc _ _).bind fun p => Triple.assume' fun h => hrest p (.inr h)
  | unit => exact (Quiet.pure _).shallow
  | opt discOff discSize noneDiscr someDiscr payloadOff size inner =>
    cases j with
    | null => exact shallow_run_absent rfl (d + 1) dst
    | _ =>
      -- the payload is the same value
      refine (hidle inner .opt _).bind fun _ => ?_
      cases someDiscr with
      | none => exact (Quiet.pure _).shallow
      | some sd => exact (quiet_writeBytes _ _ _).shallow
  | map => exact (Quiet.fail _).shallow
  | ref cell =>
    cases hc : env.cells cell with
    | none =>
      simp only [run, hc]
      exact (Quiet.fail _).shallow
    | some body =>
      simp only [run, hc]
      exact hidle body (.ref hc) dst
  | unknown what => exact (Quiet.fail _).shallow

/-- Under a call bound of `d`, `run` ends on all values of size at most `k`. -/
def RunsWithin (env : Env) (k : ℕ) (ty : Ty) (d : ℕ) : Prop :=
  ∀ j : Json, sizeOf j ≤ k → ∀ dst, Shallow (run env d dst ty j)

/-- The induction is on the size of the value and, for one value, along the idle calls. -/
theorem runsWithin {ty : Ty} (hg : Grounded env ty) (k : ℕ) :
    ∀ᶠ d in atTop, RunsWithin env k ty d := by
  induction k generalizing ty with
  | zero =>
    refine Eventually.of_forall fun d j hj => ?_
    cases j <;> simp at hj
  | succ k ih =>
    induction hg.acc_idle with
    | intro ty _ ihidle =>
      have hcallees : ∀ p ∈ ty.callees env, ∀ᶠ d in atTop,
          (Idle env ty p → RunsWithin env (k + 1) p d) ∧ RunsWithin env k p d := fun p hp =>
        (eventually_imp_distrib_left.2 fun h => ihidle p h (hg.callee hp)).and
          (ih (hg.callee hp))
      have hall := ((ty.callees env).finite_toSet.eventually_all).2 hcallees
      refine eventually_of_succ (hall.and (eventually_ge_atTop 1)) fun d hd j hj dst => ?_
      obtain ⟨d, rfl⟩ : ∃ e, d = e + 1 := ⟨d - 1, by have := hd.2; omega⟩
      refine shallow_run_succ ty j (fun p hp => ?_) (fun p hp v hv => ?_) dst
      · exact (hd.1 p hp.mem_callees).1 hp j hj
      · exact (hd.1 p (kids_subset_callees ty hp)).2 v (by omega)

/-! ## The emitted parser -/

section Emitted

variable {inp : Input} {n : ℕ}

theorem shallow_intval (c : ℕ) (signed : Bool) : Shallow (intval inp n c signed) :=
  (quiet_loadU8 _ _).shallow.bind fun _ =>
    (Shallow.loop (fun _ => (Quiet.ite (Quiet.pure _) (Quiet.pure _)).shallow) n _).bind
      fun _ => (Quiet.pure _).shallow

theorem shallow_emitCopy (dst src len : ℕ) : Shallow (emitCopy inp n dst src len) := by
  rw [emitCopy]
  split
  · refine Shallow.bind (Shallow.loop (fun i => ?_) n 0) fun _ => (quiet_cp _ _ _ _ _).shallow
    exact (Quiet.ite ((quiet_cp _ _ _ _ _).bind fun _ => Quiet.pure _) (Quiet.pure _)).shallow
  · refine Quiet.shallow ?_
    split
    · exact (quiet_cp _ _ _ _ _).bind fun _ => quiet_cp _ _ _ _ _
    · split
      · exact (quiet_cp _ _ _ _ _).bind fun _ => quiet_cp _ _ _ _ _
      · exact Quiet.ite (quiet_cp _ _ _ _ _) (Quiet.pure _)

theorem shallow_buildStr (sp : StrSpan) : Shallow (buildStr inp n sp) := by
  rw [buildStr]
  split
  · exact ((quiet_rtUnescape _ _ _).bind fun _ => Quiet.get.bind fun _ => Quiet.pure _).shallow
  · exact (quiet_rtAlloc _).shallow.bind fun _ => (shallow_emitCopy _ _ _).bind fun _ =>
      (Quiet.pure _).shallow

theorem shallow_string (c p l : ℕ) (store : ℕ → ℕ → M Unit) (hstore : ∀ p l, Quiet (store p l)) :
    Shallow (do
      let sp ← strspan inp c
      let (buf, blen) ← buildStr inp n sp
      store buf blen
      emitStr sp.start p l
      pure sp.after) :=
  (quiet_strspan _ _).shallow.bind fun _ => (shallow_buildStr _).bind fun r =>
    (hstore r.1 r.2).shallow.bind fun _ =>
      Shallow.bind (x := emitStr _ _ _) (fun _ _ => ⟨trivial, fun _ _ => trivial, fun _ => id⟩)
        fun _ => (Quiet.pure _).shallow

variable {parse : Ty → ℕ → ℕ → M ℕ}
  (hp : ∀ ty dst c, Triple (progressLogic env inp n) Any (parse ty dst c)
    fun c' _ => Moves env inp ty c c')

/-- Behind a byte that could be loaded, the cursor has moved on. -/
theorem Past.lt_of_load {c hc : ℕ} (h : Past inp (c + 1) hc) (hlt : ws inp hc < inp.stop) :
    c < hc ∧ c < inp.stop := by
  have := le_ws inp hc
  simp only [Past] at h
  omega

/-- The members of an object lie behind its brace. -/
theorem shallow_structBody (fields : List FieldTy) (dst : ℕ) {c hc : ℕ}
    (hkids : ∀ f ∈ fields, c < inp.stop → ∀ dst, ∀ c' > c, Shallow (parse f.ty dst c'))
    (hc0 : Past inp (c + 1) hc) : Shallow (structBody inp parse fields dst hc) := by
  refine (triple_loadU8 _ _).bind fun b => Triple.assume fun ⟨hlt, _⟩ => ?_
  obtain ⟨hcur, hstop⟩ := hc0.lt_of_load hlt
  split
  · exact (Quiet.pure _).shallow
  · refine (triple_strspan fun _ _ _ => trivial).bind fun k => Triple.assume' fun hk => ?_
    have hval : c < ws inp k.after + 1 := by
      have h1 : Past inp (ws inp hc + 1) k.after := hk ▸ past_strscan _
      have h2 := le_ws inp k.after
      have h3 := le_ws inp hc
      simp only [Past] at h1
      omega
    refine Shallow.bind ?_ fun ac => ((quiet_pastComma _ _).bind fun _ => Quiet.pure _).shallow
    rw [parseMember]
    split
    · next f hf => exact hkids f (dispatch_mem hf) hstop _ _ hval
    · exact (Quiet.pure _).shallow

include hp

theorem shallow_parseStruct (fields : List FieldTy) (dst c : ℕ)
    (hkids : ∀ f ∈ fields, c < inp.stop → ∀ dst, ∀ c' > c, Shallow (parse f.ty dst c')) :
    Shallow (parseStruct inp n parse fields dst c) := by
  refine (Quiet.forM (quiet_defaultNone dst) fields).shallow.bind fun _ => ?_
  refine (Triple.loop_calls rfl (fun hc _ => Past inp (c + 1) hc) (fun hc => ?_) n _).conseq
    (fun _ _ => Past.of_le (Nat.succ_le_succ (le_ws inp c))) fun _ _ h => h
  refine Triple.assume' fun hhc => ?_
  refine ((shallow_structBody fields dst hkids hhc).and
    (triple_structBody hp fields dst _ hc hhc)).post fun r _ h => ?_
  cases r with
  | inl c' => exact h.1
  | inr a => trivial

/-- The fields of a tuple behind a byte that could be loaded. -/
theorem shallow_parseFields (dst : ℕ) {c : ℕ} (hstop : c < inp.stop) (fields : List FieldTy)
    (hkids : ∀ f ∈ fields, ∀ dst, ∀ c' > c, Shallow (parse f.ty dst c')) {cur : ℕ}
    (hcur : c < cur) : Shallow (parseFields inp parse dst fields cur) := by
  induction fields generalizing cur with
  | nil => exact (Quiet.pure _).shallow
  | cons f fs ih =>
    refine ((hkids f List.mem_cons_self _ cur hcur).and (hp f.ty _ cur)).bind fun c1 => ?_
    refine Triple.assume' fun hm => ?_
    refine (triple_pastComma inp c1).bind fun c2 => Triple.assume fun ⟨ht, hc2⟩ => ?_
    refine ih (fun g hg => hkids g (List.mem_cons_of_mem f hg)) ?_
    have h1 := hm.past
    have h2 := le_ws inp c1
    have h3 := ht.lt
    simp only [Past] at h1
    rw [hc2]
    split <;> omega

/-- The first field of a tuple is parsed wherever the cursor is, the others only behind a
byte of the input. -/
theorem shallow_parseTuple (fields : List FieldTy) (dst c : ℕ)
    (hhead : ∀ f fs, fields = f :: fs → ∀ dst, ∀ c' > c, Shallow (parse f.ty dst c'))
    (hkids : ∀ f ∈ fields, c < inp.stop → ∀ dst, ∀ c' > c, Shallow (parse f.ty dst c')) :
    Shallow (parseTuple inp parse fields dst c) := by
  refine Shallow.bind ?_ fun _ => (Quiet.pure _).shallow
  cases fields with
  | nil => exact (Quiet.pure _).shallow
  | cons f fs =>
    have hcur : c < ws inp c + 1 := Nat.lt_succ_of_le (le_ws inp c)
    refine ((hhead f fs rfl _ _ hcur).and (hp f.ty _ _)).bind fun c1 => ?_
    refine Triple.assume' fun hm => ?_
    refine (triple_pastComma inp c1).bind fun c2 => Triple.assume fun ⟨ht, hc2⟩ => ?_
    have h1 := hm.past
    have h2 := le_ws inp c1
    have h3 := ht.lt
    simp only [Past] at h1
    refine shallow_parseFields hp dst (by omega) fs
      (fun g hg => hkids g (List.mem_cons_of_mem f hg) (by omega)) ?_
    rw [hc2]
    split <;> omega

omit hp in
theorem shallow_vecBody (elem : Ty) (elemSize align : ℕ) {c : ℕ} {v : VecState}
    (hkid : c < inp.stop → ∀ dst, ∀ c' > c, Shallow (parse elem dst c'))
    (hc0 : Past inp (c + 1) v.cur) : Shallow (vecBody inp parse elem elemSize align v) := by
  refine (triple_loadU8 _ _).bind fun b => Triple.assume fun ⟨hlt, _⟩ => ?_
  obtain ⟨hcur, hstop⟩ := hc0.lt_of_load hlt
  split
  · exact (Quiet.pure _).shallow
  · refine (quiet_grow _ _ _).shallow.bind fun v' => ?_
    refine (hkid hstop _ _ (hcur.trans_le (le_ws inp v.cur))).bind fun ac => ?_
    refine (quiet_pastComma _ _).shallow.bind fun ac => ?_
    exact Shallow.bind (x := emit _) (fun _ _ => ⟨trivial, fun _ _ => trivial, fun _ => id⟩)
      fun _ => (Quiet.pure _).shallow

theorem shallow_parseVec (elem : Ty) (elemSize elemAlign : ℕ) (seq : SeqLayout) (dst c : ℕ)
    (hkid : c < inp.stop → ∀ dst, ∀ c' > c, Shallow (parse elem dst c')) :
    Shallow (parseVec inp n parse elem elemSize elemAlign seq dst c) := by
  refine Shallow.bind ?_ fun v => ((quiet_storeSeq _ _ _ _ _).bind fun _ => Quiet.pure _).shallow
  refine (Triple.loop_calls rfl (fun (v : VecState) _ => Past inp (c + 1) v.cur) (fun v => ?_)
    n _).conseq (fun _ _ => Past.of_le (Nat.succ_le_succ (le_ws inp c))) fun _ _ h => h
  refine Triple.assume' fun hv => ?_
  refine ((shallow_vecBody elem elemSize _ hkid hv).and
    (triple_vecBody hp elem elemSize _ _ v hv)).post fun r _ h => ?_
  cases r with
  | inl v' => exact h.1
  | inr a => trivial

/-- A key and its value lie behind the brace of the object. -/
theorem shallow_mapBody (key val : Ty) (insert dst kaddr vaddr : ℕ) {c hc : ℕ}
    (hkids : ∀ p ∈ [key, val], c < inp.stop → ∀ dst, ∀ c' > c, Shallow (parse p dst c'))
    (hc0 : Past inp (c + 1) hc) :
    Shallow (mapBody env inp parse key val insert dst kaddr vaddr hc) := by
  refine (triple_loadU8 _ _).bind fun b => Triple.assume fun ⟨hlt, _⟩ => ?_
  obtain ⟨hcur, hstop⟩ := hc0.lt_of_load hlt
  have hle := le_ws inp hc
  split
  · exact (Quiet.pure _).shallow
  · refine ((hkids key List.mem_cons_self hstop kaddr (ws inp hc) (by omega)).and
      (hp key kaddr _)).bind fun c1 => Triple.assume' fun hm => ?_
    have h1 := hm.past
    have h2 := le_ws inp c1
    simp only [Past] at h1
    refine (hkids val (List.mem_cons_of_mem _ List.mem_cons_self) hstop vaddr
      (ws inp c1 + 1) (by omega)).bind fun c2 => ?_
    exact ((quiet_callInsert _ _ _ _ _).bind fun _ => (quiet_pastComma _ _).bind fun _ =>
      Quiet.pure _).shallow

theorem shallow_parseMap (key : Ty) (keySize : ℕ) (val : Ty) (valSize newAt insert dst c : ℕ)
    (hkids : ∀ p ∈ [key, val], c < inp.stop → ∀ dst, ∀ c' > c, Shallow (parse p dst c')) :
    Shallow (parseMap env inp n parse key keySize val valSize newAt insert dst c) := by
  refine (quiet_stackSlot _).shallow.bind fun kaddr => ?_
  refine (quiet_stackSlot _).shallow.bind fun vaddr => ?_
  refine (quiet_callNewAt _ _ _).shallow.bind fun _ => ?_
  refine (Triple.loop_calls rfl (fun hc _ => Past inp (c + 1) hc) (fun hc => ?_) n _).conseq
    (fun _ _ => Past.of_le (Nat.succ_le_succ (le_ws inp c))) fun _ _ h => h
  refine Triple.assume' fun hhc => ?_
  refine ((shallow_mapBody hp key val insert dst kaddr vaddr hkids hhc).and
    (triple_mapBody hp key val insert dst kaddr vaddr _ hc hhc)).post fun r _ h => ?_
  cases r with
  | inl c' => exact h.1
  | inr a => trivial

end Emitted

/-- A call of `parse` is shallow when those are that it makes: idle ones inside the input,
blind ones behind it, and others inside it with the cursor moved on. -/
theorem shallow_parse_succ {inp : Input} {n d : ℕ} (ty : Ty) (dst c : ℕ)
    (hidle : ∀ p, Idle env ty p → c < inp.stop → ∀ dst, ∀ c' ≥ c,
      Shallow (parse env inp n d p dst c'))
    (hblind : ∀ p, Blind env ty p → inp.stop ≤ c → ∀ dst, ∀ c' ≥ c,
      Shallow (parse env inp n d p dst c'))
    (hkids : ∀ p ∈ ty.kids, c < inp.stop → ∀ dst, ∀ c' > c,
      Shallow (parse env inp n d p dst c')) :
    Shallow (parse env inp n (d + 1) ty dst c) := by
  have hp : ∀ ty dst c, Triple (progressLogic env inp n) Any (parse env inp n d ty dst c)
      fun c' _ => Moves env inp ty c c' := triple_parse d
  cases ty with
  | bool =>
    exact ((quiet_loadU8 _ _).bind fun _ => (quiet_storeInt _ _ _).bind fun _ =>
      Quiet.pure _).shallow
  | u size =>
    exact (shallow_intval c false).bind fun _ =>
      ((quiet_storeInt _ _ _).bind fun _ => Quiet.pure _).shallow
  | i size =>
    exact (shallow_intval c true).bind fun _ =>
      ((quiet_storeInt _ _ _).bind fun _ => Quiet.pure _).shallow
  | f32 =>
    exact ((quiet_rtF64v _ _ _).bind fun _ => Quiet.get.bind fun _ =>
      (quiet_storeInt _ _ _).bind fun _ => Quiet.pure _).shallow
  | f64 =>
    exact ((quiet_rtF64v _ _ _).bind fun _ => Quiet.get.bind fun _ =>
      (quiet_storeInt _ _ _).bind fun _ => Quiet.pure _).shallow
  | char =>
    exact ((quiet_strspan _ _).bind fun _ => (quiet_loadU8 _ _).bind fun _ =>
      (quiet_storeInt _ _ _).bind fun _ => Quiet.pure _).shallow
  | str seq =>
    exact shallow_string c _ _ (fun p l => storeSeq dst seq p l l) fun _ _ => quiet_storeSeq _ _ _ _ _
  | strRef ptrOff lenOff =>
    exact shallow_string c _ _ (storeStrRef dst ptrOff lenOff) fun _ _ => quiet_storeStrRef _ _ _ _ _
  | struct name fields =>
    exact shallow_parseStruct hp fields dst c fun f hf => hkids _ (List.mem_map_of_mem hf)
  | tuple fields =>
    refine shallow_parseTuple hp fields dst c (fun f fs hfs dst c' hc' => ?_)
      fun f hf => hkids _ (List.mem_map_of_mem hf)
    subst hfs
    -- the first field starts at the bracket, which is not there behind the input
    rcases Nat.lt_or_ge c inp.stop with hc | hc
    · exact hkids _ List.mem_cons_self hc dst c' hc'
    · exact hblind _ .tuple hc dst c' (Nat.le_of_lt hc')
  | vec elem elemSize elemAlign seq =>
    exact shallow_parseVec hp elem elemSize elemAlign seq dst c
      (hkids elem (List.mem_singleton_self _))
  | boxed inner size align =>
    refine (triple_rtBoxAlloc size align).bind fun bp => Triple.assume' fun hfits => ?_
    refine Shallow.bind ?_ fun _ => ((quiet_storePtr _ _).bind fun _ => Quiet.pure _).shallow
    rcases Nat.lt_or_ge c inp.stop with hc | hc
    · exact hidle inner (.boxed hfits) hc bp c (Nat.le_refl c)
    · exact hblind inner (.boxed hfits) hc bp c (Nat.le_refl c)
  | unit => exact (Quiet.pure _).shallow
  | opt discOff discSize noneDiscr someDiscr payloadOff size inner =>
    refine (triple_loadU8 _ _).bind fun b => Triple.assume fun ⟨hlt, _⟩ => ?_
    have hle := le_ws inp c
    split
    · exact ((quiet_memset0 _ _).bind fun _ => (quiet_storeImm _ _ _ _).bind fun _ =>
        Quiet.pure _).shallow
    · exact (hidle inner .opt (by omega) _ _ hle).bind fun _ =>
        ((quiet_storeSome _ _ _ _).bind fun _ => Quiet.pure _).shallow
  | map key keySize val valSize newAt insert =>
    exact shallow_parseMap hp key keySize val valSize newAt insert dst c hkids
  | ref cell =>
    cases hc : env.cells cell with
    | none =>
      rw [parse_ref_none hc]
      exact (Quiet.fail _).shallow
    | some body =>
      rw [parse_ref hc]
      refine Quiet.get.shallow.bind fun s => Shallow.bind ?_ fun _ =>
        Quiet.shallow ((Quiet.modify fun _ => rfl).bind fun _ => Quiet.pure _)
      rcases Nat.lt_or_ge c inp.stop with hlt | hge
      · exact hidle body (.ref hc) hlt dst c (Nat.le_refl c)
      · exact hblind body (.ref hc) hge dst c (Nat.le_refl c)
  | unknown what => exact (Quiet.fail _).shallow

/-- Under a call bound of `d`, the parser ends at all cursors with at most `k` bytes left. -/
def ParsesWithin (env : Env) (inp : Input) (k : ℕ) (ty : Ty) (d : ℕ) : Prop :=
  ∀ n dst c, inp.stop ≤ c + k → Shallow (parse env inp n d ty dst c)

/-- Behind the input only blind calls are left. -/
theorem parsesWithin_zero (inp : Input) {ty : Ty} (hg : Grounded env ty) :
    ∀ᶠ d in atTop, ParsesWithin env inp 0 ty d := by
  induction hg.acc_blind with
  | intro ty _ ih =>
    have hcallees : ∀ p ∈ ty.callees env, ∀ᶠ d in atTop,
        Blind env ty p → ParsesWithin env inp 0 p d := fun p hp =>
      eventually_imp_distrib_left.2 fun h => ih p h (hg.callee hp)
    have hall := ((ty.callees env).finite_toSet.eventually_all).2 hcallees
    refine eventually_of_succ hall fun d hd n dst c hc => ?_
    refine shallow_parse_succ ty dst c (fun p _ hlt => ?_) (fun p hp _ dst c' hc' => ?_)
      fun p _ hlt => ?_
    · omega
    · exact hd p hp.mem_callees hp n dst c' (by omega)
    · omega

/-- The induction is on the bytes left and, at one cursor, along the idle calls. -/
theorem parsesWithin (inp : Input) {ty : Ty} (hg : Grounded env ty) (k : ℕ) :
    ∀ᶠ d in atTop, ParsesWithin env inp k ty d := by
  induction k generalizing ty with
  | zero => exact parsesWithin_zero inp hg
  | succ k ih =>
    induction hg.acc_idle with
    | intro ty _ ihidle =>
      have hcallees : ∀ p ∈ ty.callees env, ∀ᶠ d in atTop,
          (Idle env ty p → ParsesWithin env inp (k + 1) p d) ∧ ParsesWithin env inp k p d ∧
            ParsesWithin env inp 0 p d := fun p hp =>
        (eventually_imp_distrib_left.2 fun h => ihidle p h (hg.callee hp)).and
          ((ih (hg.callee hp)).and (parsesWithin_zero inp (hg.callee hp)))
      have hall := ((ty.callees env).finite_toSet.eventually_all).2 hcallees
      refine eventually_of_succ hall fun d hd n dst c hc => ?_
      refine shallow_parse_succ ty dst c (fun p hp _ dst c' hc' => ?_)
        (fun p hp hstop dst c' hc' => ?_) fun p hp _ dst c' hc' => ?_
      · exact (hd p hp.mem_callees).1 hp n dst c' (by omega)
      · exact (hd p hp.mem_callees).2.2 n dst c' (by omega)
      · exact (hd p (kids_subset_callees ty hp)).2.1 n dst c' (by omega)

/-! ## Endless chains -/

/-- `1`, as a document and as the input of the parser. -/
def oneValue : Json := .num [0x31]

/-- See `oneValue`. -/
def oneText : Input := ⟨[0x31], fun _ => 0, by decide⟩

/-- A sequence whose first part is too deep is too deep. -/
theorem bind_deep {α β : Type} {x : M α} (f : α → M β) {s : State}
    (h : (x.run s).1 = .deep) : ((x >>= f).run s).1 = .deep := by
  rw [bind_run]
  rcases hr : x.run s with ⟨_ | _ | _ | _, s'⟩ <;> rw [hr] at h <;> first | rfl | cases h

/-- A sequence whose first part returns is too deep when the rest always is. -/
theorem bind_deep_of_done {α β : Type} {x : M α} {f : α → M β} {s : State}
    (hx : ∃ a s', x.run s = (.done a, s')) (hf : ∀ a s', ((f a).run s').1 = .deep) :
    ((x >>= f).run s).1 = .deep := by
  obtain ⟨a, s', hx⟩ := hx
  rw [bind_done hx]
  exact hf a s'

theorem alloc_returns {size align : ℕ} (h : layoutOk size align = true) (s : State) :
    ∃ p s', (alloc size align).run s = (.done p, s') := by
  rw [alloc, if_pos h]
  exact ⟨_, _, rfl⟩

theorem BoxFits.returns {size align : ℕ} (h : BoxFits size align) (s : State) :
    ∃ p s', (rtBoxAlloc size align).run s = (.done p, s') := by
  rw [rtBoxAlloc]
  split
  · exact ⟨_, s, rfl⟩
  · next hsize => exact alloc_returns (h.resolve_left hsize) s

section Chains

variable {S : Ty → Prop}

/-- Along idle calls `run` goes round on `1`. -/
theorem run_deep (hS : ∀ ty, S ty → ∃ p, Idle env ty p ∧ S p) (d : ℕ) {ty : Ty} (hty : S ty)
    (dst : ℕ) (s : State) : ((run env d dst ty oneValue).run s).1 = .deep := by
  induction d generalizing ty dst s with
  | zero => rfl
  | succ d ih =>
    obtain ⟨p, hidle, hp⟩ := hS ty hty
    cases hidle with
    | boxed hfits =>
      rw [run]
      split
      · exact bind_deep_of_done ⟨_, s, rfl⟩ fun a s' => bind_deep _ (ih hp a s')
      · next hsize =>
        exact bind_deep_of_done (alloc_returns (hfits.resolve_left hsize) s) fun a s' =>
          bind_deep _ (ih hp a s')
    | opt => exact bind_deep _ (ih hp _ s)
    | ref hc =>
      simp only [run, hc]
      exact ih hp dst s

/-- Along idle calls the parser goes round at `1`. -/
theorem parse_deep_idle (hS : ∀ ty, S ty → ∃ p, Idle env ty p ∧ S p) (n d : ℕ) {ty : Ty}
    (hty : S ty) (dst : ℕ) (s : State) :
    ((parse env oneText n d ty dst 0).run s).1 = .deep := by
  induction d generalizing ty dst s with
  | zero => rfl
  | succ d ih =>
    obtain ⟨p, hidle, hp⟩ := hS ty hty
    cases hidle with
    | boxed hfits =>
      exact bind_deep_of_done (hfits.returns s) fun a s' => bind_deep _ (ih hp a s')
    | opt =>
      have hload : (loadU8 oneText (ws oneText 0)).run s = (.done 0x31, s) := rfl
      have hws : ws oneText 0 = 0 := by decide
      rw [parse, bind_done hload, hws]
      exact bind_deep _ (ih hp _ s)
    | ref hc =>
      rw [parse_ref hc, get_bind_run]
      exact bind_deep _ (ih hp dst s)

/-- Along blind calls the parser goes round whatever the input. -/
theorem parse_deep_blind (hS : ∀ ty, S ty → ∃ p, Blind env ty p ∧ S p) (inp : Input) (n d : ℕ)
    {ty : Ty} (hty : S ty) (dst c : ℕ) (s : State) :
    ((parse env inp n d ty dst c).run s).1 = .deep := by
  induction d generalizing ty dst c s with
  | zero => rfl
  | succ d ih =>
    obtain ⟨p, hblind, hp⟩ := hS ty hty
    cases hblind with
    | boxed hfits =>
      exact bind_deep_of_done (hfits.returns s) fun a s' => bind_deep _ (ih hp a c s')
    | tuple => exact bind_deep _ (bind_deep _ (ih hp _ _ s))
    | ref hc =>
      rw [parse_ref hc, get_bind_run]
      exact bind_deep _ (ih hp dst c s)

end Chains

theorem Endless.closed {r : Ty → Ty → Prop} {chain : ℕ → Ty}
    (h : ∀ i, r (chain i) (chain (i + 1))) (ty : Ty) (hty : ∃ i, ty = chain i) :
    ∃ p, r ty p ∧ ∃ i, p = chain i := by
  obtain ⟨i, rfl⟩ := hty
  exact ⟨_, h i, i + 1, rfl⟩

/-! ## When binding ends -/

/-- On every value, the calls of `run` that the type leads to are nested finitely deep. -/
def RunEnds (env : Env) (ty : Ty) : Prop :=
  ∀ (j : Json) (dst : ℕ) (s : State), ∃ D, ∀ d ≥ D, ((run env d dst ty j).run s).1 ≠ .deep

/-- On every input, the calls in the code emitted for the type are nested finitely deep,
however often its loops go round. -/
def ParseEnds (env : Env) (ty : Ty) : Prop :=
  ∀ (inp : Input) (dst c : ℕ) (s : State), ∃ D, ∀ n, ∀ d ≥ D,
    ((parse env inp n d ty dst c).run s).1 ≠ .deep

theorem Grounded.runEnds {ty : Ty} (h : Grounded env ty) : RunEnds env ty := by
  intro j dst s
  obtain ⟨D, hD⟩ := eventually_atTop.1 (runsWithin h (sizeOf j))
  exact ⟨D, fun d hd => (hD d hd j (Nat.le_refl _) dst).not_deep s⟩

theorem Grounded.parseEnds {ty : Ty} (h : Grounded env ty) : ParseEnds env ty := by
  intro inp dst c s
  obtain ⟨D, hD⟩ := eventually_atTop.1 (parsesWithin inp h inp.stop)
  exact ⟨D, fun n d hd => (hD d hd n dst c (Nat.le_add_left _ _)).not_deep s⟩

theorem RunEnds.not_endless {ty : Ty} (h : RunEnds env ty) : ¬ Endless (Idle env) ty := by
  rintro ⟨chain, rfl, hchain⟩
  obtain ⟨D, hD⟩ := h oneValue 0 (.initial 0)
  exact hD D (Nat.le_refl D) (run_deep (Endless.closed hchain) D ⟨0, rfl⟩ 0 _)

theorem ParseEnds.not_endless {ty : Ty} (h : ParseEnds env ty) : ¬ Endless (Blind env) ty := by
  rintro ⟨chain, rfl, hchain⟩
  obtain ⟨D, hD⟩ := h oneText 0 0 (.initial 0)
  exact hD 0 D (Nat.le_refl D) (parse_deep_blind (Endless.closed hchain) oneText 0 D ⟨0, rfl⟩ 0 0 _)

/-- For a type and the functions of all cells it reaches, both binders end on all data exactly
when none of these cells starts an endless chain of calls. -/
theorem binding_ends_iff (env : Env) (ty : Ty) :
    ((RunEnds env ty ∧ ParseEnds env ty) ∧
      ∀ c, Reaches env.cells ty c → RunEnds env (.ref c) ∧ ParseEnds env (.ref c)) ↔
    Grounded env ty := by
  constructor
  · rintro ⟨-, h⟩ c hc
    exact ⟨(h c hc).1.not_endless, (h c hc).2.not_endless⟩
  · intro h
    refine ⟨⟨h.runEnds, h.parseEnds⟩, fun c hc => ?_⟩
    have hcell : Grounded env (.ref c) := fun c' hc' => h c' (hc.trans hc')
    exact ⟨hcell.runEnds, hcell.parseEnds⟩

/-- `enum List { Nil, Cons(Box<List>) }`, which `parse_option` takes for an option. -/
def listStore : Store :=
  ⟨[⟨.plain 0 (.other 0x11) [] [
    .plain 1 .structureType [(.name, .string "List"), (.byteSize, .udata 8)] [
      .plain 2 .variantPart [(.discr, .unitRef 3)] [
        .plain 3 .member [(.type, .unitRef 20), (.dataMemberLocation, .udata 0)] [],
        .plain 4 .variant [(.discrValue, .udata 0)] [
          .plain 5 .member [(.name, .string "Nil"), (.type, .unitRef 6),
            (.dataMemberLocation, .udata 0)] []],
        .plain 7 .variant [] [
          .plain 8 .member [(.name, .string "Cons"), (.type, .unitRef 9),
            (.dataMemberLocation, .udata 0)] []]],
      .plain 6 .structureType [(.name, .string "Nil"), (.byteSize, .udata 8)] [],
      .plain 9 .structureType [(.name, .string "Cons"), (.byteSize, .udata 8)] [
        .plain 10 .member [(.name, .string "__0"), (.type, .unitRef 11),
          (.dataMemberLocation, .udata 0)] []]],
    .plain 11 .pointerType [(.name, .string "Box<List>"), (.type, .unitRef 1)] [],
    u64Die 20]⟩], 0⟩

/-- The layout of that list: its payload is a box of the list itself. -/
def listTy : Ty := .opt 0 8 0 none 0 8 (.boxed (.ref 0) 8 8)

/-- All cells that the list reaches are set, and on `1` both binders use up every bound on
nested calls. -/
theorem binding_ends_list :
    ∃ h, (classify listStore 20 (0, 1)).run .initial = (.done listTy, h) ∧
      (∀ c, Reaches h.cells listTy c → ∃ body, h.cells c = some body) ∧
      ∀ tramps float,
        (∀ d, ((run ⟨h.cells, tramps, float⟩ d 0 listTy oneValue).run (.initial 8)).1 = .deep) ∧
        ∀ n d, ((parse ⟨h.cells, tramps, float⟩ oneText n d listTy 0 0).run
          (.initial 8)).1 = .deep := by
  obtain ⟨h, hrun, hcell⟩ : ∃ h, (classify listStore 20 (0, 1)).run .initial =
      (.done listTy, h) ∧ h.cells 0 = some listTy := ⟨_, rfl, rfl⟩
  refine ⟨h, hrun, fun c hc => ?_, fun tramps float => ?_⟩
  · have hzero : c = 0 := by
      induction hc with
      | here hc => exact List.mem_singleton.1 hc
      | through _ hb hc ih =>
        rw [ih, hcell] at hb
        cases hb
        exact List.mem_singleton.1 hc
    rw [hzero]
    exact ⟨listTy, hcell⟩
  · -- the option, its box and the cell call each other
    have hS : ∀ ty, ty ∈ [listTy, .boxed (.ref 0) 8 8, .ref 0] →
        ∃ p, Idle ⟨h.cells, tramps, float⟩ ty p ∧ p ∈ [listTy, .boxed (.ref 0) 8 8, .ref 0] := by
      simp only [List.mem_cons, List.not_mem_nil, or_false]
      rintro ty (rfl | rfl | rfl)
      · exact ⟨_, .opt, .inr (.inl rfl)⟩
      · exact ⟨_, .boxed (.inr rfl), .inr (.inr rfl)⟩
      · exact ⟨_, .ref hcell, .inl rfl⟩
    exact ⟨fun d => run_deep hS d List.mem_cons_self 0 _,
      fun n d => parse_deep_idle hS n d List.mem_cons_self 0 _⟩

end Bilbo
