import Bilbo.Copy

/-!
# Steps that leave the trace alone

Most of what the emitted code does records nothing, calls nothing and loops nowhere. Such
a step is transparent for every logic whose preorder only looks at the trace.
-/

namespace Bilbo

open Base Comp

/-- The step leaves the trace alone and exceeds no bound. -/
def Quiet {α : Type} (x : M α) : Prop :=
  ∀ s, (x.run s).2.trace = s.trace ∧ ∀ b, ¬ (x.run s).1.Exceeds b

section

variable {α β : Type} {x y : M α}

theorem Quiet.pure (a : α) : Quiet (pure a : M α) := fun _ => ⟨rfl, fun _ => id⟩

theorem Quiet.fail (e : Stop) : Quiet (Comp.fail e : M α) := fun _ => ⟨rfl, fun _ => id⟩

theorem Quiet.get : Quiet (Comp.get : M State) := fun _ => ⟨rfl, fun _ => id⟩

theorem Quiet.modify {f : State → State} (h : ∀ s, (f s).trace = s.trace) :
    Quiet (Comp.modify f : M Unit) := fun s => ⟨h s, fun _ => id⟩

theorem Quiet.bind {f : α → M β} (hx : Quiet x) (hf : ∀ a, Quiet (f a)) : Quiet (x >>= f) := by
  intro s
  obtain ⟨h1, h2⟩ := hx s
  rw [bind_run]
  rcases hr : x.run s with ⟨o, s'⟩
  rw [hr] at h1 h2
  cases o with
  | done a => exact ⟨((hf a s').1).trans h1, (hf a s').2⟩
  | stop e => exact ⟨h1, fun b hb => hb⟩
  | deep => exact absurd trivial (h2 .calls)
  | spent => exact absurd trivial (h2 .iterations)

theorem Quiet.ite {p : Prop} [Decidable p] (hx : Quiet x) (hy : Quiet y) :
    Quiet (if p then x else y) := by
  split
  · exact hx
  · exact hy

theorem Quiet.forM {f : β → M Unit} (h : ∀ b, Quiet (f b)) (l : List β) : Quiet (l.forM f) := by
  induction l with
  | nil => exact Quiet.pure ()
  | cons b l ih => exact (h b).bind fun _ => ih

/-- A quiet step in a logic of traces. -/
theorem Quiet.triple {L : Logic State} {P : State → Prop}
    (hL : ∀ s s' : State, s'.trace = s.trace → L.rel s s') (h : Quiet x) :
    Triple L P x fun _ _ => True :=
  fun s _ => ⟨hL _ _ (h s).1, fun _ _ => trivial, fun _ => (h s).2 _⟩

end

/-! ## The steps of the machine -/

theorem quiet_storeCells (a : ℕ) (cs : List Cell) : Quiet (storeCells a cs) :=
  Quiet.modify fun _ => rfl

theorem quiet_storeInt (a n v : ℕ) : Quiet (storeInt a n v) := quiet_storeCells _ _

theorem quiet_storePtr (a p : ℕ) : Quiet (storePtr a p) := quiet_storeCells _ _

theorem quiet_alloc (size align : ℕ) : Quiet (alloc size align) :=
  Quiet.ite (Quiet.get.bind fun _ => (Quiet.modify fun _ => rfl).bind fun _ => Quiet.pure _)
    (Quiet.fail _)

theorem quiet_stackSlot (size : ℕ) : Quiet (stackSlot size) :=
  Quiet.get.bind fun _ => (Quiet.modify fun _ => rfl).bind fun _ => Quiet.pure _

theorem quiet_mapNewAt (dst : ℕ) : Quiet (mapNewAt dst) :=
  Quiet.get.bind fun _ => Quiet.modify fun _ => rfl

theorem quiet_mapInsert (key : SeqLayout) (valSize dst k v : ℕ) :
    Quiet (mapInsert key valSize dst k v) := by
  refine Quiet.get.bind fun s => ?_
  split
  · split
    · exact Quiet.modify fun _ => rfl
    · exact Quiet.fail _
  · exact Quiet.fail _

/-! ## The steps of the emitted code -/

theorem quiet_loadU8 (inp : Input) (c : ℕ) : Quiet (loadU8 inp c) :=
  Quiet.ite (Quiet.pure _) (Quiet.fail _)

theorem quiet_pastComma (inp : Input) (c : ℕ) : Quiet (pastComma inp c) :=
  (quiet_loadU8 _ _).bind fun _ => Quiet.pure _

theorem quiet_storeImm (dst off v size : ℕ) : Quiet (storeImm dst off v size) :=
  quiet_storeInt _ _ _

theorem quiet_storeSeq (dst : ℕ) (seq : SeqLayout) (ptr cap len : ℕ) :
    Quiet (storeSeq dst seq ptr cap len) :=
  (quiet_storePtr _ _).bind fun _ => (quiet_storeInt _ _ _).bind fun _ => quiet_storeInt _ _ _

theorem quiet_storeStrRef (dst ptrOff lenOff ptr len : ℕ) :
    Quiet (storeStrRef dst ptrOff lenOff ptr len) :=
  (quiet_storePtr _ _).bind fun _ => quiet_storeInt _ _ _

theorem quiet_memset0 (dst size : ℕ) : Quiet (memset0 dst size) :=
  Quiet.forM (fun _ => quiet_storeInt _ _ _) _

theorem quiet_cp (inp : Input) (src dst w off : ℕ) : Quiet (cp inp src dst w off) :=
  Quiet.ite (quiet_storeCells _ _) (Quiet.fail _)

theorem quiet_rtAlloc (n : ℕ) : Quiet (rtAlloc n) := Quiet.ite (Quiet.pure _) (quiet_alloc _ _)

theorem quiet_rtBoxAlloc (size align : ℕ) : Quiet (rtBoxAlloc size align) :=
  Quiet.ite (Quiet.pure _) (quiet_alloc _ _)

theorem quiet_rtRealloc (ptr old new align : ℕ) : Quiet (rtRealloc ptr old new align) :=
  Quiet.ite (Quiet.ite (Quiet.pure _) (quiet_alloc _ _))
    (Quiet.ite ((quiet_alloc _ _).bind fun _ =>
      (Quiet.modify fun _ => rfl).bind fun _ => Quiet.pure _) (Quiet.fail _))

theorem quiet_rtF64v (fl : FloatOps) (inp : Input) (cur : ℕ) : Quiet (rtF64v fl inp cur) :=
  (Quiet.modify fun _ => rfl).bind fun _ => Quiet.pure _

theorem quiet_strspan (inp : Input) (cur : ℕ) : Quiet (strspan inp cur) :=
  fun _ => ⟨rfl, fun _ => id⟩

theorem quiet_rtUnescape (inp : Input) (src len : ℕ) : Quiet (rtUnescape inp src len) := by
  rw [rtUnescape]
  split
  · exact Quiet.fail _
  · exact (quiet_rtAlloc _).bind fun _ => (quiet_storeCells _ _).bind fun _ =>
      (Quiet.modify fun _ => rfl).bind fun _ => Quiet.pure _

theorem quiet_grow (elemSize align : ℕ) (v : VecState) : Quiet (grow elemSize align v) :=
  Quiet.ite ((quiet_rtRealloc _ _ _ _).bind fun _ => Quiet.pure _) (Quiet.pure _)

theorem quiet_defaultNone (dst : ℕ) (f : FieldTy) : Quiet (defaultNone dst f) := by
  rw [defaultNone]
  split
  · exact (quiet_memset0 _ _).bind fun _ => quiet_storeImm _ _ _ _
  · exact Quiet.pure _

theorem quiet_storeSome (dst discOff discSize : ℕ) (someDiscr : Option ℕ) :
    Quiet (storeSome dst discOff discSize someDiscr) := by
  cases someDiscr with
  | none => exact Quiet.pure _
  | some sd => exact quiet_storeImm _ _ _ _

theorem quiet_callNewAt (env : Env) (addr dst : ℕ) : Quiet (callNewAt env addr dst) := by
  rw [callNewAt]
  split
  · exact quiet_mapNewAt _
  · exact Quiet.fail _

theorem quiet_callInsert (env : Env) (addr dst k v : ℕ) : Quiet (callInsert env addr dst k v) := by
  rw [callInsert]
  split
  · exact quiet_mapInsert _ _ _ _ _
  · exact Quiet.fail _

/-! ## What a step returns -/

section

variable {L : Logic State} {P : State → Prop}

theorem triple_loadU8 (inp : Input) (c : ℕ) :
    Triple L P (loadU8 inp c) fun b s => (c < inp.stop ∧ b = inp.byte c) ∧ P s := by
  rw [loadU8]
  split
  · next h => exact Triple.pure fun s hs => ⟨⟨h, rfl⟩, hs⟩
  · exact Triple.fail _

theorem triple_pastComma (inp : Input) (c : ℕ) :
    Triple L P (pastComma inp c) fun c' s =>
      (AtToken inp (ws inp c) ∧
        c' = if inp.byte (ws inp c) = Ascii.comma then ws inp c + 1 else ws inp c) ∧ P s := by
  refine (triple_loadU8 inp (ws inp c)).bind fun b => Triple.assume fun hb => ?_
  refine Triple.pure fun s hs => ⟨⟨ws_atToken hb.1, ?_⟩, hs⟩
  rw [hb.2]
  simp only [beq_iff_eq]

theorem triple_strspan {inp : Input} {cur : ℕ} (hL : ∀ s s' : State, s'.trace = s.trace → L.rel s s') :
    Triple L P (strspan inp cur) fun sp _ =>
      sp = ⟨ws inp cur + 1, (strscan inp (ws inp cur)).len, (strscan inp (ws inp cur)).after,
        (strscan inp (ws inp cur)).esc⟩ := by
  refine fun s _ => ⟨hL _ _ rfl, fun sp h => ?_, fun _ => id⟩
  rw [strspan_run] at h
  cases h
  rfl

end

end Bilbo
