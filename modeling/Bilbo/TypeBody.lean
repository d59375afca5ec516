import Bilbo.Classify

/-!
# What the body of a type entry asks for and holds

Two facts about `typeBody` that do not depend on how its questions are answered. The lookups
around the recursive calls ask nothing. And the body is linear: a type it gets goes into the
result once or is dropped once.
-/

namespace Bilbo

open Base Calls

variable (st : Store)

/-! ## Lookups -/

theorem silent_tag {L : Prop} (s : Site) : Silent L (tag st s) := by
  rw [tag]
  split
  · exact Silent.ret _
  · exact Silent.stop _

theorem gives_orHang {α : Type} {L : Prop} {x : Option (Option α)} (h : x = none → L) :
    Gives L (orHang x) x.join := by
  cases x with
  | none => exact .inr ⟨h rfl, rfl⟩
  | some a => exact .inl rfl

theorem silent_stripAlong (n : ℕ) (s : Site) : Silent True (stripAlong st n s) := by
  induction n generalizing s with
  | zero => exact Silent.hang trivial
  | succ n ih =>
    refine Silent.bind (silent_tag st s) fun t => ?_
    split
    · refine (gives_orHang fun _ => trivial).silent.bind fun inner => ?_
      split
      · exact ih _
      · exact Silent.ret _
    · exact Silent.ret _

/-- Some chain of wrappers or of origins never ends. -/
def Loops : Prop :=
  (∃ s, strip st s = hang) ∨ (∃ s, dieNameRead st s = none) ∨ ∃ s, typeRefRead st s = none

theorem silent_strip (s : Site) : Silent (Loops st) (strip st s) := by
  rcases silent_stripAlong st (unitSize st s.1 + 1) s with ⟨a, h⟩ | ⟨e, h⟩ | ⟨-, h⟩
  · exact Or.inl ⟨a, h⟩
  · exact Or.inr (Or.inl ⟨e, h⟩)
  · exact Or.inr (Or.inr ⟨.inl ⟨s, h⟩, h⟩)

theorem gives_dieNameM (s : Site) : Gives (Loops st) (dieNameM st s) (dieName st s) :=
  gives_orHang fun h => .inr (.inl ⟨s, h⟩)

theorem gives_typeRefM (s : Site) : Gives (Loops st) (typeRefM st s) (typeRef st s) :=
  gives_orHang fun h => .inr (.inr ⟨s, h⟩)

theorem gives_templateParamM (s : Site) :
    Gives (Loops st) (templateParamM st s) (templateParam st s) := by
  rw [templateParamM, templateParam]
  cases childWithTag st s .templateTypeParameter with
  | none => exact .inl rfl
  | some c => exact gives_typeRefM st (s.1, c)

theorem gives_findNamed (ui : ℕ) (want : String) (cs : List Off) :
    Gives (Loops st) (findNamed st ui want cs)
      (cs.find? fun c => dieName st (ui, c) == some want) := by
  induction cs with
  | nil => exact .inl rfl
  | cons c cs ih =>
    refine (gives_dieNameM st (ui, c)).bind ?_
    rw [List.find?_cons]
    by_cases hc : dieName st (ui, c) = some want
    · rw [if_pos hc, beq_iff_eq.2 hc]
      exact .inl rfl
    · rw [if_neg hc, beq_eq_false_iff_ne.2 hc]
      exact ih

theorem gives_templateNamedM (s : Site) (want : String) :
    Gives (Loops st) (templateNamedM st s want) (templateNamed st s want) := by
  refine (gives_findNamed st s.1 want _).bind ?_
  rw [templateNamed]
  cases (childrenWithTag st s .templateTypeParameter).find? fun c =>
      dieName st (s.1, c) == some want with
  | none => exact .inl rfl
  | some c => exact gives_typeRefM st (s.1, c)

theorem gives_defSiteM (s : Site) : Gives (Loops st) (defSiteM st s) (defSite st s) := by
  rw [defSiteM, defSite]
  split
  · exact (gives_dieNameM st s).bind (.inl rfl)
  · exact .inl rfl

theorem silent_walkSeq (k : ℕ) (s : Site) (base : ℕ) (sl : SeqLayout) :
    Silent (Loops st) (walkSeq st k s base sl) := by
  induction k generalizing s base sl with
  | zero => exact Silent.ret _
  | succ k ih =>
    refine (silent_strip st s).bind fun s => (gives_defSiteM st s).silent.bind fun s => ?_
    refine (silent_tag st _).bind fun t => ?_
    split
    · exact Silent.ret _
    · split
      · refine Silent.foldlM (fun sl moff => ?_) _ _
        refine (gives_dieNameM st _).silent.bind fun name => ?_
        dsimp only
        split
        · exact Silent.ret _
        · split
          · exact Silent.ret _
          · refine (gives_typeRefM st _).silent.bind fun mt => ?_
            split
            · exact ih _ _ _
            · exact Silent.ret _
      · exact Silent.ret _

theorem silent_seqLayout (s : Site) : Silent (Loops st) (seqLayout st s) := by
  refine (silent_walkSeq st _ _ _ _).bind fun sl => ?_
  split
  · exact Silent.ret _
  · exact Silent.stop _

theorem silent_strRefOffsets (s : Site) : Silent (Loops st) (strRefOffsets st s) := by
  refine Silent.foldlM (fun acc moff => ?_) _ _
  refine (gives_dieNameM st _).silent.bind fun name => ?_
  split
  · exact Silent.ret _
  · exact Silent.ret _
  · exact Silent.ret _

theorem silent_trampHere (fnPrefix : String) (want : List Char) (matchV : Bool) (s : Site) :
    Silent (Loops st) (trampHere st fnPrefix want matchV s) := by
  refine (gives_dieNameM st s).silent.bind fun name => ?_
  dsimp only
  split
  · split
    · split
      · exact Silent.ret _
      · split
        · exact Silent.stop _
        · exact Silent.ret _
    · exact Silent.ret _
  · exact Silent.ret _

theorem silent_firstSome {α : Type} {f : Site → Body (Option α)} (hf : ∀ s, Silent (Loops st) (f s))
    (l : List Site) : Silent (Loops st) (firstSome f l) := by
  induction l with
  | nil => exact Silent.ret _
  | cons s l ih =>
    refine (hf s).bind fun a => ?_
    split
    · exact Silent.ret _
    · exact ih

theorem silent_resolveTramp (fnPrefix vName : String) (matchV : Bool) :
    Silent (Loops st) (resolveTramp st fnPrefix vName matchV) :=
  silent_firstSome st (silent_trampHere st _ _ _) _

theorem silent_discrSize (s : Site) : Silent (Loops st) (discrSize st s) := by
  refine (gives_typeRefM st s).silent.bind fun t => ?_
  split
  · exact Silent.ret _
  · exact (silent_strip st _).bind fun _ => Silent.ret _

theorem silent_resolveSite (s : Site) : Silent (Loops st) (resolveSite st s) := by
  refine (silent_strip st s).bind fun s => (gives_defSiteM st s).silent.bind fun s => ?_
  refine (silent_tag st s).bind fun t => (gives_dieNameM st s).silent.bind fun name => ?_
  dsimp only
  split
  · refine (gives_templateParamM st s).silent.bind fun inner => ?_
    split
    · exact Silent.ret _
    · exact Silent.stop _
  · exact Silent.ret _

/-- The entry that the head of `classify` has found. -/
theorem resolveSite_entry {s key : Site} {t : DwTag} {name : String}
    (h : resolveSite st s = ret (.entry key t name)) :
    ∃ p, strip st s = ret p ∧ key = defSite st p ∧ tag st key = ret t ∧
      name = (dieName st key).getD "" := by
  obtain ⟨p, hp, h⟩ := bind_eq_ret h
  obtain ⟨-, h⟩ := (gives_defSiteM st p).bind_eq_ret h
  obtain ⟨t', ht, h⟩ := bind_eq_ret h
  obtain ⟨-, h⟩ := (gives_dieNameM st _).bind_eq_ret h
  dsimp only at h
  split at h
  · obtain ⟨-, h⟩ := (gives_templateParamM st _).bind_eq_ret h
    split at h <;> cases h
  · cases h
    exact ⟨p, hp, rfl, ht, rfl⟩

/-- The wrapper that the head of `classify` has looked through. -/
theorem resolveSite_wraps {s inner : Site} (h : resolveSite st s = ret (.wraps inner)) :
    ∃ p o, strip st s = ret p ∧ isTransparent ((dieName st (defSite st p)).getD "") = true ∧
      templateParam st (defSite st p) = some o ∧ inner = ((defSite st p).1, o) := by
  obtain ⟨p, hp, h⟩ := bind_eq_ret h
  obtain ⟨-, h⟩ := (gives_defSiteM st p).bind_eq_ret h
  obtain ⟨t', -, h⟩ := bind_eq_ret h
  obtain ⟨-, h⟩ := (gives_dieNameM st _).bind_eq_ret h
  dsimp only at h
  split at h
  · rename_i htr
    obtain ⟨-, h⟩ := (gives_templateParamM st _).bind_eq_ret h
    split at h
    · rename_i o ho
      cases h
      exact ⟨p, o, hp, htr, ho, rfl⟩
    · cases h
  · cases h

/-! ## Linearity -/

section Linear

variable (c : RecCell)

/-- How often a type refers to the cell. -/
def Ty.occ (t : Ty) : ℕ := t.refs.count c

/-- How often the fields refer to the cell. -/
def fieldsOcc (fs : List FieldTy) : ℕ := (fs.map fun f => f.ty.occ c).sum

@[simp] theorem fieldsOcc_cons (f : FieldTy) (fs : List FieldTy) :
    fieldsOcc c (f :: fs) = f.ty.occ c + fieldsOcc c fs := by
  rw [fieldsOcc, List.map_cons, List.sum_cons, fieldsOcc]

theorem count_fieldsRefs (fs : List FieldTy) :
    (Ty.fieldsRefs fs).count c = fieldsOcc c fs := by
  induction fs with
  | nil => rfl
  | cons f fs ih =>
    obtain ⟨name, offset, ty⟩ := f
    rw [Ty.fieldsRefs, List.count_append, ih, fieldsOcc_cons, Ty.fieldRefs, Ty.occ]

@[simp] theorem occ_struct (name : String) (fs : List FieldTy) :
    (Ty.struct name fs).occ c = fieldsOcc c fs := count_fieldsRefs c fs

@[simp] theorem occ_tuple (fs : List FieldTy) : (Ty.tuple fs).occ c = fieldsOcc c fs :=
  count_fieldsRefs c fs

@[simp] theorem occ_vec (elem : Ty) (esz eal : ℕ) (seq : SeqLayout) :
    (Ty.vec elem esz eal seq).occ c = elem.occ c := rfl

@[simp] theorem occ_boxed (inner : Ty) (size align : ℕ) :
    (Ty.boxed inner size align).occ c = inner.occ c := rfl

@[simp] theorem occ_opt (d ds nd : ℕ) (sd : Option ℕ) (po size : ℕ) (inner : Ty) :
    (Ty.opt d ds nd sd po size inner).occ c = inner.occ c := rfl

@[simp] theorem occ_map (key val : Ty) (ks vs na ins : ℕ) :
    (Ty.map key ks val vs na ins).occ c = key.occ c + val.occ c := List.count_append

@[simp] theorem occ_ref (x : RecCell) : (Ty.ref x).occ c = if x = c then 1 else 0 := by
  rw [Ty.occ, Ty.refs, List.count_singleton]
  simp only [beq_iff_eq]

@[simp] theorem occ_unknown (w : String) : (Ty.unknown w).occ c = 0 := rfl

@[simp] theorem occ_str (seq : SeqLayout) : (Ty.str seq).occ c = 0 := rfl

@[simp] theorem occ_strRef (p l : ℕ) : (Ty.strRef p l).occ c = 0 := rfl

theorem fieldsOcc_sort (fs : List FieldTy) :
    fieldsOcc c (fs.insertionSort fun a b => tupleIndex a.name ≤ tupleIndex b.name) =
      fieldsOcc c fs :=
  ((List.perm_insertionSort _ fs).map _).sum_nat

theorem occ_baseType (s : Site) (name : String) : (baseType st s name).occ c = 0 := by
  unfold baseType
  dsimp only
  repeat' split
  all_goals rfl

theorem uses_boxed (s : Site) (name : String) :
    Uses (Loops st) (Ty.occ c) (Ty.occ c) 0 (boxed st s name) := by
  refine (gives_typeRefM st s).silent.uses_bind fun pointee => ?_
  split
  · exact .ret (by simp)
  · exact .call fun t => (silent_strip st _).uses_bind fun p => .ret (by simp)

theorem uses_vecType (s : Site) : Uses (Loops st) (Ty.occ c) (Ty.occ c) 0 (vecType st s) := by
  refine (gives_templateParamM st s).silent.uses_bind fun param => ?_
  split
  · exact .stop _
  · refine .call fun t => (silent_strip st _).uses_bind fun e => ?_
    exact (silent_seqLayout st s).uses_bind fun seq => .ret (by simp)

theorem uses_mapType (s : Site) : Uses (Loops st) (Ty.occ c) (Ty.occ c) 0 (mapType st s) := by
  refine (gives_templateNamedM st s "K").silent.uses_bind fun k => ?_
  split
  · exact .stop _
  · refine (gives_templateNamedM st s "V").silent.uses_bind fun v => ?_
    split
    · exact .stop _
    · refine (gives_dieNameM st _).silent.uses_bind fun vName => ?_
      refine .call fun key => (silent_strip st _).uses_bind fun ks => ?_
      refine .call fun val => (silent_strip st _).uses_bind fun vs => ?_
      refine (silent_resolveTramp st _ _ _).uses_bind fun newAt => ?_
      split
      · exact .stop _
      · refine (silent_resolveTramp st _ _ _).uses_bind fun insert => ?_
        split
        · exact .stop _
        · exact .ret (by simp)

/-- How often the `Some` arm refers to the cell. -/
def armOcc (a : Option SomeArm) : ℕ := a.elim 0 fun x => x.2.2.occ c

theorem uses_replaceSome (old : Option SomeArm) (new : SomeArm) {n : ℕ}
    (h : armOcc c old + new.2.2.occ c ≤ n) :
    Uses (Loops st) (Ty.occ c) (armOcc c) n (replaceSome old new) := by
  cases old with
  | none => exact .ret (by simpa [armOcc] using h)
  | some o =>
    have h : o.2.2.occ c + new.2.2.occ c ≤ n := h
    exact (uses_discard (x := ret (some new))).2
      ⟨Nat.le_of_add_right_le h, .ret (Nat.le_sub_of_add_le' h)⟩

theorem uses_parseVariant (ui : ℕ) (a : Option ℕ × Option SomeArm) (var : Off) {n : ℕ}
    (h : armOcc c a.2 ≤ n) :
    Uses (Loops st) (Ty.occ c) (fun a => armOcc c a.2) n (parseVariant st ui a var) := by
  rw [parseVariant]
  split
  · exact .ret h
  · refine (gives_typeRefM st _).silent.uses_bind fun pstruct => ?_
    split
    · exact .ret h
    · refine (silent_strip st _).uses_bind fun ps => ?_
      refine (gives_findNamed st _ _ _).silent.uses_bind fun f0 => ?_
      split
      · exact .ret h
      · refine (gives_typeRefM st _).silent.uses_bind fun t => ?_
        split
        · exact .ret h
        · rw [ask_bind]
          refine .call fun t => ?_
          refine Uses.bind (m := 0) (uses_replaceSome st c a.2 _ ?_) fun arm k hk => .ret hk
          exact Nat.add_le_add_right h (t.occ c)

theorem uses_parseOption (s : Site) (vp : Off) (name : String) :
    Uses (Loops st) (Ty.occ c) (Ty.occ c) 0 (parseOption st s vp name) := by
  rw [parseOption]
  split
  · refine (silent_discrSize st _).uses_bind fun discSize => ?_
    have hfold := Uses.foldlM (W := Ty.occ c) (V := fun a => armOcc c a.2)
      (fun a var n h => uses_parseVariant st c s.1 a var h)
      (childrenWithTag st (s.1, vp) .variant) (b := (none, none)) (Nat.le_refl 0)
    refine Uses.bind (m := 0) hfold ?_
    rintro ⟨nd, arm⟩ k hk
    cases arm with
    | none => cases nd <;> exact .ret (by simp)
    | some x =>
      have hk : x.2.2.occ c ≤ k := hk
      cases nd with
      | none =>
        refine (uses_discard (x := ret _)).2 ⟨hk, .ret (by simp)⟩
      | some nd => exact .ret (by rwa [occ_opt])
  · exact .ret (by simp)

theorem uses_member (ui : ℕ) (m : Off) :
    Uses (Loops st) (Ty.occ c) (fun f => f.ty.occ c) 0 (member st ui m) := by
  refine (gives_dieNameM st _).silent.uses_bind fun name => ?_
  refine (gives_typeRefM st _).silent.uses_bind fun t => ?_
  split
  · exact .call fun t => .ret (by simp)
  · exact .ret (by simp)

theorem uses_members (ui : ℕ) (ms : List Off) :
    Uses (Loops st) (Ty.occ c) (fieldsOcc c) 0 (members st ui ms) := by
  induction ms with
  | nil => exact .ret (Nat.le_refl 0)
  | cons m ms ih =>
    refine Uses.bind (m := 0) (uses_member st c ui m) fun f k hk => ?_
    rw [Nat.add_zero, ← Nat.zero_add k]
    refine Uses.bind ih fun fs j hj => .ret ?_
    rw [fieldsOcc_cons, Nat.add_comm j k]
    exact Nat.add_le_add hk hj

theorem uses_aggregate (s : Site) (name : String) :
    Uses (Loops st) (Ty.occ c) (Ty.occ c) 0 (aggregate st s name) := by
  refine Uses.bind (m := 0) (uses_members st c s.1 _) fun fs k hk => ?_
  split
  · exact .ret (by rwa [occ_tuple, fieldsOcc_sort])
  · exact .ret (by rwa [occ_struct])

theorem uses_structure (s : Site) (name : String) :
    Uses (Loops st) (Ty.occ c) (Ty.occ c) 0 (structure' st s name) := by
  rw [structure']
  split
  · exact (silent_seqLayout st s).uses_bind fun seq => .ret (by simp)
  · split
    · exact (silent_strRefOffsets st s).uses_bind fun w => .ret (by simp)
    · split
      · exact uses_vecType st c s
      · split
        · exact uses_mapType st c s
        · split
          · exact uses_parseOption st c s _ name
          · exact uses_aggregate st c s name

/-- A body holds exactly the types it was given: each is in the result or dropped. -/
theorem uses_typeBody (s : Site) (t : DwTag) (name : String) :
    Uses (Loops st) (Ty.occ c) (Ty.occ c) 0 (typeBody st s t name) := by
  unfold typeBody
  split
  · exact .ret (by rw [occ_baseType])
  · exact uses_boxed st c s name
  · exact uses_structure st c s name
  · exact .ret (by simp)
  · exact .ret (by simp)

end Linear

end Bilbo
