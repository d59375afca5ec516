import Bilbo.TypeBody

/-!
# What the body of a type entry returns

Inversion lemmas, one for each kind of entry: from a result of the body to the lookups it
made and the types it was given, whatever answered its questions.
-/

namespace Bilbo

open Base Calls

variable {st : Store} {R : Site → Ty → Prop} {s : Site} {name : String} {ty : Ty}

theorem yields_boxed (hy : Yields R (boxed st s name) ty) :
    ty = .unknown ("*" ++ name) ∨
      ∃ pointee inner p, typeRef st s = some pointee ∧ R (s.1, pointee) inner ∧
        strip st (s.1, pointee) = ret p ∧
        ty = .boxed inner ((udata st p .byteSize).getD 0) ((udata st p .alignment).getD
          (nextPowerOfTwo (max ((udata st p .byteSize).getD 0) 1))) := by
  obtain ⟨-, hy⟩ := (gives_typeRefM st s).yields_bind hy
  split at hy
  · exact .inl (yields_ret.1 hy)
  · rename_i pointee hp
    obtain ⟨inner, hR, hy⟩ := yields_ask.1 hy
    obtain ⟨p, hs, hy⟩ := yields_bind.1 hy
    exact .inr ⟨pointee, inner, p, hp, hR, (silent_strip st _).eq_ret hs, yields_ret.1 hy⟩

theorem yields_vecType (hy : Yields R (vecType st s) ty) :
    ∃ t elem e seq, templateParam st s = some t ∧ R (s.1, t) elem ∧
      strip st (s.1, t) = ret e ∧ seqLayout st s = ret seq ∧
      ty = .vec elem ((udata st e .byteSize).getD 1) ((udata st e .alignment).getD
        (nextPowerOfTwo (max ((udata st e .byteSize).getD 1) 1))) seq := by
  obtain ⟨-, hy⟩ := (gives_templateParamM st s).yields_bind hy
  split at hy
  · exact absurd hy not_yields_stop
  · rename_i t ht
    obtain ⟨elem, hR, hy⟩ := yields_ask.1 hy
    obtain ⟨e, he, hy⟩ := yields_bind.1 hy
    obtain ⟨seq, hseq, hy⟩ := yields_bind.1 hy
    exact ⟨t, elem, e, seq, ht, hR, (silent_strip st _).eq_ret he,
      (silent_seqLayout st s).eq_ret hseq, yields_ret.1 hy⟩

theorem yields_mapType (hy : Yields R (mapType st s) ty) :
    ∃ k v key val ks vs newAt insert, templateNamed st s "K" = some k ∧
      templateNamed st s "V" = some v ∧ R (s.1, k) key ∧ R (s.1, v) val ∧
      strip st (s.1, k) = ret ks ∧ strip st (s.1, v) = ret vs ∧
      ty = .map key ((udata st ks .byteSize).getD 24) val ((udata st vs .byteSize).getD 1)
        newAt insert := by
  obtain ⟨-, hy⟩ := (gives_templateNamedM st s "K").yields_bind hy
  split at hy
  · exact absurd hy not_yields_stop
  · rename_i k hk
    obtain ⟨-, hy⟩ := (gives_templateNamedM st s "V").yields_bind hy
    split at hy
    · exact absurd hy not_yields_stop
    · rename_i v hv
      obtain ⟨-, hy⟩ := (gives_dieNameM st _).yields_bind hy
      -- both parameters are there: the key and the value, then the two trampolines
      obtain ⟨key, hkey, hy⟩ := yields_ask.1 hy
      obtain ⟨ks, hks, hy⟩ := yields_bind.1 hy
      obtain ⟨val, hval, hy⟩ := yields_ask.1 hy
      obtain ⟨vs, hvs, hy⟩ := yields_bind.1 hy
      obtain ⟨newAt, -, hy⟩ := yields_bind.1 hy
      split at hy
      · exact absurd hy not_yields_stop
      · rename_i newAt
        obtain ⟨insert, -, hy⟩ := yields_bind.1 hy
        split at hy
        · exact absurd hy not_yields_stop
        · rename_i insert
          exact ⟨k, v, key, val, ks, vs, newAt, insert, hk, hv, hkey, hval,
            (silent_strip st _).eq_ret hks, (silent_strip st _).eq_ret hvs, yields_ret.1 hy⟩

/-- The `Some` arm that a variant gives: its payload struct `ps` has a field `__0` of type
`t`. -/
structure ArmOf (st : Store) (R : Site → Ty → Prop) (ui : ℕ) (v pm pstruct : Off) (ps : Site)
    (f0 t : Off) (arm : SomeArm) : Prop where
  member : childWithTag st (ui, v) .member = some pm
  payload : typeRef st (ui, pm) = some pstruct
  stripped : strip st (ui, pstruct) = ret ps
  field : ((childrenWithTag st ps .member).find? fun c => dieName st (ui, c) == some "__0") =
    some f0
  fieldTy : typeRef st (ui, f0) = some t
  discr : arm.1 = attrUdata st (ui, v) .discrValue
  offset : arm.2.1 = (udata st (ui, pm) .dataMemberLocation).getD 0 +
    (udata st (ui, f0) .dataMemberLocation).getD 0
  answer : R (ui, t) arm.2.2

/-- The `Some` arm, if there is one, comes from one of the variants. -/
def ArmFrom (st : Store) (R : Site → Ty → Prop) (ui : ℕ) (vs : List Off)
    (a : Option SomeArm) : Prop :=
  ∀ arm, a = some arm → ∃ v ∈ vs, ∃ pm pstruct ps f0 t, ArmOf st R ui v pm pstruct ps f0 t arm

theorem yields_replaceSome {old a : Option SomeArm} {new : SomeArm}
    (hy : Yields R (replaceSome old new) a) : a = some new := by
  cases old with
  | none => exact yields_ret.1 hy
  | some o => exact yields_ret.1 (yields_discard.1 hy)

theorem yields_parseVariant {ui : ℕ} {vs : List Off} {a a' : Option ℕ × Option SomeArm}
    {v : Off} (hv : v ∈ vs) (ha : ArmFrom st R ui vs a.2)
    (hy : Yields R (parseVariant st ui a v) a') : ArmFrom st R ui vs a'.2 := by
  rw [parseVariant] at hy
  split at hy
  · rwa [yields_ret.1 hy]
  · rename_i pm hpm
    obtain ⟨-, hy⟩ := (gives_typeRefM st _).yields_bind hy
    split at hy
    · rwa [yields_ret.1 hy]
    · rename_i pstruct hps
      obtain ⟨ps, hs, hy⟩ := yields_bind.1 hy
      obtain ⟨-, hy⟩ := (gives_findNamed st _ _ _).yields_bind hy
      split at hy
      · rwa [yields_ret.1 hy]
      · rename_i f0 hf0
        obtain ⟨-, hy⟩ := (gives_typeRefM st _).yields_bind hy
        split at hy
        · rwa [yields_ret.1 hy]
        · rename_i t ht
          obtain ⟨ty, hR, hy⟩ := yields_ask.1 hy
          obtain ⟨arm, harm, hy⟩ := yields_bind.1 hy
          rw [yields_ret.1 hy, yields_replaceSome harm]
          rintro _ ⟨⟩
          exact ⟨v, hv, pm, pstruct, ps, f0, t,
            ⟨hpm, hps, (silent_strip st _).eq_ret hs, hf0, ht, rfl, rfl, hR⟩⟩

theorem yields_variants {ui : ℕ} {vs : List Off} (l : List Off) (hl : ∀ v ∈ l, v ∈ vs)
    {a a' : Option ℕ × Option SomeArm} (ha : ArmFrom st R ui vs a.2)
    (hy : Yields R (l.foldlM (parseVariant st ui) a) a') : ArmFrom st R ui vs a'.2 := by
  induction l generalizing a with
  | nil => rwa [yields_ret.1 hy]
  | cons v l ih =>
    rw [List.foldlM_cons] at hy
    obtain ⟨b, hb, hy⟩ := yields_bind.1 hy
    exact ih (fun w hw => hl w (List.mem_cons_of_mem v hw))
      (yields_parseVariant (hl v List.mem_cons_self) ha hb) hy

theorem yields_parseOption {vp : Off} (hy : Yields R (parseOption st s vp name) ty) :
    ty = .unknown ("enum " ++ name) ∨
      ∃ discM discSize nd sd payloadOff inner,
        attrAt st (s.1, vp) .discr = some (.unitRef discM) ∧
        discrSize st (s.1, discM) = ret discSize ∧
        ArmFrom st R s.1 (childrenWithTag st (s.1, vp) .variant)
          (some (sd, payloadOff, inner)) ∧
        ty = .opt ((udata st (s.1, discM) .dataMemberLocation).getD 0) discSize nd sd payloadOff
          ((udata st s .byteSize).getD 0) inner := by
  rw [parseOption] at hy
  split at hy
  · rename_i discM hd
    obtain ⟨discSize, hds, hy⟩ := yields_bind.1 hy
    obtain ⟨⟨nd, arm⟩, hfold, hy⟩ := yields_bind.1 hy
    have hnone : ArmFrom st R s.1 (childrenWithTag st (s.1, vp) .variant) none :=
      fun _ h => (Option.some_ne_none _ h.symm).elim
    have harm := yields_variants _ (fun v hv => hv) hnone hfold
    -- an arm without a payload, or none at all, makes the enumeration unknown
    cases arm with
    | none =>
      cases nd with
      | none => exact .inl (yields_ret.1 hy)
      | some nd => exact .inl (yields_ret.1 hy)
    | some x =>
      cases nd with
      | none => exact .inl (yields_ret.1 (yields_discard.1 hy))
      | some nd =>
        exact .inr ⟨discM, discSize, nd, x.1, x.2.1, x.2.2, hd,
          (silent_discrSize st _).eq_ret hds, harm, yields_ret.1 hy⟩
  · exact .inl (yields_ret.1 hy)

/-- A field as a member entry gives it. -/
structure FieldFrom (st : Store) (R : Site → Ty → Prop) (ui : ℕ) (m : Off) (f : FieldTy) :
    Prop where
  name : f.name = (dieName st (ui, m)).getD ""
  offset : f.offset = (udata st (ui, m) .dataMemberLocation).getD 0
  ty : (∃ t, typeRef st (ui, m) = some t ∧ R (ui, t) f.ty) ∨
    (typeRef st (ui, m) = none ∧ f.ty = .unknown "?")

theorem yields_member {ui : ℕ} {m : Off} {f : FieldTy} (hy : Yields R (member st ui m) f) :
    FieldFrom st R ui m f := by
  obtain ⟨-, hy⟩ := (gives_dieNameM st _).yields_bind hy
  obtain ⟨-, hy⟩ := (gives_typeRefM st _).yields_bind hy
  split at hy
  · rename_i t ht
    obtain ⟨ty, hR, hy⟩ := yields_ask.1 hy
    rw [yields_ret.1 hy]
    exact ⟨rfl, rfl, .inl ⟨t, ht, hR⟩⟩
  · rename_i ht
    rw [yields_ret.1 hy]
    exact ⟨rfl, rfl, .inr ⟨ht, rfl⟩⟩

theorem yields_members {ui : ℕ} {ms : List Off} {fs : List FieldTy}
    (hy : Yields R (members st ui ms) fs) : List.Forall₂ (FieldFrom st R ui) ms fs := by
  induction ms generalizing fs with
  | nil =>
    rw [yields_ret.1 hy]
    exact .nil
  | cons m ms ih =>
    obtain ⟨f, hf, hy⟩ := yields_bind.1 hy
    obtain ⟨fs', hfs, hy⟩ := yields_bind.1 hy
    rw [yields_ret.1 hy]
    exact .cons (yields_member hf) (ih hfs)

theorem exists_member {ui : ℕ} {ms : List Off} {fs : List FieldTy}
    (hfs : List.Forall₂ (FieldFrom st R ui) ms fs) {f : FieldTy} (hf : f ∈ fs) :
    ∃ m ∈ ms, FieldFrom st R ui m f := by
  induction hfs with
  | nil => cases hf
  | @cons m g ms fs hm _ ih =>
    rcases List.mem_cons.1 hf with rfl | hf
    · exact ⟨m, List.mem_cons_self, hm⟩
    · obtain ⟨m', hm', h⟩ := ih hf
      exact ⟨m', List.mem_cons_of_mem m hm', h⟩

theorem yields_aggregate (hy : Yields R (aggregate st s name) ty) :
    ∃ fs, List.Forall₂ (FieldFrom st R s.1) (childrenWithTag st s .member) fs ∧
      (ty = .tuple (fs.insertionSort fun a b => tupleIndex a.name ≤ tupleIndex b.name) ∨
        ty = .struct name fs) := by
  obtain ⟨fs, hfs, hy⟩ := yields_bind.1 hy
  refine ⟨fs, yields_members hfs, ?_⟩
  split at hy
  · exact .inl (yields_ret.1 hy)
  · exact .inr (yields_ret.1 hy)

/-- The branch of `structure` that a result comes from. -/
theorem yields_structure (hy : Yields R (structure' st s name) ty) :
    (name = "String" ∧ ∃ seq, seqLayout st s = ret seq ∧ ty = .str seq) ∨
      (name = "&str" ∧ ∃ w, strRefOffsets st s = ret w ∧ ty = .strRef w.1 w.2) ∨
      (startsWith "Vec<" name = true ∧ Yields R (vecType st s) ty) ∨
      (startsWith "BTreeMap<" name = true ∧ Yields R (mapType st s) ty) ∨
      (∃ vp, childWithTag st s .variantPart = some vp ∧
        Yields R (parseOption st s vp name) ty) ∨
      Yields R (aggregate st s name) ty := by
  rw [structure'] at hy
  split at hy
  · rename_i hname
    obtain ⟨seq, hseq, hy⟩ := yields_bind.1 hy
    exact .inl ⟨hname, seq, (silent_seqLayout st s).eq_ret hseq, yields_ret.1 hy⟩
  · split at hy
    · rename_i hname
      obtain ⟨w, hw, hy⟩ := yields_bind.1 hy
      exact .inr (.inl ⟨hname, w, (silent_strRefOffsets st s).eq_ret hw, yields_ret.1 hy⟩)
    · split at hy
      · rename_i hname
        exact .inr (.inr (.inl ⟨hname, hy⟩))
      · split at hy
        · rename_i hname
          exact .inr (.inr (.inr (.inl ⟨hname, hy⟩)))
        · split at hy
          · rename_i vp hvp
            exact .inr (.inr (.inr (.inr (.inl ⟨vp, hvp, hy⟩))))
          · exact .inr (.inr (.inr (.inr (.inr hy))))

theorem deref_baseType (cells : Cells) : (baseType st s name).deref cells =
    some (baseType st s name) := by
  unfold baseType
  dsimp only
  repeat' split
  all_goals rfl

/-- The body of an entry is never itself a reference. -/
theorem deref_typeBody {t : DwTag} (cells : Cells) (hy : Yields R (typeBody st s t name) ty) :
    ty.deref cells = some ty := by
  unfold typeBody at hy
  split at hy
  · rw [yields_ret.1 hy]
    exact deref_baseType cells
  · obtain rfl | ⟨_, _, _, _, _, _, rfl⟩ := yields_boxed hy <;> rfl
  · obtain ⟨_, _, _, rfl⟩ | ⟨_, _, _, rfl⟩ | ⟨_, hy⟩ | ⟨_, hy⟩ | ⟨_, _, hy⟩ | hy := yields_structure hy
    · rfl
    · rfl
    · obtain ⟨_, _, _, _, _, _, _, _, rfl⟩ := yields_vecType hy
      rfl
    · obtain ⟨_, _, _, _, _, _, _, _, _, _, _, _, _, _, rfl⟩ := yields_mapType hy
      rfl
    · obtain rfl | ⟨_, _, _, _, _, _, _, _, _, rfl⟩ := yields_parseOption hy <;> rfl
    · obtain ⟨fs, -, rfl | rfl⟩ := yields_aggregate hy <;> rfl
  · rw [yields_ret.1 hy]
    rfl
  · rw [yields_ret.1 hy]
    rfl

end Bilbo
