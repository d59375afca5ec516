import Bilbo.TypeBody

/-!
# One body over two stores

Two stores with the same entries whose references lead to related entries: the bodies of an entry
ask related questions, and related answers change the result below its top constructor only, where
the two stores say the same about the targets that a body reads itself. With one store for both,
this is what other answers change.
-/

namespace Bilbo

open Base Calls

/-! ## What is read behind a reference -/

/-- The offset of a member. -/
def offsetOf (st : Store) (ui : ℕ) (m : Off) : ℕ := (udata st (ui, m) .dataMemberLocation).getD 0

/-- The discriminant member of a variant part. -/
def discrMember (st : Store) (s : Site) : Option Off :=
  match attrAt st s .discr with
  | some (.unitRef m) => some m
  | _ => none

/-- The size that a container records for an entry. -/
def recordedSize (st : Store) (default : ℕ) (e : Site) : ℕ := (udata st e .byteSize).getD default

/-- The alignment that it records for it. -/
def recordedAlign (st : Store) (default : ℕ) (e : Site) : ℕ :=
  (udata st e .alignment).getD (nextPowerOfTwo (max (recordedSize st default e) 1))

/-- The names that `structure` looks for before it reads members or a variant part. -/
def isBuiltin (name : String) : Bool :=
  name == "String" || name == "&str" || startsWith "Vec<" name || startsWith "BTreeMap<" name

section Reads

variable (st st' : Store) (K : Site → Site → Prop)

/-- `P` holds of the entries that two references lead to, each in its store. -/
def AtTargets (ui : ℕ) (P : Site → Site → Prop) (o o' : Option Off) : Prop :=
  ∀ t ∈ o, ∀ t' ∈ o', ∀ p p', strip st (ui, t) = ret p → strip st' (ui, t') = ret p' → P p p'

/-- Two entries with the same size to record. -/
def SameSize (default : ℕ) (p p' : Site) : Prop :=
  recordedSize st default p = recordedSize st' default p'

/-- Two entries with the same size and alignment to record. -/
def SameLayout (default : ℕ) (p p' : Site) : Prop :=
  SameSize st st' default p p' ∧ recordedAlign st default p = recordedAlign st' default p'

/-- Two references of members, or none. -/
def SameTypes (ui : ℕ) (m m' : Off) : Prop :=
  Option.Rel (Option.Rel fun o o' => K (ui, o) (ui, o')) (typeRefRead st (ui, m))
    (typeRefRead st' (ui, m'))

/-- As payload structs of a variant two entries say the same: neither has a member `__0`, or both
have one, at the same offset and with related types. -/
def SamePayload (ui : ℕ) (p p' : Site) : Prop :=
  Twins (Option.Rel fun m m' => offsetOf st ui m = offsetOf st' ui m' ∧ SameTypes st st' K ui m m')
    (findNamed st ui "__0" (childrenWithTag st p .member))
    (findNamed st' ui "__0" (childrenWithTag st' p' .member))

/-- A pointer, `Vec` or `BTreeMap` records the same for its parts in both stores. -/
structure ContainersAlike (s : Site) (t : DwTag) (name : String) : Prop where
  pointee : t = .pointerType →
    AtTargets st st' s.1 (SameLayout st st' 0) (typeRef st s) (typeRef st' s)
  elem : t = .structureType → startsWith "Vec<" name = true →
    AtTargets st st' s.1 (SameLayout st st' 1) (templateParam st s) (templateParam st' s)
  key : t = .structureType → startsWith "BTreeMap<" name = true →
    AtTargets st st' s.1 (SameSize st st' 24) (templateNamed st s "K") (templateNamed st' s "K")
  val : t = .structureType → startsWith "BTreeMap<" name = true →
    AtTargets st st' s.1 (SameSize st st' 1) (templateNamed st s "V") (templateNamed st' s "V")

/-- The discriminant of an enumeration has the same width in both stores, and the payload structs of
its variants say the same. -/
structure VariantsAlike (s : Site) (t : DwTag) (name : String) : Prop where
  /-- one byte is all that is kept of the width -/
  discr : t = .structureType → isBuiltin name = false → ∀ vp ∈ childWithTag st s .variantPart,
    ∀ m ∈ discrMember st (s.1, vp),
      AtTargets st st' s.1 (fun p p' => recordedSize st 8 p % 256 = recordedSize st' 8 p' % 256)
        (typeRef st (s.1, m)) (typeRef st' (s.1, m))
  payload : t = .structureType → isBuiltin name = false → ∀ vp ∈ childWithTag st s .variantPart,
    ∀ v ∈ childrenWithTag st (s.1, vp) .variant, ∀ pm ∈ childWithTag st (s.1, v) .member,
      AtTargets st st' s.1 (SamePayload st st' K s.1) (typeRef st (s.1, pm)) (typeRef st' (s.1, pm))

/-- What the body of an entry with this tag and name reads behind its references is the same in both
stores. -/
structure ReadsAlike (s : Site) (t : DwTag) (name : String) : Prop where
  containers : ContainersAlike st st' s t name
  variants : VariantsAlike st st' K s t name

/-- Two stores with the same entries, up to their types. A reference of one and the same reference
of the other are related by `K`, and `K` relates entries of one name that aliases and redirects
treat alike. -/
structure Store.Alike : Prop where
  tag : tagAt st' = tagAt st
  attr : ∀ s a, a ≠ .type → attrAt st' s a = attrAt st s a
  kids : childOffsets st' = childOffsets st
  subs : subprograms st' = subprograms st
  slide : st'.imageSlide = st.imageSlide
  name : dieNameRead st' = dieNameRead st
  type : ∀ s : Site, SameTypes st st' K s.1 s.2 s.2
  named : ∀ s s', K s s' → dieNameRead st s' = dieNameRead st s
  strip : ∀ s s', K s s' → Twins K (strip st s) (strip st' s')
  defSite : ∀ s s', K s s' → defSiteM st' s' = defSiteM st s

end Reads

/-! ## Lookups -/

section Lookups

variable {st st' : Store} {K : Site → Site → Prop}

/-- A search along origins depends on what the origins are, and on nothing else of the store. -/
theorem alongOrigins_congr {α : Type} (h : origin st' = origin st) (look : Site → Option (Option α))
    (n : ℕ) : alongOrigins st' look n = alongOrigins st look n := by
  induction n with
  | zero => rfl
  | succ n ih =>
    funext s
    simp only [alongOrigins, h, ih]

theorem twins_orHang {α : Type} {V : α → α → Prop} {x x' : Option α} (h : Option.Rel V x x') :
    Twins V (orHang x : Body α) (orHang x' : Body α) := by
  cases h with
  | none => exact .hang
  | some hv => exact .ret hv

theorem SameTypes.twins {ui : ℕ} {m m' : Off} (h : SameTypes st st' K ui m m') :
    Twins (Option.Rel fun o o' => K (ui, o) (ui, o')) (typeRefM st (ui, m)) (typeRefM st' (ui, m')) :=
  twins_orHang h

namespace Store.Alike

variable (ha : st.Alike st' K)

include ha

theorem tag_eq (s : Site) : Bilbo.tag st' s = Bilbo.tag st s := by
  rw [Bilbo.tag, Bilbo.tag, ha.tag]

theorem udata_eq (s : Site) {a : DwAt} (h : a ≠ .type) : udata st' s a = udata st s a := by
  rw [udata, udata, ha.attr s a h]

theorem attrUdata_eq (s : Site) {a : DwAt} (h : a ≠ .type) :
    attrUdata st' s a = attrUdata st s a := by
  rw [attrUdata, attrUdata, ha.attr s a h]

theorem dieNameM_eq (s : Site) : dieNameM st' s = dieNameM st s := by
  rw [dieNameM, dieNameM, ha.name]

theorem childrenWithTag_eq (s : Site) (t : DwTag) :
    childrenWithTag st' s t = childrenWithTag st s t := by
  rw [childrenWithTag, childrenWithTag, ha.kids, ha.tag]

theorem childWithTag_eq (s : Site) (t : DwTag) : childWithTag st' s t = childWithTag st s t := by
  rw [childWithTag, childWithTag, ha.childrenWithTag_eq]

theorem typeRefM (s : Site) :
    Twins (Option.Rel fun o o' => K (s.1, o) (s.1, o')) (typeRefM st s) (typeRefM st' s) :=
  (ha.type s).twins

theorem templateParamM (s : Site) :
    Twins (Option.Rel fun o o' => K (s.1, o) (s.1, o')) (templateParamM st s)
      (templateParamM st' s) := by
  rw [Bilbo.templateParamM, Bilbo.templateParamM, ha.childWithTag_eq]
  cases childWithTag st s .templateTypeParameter with
  | none => exact .ret .none
  | some c => exact ha.typeRefM (s.1, c)

theorem findNamed_eq (ui : ℕ) (want : String) (cs : List Off) :
    findNamed st' ui want cs = findNamed st ui want cs := by
  induction cs with
  | nil => rfl
  | cons c cs ih => rw [findNamed, findNamed, ha.dieNameM_eq, ih]

theorem templateNamedM (s : Site) (want : String) :
    Twins (Option.Rel fun o o' => K (s.1, o) (s.1, o')) (templateNamedM st s want)
      (templateNamedM st' s want) := by
  rw [Bilbo.templateNamedM, Bilbo.templateNamedM, ha.childrenWithTag_eq, ha.findNamed_eq]
  refine (gives_findNamed st s.1 want _).silent.twins.bind ?_
  rintro c _ rfl
  cases c with
  | none => exact .ret .none
  | some c => exact ha.typeRefM (s.1, c)

/-- The words of a type are found by way of related entries. -/
theorem walkSeq (k : ℕ) {s s' : Site} (hs : K s s') (base : ℕ) (sl : SeqLayout) :
    Twins Eq (walkSeq st k s base sl) (walkSeq st' k s' base sl) := by
  induction k generalizing s s' base sl with
  | zero => exact .ret rfl
  | succ k ih =>
    rw [Bilbo.walkSeq, Bilbo.walkSeq]
    refine (ha.strip s s' hs).bind fun p p' hp => ?_
    rw [ha.defSite p p' hp]
    refine (gives_defSiteM st p).silent.twins.bind ?_
    rintro q _ rfl
    rw [ha.tag_eq]
    refine (silent_tag (L := True) st q).twins.bind ?_
    rintro t _ rfl
    split
    · exact .ret rfl
    · split
      · rw [ha.childrenWithTag_eq]
        refine Rel.foldlM (fun sl sl' m hsl => ?_) _ rfl
        subst hsl
        dsimp only
        rw [ha.udata_eq _ (show DwAt.dataMemberLocation ≠ .type by decide), ha.dieNameM_eq]
        refine (gives_dieNameM st _).silent.twins.bind ?_
        rintro name _ rfl
        split
        · exact .ret rfl
        · split
          · exact .ret rfl
          · refine (ha.typeRefM (q.1, m)).bind fun o o' ho => ?_
            cases ho with
            | none => exact .ret rfl
            | some hmt => exact ih hmt _ _
      · exact .ret rfl

theorem seqLayout {s s' : Site} (hs : K s s') : Twins Eq (seqLayout st s) (seqLayout st' s') := by
  refine (ha.walkSeq 17 hs _ _).bind ?_
  rintro sl _ rfl
  split
  · exact .ret rfl
  · exact .stop _

theorem strRefOffsets_eq (s : Site) : strRefOffsets st' s = strRefOffsets st s := by
  have hoff (m : Off) : udata st' (s.1, m) .dataMemberLocation = udata st (s.1, m) .dataMemberLocation :=
    ha.udata_eq _ (by decide)
  simp only [strRefOffsets, ha.childrenWithTag_eq, ha.dieNameM_eq, hoff]

theorem resolveTramp_eq (fnPrefix vName : String) (matchV : Bool) :
    resolveTramp st' fnPrefix vName matchV = resolveTramp st fnPrefix vName matchV := by
  have hhere (want : List Char) (s : Site) :
      trampHere st' fnPrefix want matchV s = trampHere st fnPrefix want matchV s := by
    simp only [trampHere, ha.dieNameM_eq, ha.attr s .lowPc (by decide), ha.slide]
  rw [resolveTramp, resolveTramp, ha.subs, funext (hhere _)]

theorem baseType_eq (s : Site) (name : String) : baseType st' s name = baseType st s name := by
  rw [baseType, baseType, ha.udata_eq _ (by decide), ha.attr s .encoding (by decide)]

end Store.Alike

end Lookups

/-! ## Related bodies -/

section Bodies

variable (S : Ty → Ty → Prop)

/-- Fields with the same name and offset and related types. -/
structure FieldRel (f f' : FieldTy) : Prop where
  name : f.name = f'.name
  offset : f.offset = f'.offset
  ty : S f.ty f'.ty

/-- Types with the same top, over related types. -/
inductive Below : Ty → Ty → Prop
  | leaf {b : Ty} : b.kids = [] → Below b b
  | struct {name : String} {fs fs' : List FieldTy} : List.Forall₂ (FieldRel S) fs fs' →
      Below (.struct name fs) (.struct name fs')
  | tuple {fs fs' : List FieldTy} : List.Forall₂ (FieldRel S) fs fs' →
      Below (.tuple fs) (.tuple fs')
  | vec {e e' : Ty} {esz eal : ℕ} {seq : SeqLayout} : S e e' →
      Below (.vec e esz eal seq) (.vec e' esz eal seq)
  | boxed {i i' : Ty} {size align : ℕ} : S i i' →
      Below (.boxed i size align) (.boxed i' size align)
  | opt {i i' : Ty} {d ds nd po size : ℕ} {sd : Option ℕ} : S i i' →
      Below (.opt d ds nd sd po size i) (.opt d ds nd sd po size i')
  | map {k k' v v' : Ty} {ks vs na ins : ℕ} : S k k' → S v v' →
      Below (.map k ks v vs na ins) (.map k' ks v' vs na ins)

variable {st st' : Store} {K : Site → Site → Prop} (ha : st.Alike st' K)

include ha

theorem rel_boxed (s : Site) (name : String)
    (hr : AtTargets st st' s.1 (SameLayout st st' 0) (typeRef st s) (typeRef st' s)) :
    Rel K S (Below S) (boxed st s name) (boxed st' s name) := by
  refine (ha.typeRefM s).results.rel.bind ?_
  rintro o o' ⟨ho, hret, hret'⟩
  rw [← (gives_typeRefM st s).eq_of_ret hret, ← (gives_typeRefM st' s).eq_of_ret hret'] at hr
  cases ho with
  | none => exact .ret (.leaf rfl)
  | some hk =>
    refine .call hk fun t t' ht => (ha.strip _ _ hk).results.rel.bind ?_
    rintro p p' ⟨-, hp, hp'⟩
    obtain ⟨hsize, halign⟩ := hr _ rfl _ rfl p p' hp hp'
    show Rel K S (Below S) (ret (.boxed t (recordedSize st 0 p) (recordedAlign st 0 p)))
      (ret (.boxed t' (recordedSize st' 0 p') (recordedAlign st' 0 p')))
    rw [← hsize, ← halign]
    exact .ret (.boxed ht)

theorem rel_vecType (s : Site) (hs : K s s)
    (hr : AtTargets st st' s.1 (SameLayout st st' 1) (templateParam st s) (templateParam st' s)) :
    Rel K S (Below S) (vecType st s) (vecType st' s) := by
  refine (ha.templateParamM s).results.rel.bind ?_
  rintro o o' ⟨ho, hret, hret'⟩
  rw [← (gives_templateParamM st s).eq_of_ret hret,
    ← (gives_templateParamM st' s).eq_of_ret hret'] at hr
  cases ho with
  | none => exact .stop _
  | some hk =>
    refine .call hk fun t t' ht => (ha.strip _ _ hk).results.rel.bind ?_
    rintro p p' ⟨-, hp, hp'⟩
    obtain ⟨hsize, halign⟩ := hr _ rfl _ rfl p p' hp hp'
    refine (ha.seqLayout hs).rel.bind ?_
    rintro seq _ rfl
    show Rel K S (Below S) (ret (.vec t (recordedSize st 1 p) (recordedAlign st 1 p) seq))
      (ret (.vec t' (recordedSize st' 1 p') (recordedAlign st' 1 p') seq))
    rw [← hsize, ← halign]
    exact .ret (.vec ht)

theorem rel_mapType (s : Site)
    (hkey : AtTargets st st' s.1 (SameSize st st' 24) (templateNamed st s "K")
      (templateNamed st' s "K"))
    (hval : AtTargets st st' s.1 (SameSize st st' 1) (templateNamed st s "V")
      (templateNamed st' s "V")) :
    Rel K S (Below S) (mapType st s) (mapType st' s) := by
  refine (ha.templateNamedM s "K").results.rel.bind ?_
  rintro o o' ⟨ho, hret, hret'⟩
  rw [← (gives_templateNamedM st s "K").eq_of_ret hret,
    ← (gives_templateNamedM st' s "K").eq_of_ret hret'] at hkey
  cases ho with
  | none => exact .stop _
  | some hk =>
    refine (ha.templateNamedM s "V").results.rel.bind ?_
    rintro w w' ⟨hw, hretv, hretv'⟩
    rw [← (gives_templateNamedM st s "V").eq_of_ret hretv,
      ← (gives_templateNamedM st' s "V").eq_of_ret hretv'] at hval
    cases hw with
    | none => exact .stop _
    | @some v v' hv =>
      -- the trampolines are found by the name of the value type
      have hname : dieNameM st' (s.1, v') = dieNameM st (s.1, v) := by
        rw [ha.dieNameM_eq, dieNameM, dieNameM, ha.named _ _ hv]
      dsimp only
      rw [hname]
      refine (gives_dieNameM st _).silent.twins.rel.bind ?_
      rintro vName _ rfl
      refine .call hk fun key key' hkk => (ha.strip _ _ hk).results.rel.bind ?_
      rintro p p' ⟨-, hp, hp'⟩
      refine .call hv fun val val' hvv => (ha.strip _ _ hv).results.rel.bind ?_
      rintro q q' ⟨-, hq, hq'⟩
      have hks : SameSize st st' 24 p p' := hkey _ rfl _ rfl p p' hp hp'
      have hvs : SameSize st st' 1 q q' := hval _ rfl _ rfl q q' hq hq'
      rw [ha.resolveTramp_eq]
      refine (silent_resolveTramp st _ _ _).twins.rel.bind ?_
      rintro newAt _ rfl
      cases newAt with
      | none => exact .stop _
      | some newAt =>
        dsimp only
        rw [ha.resolveTramp_eq]
        refine (silent_resolveTramp st _ _ _).twins.rel.bind ?_
        rintro insert _ rfl
        cases insert with
        | none => exact .stop _
        | some insert =>
          show Rel K S (Below S)
            (ret (.map key (recordedSize st 24 p) val (recordedSize st 1 q) newAt insert))
            (ret (.map key' (recordedSize st' 24 p') val' (recordedSize st' 1 q') newAt insert))
          rw [← hks, ← hvs]
          exact .ret (.map hkk hvv)

omit ha

/-- `Some` arms with related types. -/
structure ArmRel (a a' : SomeArm) : Prop where
  discr : a.1 = a'.1
  offset : a.2.1 = a'.2.1
  ty : S a.2.2 a'.2.2

/-- Related states of `parse_option`. -/
abbrev Arms (a a' : Option ℕ × Option SomeArm) : Prop :=
  a.1 = a'.1 ∧ Option.Rel (ArmRel S) a.2 a'.2

theorem rel_replaceSome {old old' : Option SomeArm} {new new' : SomeArm}
    (hold : Option.Rel (ArmRel S) old old') (hnew : ArmRel S new new') :
    Rel K S (Option.Rel (ArmRel S)) (replaceSome old new) (replaceSome old' new') := by
  cases hold with
  | none => exact .ret (.some hnew)
  | some h => exact .discard h.ty (.ret (.some hnew))

include ha

theorem rel_parseVariant (ui : ℕ) {a a' : Option ℕ × Option SomeArm} (var : Off)
    (harms : Arms S a a')
    (hr : ∀ pm ∈ childWithTag st (ui, var) .member, AtTargets st st' ui (SamePayload st st' K ui)
      (typeRef st (ui, pm)) (typeRef st' (ui, pm))) :
    Rel K S (Arms S) (parseVariant st ui a var) (parseVariant st' ui a' var) := by
  rw [parseVariant, parseVariant, ha.childWithTag_eq, ha.attrUdata_eq _ (by decide)]
  cases hpm : childWithTag st (ui, var) .member with
  | none => exact .ret harms
  | some pm =>
    dsimp only
    rw [ha.udata_eq _ (by decide)]
    have hr := hr pm hpm
    refine (ha.typeRefM (ui, pm)).results.rel.bind ?_
    rintro o o' ⟨ho, hret, hret'⟩
    rw [← (gives_typeRefM st _).eq_of_ret hret, ← (gives_typeRefM st' _).eq_of_ret hret'] at hr
    cases ho with
    | none => exact .ret harms
    | some hk =>
      refine (ha.strip _ _ hk).results.rel.bind ?_
      rintro p p' ⟨-, hp, hp'⟩
      refine (hr _ rfl _ rfl p p' hp hp').rel.bind fun f f' hf => ?_
      cases hf with
      | none => exact .ret ⟨rfl, harms.2⟩
      | @some f f' hf =>
        refine hf.2.twins.rel.bind fun u u' hu => ?_
        cases hu with
        | none => exact .ret harms
        | some hk' =>
          refine .call hk' fun t t' ht => ?_
          have hnew : ArmRel S
              (attrUdata st (ui, var) .discrValue, offsetOf st ui pm + offsetOf st ui f, t)
              (attrUdata st (ui, var) .discrValue, offsetOf st ui pm + offsetOf st' ui f', t') :=
            ⟨rfl, by rw [hf.1], ht⟩
          exact (rel_replaceSome S harms.2 hnew).bind fun arm arm' harm => .ret ⟨harms.1, harm⟩

theorem twins_discrSize (s : Site)
    (hr : AtTargets st st' s.1 (fun p p' => recordedSize st 8 p % 256 = recordedSize st' 8 p' % 256)
      (typeRef st s) (typeRef st' s)) :
    Twins Eq (discrSize st s) (discrSize st' s) := by
  refine (ha.typeRefM s).results.bind ?_
  rintro o o' ⟨ho, hret, hret'⟩
  rw [← (gives_typeRefM st s).eq_of_ret hret, ← (gives_typeRefM st' s).eq_of_ret hret'] at hr
  cases ho with
  | none => exact .ret rfl
  | some hk =>
    refine (ha.strip _ _ hk).results.bind ?_
    rintro p p' ⟨-, hp, hp'⟩
    exact .ret (hr _ rfl _ rfl p p' hp hp')

theorem rel_parseOption (s : Site) (vp : Off) (name : String)
    (hdiscr : ∀ m ∈ discrMember st (s.1, vp),
      AtTargets st st' s.1 (fun p p' => recordedSize st 8 p % 256 = recordedSize st' 8 p' % 256)
        (typeRef st (s.1, m)) (typeRef st' (s.1, m)))
    (hpayload : ∀ v ∈ childrenWithTag st (s.1, vp) .variant,
      ∀ pm ∈ childWithTag st (s.1, v) .member, AtTargets st st' s.1 (SamePayload st st' K s.1)
        (typeRef st (s.1, pm)) (typeRef st' (s.1, pm))) :
    Rel K S (Below S) (parseOption st s vp name) (parseOption st' s vp name) := by
  rw [parseOption, parseOption, ha.attr _ _ (by decide), ha.udata_eq _ (by decide),
    ha.childrenWithTag_eq]
  unfold discrMember at hdiscr
  split
  · rename_i discM hd
    rw [hd] at hdiscr
    rw [ha.udata_eq _ (by decide)]
    refine (twins_discrSize ha _ (hdiscr discM rfl)).rel.bind ?_
    rintro discSize _ rfl
    have hfold (l : List Off) (hl : ∀ v ∈ l, v ∈ childrenWithTag st (s.1, vp) .variant)
        {a a' : Option ℕ × Option SomeArm} (harms : Arms S a a') :
        Rel K S (Arms S) (l.foldlM (parseVariant st s.1) a) (l.foldlM (parseVariant st' s.1) a') := by
      induction l generalizing a a' with
      | nil => exact .ret harms
      | cons v l ih =>
        rw [List.foldlM_cons, List.foldlM_cons]
        exact (rel_parseVariant S ha s.1 v harms (hpayload v (hl v List.mem_cons_self))).bind
          fun b b' hb => ih (fun w hw => hl w (List.mem_cons_of_mem v hw)) hb
    refine (hfold _ (fun _ hv => hv) ⟨rfl, .none⟩).bind ?_
    rintro ⟨nd, arm⟩ ⟨nd', arm'⟩ ⟨hnd, harm⟩
    dsimp only at hnd harm
    subst hnd
    cases harm with
    | none => cases nd <;> exact .ret (.leaf rfl)
    | @some x x' hx =>
      obtain ⟨sd, off, inner⟩ := x
      obtain ⟨sd', off', inner'⟩ := x'
      obtain ⟨hsd, hoff, hinner⟩ := hx
      dsimp only at hsd hoff hinner
      subst hsd hoff
      cases nd with
      | none => exact .discard hinner (.ret (.leaf rfl))
      | some nd => exact .ret (.opt hinner)
  · exact .ret (.leaf rfl)

variable {S} (hS : S (.unknown "?") (.unknown "?"))

include hS

theorem rel_member (ui : ℕ) (m : Off) :
    Rel K S (FieldRel S) (member st ui m) (member st' ui m) := by
  rw [member, member, ha.dieNameM_eq, ha.udata_eq _ (by decide)]
  refine (gives_dieNameM st _).silent.twins.rel.bind ?_
  rintro name _ rfl
  refine (ha.typeRefM (ui, m)).rel.bind fun o o' ho => ?_
  cases ho with
  | none => exact .ret ⟨rfl, rfl, hS⟩
  | some hk => exact .call hk fun t t' ht => .ret ⟨rfl, rfl, ht⟩

theorem rel_members (ui : ℕ) (ms : List Off) :
    Rel K S (List.Forall₂ (FieldRel S)) (members st ui ms) (members st' ui ms) := by
  induction ms with
  | nil => exact .ret .nil
  | cons m ms ih =>
    exact (rel_member ha hS ui m).bind fun f f' hf => ih.bind fun fs fs' hfs =>
      .ret (.cons hf hfs)

omit ha hS

/-- Sorting by name sorts related fields in the same way. -/
theorem FieldRel.sort {fs fs' : List FieldTy} (h : List.Forall₂ (FieldRel S) fs fs') :
    List.Forall₂ (FieldRel S)
      (fs.insertionSort fun a b => tupleIndex a.name ≤ tupleIndex b.name)
      (fs'.insertionSort fun a b => tupleIndex a.name ≤ tupleIndex b.name) := by
  have hinsert {f f' : FieldTy} (hf : FieldRel S f f') {l l' : List FieldTy}
      (hl : List.Forall₂ (FieldRel S) l l') :
      List.Forall₂ (FieldRel S)
        (l.orderedInsert (fun a b => tupleIndex a.name ≤ tupleIndex b.name) f)
        (l'.orderedInsert (fun a b => tupleIndex a.name ≤ tupleIndex b.name) f') := by
    induction hl with
    | nil => exact .cons hf .nil
    | @cons g g' l l' hg hl ih =>
      rw [List.orderedInsert, List.orderedInsert, hf.name, hg.name]
      split
      · exact .cons hf (.cons hg hl)
      · exact .cons hg ih
  induction h with
  | nil => exact .nil
  | cons hf _ ih => exact hinsert hf ih

include ha hS

theorem rel_aggregate (s : Site) (name : String) :
    Rel K S (Below S) (aggregate st s name) (aggregate st' s name) := by
  rw [aggregate, aggregate, ha.childrenWithTag_eq]
  refine (rel_members ha hS s.1 _).bind fun fs fs' h => ?_
  have hall : (fs.all fun f => isTupleName f.name) = fs'.all fun f => isTupleName f.name := by
    induction h with
    | nil => rfl
    | cons hf _ ih => rw [List.all_cons, List.all_cons, hf.name, ih]
  have hnil : fs = [] ↔ fs' = [] := by
    cases h with
    | nil => rfl
    | cons _ _ => exact ⟨nofun, nofun⟩
  have hcond : (fs ≠ [] ∧ fs.all fun f => isTupleName f.name) ↔
      (fs' ≠ [] ∧ fs'.all fun f => isTupleName f.name) := by
    rw [hall, ne_eq, ne_eq, hnil]
  by_cases hc : fs ≠ [] ∧ fs.all fun f => isTupleName f.name
  · rw [if_pos hc, if_pos (hcond.1 hc)]
    exact .ret (.tuple (FieldRel.sort h))
  · rw [if_neg hc, if_neg fun h' => hc (hcond.2 h')]
    exact .ret (.struct h)

theorem rel_structure (s : Site) (hs : K s s) (name : String)
    (hr : ReadsAlike st st' K s .structureType name) :
    Rel K S (Below S) (structure' st s name) (structure' st' s name) := by
  rw [structure', structure', ha.strRefOffsets_eq, ha.childWithTag_eq]
  by_cases hstring : name = "String"
  · rw [if_pos hstring, if_pos hstring]
    refine (ha.seqLayout hs).rel.bind ?_
    rintro seq _ rfl
    exact .ret (.leaf rfl)
  rw [if_neg hstring, if_neg hstring]
  by_cases hstr : name = "&str"
  · rw [if_pos hstr, if_pos hstr]
    refine (silent_strRefOffsets st s).twins.rel.bind ?_
    rintro w _ rfl
    exact .ret (.leaf rfl)
  rw [if_neg hstr, if_neg hstr]
  by_cases hvec : startsWith "Vec<" name = true
  · rw [if_pos hvec, if_pos hvec]
    exact rel_vecType S ha s hs (hr.containers.elem rfl hvec)
  rw [if_neg hvec, if_neg hvec]
  by_cases hmap : startsWith "BTreeMap<" name = true
  · rw [if_pos hmap, if_pos hmap]
    exact rel_mapType S ha s (hr.containers.key rfl hmap) (hr.containers.val rfl hmap)
  rw [if_neg hmap, if_neg hmap]
  have hplain : isBuiltin name = false := by simp [isBuiltin, hstring, hstr, hvec, hmap]
  cases hvp : childWithTag st s .variantPart with
  | some vp =>
    exact rel_parseOption S ha s vp name (hr.variants.discr rfl hplain vp hvp)
      (hr.variants.payload rfl hplain vp hvp)
  | none => exact rel_aggregate ha hS s name

omit ha hS in
theorem kids_baseType (s : Site) (name : String) : (baseType st s name).kids = [] := by
  unfold baseType
  dsimp only
  repeat' split
  all_goals rfl

/-- Classifying with related answers gives results with the same top over related types. -/
theorem rel_typeBody (s : Site) (hs : K s s) (t : DwTag) (name : String)
    (hr : ReadsAlike st st' K s t name) :
    Rel K S (Below S) (typeBody st s t name) (typeBody st' s t name) := by
  unfold typeBody
  split
  · rw [ha.baseType_eq]
    exact .ret (.leaf (kids_baseType s name))
  · exact rel_boxed S ha s name (hr.containers.pointee rfl)
  · exact rel_structure ha hS s hs name hr
  · exact .ret (.leaf rfl)
  · exact .ret (.leaf rfl)

end Bodies

/-! ## A store beside itself -/

section Self

variable (st : Store)

theorem atTargets_self (ui : ℕ) {P : Site → Site → Prop} (hP : ∀ p, P p p) (o : Option Off) :
    AtTargets st st ui P o o := by
  intro t ht t' ht' p p' hp hp'
  obtain rfl := Option.mem_unique ht ht'
  rw [hp] at hp'
  cases hp'
  exact hP p

theorem sameTypes_self (ui : ℕ) (m : Off) : SameTypes st st Eq ui m m := by
  have hrefl (o : Option Off) : Option.Rel (fun o o' => (ui, o) = (ui, o')) o o := by
    cases o with
    | none => exact .none
    | some o => exact .some rfl
  unfold SameTypes
  cases typeRefRead st (ui, m) with
  | none => exact .none
  | some o => exact .some (hrefl o)

theorem alike_self : st.Alike st Eq where
  tag := rfl
  attr _ _ _ := rfl
  kids := rfl
  subs := rfl
  slide := rfl
  name := rfl
  type s := sameTypes_self st s.1 s.2
  named _ _ h := by rw [h]
  strip s _ h := h ▸ (silent_strip st s).twins
  defSite _ _ h := by rw [h]

theorem samePayload_self (ui : ℕ) (p : Site) : SamePayload st st Eq ui p p := by
  refine (gives_findNamed st ui "__0" _).silent.twins.mono (fun _ _ h => h) ?_
  rintro m _ rfl
  cases m with
  | none => exact .none
  | some m => exact .some ⟨rfl, sameTypes_self st ui m⟩

theorem readsAlike_self (s : Site) (t : DwTag) (name : String) : ReadsAlike st st Eq s t name where
  containers := {
    pointee := fun _ => atTargets_self st _ (fun _ => ⟨rfl, rfl⟩) _
    elem := fun _ _ => atTargets_self st _ (fun _ => ⟨rfl, rfl⟩) _
    key := fun _ _ => atTargets_self st _ (P := SameSize st st 24) (fun _ => rfl) _
    val := fun _ _ => atTargets_self st _ (P := SameSize st st 1) (fun _ => rfl) _ }
  variants := {
    discr := fun _ _ _ _ _ _ => atTargets_self st _
      (P := fun p p' => recordedSize st 8 p % 256 = recordedSize st 8 p' % 256) (fun _ => rfl) _
    payload := fun _ _ _ _ _ _ _ _ => atTargets_self st _ (samePayload_self st _) _ }

end Self

end Bilbo
