import Bilbo.Extent

/-!
# Which enums become options

`parse_option` keeps two accumulators while it goes over the variants of an enum, and each
variant overwrites one of them: a variant whose payload struct has a member `__0` gives the
`Some` arm, any other payload gives the discriminant of `None`. What is left behind at the end
decides, so an enum of any number of variants becomes a `Ty::Opt` as soon as both arms were
seen.
-/

namespace Bilbo

open Base Calls Comp

/-! ## What the variants look like -/

section Variants

variable (st : Store) (ui : ℕ)

/-- The payload struct of a variant. -/
def payloadOf (v : Off) : Option Site := do
  let pm ← childWithTag st (ui, v) .member
  let t ← typeRef st (ui, pm)
  stripped st (ui, t)

/-- The payload struct has a member `__0` with a type. -/
def carriesData (v : Off) : Bool :=
  ((payloadOf st ui v).bind fun ps =>
    (payloadField st ps).bind fun f0 => typeRef st (ps.1, f0)).isSome

/-- There is a payload struct, and it has no member `__0`. -/
def lacksData (v : Off) : Bool :=
  (payloadOf st ui v).any fun ps => (payloadField st ps).isNone

/-- The variants of a variant part. -/
def variants (vp : Off) : List Off := childrenWithTag st (ui, vp) .variant

/-- The names of the members of a payload struct. -/
def memberNames (ps : Site) : List (Option String) :=
  (childrenWithTag st ps .member).map fun c => dieName st (ps.1, c)

/-- The member names of each payload struct of an enum. -/
def shapes (vp : Off) : List (Option (List (Option String))) :=
  (variants st ui vp).map fun v => (payloadOf st ui v).map (memberNames st)

/-- Two variants, one with no member in its payload struct and one with `__0` alone. -/
def OptionShaped (vp : Off) : Prop :=
  shapes st ui vp = [some [], some [some "__0"]] ∨ shapes st ui vp = [some [some "__0"], some []]

instance (vp : Off) : Decidable (OptionShaped st ui vp) :=
  inferInstanceAs (Decidable (_ ∨ _))

/-- A discriminant member, a variant that carries data, and a discriminant value on the last
variant that carries none. -/
def BothArms (vp : Off) : Prop :=
  (discrMember st (ui, vp)).isSome = true ∧ (∃ v ∈ variants st ui vp, carriesData st ui v = true) ∧
    ∃ v ∈ ((variants st ui vp).filter (lacksData st ui)).getLast?,
      (attrUdata st (ui, v) .discrValue).isSome = true

end Variants

/-! ## The loop over the variants -/

variable {st : Store} {R : Site → Ty → Prop} {ui : ℕ}

/-- The two accumulators after a list of variants: the discriminant of the last variant that
carries no data, and whether some variant carries data. -/
structure ArmsAfter (st : Store) (ui : ℕ) (vs : List Off) (a b : Option ℕ × Option SomeArm) :
    Prop where
  none : b.1 = ((vs.filter (lacksData st ui)).getLast?).elim a.1
    fun v => attrUdata st (ui, v) .discrValue
  some : b.2.isSome = (a.2.isSome || vs.any (carriesData st ui))

theorem ArmsAfter.cons {v : Off} {vs : List Off} {a b c : Option ℕ × Option SomeArm}
    (h : ArmsAfter st ui [v] a b) (hs : ArmsAfter st ui vs b c) :
    ArmsAfter st ui (v :: vs) a c := by
  constructor
  · rw [hs.none, h.none]
    by_cases hv : lacksData st ui v = true
    · rw [List.filter_cons_of_pos hv, List.filter_cons_of_pos hv]
      rcases hl : vs.filter (lacksData st ui) with _ | ⟨w, ws⟩
      · rfl
      · rw [List.getLast?_cons_cons]
        rw [List.getLast?_eq_getLast_of_ne_nil (List.cons_ne_nil w ws)]
        rfl
    · rw [List.filter_cons_of_neg hv, List.filter_cons_of_neg hv]
      rfl
  · rw [hs.some, h.some, List.any_cons, List.any_cons, List.any_nil, Bool.or_false,
      Bool.or_assoc]

/-- A variant without a payload struct changes nothing. -/
theorem armsAfter_skipped {v : Off} (hv : payloadOf st ui v = none)
    (a : Option ℕ × Option SomeArm) : ArmsAfter st ui [v] a a := by
  have hlacks : lacksData st ui v = false := by
    unfold lacksData
    rw [hv]
    rfl
  have hcarries : carriesData st ui v = false := by
    unfold carriesData
    rw [hv]
    rfl
  constructor
  · rw [List.filter_cons_of_neg (by rw [hlacks]; exact Bool.false_ne_true)]
    rfl
  · rw [List.any_cons, hcarries, List.any_nil, Bool.or_self, Bool.or_false]

theorem armsAfter_variant {v : Off} {a b : Option ℕ × Option SomeArm}
    (hy : Yields R (parseVariant st ui a v) b) : ArmsAfter st ui [v] a b := by
  unfold parseVariant at hy
  dsimp only at hy
  rcases hpm : childWithTag st (ui, v) .member with _ | pm
  · rw [hpm] at hy
    rw [yields_ret.1 hy]
    apply armsAfter_skipped
    unfold payloadOf
    rw [hpm]
    rfl
  rw [hpm] at hy
  obtain ⟨-, hy⟩ := (gives_typeRefM st (ui, pm)).yields_bind hy
  rcases hps : typeRef st (ui, pm) with _ | pstruct
  · rw [hps] at hy
    rw [yields_ret.1 hy]
    apply armsAfter_skipped
    unfold payloadOf
    rw [hpm]
    show (typeRef st (ui, pm)).bind _ = _
    rw [hps]
    rfl
  rw [hps] at hy
  obtain ⟨ps, hs, hy⟩ := yields_bind.1 hy
  have hstrip : strip st (ui, pstruct) = ret ps := (silent_strip st _).eq_ret hs
  have hunit : ps.1 = ui := strip_unit hstrip
  have hpayload : payloadOf st ui v = some ps := by
    unfold payloadOf
    rw [hpm]
    show (typeRef st (ui, pm)).bind _ = _
    rw [hps]
    exact (stripped_eq_some st).2 hstrip
  have hfield : ((childrenWithTag st ps .member).find? fun c =>
      dieName st (ui, c) == some "__0") = payloadField st ps := by
    unfold payloadField
    rw [hunit]
  obtain ⟨-, hy⟩ := (gives_findNamed st ui "__0" _).yields_bind hy
  rw [hfield] at hy
  rcases hf : payloadField st ps with _ | f0
  · -- no `__0`: the discriminant is overwritten
    have hlacks : lacksData st ui v = true := by
      unfold lacksData
      rw [hpayload]
      show (payloadField st ps).isNone = true
      rw [hf]
      rfl
    have hcarries : carriesData st ui v = false := by
      unfold carriesData
      rw [hpayload]
      show ((payloadField st ps).bind _).isSome = false
      rw [hf]
      rfl
    rw [hf] at hy
    rw [yields_ret.1 hy]
    constructor
    · rw [List.filter_cons_of_pos hlacks]
      rfl
    · rw [List.any_cons, hcarries, List.any_nil, Bool.or_self, Bool.or_false]
  · have hlacks : lacksData st ui v = false := by
      unfold lacksData
      rw [hpayload]
      show (payloadField st ps).isNone = false
      rw [hf]
      rfl
    have hcarries : carriesData st ui v = (typeRef st (ui, f0)).isSome := by
      unfold carriesData
      rw [hpayload, ← hunit]
      show ((payloadField st ps).bind _).isSome = _
      rw [hf]
      rfl
    have hnone : ((([v] : List Off).filter (lacksData st ui)).getLast?).elim a.1
        (fun v => attrUdata st (ui, v) .discrValue) = a.1 := by
      rw [List.filter_cons_of_neg (by rw [hlacks]; exact Bool.false_ne_true)]
      rfl
    rw [hf] at hy
    obtain ⟨-, hy⟩ := (gives_typeRefM st (ui, f0)).yields_bind hy
    rcases ht : typeRef st (ui, f0) with _ | t
    · rw [ht] at hy hcarries
      rw [yields_ret.1 hy]
      refine ⟨hnone.symm, ?_⟩
      rw [List.any_cons, hcarries, List.any_nil, Bool.or_false]
      exact (Bool.or_false _).symm
    · -- the `Some` arm is overwritten
      rw [ht] at hy hcarries
      obtain ⟨ty, -, hy⟩ := yields_ask.1 hy
      obtain ⟨arm, harm, hy⟩ := yields_bind.1 hy
      rw [yields_ret.1 hy, yields_replaceSome harm]
      refine ⟨hnone.symm, ?_⟩
      rw [List.any_cons, hcarries]
      exact (Bool.or_true _).symm

theorem armsAfter_variants {vs : List Off} {a b : Option ℕ × Option SomeArm}
    (hy : Yields R (vs.foldlM (parseVariant st ui) a) b) : ArmsAfter st ui vs a b := by
  induction vs generalizing a with
  | nil =>
    rw [yields_ret.1 hy]
    exact ⟨rfl, (Bool.or_false _).symm⟩
  | cons v vs ih =>
    rw [List.foldlM_cons] at hy
    obtain ⟨c, hc, hy⟩ := yields_bind.1 hy
    exact (armsAfter_variant hc).cons (ih hy)

/-! ## The verdict -/

/-- Whatever the payload types are classified as, `parse_option` makes an option exactly when
both arms were seen, and an unknown type otherwise. -/
theorem parseOption_verdict {s : Site} {vp : Off} {name : String} {ty : Ty}
    (hy : Yields R (parseOption st s vp name) ty) :
    (ty.isOpt = true ↔ BothArms st s.1 vp) ∧
      (ty.isOpt = false → ty = .unknown ("enum " ++ name)) := by
  unfold parseOption at hy
  rcases hd : discrMember st (s.1, vp) with _ | discM
  · -- no reference to a discriminant
    have hunk : ty = .unknown ("enum " ++ name) := by
      unfold discrMember at hd
      split at hd
      · cases hd
      · rename_i hne
        split at hy
        · rename_i m hm
          exact absurd hm (hne m)
        · exact yields_ret.1 hy
    rw [hunk]
    refine ⟨iff_of_false Bool.false_ne_true fun h => ?_, fun _ => rfl⟩
    rw [BothArms, hd] at h
    exact Bool.false_ne_true h.1
  have hattr : attrAt st (s.1, vp) .discr = some (.unitRef discM) := by
    unfold discrMember at hd
    split at hd
    · rename_i m hm
      cases hd
      exact hm
    · cases hd
  rw [hattr] at hy
  obtain ⟨discSize, -, hy⟩ := yields_bind.1 hy
  obtain ⟨⟨nd, arm⟩, hfold, hy⟩ := yields_bind.1 hy
  have harms : ArmsAfter st s.1 (variants st s.1 vp) (none, none) (nd, arm) :=
    armsAfter_variants hfold
  have hnd : nd.isSome = true ↔
      ∃ v ∈ ((variants st s.1 vp).filter (lacksData st s.1)).getLast?,
        (attrUdata st (s.1, v) .discrValue).isSome = true := by
    have h := harms.none
    dsimp only at h
    rw [h]
    rcases ((variants st s.1 vp).filter (lacksData st s.1)).getLast? with _ | v
    · simp
    · simp
  have harm : arm.isSome = true ↔ ∃ v ∈ variants st s.1 vp, carriesData st s.1 v = true := by
    have h := harms.some
    dsimp only at h
    rw [h]
    show ((variants st s.1 vp).any _) = true ↔ _
    exact List.any_eq_true
  have hboth : BothArms st s.1 vp ↔ arm.isSome = true ∧ nd.isSome = true := by
    rw [BothArms, hd, harm, hnd]
    exact and_iff_right rfl
  rw [hboth]
  rcases nd with _ | nd
  · have hunk : ty = .unknown ("enum " ++ name) := by
      rcases arm with _ | arm
      · exact yields_ret.1 hy
      · exact yields_ret.1 (yields_discard.1 hy)
    rw [hunk]
    exact ⟨iff_of_false Bool.false_ne_true fun h => Bool.false_ne_true h.2, fun _ => rfl⟩
  · rcases arm with _ | arm
    · rw [yields_ret.1 hy]
      exact ⟨iff_of_false Bool.false_ne_true fun h => Bool.false_ne_true h.1, fun _ => rfl⟩
    · rw [yields_ret.1 hy]
      exact ⟨iff_of_true rfl ⟨rfl, rfl⟩, fun h => absurd h.symm Bool.false_ne_true⟩

/-- A call of `parse_option` that returns makes an option only of an option-shaped enum, and
an unknown type of every other, exactly when the enum is option-shaped or does not have both
arms. -/
theorem parseOption_shaped_iff (st : Store) (s : Site) (vp : Off) (name : String) (d : ℕ)
    (h h' : Heap) (ty : Ty)
    (hrun : ((parseOption st s vp name).exec (classify st d) dropTy).run h = (.done ty, h')) :
    ((ty.isOpt = true → OptionShaped st s.1 vp) ∧
      (¬ OptionShaped st s.1 vp → ty = .unknown ("enum " ++ name))) ↔
      OptionShaped st s.1 vp ∨ ¬ BothArms st s.1 vp := by
  obtain ⟨hopt, hunk⟩ := parseOption_verdict (yields_of_exec hrun)
  by_cases hshape : OptionShaped st s.1 vp
  · exact iff_of_true ⟨fun _ => hshape, fun hn => absurd hshape hn⟩ (.inl hshape)
  · constructor
    · rintro ⟨himp, -⟩
      right
      intro hboth
      exact hshape (himp (hopt.2 hboth))
    · intro hcond
      have hboth : ¬ BothArms st s.1 vp := hcond.resolve_left hshape
      have hnot : ty.isOpt = false := Bool.eq_false_iff.2 fun ho => hboth (hopt.1 ho)
      exact ⟨fun ho => absurd (hopt.1 ho) hboth, fun _ => hunk hnot⟩

/-- The `Option<Box<Node>>` of a linked list. -/
theorem parseOption_shaped_iff_node :
    ∃ ty : Ty,
      ((ty.isOpt = true → OptionShaped nodeStore 0 5) ∧
        (¬ OptionShaped nodeStore 0 5 → ty = .unknown ("enum " ++ "Option<Box<Node>>"))) ↔
        OptionShaped nodeStore 0 5 ∨ ¬ BothArms nodeStore 0 5 :=
  ⟨_, parseOption_shaped_iff nodeStore (0, 4) 5 "Option<Box<Node>>" 6 Heap.initial _ _ rfl⟩

/-- `enum Level { Low, High, Exact(u64) }`, a tagged enum with two variants without data. -/
def levelStore : Store :=
  ⟨[⟨.plain 0 (.other 0x11) [] [
    .plain 1 .structureType [(.name, .string "Level"), (.byteSize, .udata 16)] [
      .plain 2 .variantPart [(.discr, .unitRef 3)] [
        .plain 3 .member [(.type, .unitRef 20), (.dataMemberLocation, .udata 0)] [],
        .plain 4 .variant [(.discrValue, .udata 0)] [
          .plain 5 .member [(.name, .string "Low"), (.type, .unitRef 10)] []],
        .plain 6 .variant [(.discrValue, .udata 1)] [
          .plain 7 .member [(.name, .string "High"), (.type, .unitRef 11)] []],
        .plain 8 .variant [(.discrValue, .udata 2)] [
          .plain 9 .member [(.name, .string "Exact"), (.type, .unitRef 12)] []]],
      .plain 10 .structureType [(.name, .string "Low"), (.byteSize, .udata 16)] [],
      .plain 11 .structureType [(.name, .string "High"), (.byteSize, .udata 16)] [],
      .plain 12 .structureType [(.name, .string "Exact"), (.byteSize, .udata 16)] [
        .plain 13 .member [(.name, .string "__0"), (.type, .unitRef 20),
          (.dataMemberLocation, .udata 8)] []]],
    u64Die 20]⟩], 0⟩

/-- It becomes an option whose `None` is `High`. -/
theorem levelStore_opt :
    ∃ h', ((parseOption levelStore (0, 1) 2 "Level").exec (classify levelStore 4) dropTy).run
        Heap.initial = (.done (.opt 0 8 1 (some 2) 8 16 (.u 8)), h') ∧
      ¬ OptionShaped levelStore 0 2 :=
  ⟨_, rfl, by decide⟩

end Bilbo
