import Mathlib.Data.List.Nodup
import Bilbo.Emit

/-!
# Key dispatch

`parse_struct` finds the field of a key in one of three ways: by one masked 8-byte word when
that much input is left, byte by byte otherwise, and from 12 fields on by a switch on the
length of the key in front of the byte comparison. Each test amounts to equality with the
bytes of the key, so each chain is a search of the field list for those bytes. The loads are
another matter: a comparison reads as many bytes as the field's name has, whatever the length
of the key.
-/

namespace Bilbo

open Base

variable {inp : Input} {kp kl : ℕ} {name : Bytes} {fields : List FieldTy}

/-! ## What the tests compare -/

theorem Input.getElem?_span (inp : Input) (c len i : ℕ) :
    (inp.span c len)[i]? = if i < len then inp.text[c + i]? else none := by
  rw [Input.span, Input.rest, List.getElem?_take, List.getElem?_drop]

/-- A byte inside a span of the input. -/
theorem Input.byte_of_span (hin : kp + kl ≤ inp.stop) {i : ℕ} (hi : i < kl) :
    some (inp.byte (kp + i)) = (inp.span kp kl)[i]? := by
  have hlt : kp + i < inp.text.length := by
    show kp + i < inp.stop
    omega
  rw [Input.getElem?_span, if_pos hi, Input.byte, List.getElem?_eq_getElem hlt]
  rfl

/-- The byte comparison is equality with the key. -/
theorem keyeq_iff (hin : kp + kl ≤ inp.stop) :
    keyeq inp kp kl name = true ↔ name = inp.span kp kl := by
  have hspan : (inp.span kp kl).length = kl := Input.length_span hin
  unfold keyeq
  rw [Bool.and_eq_true, beq_iff_eq, List.all_eq_true]
  constructor
  · rintro ⟨hlen, hall⟩
    apply List.ext_getElem?
    intro i
    by_cases hi : i < name.length
    · have hbyte := hall i (List.mem_range.2 hi)
      rw [beq_iff_eq] at hbyte
      rw [← hbyte]
      exact Input.byte_of_span hin (by omega)
    · rw [List.getElem?_eq_none (by omega), List.getElem?_eq_none (by omega)]
  · intro hname
    rw [hname, hspan]
    refine ⟨rfl, fun i hi => ?_⟩
    rw [beq_iff_eq]
    exact Input.byte_of_span hin (List.mem_range.1 hi)

/-- The bytes of the word at `kp`. -/
theorem take_keyWord (hin : kp + kl ≤ inp.stop) (h8 : kl ≤ 8) :
    ((List.range 8).map fun i => inp.byte (kp + i)).take kl = inp.span kp kl := by
  have hspan : (inp.span kp kl).length = kl := Input.length_span hin
  apply List.ext_getElem?
  intro i
  rw [List.getElem?_take]
  split_ifs with hi
  · rw [List.getElem?_map, List.getElem?_range (by omega), ← Input.byte_of_span hin hi]
    rfl
  · rw [List.getElem?_eq_none (by omega)]

/-- The mask for a name of `n` bytes, as the emitter writes it. -/
theorem mask_eq (n : ℕ) :
    (if n = 8 then 2 ^ 64 - 1 else 1 <<< (8 * n) - 1) = 2 ^ (8 * n) - 1 := by
  split_ifs with h8
  · rw [h8]
  · rw [Nat.one_shiftLeft]

/-- The word comparison is equality with the key, too. -/
theorem wordeq_iff (hin : kp + kl ≤ inp.stop) :
    wordeq inp kp kl name = true ↔ name = inp.span kp kl := by
  unfold wordeq
  by_cases h8 : name.length ≤ 8
  · have hspan : (inp.span kp kl).length = kl := Input.length_span hin
    have hwidth : name.length ≤ ((List.range 8).map fun i => inp.byte (kp + i)).length := by
      rw [List.length_map, List.length_range]
      exact h8
    rw [if_pos h8]
    dsimp only
    rw [mask_eq, keyWord, Bool.and_eq_true, beq_iff_eq, beq_iff_eq, ofLe_and_mask_eq hwidth]
    constructor
    · rintro ⟨hlen, htake⟩
      rw [← hlen, take_keyWord hin (by omega)] at htake
      exact htake.symm
    · intro hname
      have hlen : kl = name.length := by rw [hname, hspan]
      refine ⟨hlen, ?_⟩
      rw [← hlen, take_keyWord hin (by omega)]
      exact hname.symm
  · rw [if_neg h8]
    exact keyeq_iff hin

/-! ## Where the dispatch jumps -/

/-- A chain jumps to the first field that passes. -/
theorem chain_fst (test : FieldTy → Bool) (loads : FieldTy → List KeyLoad)
    (fields : List FieldTy) : (chain test loads fields).1 = fields.find? test := by
  induction fields with
  | nil => rfl
  | cons f fs ih =>
    rw [chain, List.find?_cons]
    cases test f with
    | true => rfl
    | false => exact ih

/-- Whether a field is the one a key names. -/
def named (inp : Input) (kp kl : ℕ) (f : FieldTy) : Bool := f.key == inp.span kp kl

theorem named_iff {f : FieldTy} : named inp kp kl f = true ↔ f.key = inp.span kp kl :=
  beq_iff_eq

theorem keyeq_eq_named (hin : kp + kl ≤ inp.stop) (f : FieldTy) :
    keyeq inp kp kl f.key = named inp kp kl f := by
  rw [Bool.eq_iff_iff, keyeq_iff hin, named_iff]

theorem wordeq_eq_named (hin : kp + kl ≤ inp.stop) (f : FieldTy) :
    wordeq inp kp kl f.key = named inp kp kl f := by
  rw [Bool.eq_iff_iff, wordeq_iff hin, named_iff]

/-- The dispatch jumps to one of the fields. -/
theorem dispatch_mem {f : FieldTy} (h : (dispatch inp kp kl fields).1 = some f) : f ∈ fields := by
  have hchain : ∀ {test : FieldTy → Bool} {loads : FieldTy → List KeyLoad} {l : List FieldTy},
      (chain test loads l).1 = some f → f ∈ l := by
    intro test loads l h
    rw [chain_fst] at h
    exact List.mem_of_find?_eq_some h
  rw [dispatch] at h
  split at h
  · exact List.mem_of_mem_filter (hchain h)
  · split at h <;> exact hchain h

/-- On every path, the dispatch looks the key up in the field list. -/
theorem dispatch_fst (hin : kp + kl ≤ inp.stop) :
    (dispatch inp kp kl fields).1 = fields.find? (named inp kp kl) := by
  unfold dispatch
  split_ifs
  · -- a field in another bucket has another length, hence is not named
    rw [chain_fst, List.find?_filter]
    congr 1
    funext f
    rw [keyeq_eq_named hin, Bool.decide_and, Bool.decide_eq_true, Bool.decide_eq_true,
      Bool.and_eq_right_iff_imp]
    intro h
    rw [beq_iff_eq, named_iff.1 h, Input.length_span hin]
  · dsimp only
    rw [chain_fst]
    exact congrArg (fields.find? ·) (funext (wordeq_eq_named hin))
  · rw [chain_fst]
    exact congrArg (fields.find? ·) (funext (keyeq_eq_named hin))

/-- Fields with distinct names have distinct keys. -/
theorem key_injOn (hnames : (fields.map FieldOf.name).Nodup) {f g : FieldTy} (hf : f ∈ fields)
    (hg : g ∈ fields) (h : f.key = g.key) : f = g :=
  List.inj_on_of_nodup_map hnames hf hg (utf8_injective h)

/-- A field to show the dispatch at work. -/
def idField : FieldTy := ⟨"identifier", 0, .u 8⟩

/-- `{"a":1}` -/
def oneKey : Input := ⟨[0x7B, 0x22, 0x61, 0x22, 0x3A, 0x31, 0x7D], fun _ => 0, by decide⟩

/-- The dispatch jumps to a field exactly when the field has the key's bytes for its name, and
to the skip block exactly when none has: whatever their number, their order, the distance to
the end of the input and the memory behind it. -/
theorem dispatch_eq_lookup (inp : Input) (fields : List FieldTy)
    (hnames : (fields.map FieldOf.name).Nodup) (kp kl : ℕ) (hin : kp + kl ≤ inp.stop) :
    (∀ f, (dispatch inp kp kl fields).1 = some f ↔ f ∈ fields ∧ f.key = inp.span kp kl) ∧
    ((dispatch inp kp kl fields).1 = none ↔ ∀ f ∈ fields, f.key ≠ inp.span kp kl) := by
  rw [dispatch_fst hin]
  constructor
  · intro f
    constructor
    · intro h
      exact ⟨List.mem_of_find?_eq_some h, named_iff.1 (List.find?_some h)⟩
    · rintro ⟨hf, hkey⟩
      rcases hfind : fields.find? (named inp kp kl) with _ | g
      · exact absurd (named_iff.2 hkey) (List.find?_eq_none.1 hfind f hf)
      · have hg := named_iff.1 (List.find?_some hfind)
        have hgf : g = f :=
          key_injOn hnames (List.mem_of_find?_eq_some hfind) hf (hg.trans hkey.symm)
        rw [hgf]
  · rw [List.find?_eq_none]
    exact forall₂_congr fun f _ => not_congr named_iff

theorem dispatch_eq_lookup_oneKey :
    (∀ f, (dispatch oneKey 2 1 [idField]).1 = some f ↔
      f ∈ [idField] ∧ f.key = oneKey.span 2 1) ∧
    ((dispatch oneKey 2 1 [idField]).1 = none ↔ ∀ f ∈ [idField], f.key ≠ oneKey.span 2 1) :=
  dispatch_eq_lookup oneKey [idField] (List.nodup_singleton _) 2 1 (by decide)

/-! ## What the dispatch loads -/

/-- The fields listed before the one that a key names; all fields for an unknown key. -/
def passedOver (inp : Input) (kp kl : ℕ) (fields : List FieldTy) : List FieldTy :=
  fields.takeWhile fun f => !named inp kp kl f

/-- A load lies in the input. -/
def KeyLoad.Inside (inp : Input) (l : KeyLoad) : Prop := l.1 + l.2 ≤ inp.stop

instance (inp : Input) (l : KeyLoad) : Decidable (l.Inside inp) :=
  inferInstanceAs (Decidable (l.1 + l.2 ≤ inp.stop))

theorem inside_keyeqLoads (hkp : kp ≤ inp.stop) :
    (∀ l ∈ keyeqLoads kp name, KeyLoad.Inside inp l) ↔ kp + name.length ≤ inp.stop := by
  unfold keyeqLoads KeyLoad.Inside
  constructor
  · intro h
    -- the last byte compared is the one that may stick out
    by_cases hlen : name.length = 0
    · omega
    · have hlast : (kp + (name.length - 1), 1) ∈
          (List.range name.length).map fun i => ((kp + i, 1) : KeyLoad) :=
        List.mem_map.2 ⟨name.length - 1, List.mem_range.2 (by omega), rfl⟩
      have hin := h _ hlast
      omega
  · intro h l hl
    obtain ⟨i, hi, rfl⟩ := List.mem_map.1 hl
    have hi' := List.mem_range.1 hi
    show kp + i + 1 ≤ inp.stop
    omega

/-- A chain loads what it compares the fields up to the first match with. -/
theorem mem_chain_snd (test : FieldTy → Bool) (loads : FieldTy → List KeyLoad)
    (fields : List FieldTy) (l : KeyLoad) :
    l ∈ (chain test loads fields).2 ↔
      (∃ f ∈ fields.takeWhile fun f => !test f, l ∈ loads f) ∨
        ∃ f, fields.find? test = some f ∧ l ∈ loads f := by
  induction fields with
  | nil => simp [chain]
  | cons f fs ih =>
    rw [chain, List.find?_cons, List.takeWhile_cons]
    cases htest : test f with
    | true => simp
    | false =>
      simp only [Bool.false_eq_true, if_false, Bool.not_false, if_true,
        List.mem_append, ih, List.mem_cons]
      constructor
      · rintro (h | ⟨g, hg, h⟩ | h)
        · exact .inl ⟨f, .inl rfl, h⟩
        · exact .inl ⟨g, .inr hg, h⟩
        · exact .inr h
      · rintro (⟨g, rfl | hg, h⟩ | h)
        · exact .inl h
        · exact .inr (.inl ⟨g, hg, h⟩)
        · exact .inr (.inr h)

/-- In a chain that tests for the key's name, the match itself reads inside the key, so the
loads are inside when those of the fields passed over are. -/
theorem inside_chain (fields : List FieldTy) {test : FieldTy → Bool}
    {loads : FieldTy → List KeyLoad} (hin : kp + kl ≤ inp.stop) (htest : ∀ f, test f = named inp kp kl f)
    (hloads : ∀ f, loads f = keyeqLoads kp f.key ∨ loads f = [] ∧ kp + f.key.length ≤ inp.stop) :
    (∀ l ∈ (chain test loads fields).2, KeyLoad.Inside inp l) ↔
      ∀ f ∈ passedOver inp kp kl fields, kp + f.key.length ≤ inp.stop := by
  have hone : ∀ f, (∀ l ∈ loads f, KeyLoad.Inside inp l) ↔ kp + f.key.length ≤ inp.stop := by
    intro f
    rcases hloads f with hf | ⟨hf, hlen⟩
    · rw [hf, inside_keyeqLoads (by omega)]
    · rw [hf]
      exact iff_of_true (fun l hl => absurd hl List.not_mem_nil) hlen
  have hpassed : (fields.takeWhile fun f => !test f) = passedOver inp kp kl fields := by
    unfold passedOver
    congr 1
    funext f
    rw [htest]
  constructor
  · intro h f hf
    rw [← hone]
    intro l hl
    apply h
    rw [mem_chain_snd, hpassed]
    exact .inl ⟨f, hf, hl⟩
  · intro h l hl
    rw [mem_chain_snd, hpassed] at hl
    rcases hl with ⟨f, hf, hl⟩ | ⟨f, hf, hl⟩
    · exact (hone f).2 (h f hf) l hl
    · -- the name of the match is the key
      have hkey : f.key = inp.span kp kl := by
        rw [← named_iff, ← htest]
        exact List.find?_some hf
      have hlen : f.key.length = kl := by rw [hkey, Input.length_span hin]
      exact (hone f).2 (by omega) l hl

/-- The dispatch on a key inside the input stays inside exactly when the switch on the length
is taken, or every name that the chain passes over fits between the key's first byte and the
end of the input. -/
theorem dispatch_loads_inside_iff (inp : Input) (fields : List FieldTy) (kp kl : ℕ)
    (hin : kp + kl ≤ inp.stop) :
    (∀ l ∈ (dispatch inp kp kl fields).2, KeyLoad.Inside inp l) ↔
      switchMinFields ≤ fields.length ∨
        ∀ f ∈ passedOver inp kp kl fields, kp + f.key.length ≤ inp.stop := by
  unfold dispatch
  split_ifs with hwide hword
  · -- every name in the bucket is as long as the key
    refine iff_of_true ?_ (.inl hwide)
    rw [inside_chain (fields.filter fun f => f.key.length == kl) hin (keyeq_eq_named hin)
      fun f => .inl rfl]
    intro f hf
    have hlen := (List.mem_filter.1 (List.takeWhile_subset _ hf)).2
    rw [beq_iff_eq] at hlen
    omega
  · -- names of at most 8 bytes cost no load of their own
    have hloads : ∀ f : FieldTy, (if f.key.length ≤ 8 then [] else keyeqLoads kp f.key) =
        keyeqLoads kp f.key ∨ (if f.key.length ≤ 8 then [] else keyeqLoads kp f.key) = [] ∧
        kp + f.key.length ≤ inp.stop := by
      intro f
      split_ifs with h8
      · exact .inr ⟨rfl, by omega⟩
      · exact .inl rfl
    dsimp only
    rw [List.forall_mem_cons, inside_chain fields hin (wordeq_eq_named hin) hloads]
    constructor
    · intro h
      exact .inr h.2
    · intro h
      exact ⟨hword, h.resolve_left hwide⟩
  · rw [inside_chain fields hin (keyeq_eq_named hin) fun f => .inl rfl]
    constructor
    · exact .inr
    · intro h
      exact h.resolve_left hwide

theorem dispatch_loads_inside_iff_oneKey :
    (∀ l ∈ (dispatch oneKey 2 1 [idField]).2, KeyLoad.Inside oneKey l) ↔
      switchMinFields ≤ [idField].length ∨
        ∀ f ∈ passedOver oneKey 2 1 [idField], 2 + f.key.length ≤ oneKey.stop :=
  dispatch_loads_inside_iff oneKey [idField] 2 1 (by decide)

/-- The key of `{"a":1}` starts 5 bytes before the end, and the comparison with a name of 10
bytes loads the byte at the end. -/
theorem dispatch_oneKey_outside :
    (∀ s, (strspan oneKey 1).run s = (.done ⟨2, 1, 4, 0⟩, { s with sc := (1, 0) })) ∧
      (oneKey.stop, 1) ∈ (dispatch oneKey 2 1 [idField]).2 ∧
      ¬ KeyLoad.Inside oneKey (oneKey.stop, 1) :=
  ⟨fun _ => rfl, by decide, by decide⟩

end Bilbo
