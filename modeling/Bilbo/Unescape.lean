import Bilbo.Strings

/-!
# Unescaping and UTF-8

`rt_unescape` copies bytes, replaces short escapes and takes four bytes behind a `\u`,
whatever they are. On a span that is UTF-8 the output is UTF-8 exactly when none of these
four-byte groups ends inside a character.
-/

namespace Bilbo

open Base

/-! ## One step of the unescaper -/

/-- A `\u` escape: what it adds to the output, and what is left behind its digits. -/
def uStep : Bytes → Option (Bytes × Bytes)
  | h0 :: h1 :: h2 :: h3 :: r =>
    match if isHigh (u4 h0 h1 h2 h3) then lowEscape r else none with
    | some lo => some (encodeScalar (pairUp (u4 h0 h1 h2 h3) lo), r.drop 6)
    | none => some (encodeScalar (u4 h0 h1 h2 h3), r)
  | _ => none

theorem lowEscape_eq_some {r : Bytes} {lo : ℕ} (h : lowEscape r = some lo) :
    ∃ l0 l1 l2 l3 r', r = Ascii.backslash :: 0x75 :: l0 :: l1 :: l2 :: l3 :: r' ∧
      lo = u4 l0 l1 l2 l3 ∧ isLow lo = true := by
  match r, h with
  | x :: y :: l0 :: l1 :: l2 :: l3 :: r', h =>
    simp only [lowEscape, Option.ite_none_right_eq_some, Bool.and_eq_true, beq_iff_eq,
      Option.some.injEq] at h
    obtain ⟨⟨⟨rfl, rfl⟩, hlow⟩, rfl⟩ := h
    exact ⟨l0, l1, l2, l3, r', rfl, rfl, hlow⟩

theorem unescape_raw {b : UInt8} (bs : Bytes) (hb : b ≠ Ascii.backslash) :
    unescape (b :: bs) = (unescape bs).map (b :: ·) := by
  conv_lhs => unfold unescape
  rw [if_pos (by simpa using hb)]

theorem unescape_lone : unescape [Ascii.backslash] = some [] := rfl

theorem unescape_short {e : UInt8} (r : Bytes) (he : e ≠ 0x75) :
    unescape (Ascii.backslash :: e :: r) = (unescape r).map (shortEscape e :: ·) := by
  conv_lhs => unfold unescape
  simp [he]

theorem unescape_u (r : Bytes) :
    unescape (Ascii.backslash :: 0x75 :: r) =
      (uStep r).bind fun x => (unescape x.2).map (x.1 ++ ·) := by
  conv_lhs => unfold unescape
  simp only [bne_self_eq_false, Bool.false_eq_true, if_false, beq_self_eq_true, if_true]
  match r with
  | [] => rfl
  | [_] => rfl
  | [_, _] => rfl
  | [_, _, _] => rfl
  | h0 :: h1 :: h2 :: h3 :: r =>
    simp only [uStep]
    cases hlo : if isHigh (u4 h0 h1 h2 h3) = true then lowEscape r else none with
    | none => simp only [Option.bind_some]
    | some lo =>
      split at hlo
      · obtain ⟨l0, l1, l2, l3, r', rfl, -, -⟩ := lowEscape_eq_some hlo
        simp only [Option.bind_some, List.drop_succ_cons, List.drop_zero]
      · cases hlo

/-- An escape takes a prefix of what is left. -/
theorem uStep_suffix {r o r' : Bytes} (h : uStep r = some (o, r')) :
    ∃ p, r = p ++ r' ∧ 4 ≤ p.length := by
  match r, h with
  | h0 :: h1 :: h2 :: h3 :: r, h =>
    simp only [uStep] at h
    split at h <;> simp only [Option.some.injEq, Prod.mk.injEq] at h <;>
      obtain ⟨-, rfl⟩ := h
    · exact ⟨h0 :: h1 :: h2 :: h3 :: r.take 6, by simp, by simp⟩
    · exact ⟨[h0, h1, h2, h3], rfl, Nat.le_refl _⟩

theorem utf8_encodeScalar (cp : ℕ) : Utf8 (encodeScalar cp) := by
  rw [encodeScalar]
  split <;> exact Utf8.char _

theorem uStep_utf8 {r o r' : Bytes} (h : uStep r = some (o, r')) : Utf8 o := by
  match r, h with
  | h0 :: h1 :: h2 :: h3 :: r, h =>
    simp only [uStep] at h
    split at h <;> simp only [Option.some.injEq, Prod.mk.injEq] at h <;>
      obtain ⟨rfl, -⟩ := h <;> exact utf8_encodeScalar _

theorem length_encodeScalar_le (cp : ℕ) : (encodeScalar cp).length ≤ 4 := by
  rw [encodeScalar]
  split <;> exact (String.length_utf8EncodeChar _).trans_le (Char.utf8Size_le_four _)

theorem uStep_length {r o r' : Bytes} (h : uStep r = some (o, r')) :
    o.length + r'.length ≤ r.length := by
  obtain ⟨p, rfl, hp⟩ := uStep_suffix h
  have hle : o.length ≤ 4 := by
    match p ++ r', h with
    | h₀ :: h₁ :: h₂ :: h₃ :: r, h =>
      simp only [uStep] at h
      split at h <;> simp only [Option.some.injEq, Prod.mk.injEq] at h <;>
        obtain ⟨rfl, -⟩ := h <;> exact length_encodeScalar_le _
  rw [List.length_append]
  omega

/-- The output is no longer than the span. -/
theorem length_unescape_le {s out : Bytes} (h : unescape s = some out) : out.length ≤ s.length := by
  induction hn : s.length using Nat.strong_induction_on generalizing s out with
  | _ n ih =>
    subst hn
    cases s with
    | nil =>
      cases h
      exact Nat.le_refl _
    | cons b s =>
      by_cases hb : b = Ascii.backslash
      · subst hb
        cases s with
        | nil =>
          cases h
          exact Nat.zero_le _
        | cons e s =>
          -- an escape gives no more than it takes
          by_cases he : e = 0x75
          · subst he
            rw [unescape_u, Option.bind_eq_some_iff] at h
            obtain ⟨⟨o, r⟩, hstep, h⟩ := h
            obtain ⟨out', hout, rfl⟩ := Option.map_eq_some_iff.1 h
            have hlen := uStep_length hstep
            simp only [List.length_cons] at ih ⊢
            have hle := ih r.length (by omega) hout rfl
            rw [List.length_append]
            omega
          · rw [unescape_short _ he] at h
            obtain ⟨out', hout, rfl⟩ := Option.map_eq_some_iff.1 h
            simp only [List.length_cons] at ih ⊢
            have hle := ih s.length (by omega) hout rfl
            omega
      · rw [unescape_raw _ hb] at h
        obtain ⟨out', hout, rfl⟩ := Option.map_eq_some_iff.1 h
        simp only [List.length_cons] at ih ⊢
        have hle := ih s.length (by omega) hout rfl
        omega

/-- Bytes without a backslash are copied. -/
theorem unescape_append {a : Bytes} (s : Bytes) (h : Ascii.backslash ∉ a) :
    unescape (a ++ s) = (unescape s).map (a ++ ·) := by
  induction a with
  | nil => simp
  | cons b a ih =>
    rw [List.mem_cons, not_or] at h
    rw [List.cons_append, unescape_raw _ (Ne.symm h.1), ih h.2, Option.map_map]
    rfl

/-- A span without a backslash is its own output. -/
theorem unescape_plain {s out : Bytes} (h : Ascii.backslash ∉ s) (hout : unescape s = some out) :
    out = s := by
  have hself := unescape_append [] h
  rw [List.append_nil, hout] at hself
  have heq : some out = some (s ++ []) := hself
  rw [List.append_nil] at heq
  exact Option.some.inj heq

/-! ## When the digits of an escape cut a character -/

/-- Some `\u` that the unescaper meets takes bytes that end inside a character. -/
inductive CutsChar : Bytes → Prop
  | raw {b : UInt8} {s : Bytes} : b ≠ Ascii.backslash → CutsChar s → CutsChar (b :: s)
  | short {e : UInt8} {s : Bytes} : e ≠ 0x75 → CutsChar s →
      CutsChar (Ascii.backslash :: e :: s)
  | here {r o r' : Bytes} : uStep r = some (o, r') → ¬ Boundary r' →
      CutsChar (Ascii.backslash :: 0x75 :: r)
  | later {r o r' : Bytes} : uStep r = some (o, r') → CutsChar r' →
      CutsChar (Ascii.backslash :: 0x75 :: r)

theorem not_cutsChar_nil : ¬ CutsChar [] := nofun

theorem not_cutsChar_lone : ¬ CutsChar [Ascii.backslash] := by
  intro h
  cases h with
  | raw hb _ => exact hb rfl

theorem cutsChar_raw_iff {b : UInt8} {s : Bytes} (hb : b ≠ Ascii.backslash) :
    CutsChar (b :: s) ↔ CutsChar s := by
  refine ⟨fun h => ?_, .raw hb⟩
  cases h with
  | raw _ h => exact h
  | short | here | later => exact absurd rfl hb

theorem cutsChar_short_iff {e : UInt8} {s : Bytes} (he : e ≠ 0x75) :
    CutsChar (Ascii.backslash :: e :: s) ↔ CutsChar s := by
  refine ⟨fun h => ?_, .short he⟩
  cases h with
  | raw hb _ => exact absurd rfl hb
  | short _ h => exact h
  | here | later => exact absurd rfl he

theorem cutsChar_u_iff {r o r' : Bytes} (h : uStep r = some (o, r')) :
    CutsChar (Ascii.backslash :: 0x75 :: r) ↔ ¬ Boundary r' ∨ CutsChar r' := by
  constructor
  · intro hc
    cases hc with
    | raw hb _ => exact absurd rfl hb
    | short he _ => exact absurd rfl he
    | here h' hb =>
      rw [h] at h'
      cases h'
      exact Or.inl hb
    | later h' hc =>
      rw [h] at h'
      cases h'
      exact Or.inr hc
  · rintro (hb | hc)
    · exact .here h hb
    · exact .later h hc

theorem cutsChar_append_iff {a s : Bytes} (h : Ascii.backslash ∉ a) :
    CutsChar (a ++ s) ↔ CutsChar s := by
  induction a with
  | nil => rfl
  | cons b a ih =>
    rw [List.mem_cons, not_or] at h
    rw [List.cons_append, cutsChar_raw_iff (Ne.symm h.1), ih h.2]

/-- A span without a backslash cuts nothing. -/
theorem not_cutsChar_of_raw {s : Bytes} (h : Ascii.backslash ∉ s) : ¬ CutsChar s := by
  rw [← List.append_nil s, cutsChar_append_iff h]
  exact not_cutsChar_nil

/-! ## The output -/

/-- A byte that cannot start a character stays at the front of the output. -/
theorem unescape_head {b : UInt8} {s out : Bytes} (hb : ¬ b.IsUTF8FirstByte)
    (h : unescape (b :: s) = some out) : ∃ out', out = b :: out' := by
  have hne : b ≠ Ascii.backslash := by
    rintro rfl
    exact hb (isUTF8FirstByte_of_ascii (by decide))
  rw [unescape_raw s hne, Option.map_eq_some_iff] at h
  obtain ⟨out', -, rfl⟩ := h
  exact ⟨out', rfl⟩

/-- The output of a span that starts inside a character is not UTF-8. -/
theorem not_utf8_unescape {s out : Bytes} (hs : ¬ Boundary s) (h : unescape s = some out) :
    ¬ Utf8 out := by
  intro hout
  cases s with
  | nil => exact hs trivial
  | cons b s =>
    obtain ⟨out', rfl⟩ := unescape_head hs h
    exact hs hout.first

theorem shortEscape_of_not_ascii {e : UInt8} (h : ¬ e.toNat < 0x80) : shortEscape e = e := by
  have hne : ∀ k : UInt8, k.toNat < 0x80 → (e == k) = false := by
    intro k hk
    rw [beq_eq_false_iff_ne]
    rintro rfl
    exact h hk
  simp [shortEscape, hne]

theorem shortEscape_ascii {e : UInt8} (h : e.toNat < 0x80) : (shortEscape e).toNat < 0x80 := by
  simp only [shortEscape]
  split <;> [decide; skip]
  split <;> [decide; skip]
  split <;> [decide; skip]
  split <;> [decide; skip]
  split <;> [decide; exact h]

/-- What is to be shown of a span. -/
def UnescapesWell (s : Bytes) : Prop :=
  ∀ out, Utf8 s → unescape s = some out → (Utf8 out ↔ ¬ CutsChar s)

/-- A `\u` escape in front. -/
theorem unescapesWell_u {r : Bytes} (ih : ∀ r', r'.length < r.length → UnescapesWell r') :
    UnescapesWell (Ascii.backslash :: 0x75 :: r) := by
  intro out hs h
  rw [utf8_ascii_cons_iff (by decide), utf8_ascii_cons_iff (by decide)] at hs
  rw [unescape_u, Option.bind_eq_some_iff] at h
  obtain ⟨⟨o, r'⟩, hstep, h⟩ := h
  rw [Option.map_eq_some_iff] at h
  obtain ⟨out', hout', rfl⟩ := h
  have ho := uStep_utf8 hstep
  have hiff : Utf8 (o ++ out') ↔ Utf8 out' := ⟨fun h => Utf8.of_append_left ho h, ho.append⟩
  rw [cutsChar_u_iff hstep, hiff]
  obtain ⟨p, rfl, hp⟩ := uStep_suffix hstep
  by_cases hb : Boundary r'
  · have hr' : Utf8 r' := (Utf8.split hs hb).2
    rw [ih r' (by rw [List.length_append]; omega) out' hr' hout']
    simp [hb]
  · exact iff_of_false (not_utf8_unescape hb hout') (by simp [hb])

/-- A backslash in front of a character that is no `u`. -/
theorem unescapesWell_short {c : Char} {s : Bytes} (hc : String.utf8EncodeChar c ≠ [0x75])
    (ih : UnescapesWell s) :
    UnescapesWell (Ascii.backslash :: (String.utf8EncodeChar c ++ s)) := by
  intro out hs h
  rw [utf8_ascii_cons_iff (by decide), utf8_char_append_iff] at hs
  cases hcs : String.utf8EncodeChar c with
  | nil => exact absurd hcs String.utf8EncodeChar_ne_nil
  | cons e tail =>
    simp only [hcs, List.cons_append] at h ⊢
    by_cases he : e.toNat < 0x80
    · obtain rfl : tail = [] := by
        have h1 := utf8EncodeChar_of_ascii_mem he (c := c) (by rw [hcs]; simp)
        rw [hcs] at h1
        exact (List.cons.inj h1).2
      have hu : e ≠ 0x75 := by
        rintro rfl
        exact hc hcs
      rw [List.nil_append, unescape_short _ hu, Option.map_eq_some_iff] at h
      obtain ⟨out', hout', rfl⟩ := h
      rw [List.nil_append, cutsChar_short_iff hu, utf8_ascii_cons_iff (shortEscape_ascii he)]
      exact ih out' hs hout'
    · -- the backslash goes, the character behind it stays
      have htail : Ascii.backslash ∉ tail := by
        intro hmem
        have h1 := utf8EncodeChar_of_ascii_mem (c := c) (b := Ascii.backslash) (by decide)
          (by rw [hcs]; exact List.mem_cons_of_mem _ hmem)
        rw [hcs] at h1
        obtain ⟨rfl, -⟩ := List.cons.inj h1
        exact he (by decide)
      have hu : e ≠ 0x75 := by
        rintro rfl
        exact he (by decide)
      rw [unescape_short _ hu, shortEscape_of_not_ascii he, unescape_append _ htail,
        Option.map_map, Option.map_eq_some_iff] at h
      obtain ⟨out', hout', rfl⟩ := h
      rw [cutsChar_short_iff hu, cutsChar_append_iff htail]
      show Utf8 ((e :: tail) ++ out') ↔ _
      rw [← hcs, utf8_char_append_iff]
      exact ih out' hs hout'

/-- On UTF-8 the unescaper's output is UTF-8 exactly when no escape cuts a character. -/
theorem unescapesWell (s : Bytes) : UnescapesWell s := by
  induction hn : s.length using Nat.strong_induction_on generalizing s with
  | _ n ih =>
    subst hn
    intro out hs h
    rcases hs.cases with rfl | ⟨c, rest, rfl, hrest⟩
    · cases h
      exact iff_of_true Utf8.nil not_cutsChar_nil
    have hpos : 0 < (String.utf8EncodeChar c).length :=
      List.length_pos_of_ne_nil String.utf8EncodeChar_ne_nil
    rw [List.length_append] at ih
    -- character by character; a backslash takes the next character with it
    by_cases hc : Ascii.backslash ∈ String.utf8EncodeChar c
    · rw [utf8EncodeChar_of_ascii_mem (by decide) hc, List.singleton_append] at h hs ⊢
      rcases hrest.cases with rfl | ⟨c', rest', rfl, hrest'⟩
      · rw [unescape_lone] at h
        cases h
        exact iff_of_true Utf8.nil not_cutsChar_lone
      · by_cases hu : String.utf8EncodeChar c' = [0x75]
        · rw [hu] at ih h hs ⊢
          refine unescapesWell_u (fun r' hr' => ih _ ?_ r' rfl) out hs h
          have h1 : r'.length < rest'.length := hr'
          rw [List.length_append, List.length_singleton]
          omega
        · refine unescapesWell_short hu (ih _ ?_ rest' rfl) out hs h
          rw [List.length_append]
          omega
    · rw [unescape_append _ hc, Option.map_eq_some_iff] at h
      obtain ⟨out', hout', rfl⟩ := h
      rw [cutsChar_append_iff hc, utf8_char_append_iff]
      exact ih _ (by omega) rest rfl out' hrest hout'

end Bilbo
