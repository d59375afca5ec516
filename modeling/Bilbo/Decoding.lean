import Bilbo.Reading

/-!
# The text that a string spells

The body of a JSON string is a row of characters and escapes. Of the code units that `\u` escapes
spell, a high and a low surrogate behind each other are one character; a surrogate alone stands for
U+FFFD.
-/

namespace Bilbo

open Base Comp

/-! ## Bodies in pieces -/

/-- A hexadecimal digit of either case. -/
def HexDigit := { b : UInt8 // isHexDigit b = true }

/-- A piece of the body of a string. -/
inductive Piece where
  /-- a character as it is -/
  | char (c : Char) (quote : c.toNat ≠ 0x22) (backslash : c.toNat ≠ 0x5C)
  | short (e c : UInt8) (known : (e, c) ∈ shortEscapes)
  | unit (a b c d : HexDigit)

/-- The bytes of a piece. -/
def Piece.text : Piece → Bytes
  | .char c _ _ => String.utf8EncodeChar c
  | .short e _ _ => [Ascii.backslash, e]
  | .unit a b c d => [Ascii.backslash, 0x75, a.1, b.1, c.1, d.1]

/-- The body that the pieces make. -/
def bodyText (ps : List Piece) : Bytes := ps.flatMap Piece.text

/-- The code unit of four digits. -/
def unitOf (a b c d : HexDigit) : ℕ := codeUnit a.1 b.1 c.1 d.1

/-- A code unit on its own. -/
def scalar (cp : ℕ) : Char := if isHigh cp || isLow cp then Char.ofNat 0xFFFD else Char.ofNat cp

/-- The text of a body. -/
def decoded : List Piece → List Char
  | [] => []
  | .char c _ _ :: ps => c :: decoded ps
  | .short _ c _ :: ps => Char.ofNat c.toNat :: decoded ps
  | .unit a b c d :: .unit a' b' c' d' :: ps =>
    if isHigh (unitOf a b c d) && isLow (unitOf a' b' c' d') then
      Char.ofNat (pairUp (unitOf a b c d) (unitOf a' b' c' d')) :: decoded ps
    else scalar (unitOf a b c d) :: decoded (.unit a' b' c' d' :: ps)
  | .unit a b c d :: ps => scalar (unitOf a b c d) :: decoded ps

theorem bodyText_cons (p : Piece) (ps : List Piece) :
    bodyText (p :: ps) = p.text ++ bodyText ps := List.flatMap_cons

/-! ## The unescaper -/

theorem shortEscapes_ascii {e c : UInt8} (h : (e, c) ∈ shortEscapes) :
    e.toNat < 0x80 ∧ c.toNat < 0x80 := by
  have hall : shortEscapes.all (fun x => decide (x.1.toNat < 0x80 ∧ x.2.toNat < 0x80)) = true := rfl
  exact of_decide_eq_true (List.all_eq_true.1 hall (e, c) h)

/-- The low surrogate that a body starts with is a piece of it. -/
theorem lowEscape_body {ps : List Piece} {lo : ℕ} (h : lowEscape (bodyText ps) = some lo) :
    ∃ a b c d ps', ps = .unit a b c d :: ps' ∧ lo = unitOf a b c d ∧ isLow lo = true := by
  obtain ⟨l₀, l₁, l₂, l₃, r, htext, hlo, hlow⟩ := lowEscape_eq_some h
  cases ps with
  | nil => cases htext
  | cons p ps =>
    rw [bodyText_cons] at htext
    cases p with
    | char c hq hb =>
      -- no character starts with a backslash
      obtain ⟨x, y, hc⟩ := List.exists_cons_of_ne_nil (String.utf8EncodeChar_ne_nil (c := c))
      have hnot := not_mem_utf8EncodeChar (b := Ascii.backslash) (by decide) hb
      rw [Piece.text, hc, List.cons_append] at htext
      rw [hc, (List.cons.inj htext).1] at hnot
      exact absurd List.mem_cons_self hnot
    | short e c hmem =>
      simp only [Piece.text, List.cons_append, List.cons.injEq] at htext
      exact absurd htext.2.1 (shortEscape_eq hmem).1
    | unit a b c d =>
      refine ⟨a, b, c, d, ps, rfl, ?_, hlow⟩
      simp only [Piece.text, List.cons_append, List.cons.injEq] at htext
      obtain ⟨-, -, rfl, rfl, rfl, rfl, -⟩ := htext
      rw [hlo, u4_eq]
      rfl

theorem encodeScalar_unit (a b c d : HexDigit) :
    encodeScalar (unitOf a b c d) = String.utf8EncodeChar (scalar (unitOf a b c d)) := by
  unfold scalar
  split
  · rename_i hsurrogate
    have hnot : ¬ (unitOf a b c d).isValidChar := by
      simp only [isHigh, isLow, Bool.or_eq_true, Bool.and_eq_true, decide_eq_true_eq] at hsurrogate
      unfold Nat.isValidChar
      omega
    rw [encodeScalar, if_neg hnot]
  · rename_i hsurrogate
    rw [Bool.or_eq_true, not_or, Bool.not_eq_true, Bool.not_eq_true] at hsurrogate
    exact encodeScalar_eq (not_surrogate_valid hsurrogate.1 hsurrogate.2)

/-- The unescaper at a code unit. -/
theorem unescape_unit (a b c d : HexDigit) (ps : List Piece) :
    unescape (bodyText (.unit a b c d :: ps)) =
      (uStep (a.1 :: b.1 :: c.1 :: d.1 :: bodyText ps)).bind fun x =>
        (unescape x.2).map (x.1 ++ ·) := by
  rw [bodyText_cons]
  exact unescape_u _

/-- A code unit that is no half of a pair. -/
theorem unescape_scalar {a b c d : HexDigit} {ps : List Piece} {cs : List Char}
    (hnone : isHigh (unitOf a b c d) = true → lowEscape (bodyText ps) = none)
    (h : unescape (bodyText ps) = some (encode cs)) :
    unescape (bodyText (.unit a b c d :: ps)) =
      some (encode (scalar (unitOf a b c d) :: cs)) := by
  -- no low surrogate follows where one would be taken
  have hlow : (if isHigh (codeUnit a.1 b.1 c.1 d.1) = true then lowEscape (bodyText ps) else none) =
      none := by
    split
    · exact hnone (by assumption)
    · rfl
  have hstep : uStep (a.1 :: b.1 :: c.1 :: d.1 :: bodyText ps) =
      some (encodeScalar (unitOf a b c d), bodyText ps) := by
    simp only [uStep, u4_eq, hlow]
    rfl
  rw [unescape_unit, hstep, Option.bind_some, h, encodeScalar_unit, Option.map_some, encode_cons]

/-- The two halves of a pair. -/
theorem unescape_pair {a b c d a' b' c' d' : HexDigit} {ps : List Piece} {cs : List Char}
    (hhi : isHigh (unitOf a b c d) = true) (hlo : isLow (unitOf a' b' c' d') = true)
    (h : unescape (bodyText ps) = some (encode cs)) :
    unescape (bodyText (.unit a b c d :: .unit a' b' c' d' :: ps)) =
      some (encode (Char.ofNat (pairUp (unitOf a b c d) (unitOf a' b' c' d')) :: cs)) := by
  have hlow : lowEscape (bodyText (.unit a' b' c' d' :: ps)) = some (unitOf a' b' c' d') := by
    rw [bodyText_cons]
    unfold unitOf at hlo
    simp only [Piece.text, List.cons_append, lowEscape, u4_eq, hlo, beq_self_eq_true, Bool.and_self,
      if_true]
    rfl
  have hstep : uStep (a.1 :: b.1 :: c.1 :: d.1 :: bodyText (.unit a' b' c' d' :: ps)) =
      some (encodeScalar (pairUp (unitOf a b c d) (unitOf a' b' c' d')), bodyText ps) := by
    unfold unitOf at hhi
    simp only [uStep, u4_eq, hhi, if_true, hlow]
    rfl
  rw [unescape_unit, hstep, Option.bind_some, h, encodeScalar_eq (pairUp_valid hhi hlo),
    Option.map_some, encode_cons]

/-- The unescaper on a body. -/
theorem unescape_bodyText (ps : List Piece) : unescape (bodyText ps) = some (encode (decoded ps)) := by
  fun_induction decoded ps with
  | case1 => rfl
  | case2 c _ hb ps ih =>
    have hraw := not_mem_utf8EncodeChar (b := Ascii.backslash) (by decide) hb
    rw [bodyText_cons, Piece.text, unescape_append _ hraw, ih]
    rfl
  | case3 e c hmem ps ih =>
    obtain ⟨hu, hc⟩ := shortEscape_eq hmem
    rw [bodyText_cons]
    show unescape (Ascii.backslash :: e :: bodyText ps) = _
    rw [unescape_short _ hu, ih, hc, encode_cons, utf8EncodeChar_ascii (shortEscapes_ascii hmem).2]
    rfl
  | case4 a b c d a' b' c' d' ps hpair ih =>
    rw [Bool.and_eq_true] at hpair
    exact unescape_pair hpair.1 hpair.2 ih
  -- the next unit is one too, but the two are no pair
  | case5 a b c d a' b' c' d' ps hpair ih =>
    apply unescape_scalar _ ih
    intro hhi
    cases hlow : lowEscape (bodyText (.unit a' b' c' d' :: ps)) with
    | none => rfl
    | some lo =>
      obtain ⟨_, _, _, _, _, hps, rfl, hlo⟩ := lowEscape_body hlow
      cases hps
      exact absurd (by rw [hhi, hlo]; rfl) hpair
  | case6 a b c d ps hnext ih =>
    apply unescape_scalar _ ih
    intro hhi
    cases hlow : lowEscape (bodyText ps) with
    | none => rfl
    | some lo =>
      obtain ⟨_, _, _, _, _, hps, -, -⟩ := lowEscape_body hlow
      exact absurd hps (hnext _ _ _ _ _)

/-- `rt_unescape` returns the UTF-8 of the text, in a block of its length, and reports that length. -/
theorem rtUnescape_decodes {inp : Input} {src len : ℕ} {ps : List Piece}
    (h : inp.span src len = bodyText ps) (s : State) :
    ∃ p s', (rtUnescape inp src len).run s = (.done p, s') ∧
      readCells s'.mem p s'.sc.1 = ints (encode (decoded ps)) ∧
      s'.sc.1 = (encode (decoded ps)).length ∧ Held s' s.brk s'.brk p s'.sc.1 1 ∧
      Writes s s' 0 0 := by
  have hun : unescape (inp.span src len) = some (encode (decoded ps)) := by
    rw [h, unescape_bodyText]
  obtain ⟨p, s', hrun, hlen, hwrites, hheld, hcells⟩ := rtUnescape_run hun s
  rw [← hlen] at hheld hcells
  exact ⟨p, s', hrun, hcells, hlen, hheld, hwrites⟩

/-- `\ud83e\ud83e\udd80`: a high surrogate alone, and a pair. -/
def crabPieces : List Piece :=
  let high : Piece := .unit ⟨0x64, rfl⟩ ⟨0x38, rfl⟩ ⟨0x33, rfl⟩ ⟨0x65, rfl⟩
  [high, high, .unit ⟨0x64, rfl⟩ ⟨0x64, rfl⟩ ⟨0x38, rfl⟩ ⟨0x30, rfl⟩]

example : decoded crabPieces = [Char.ofNat 0xFFFD, Char.ofNat 0x1F980] := rfl

theorem rtUnescape_decodes_crab : ∃ p s',
    (rtUnescape ⟨bodyText crabPieces, fun _ => 0, by decide⟩ 0 18).run (State.initial 0) =
      (.done p, s') ∧
      readCells s'.mem p s'.sc.1 = ints (encode (decoded crabPieces)) ∧
      s'.sc.1 = (encode (decoded crabPieces)).length ∧ Held s' 0 s'.brk p s'.sc.1 1 ∧
      Writes (State.initial 0) s' 0 0 := by
  have hspan : (Input.mk (bodyText crabPieces) (fun _ => 0) (by decide)).span 0 18 =
      bodyText crabPieces := rfl
  exact rtUnescape_decodes hspan (State.initial 0)

/-! ## The two decoders -/

theorem plain_char {c : Char} (hq : c.toNat ≠ 0x22) (hb : c.toNat ≠ 0x5C) :
    PlainKey (String.utf8EncodeChar c) :=
  ⟨not_mem_utf8EncodeChar (b := Ascii.quote) (by decide) hq,
    not_mem_utf8EncodeChar (b := Ascii.backslash) (by decide) hb⟩

theorem hex4_unit (a b c d : HexDigit) : Hex4 a.1 b.1 c.1 d.1 := by
  intro x hx
  simp only [List.mem_cons, List.not_mem_nil, or_false] at hx
  rcases hx with rfl | rfl | rfl | rfl
  · exact a.2
  · exact b.2
  · exact c.2
  · exact d.2

theorem rawBody_bodyText (ps : List Piece) : RawBody (bodyText ps) := by
  induction ps with
  | nil => exact RawBody.nil
  | cons p ps ih =>
    rw [bodyText_cons]
    cases p with
    | char c hq hb => exact RawBody.append_of_plain (plain_char hq hb) ih
    | short e c _ => exact RawBody.escape ih
    | unit a b c d => exact RawBody.unit (hex4_unit a b c d) ih

theorem HexDigit.ascii (a : HexDigit) : a.1.toNat < 0x80 := by
  have h := a.2
  simp only [isHexDigit, Ascii.isDigit, Bool.or_eq_true, Bool.and_eq_true, decide_eq_true_eq,
    UInt8.le_iff_toNat_le] at h
  rcases h with (h | h) | h
  · exact Nat.lt_of_le_of_lt h.2 (by decide)
  · exact Nat.lt_of_le_of_lt h.2 (by decide)
  · exact Nat.lt_of_le_of_lt h.2 (by decide)

theorem Piece.utf8_text (p : Piece) : Utf8 p.text := by
  cases p with
  | char c _ _ => exact Utf8.char c
  | short e c h => exact (Utf8.ascii (by decide)).append (Utf8.ascii (shortEscapes_ascii h).1)
  | unit a b c d =>
    have hdigits := ((Utf8.ascii a.ascii).append (Utf8.ascii b.ascii)).append
      ((Utf8.ascii c.ascii).append (Utf8.ascii d.ascii))
    exact ((Utf8.ascii (by decide)).append (Utf8.ascii (by decide))).append hdigits

theorem utf8_bodyText (ps : List Piece) : Utf8 (bodyText ps) := by
  induction ps with
  | nil => exact Utf8.nil
  | cons p ps ih =>
    rw [bodyText_cons]
    exact p.utf8_text.append ih

/-- `parse_string` knows no code units: it takes the digits as they are. -/
theorem lenient_unit (a b c d : HexDigit) (ps : List Piece) :
    lenient (bodyText (.unit a b c d :: ps)) =
      0x75 :: a.1 :: b.1 :: c.1 :: d.1 :: lenient (bodyText ps) := by
  rw [bodyText_cons]
  have hdigits : Ascii.backslash ∉ [a.1, b.1, c.1, d.1] := by
    intro hmem
    exact (isHexDigit_plain (hex4_unit a b c d _ hmem)).2 rfl
  show 0x75 :: lenient ([a.1, b.1, c.1, d.1] ++ bodyText ps) = _
  rw [lenient_append _ hdigits]
  rfl

theorem length_char_le (c : Char) : (String.utf8EncodeChar c).length ≤ 4 :=
  (String.length_utf8EncodeChar c).trans_le c.utf8Size_le_four

/-- The text that a code unit begins: it is a character with the next one, or on its own. -/
theorem decoded_unit (a b c d : HexDigit) (ps : List Piece) :
    (∃ a' b' c' d' ps', ps = .unit a' b' c' d' :: ps' ∧ isHigh (unitOf a b c d) = true ∧
      isLow (unitOf a' b' c' d') = true ∧ decoded (.unit a b c d :: ps) =
        Char.ofNat (pairUp (unitOf a b c d) (unitOf a' b' c' d')) :: decoded ps') ∨
    decoded (.unit a b c d :: ps) = scalar (unitOf a b c d) :: decoded ps := by
  cases ps with
  | nil => exact .inr rfl
  | cons p ps =>
    cases p with
    | char _ _ _ => exact .inr rfl
    | short _ _ _ => exact .inr rfl
    | unit a' b' c' d' =>
      rw [decoded]
      split
      · rename_i hpair
        rw [Bool.and_eq_true] at hpair
        exact .inl ⟨a', b', c', d', ps, rfl, hpair.1, hpair.2, rfl⟩
      · exact .inr rfl

/-- So its string is longer than the text behind a code unit, ... -/
theorem length_unit_lt {a b c d : HexDigit} {ps : List Piece}
    (h : ∀ ps', ps'.length ≤ ps.length →
      (encode (decoded ps')).length ≤ (lenient (bodyText ps')).length) :
    (encode (decoded (.unit a b c d :: ps))).length <
      (lenient (bodyText (.unit a b c d :: ps))).length := by
  obtain ⟨a', b', c', d', ps', rfl, -, -, hpair⟩ | hscalar := decoded_unit a b c d ps
  · have hle := h ps' (Nat.le_succ _)
    have hch := length_char_le (Char.ofNat (pairUp (unitOf a b c d) (unitOf a' b' c' d')))
    -- ten bytes against at most four
    rw [hpair, lenient_unit, lenient_unit, encode_cons, List.length_append]
    simp only [List.length_cons]
    omega
  · have hle := h ps (Nat.le_refl _)
    have hch := length_char_le (scalar (unitOf a b c d))
    -- five bytes against at most four
    rw [hscalar, lenient_unit, encode_cons, List.length_append]
    simp only [List.length_cons]
    omega

/-- ... and never shorter. -/
theorem length_decoded_le (ps : List Piece) :
    (encode (decoded ps)).length ≤ (lenient (bodyText ps)).length := by
  -- a pair takes two pieces at once
  induction hn : ps.length using Nat.strong_induction_on generalizing ps with
  | _ n ih =>
    subst hn
    cases ps with
    | nil => exact Nat.le_refl _
    | cons p ps =>
      have hlt : ∀ ps', ps'.length ≤ ps.length →
          (encode (decoded ps')).length ≤ (lenient (bodyText ps')).length :=
        fun ps' hle => ih _ (Nat.lt_succ_of_le hle) ps' rfl
      have hrest := hlt ps (Nat.le_refl _)
      cases p with
      | char c hq hb =>
        have hraw := not_mem_utf8EncodeChar (b := Ascii.backslash) (by decide) hb
        rw [decoded, bodyText_cons, Piece.text, lenient_append _ hraw, encode_cons,
          List.length_append, List.length_append]
        omega
      | short e c hmem =>
        rw [decoded, encode_cons, utf8EncodeChar_ascii (shortEscapes_ascii hmem).2]
        show _ + 1 ≤ (unescapeByte e :: lenient (bodyText ps)).length
        rw [List.length_cons]
        exact Nat.succ_le_succ hrest
      | unit a b c d => exact Nat.le_of_lt (length_unit_lt hlt)

/-- The pieces that both decoders know: no `\b`, `\f` or `\r`, and no code unit. -/
def Piece.shared : Piece → Bool
  | .char _ _ _ => true
  | .short e _ _ => e != 0x62 && e != 0x66 && e != 0x72
  | .unit _ _ _ _ => false

theorem unescapeByte_eq_iff {e c : UInt8} (h : (e, c) ∈ shortEscapes) :
    unescapeByte e = c ↔ (e != 0x62 && e != 0x66 && e != 0x72) = true := by
  have hall : shortEscapes.all (fun x => decide (unescapeByte x.1 = x.2 ↔
    (x.1 != 0x62 && x.1 != 0x66 && x.1 != 0x72) = true)) = true := rfl
  exact of_decide_eq_true (List.all_eq_true.1 hall (e, c) h)

/-- The two decoders agree on the pieces that both know. -/
theorem lenient_eq_decoded_iff (ps : List Piece) :
    lenient (bodyText ps) = encode (decoded ps) ↔ ∀ p ∈ ps, p.shared = true := by
  induction ps with
  | nil => exact iff_of_true rfl nofun
  | cons p ps ih =>
    rw [List.forall_mem_cons, ← ih]
    cases p with
    | char c hq hb =>
      have hraw := not_mem_utf8EncodeChar (b := Ascii.backslash) (by decide) hb
      rw [decoded, bodyText_cons, Piece.text, lenient_append _ hraw, encode_cons,
        List.append_cancel_left_eq]
      exact (and_iff_right rfl).symm
    | short e c hmem =>
      rw [decoded, encode_cons, utf8EncodeChar_ascii (shortEscapes_ascii hmem).2]
      show unescapeByte e :: lenient (bodyText ps) = c :: encode (decoded ps) ↔ _
      rw [List.cons.injEq, unescapeByte_eq_iff hmem]
      rfl
    | unit a b c d =>
      -- the lengths tell the strings apart
      have hlt := length_unit_lt (a := a) (b := b) (c := c) (d := d) fun ps' (_ : _ ≤ ps.length) =>
        length_decoded_le ps'
      refine iff_of_false (fun heq => ?_) fun h => Bool.false_ne_true h.1
      rw [heq] at hlt
      exact Nat.lt_irrefl _ hlt

section

variable {inp : Input} {q : ℕ} {ps : List Piece} {r : Bytes}

/-- `strspan` and `build_str`: the cursor behind a string, and the pointer and the length of its
text. -/
def stringToken (inp : Input) (n q : ℕ) : M (ℕ × ℕ × ℕ) := do
  let sp ← strspan inp q
  let (buf, len) ← buildStr inp n sp
  pure (sp.after, buf, len)

theorem stringToken_runs (h : inp.rest q = quoted (bodyText ps) ++ r) (s : State) :
    ∃ p s', Runs (fun n _ => stringToken inp n q) s
        (q + (quoted (bodyText ps)).length, p, (encode (decoded ps)).length) s' ∧
      readCells s'.mem p (encode (decoded ps)).length = ints (encode (decoded ps)) := by
  obtain ⟨hbody, hspan⟩ := strspan_quoted (w := []) IsWs.nil (rawBody_bodyText ps) h s
  obtain ⟨p, s', hbuild, -, -, hcells⟩ := buildStr_runs (unescape_bodyText ps) hbody
    (q + ((quoted (bodyText ps)).length))
    { s with sc := ((bodyText ps).length, escFlag (bodyText ps)) }
  refine ⟨p, s', ?_, hcells⟩
  rw [List.length_nil, Nat.zero_add] at hspan
  apply Runs.bind_eq hspan
  apply hbuild.bind
  exact Runs.pure _ _

/-- Both decoders stop at the same byte, with the same bytes. -/
def DecodersAgree (inp : Input) (q : ℕ) : Prop :=
  ∃ k bs, Runs (fun n _ => parseString inp.text n) q bs k ∧
    ∀ s, ∃ p s', Runs (fun n _ => stringToken inp n q) s (k, p, bs.length) s' ∧
      readCells s'.mem p bs.length = ints bs

theorem decodersAgree_iff (h : inp.rest q = quoted (bodyText ps) ++ r) :
    DecodersAgree inp q ↔ lenient (bodyText ps) = encode (decoded ps) := by
  have hraw := rawBody_bodyText ps
  have hparse : Runs (fun n _ => parseString inp.text n) q (lenient (bodyText ps))
      (q + (quoted (bodyText ps)).length) :=
    parseString_runs hraw (utf8_lenient hraw (utf8_bodyText ps)) h
  constructor
  · rintro ⟨k, bs, hrun, hjit⟩
    obtain ⟨p, s', htoken, hcells⟩ := hjit (State.initial 0)
    obtain ⟨p', s'', htoken', hcells'⟩ := stringToken_runs h (State.initial 0)
    obtain ⟨rfl, -⟩ := hparse.unique hrun
    obtain ⟨heq, rfl⟩ := htoken.unique htoken'
    simp only [Prod.mk.injEq] at heq
    obtain ⟨-, rfl, hlen⟩ := heq
    rw [hlen, hcells'] at hcells
    exact ints_injective hcells.symm
  · intro heq
    refine ⟨_, _, hparse, fun s => ?_⟩
    rw [heq]
    exact stringToken_runs h s

/-- On a JSON string the decoders agree exactly when it has none of the escapes that `json.rs` does
not know. -/
theorem decoders_agree_iff_shared (h : inp.rest q = quoted (bodyText ps) ++ r) :
    DecodersAgree inp q ↔ ∀ p ∈ ps, p.shared = true :=
  (decodersAgree_iff h).trans (lenient_eq_decoded_iff ps)

/-- The input that is just the string. -/
def stringInput (ps : List Piece) (h : (quoted (bodyText ps)).length ≤ isizeMax) : Input :=
  ⟨quoted (bodyText ps), fun _ => 0, h⟩

/-- The character `x` and a newline. -/
def newlinePieces : List Piece :=
  [.char 'x' (by decide) (by decide), .short 0x6E Ascii.newline (by decide)]

/-- A carriage return. -/
def returnPieces : List Piece := [.short 0x72 Ascii.return' (by decide)]

theorem decoders_agree_newline :
    DecodersAgree (stringInput newlinePieces (by decide)) 0 ↔
      ∀ p ∈ newlinePieces, p.shared = true :=
  decoders_agree_iff_shared (r := []) (List.append_nil _).symm

theorem decoders_differ_return :
    ¬ DecodersAgree (stringInput returnPieces (by decide)) 0 := by
  have h : (stringInput returnPieces (by decide)).rest 0 =
      quoted (bodyText returnPieces) ++ [] := (List.append_nil _).symm
  rw [decodersAgree_iff h]
  intro heq
  -- `r` for one decoder, a carriage return for the other
  have hfirst : some (0x72 : UInt8) = some Ascii.return' := congrArg List.head? heq
  exact absurd hfirst (by decide)

end

end Bilbo
