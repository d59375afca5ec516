import Mathlib.Tactic.Common
import Mathlib.Data.Nat.Notation
import Mathlib.Data.List.Basic

/-!
# UTF-8 on byte lists

The core library proves encoding and decoding inverse on byte arrays; this file states the
part a byte-level program needs on plain lists: what it means to be UTF-8, a checker that
evaluates, and where a UTF-8 text may be cut. A cut is safe exactly before a byte that
can start a character (`UInt8.IsUTF8FirstByte`) or at the end.
-/

namespace Base

/-- Text and raw data alike. -/
abbrev Bytes := List UInt8

/-- The UTF-8 encoding of a list of characters. -/
def encode (cs : List Char) : Bytes := cs.flatMap String.utf8EncodeChar

/-- The bytes of a string. -/
def utf8 (s : String) : Bytes := s.toUTF8.data.toList

/-- The byte list is the encoding of some text. -/
def Utf8 (bs : Bytes) : Prop := ∃ cs, encode cs = bs

/-- The first character of a text, if the text starts with one. -/
def firstChar (bs : Bytes) : Option Char := bs.toByteArray.utf8DecodeChar? 0

/-- The checker behind `isUtf8`; `n` bounds the characters left. -/
def checkUtf8 : ℕ → Bytes → Bool
  | _, [] => true
  | 0, _ :: _ => false
  | n + 1, b :: bs =>
    match firstChar (b :: bs) with
    | none => false
    | some c => checkUtf8 n ((b :: bs).drop c.utf8Size)

/-- Whether a byte list is UTF-8. -/
def isUtf8 (bs : Bytes) : Bool := checkUtf8 bs.length bs

/-! ## Encoding -/

@[simp] theorem encode_nil : encode [] = [] := rfl

@[simp] theorem encode_cons (c : Char) (cs : List Char) :
    encode (c :: cs) = String.utf8EncodeChar c ++ encode cs := rfl

theorem encode_append (cs ds : List Char) : encode (cs ++ ds) = encode cs ++ encode ds := by
  simp [encode]

theorem utf8_injective : Function.Injective utf8 := by
  intro s t h
  have h' := Array.toList_inj.1 h
  apply String.toByteArray_inj.1
  exact ByteArray.ext h'

theorem firstChar_encode (c : Char) (bs : Bytes) :
    firstChar (String.utf8EncodeChar c ++ bs) = some c := by
  rw [firstChar, List.toByteArray_append]
  exact ByteArray.utf8DecodeChar?_utf8EncodeChar_append

theorem encode_of_firstChar {bs : Bytes} {c : Char} (h : firstChar bs = some c) :
    bs = String.utf8EncodeChar c ++ bs.drop c.utf8Size := by
  obtain ⟨l, hl⟩ := ByteArray.exists_of_utf8DecodeChar?_eq_some h
  have hl' : bs = String.utf8EncodeChar c ++ l.data.toList := by
    have h1 : bs = bs.toByteArray.data.toList := by simp
    rw [h1, hl]
    simp
  have hd := congrArg (List.drop c.utf8Size) hl'
  rw [List.drop_append, ← String.length_utf8EncodeChar, List.drop_length,
    Nat.sub_self, List.drop_zero, List.nil_append] at hd
  rw [← String.length_utf8EncodeChar, hd]
  exact hl'

/-! ## The checker -/

theorem Utf8.nil : Utf8 [] := ⟨[], rfl⟩

theorem Utf8.char (c : Char) : Utf8 (String.utf8EncodeChar c) := ⟨[c], by simp⟩

theorem Utf8.append {a b : Bytes} (ha : Utf8 a) (hb : Utf8 b) : Utf8 (a ++ b) := by
  obtain ⟨cs, rfl⟩ := ha
  obtain ⟨ds, rfl⟩ := hb
  exact ⟨cs ++ ds, encode_append cs ds⟩

/-- A nonempty text starts with a character. -/
theorem Utf8.cases {bs : Bytes} (h : Utf8 bs) :
    bs = [] ∨ ∃ c rest, bs = String.utf8EncodeChar c ++ rest ∧ Utf8 rest := by
  obtain ⟨cs, rfl⟩ := h
  cases cs with
  | nil => exact Or.inl rfl
  | cons c cs => exact Or.inr ⟨c, encode cs, rfl, cs, rfl⟩

/-- A text after a first character is a text. -/
theorem Utf8.of_char_append {c : Char} {bs : Bytes}
    (h : Utf8 (String.utf8EncodeChar c ++ bs)) : Utf8 bs := by
  rcases h.cases with h0 | ⟨d, rest, hd, hrest⟩
  · exact absurd (List.append_eq_nil_iff.1 h0).1 String.utf8EncodeChar_ne_nil
  · have hc := firstChar_encode c bs
    rw [hd, firstChar_encode] at hc
    cases hc
    rw [List.append_cancel_left hd]
    exact hrest

theorem utf8_char_append_iff {c : Char} {bs : Bytes} :
    Utf8 (String.utf8EncodeChar c ++ bs) ↔ Utf8 bs :=
  ⟨Utf8.of_char_append, (Utf8.char c).append⟩

/-- Cutting a text off the front of a text leaves a text. -/
theorem Utf8.of_append_left {a b : Bytes} (ha : Utf8 a) (h : Utf8 (a ++ b)) : Utf8 b := by
  obtain ⟨cs, rfl⟩ := ha
  induction cs with
  | nil => exact h
  | cons c cs ih =>
    rw [encode_cons, List.append_assoc] at h
    exact ih h.of_char_append

theorem checkUtf8_iff (n : ℕ) (bs : Bytes) (hn : bs.length ≤ n) :
    checkUtf8 n bs = true ↔ Utf8 bs := by
  induction n generalizing bs with
  | zero =>
    obtain rfl : bs = [] := List.length_eq_zero_iff.1 (by omega)
    exact ⟨fun _ => Utf8.nil, fun _ => rfl⟩
  | succ n ih =>
    cases bs with
    | nil => exact ⟨fun _ => Utf8.nil, fun _ => rfl⟩
    | cons b bs =>
      rw [checkUtf8]
      cases hc : firstChar (b :: bs) with
      | none =>
        refine ⟨fun h => absurd h (by simp), fun h => ?_⟩
        rcases h.cases with h0 | ⟨c, rest, hd, -⟩
        · cases h0
        · rw [hd, firstChar_encode] at hc
          cases hc
      | some c =>
        have hpos := c.utf8Size_pos
        have hlen : ((b :: bs).drop c.utf8Size).length ≤ n := by
          rw [List.length_drop, List.length_cons]
          simp only [List.length_cons] at hn
          omega
        show checkUtf8 n _ = true ↔ _
        rw [ih _ hlen]
        conv_rhs => rw [encode_of_firstChar hc]
        exact utf8_char_append_iff.symm

theorem isUtf8_iff (bs : Bytes) : isUtf8 bs = true ↔ Utf8 bs :=
  checkUtf8_iff bs.length bs (Nat.le_refl _)

instance (bs : Bytes) : Decidable (Utf8 bs) := decidable_of_iff _ (isUtf8_iff bs)

/-! ## Character boundaries -/

/-- A byte below 0x80 is the encoding of a character by itself. -/
theorem utf8EncodeChar_ascii {b : UInt8} (h : b.toNat < 0x80) :
    String.utf8EncodeChar (Char.ofNat b.toNat) = [b] := by
  have hv : b.toNat.isValidChar := Or.inl (by omega)
  have hc : (Char.ofNat b.toNat).val.toNat = b.toNat := by
    rw [Char.ofNat, dif_pos hv]
    rfl
  rw [String.utf8EncodeChar]
  simp only [hc]
  rw [if_pos (by omega)]
  simp

theorem Utf8.ascii {b : UInt8} (h : b.toNat < 0x80) : Utf8 [b] := by
  rw [← utf8EncodeChar_ascii h]
  exact Utf8.char _

theorem utf8_ascii_cons_iff {b : UInt8} {bs : Bytes} (h : b.toNat < 0x80) :
    Utf8 (b :: bs) ↔ Utf8 bs := by
  rw [← List.singleton_append, ← utf8EncodeChar_ascii h]
  exact utf8_char_append_iff

theorem utf8_of_ascii {bs : Bytes} (h : ∀ b ∈ bs, b.toNat < 0x80) : Utf8 bs := by
  induction bs with
  | nil => exact Utf8.nil
  | cons b bs ih =>
    have hb := h b List.mem_cons_self
    exact (utf8_ascii_cons_iff hb).2 (ih fun x hx => h x (List.mem_cons_of_mem _ hx))

/-- A text starts with a byte that can start a character. -/
theorem Utf8.first {b : UInt8} {bs : Bytes} (h : Utf8 (b :: bs)) : b.IsUTF8FirstByte := by
  rcases h.cases with h0 | ⟨c, rest, hd, -⟩
  · cases h0
  · have hlen : 0 < (String.utf8EncodeChar c).length := by
      rw [String.length_utf8EncodeChar]
      exact c.utf8Size_pos
    have h0 : (String.utf8EncodeChar c)[0] = b := by
      have := congrArg (·[0]?) hd
      simpa [List.getElem?_append_left hlen, List.getElem?_eq_getElem hlen] using this.symm
    rw [← h0]
    exact UInt8.isUTF8FirstByte_getElem_zero_utf8EncodeChar

/-- What may follow a cut: nothing, or a byte that can start a character. -/
def Boundary : Bytes → Prop
  | [] => True
  | b :: _ => b.IsUTF8FirstByte

instance (bs : Bytes) : Decidable (Boundary bs) := by
  cases bs <;> unfold Boundary <;> infer_instance

theorem Utf8.boundary {bs : Bytes} (h : Utf8 bs) : Boundary bs := by
  cases bs with
  | nil => trivial
  | cons b bs => exact h.first

/-- A text cut before a byte that can start a character falls into two texts. -/
theorem Utf8.split {a b : Bytes} (h : Utf8 (a ++ b)) (hb : Boundary b) : Utf8 a ∧ Utf8 b := by
  obtain ⟨cs, hcs⟩ := h
  induction cs generalizing a with
  | nil =>
    obtain ⟨rfl, rfl⟩ := List.append_eq_nil_iff.1 hcs.symm
    exact ⟨Utf8.nil, Utf8.nil⟩
  | cons c cs ih =>
    rw [encode_cons] at hcs
    by_cases hlen : (String.utf8EncodeChar c).length ≤ a.length
    · -- the cut is not inside the first character
      obtain ⟨a', rfl⟩ : ∃ a', a = String.utf8EncodeChar c ++ a' :=
        (List.prefix_of_prefix_length_le (List.prefix_append _ _) ⟨b, hcs.symm⟩ hlen).imp
          fun _ => Eq.symm
      rw [List.append_assoc] at hcs
      obtain ⟨ha', hb'⟩ := ih (List.append_cancel_left hcs)
      exact ⟨(Utf8.char c).append ha', hb'⟩
    · cases ha : a with
      | nil =>
        rw [ha, List.nil_append] at hcs
        exact ⟨Utf8.nil, hcs ▸ (Utf8.char c).append ⟨cs, rfl⟩⟩
      | cons x a' =>
        -- the cut is inside the first character, where no byte can start one
        exfalso
        have hk : a.length < (String.utf8EncodeChar c).length := by omega
        cases hb0 : b with
        | nil =>
          have := congrArg List.length hcs
          rw [List.length_append, hb0, List.append_nil] at this
          omega
        | cons y b' =>
          rw [hb0] at hb
          have hy : (String.utf8EncodeChar c)[a.length] = y := by
            have := congrArg (·[a.length]?) hcs
            simpa [List.getElem?_append_left hk, List.getElem?_eq_getElem hk,
              List.getElem?_append_right, hb0] using this
          have hfirst : ((String.utf8EncodeChar c)[a.length]).IsUTF8FirstByte := hy ▸ hb
          have h0 : a.length = 0 := UInt8.isUTF8FirstByte_getElem_utf8EncodeChar.1 hfirst
          rw [ha] at h0
          cases h0

/-- A byte below 0x80 can start a character. -/
theorem isUTF8FirstByte_of_ascii {b : UInt8} (h : b.toNat < 0x80) : b.IsUTF8FirstByte :=
  (Utf8.ascii h).first

/-- A byte below 0x80 in the encoding of a character is all of it. -/
theorem utf8EncodeChar_of_ascii_mem {c : Char} {b : UInt8} (h : b.toNat < 0x80)
    (hmem : b ∈ String.utf8EncodeChar c) : String.utf8EncodeChar c = [b] := by
  obtain ⟨i, hi, hb⟩ := List.getElem_of_mem hmem
  have hfirst : ((String.utf8EncodeChar c)[i]).IsUTF8FirstByte :=
    hb ▸ isUTF8FirstByte_of_ascii h
  have hi0 : i = 0 := UInt8.isUTF8FirstByte_getElem_utf8EncodeChar.1 hfirst
  subst hi0
  obtain ⟨rest, hrest⟩ : ∃ rest, String.utf8EncodeChar c = b :: rest :=
    ⟨(String.utf8EncodeChar c).tail, by
      rw [← hb, ← List.head_eq_getElem String.utf8EncodeChar_ne_nil,
        List.cons_head_tail]⟩
  have hc : c = Char.ofNat b.toNat := by
    have h1 := firstChar_encode c []
    have h2 := firstChar_encode (Char.ofNat b.toNat) rest
    rw [utf8EncodeChar_ascii h, List.singleton_append, ← hrest] at h2
    rw [List.append_nil, h2] at h1
    exact (Option.some.inj h1).symm
  rw [hc, utf8EncodeChar_ascii h]

theorem utf8EncodeChar_injective : Function.Injective String.utf8EncodeChar := by
  intro c d h
  have hc := firstChar_encode c []
  rw [h, firstChar_encode] at hc
  exact (Option.some.inj hc).symm

/-- Only the character of a byte below 0x80 has the byte in its encoding. -/
theorem not_mem_utf8EncodeChar {c : Char} {b : UInt8} (hb : b.toNat < 0x80) (h : c.toNat ≠ b.toNat) :
    b ∉ String.utf8EncodeChar c := by
  intro hmem
  have hone := utf8EncodeChar_of_ascii_mem hb hmem
  rw [← utf8EncodeChar_ascii hb] at hone
  apply h
  rw [utf8EncodeChar_injective hone, Char.ofNat, dif_pos (Or.inl (by omega))]
  rfl

theorem utf8_eq_encode (s : String) : utf8 s = encode s.toList := by
  have hbytes : (encode s.toList).toByteArray = s.toByteArray := String.utf8Encode_toList
  rw [utf8, String.toUTF8, ← hbytes]
  simp

/-- Only the character 0 is encoded with a byte 0. -/
theorem zero_not_mem_utf8 {s : String} (h : Char.ofNat 0 ∉ s.toList) : 0 ∉ utf8 s := by
  rw [utf8_eq_encode, encode, List.mem_flatMap]
  rintro ⟨c, hc, hmem⟩
  refine not_mem_utf8EncodeChar (by decide) ?_ hmem
  intro hzero
  apply h
  rwa [← Char.ofNat_toNat c, hzero] at hc

/-! ## Edits that touch only bytes below 0x80 -/

/-- The second text comes from the first by dropping bytes below 0x80 and by replacing them by
others. -/
inductive AsciiEdit : Bytes → Bytes → Prop
  | nil : AsciiEdit [] []
  | keep {b : UInt8} {x y : Bytes} : AsciiEdit x y → AsciiEdit (b :: x) (b :: y)
  | swap {b c : UInt8} {x y : Bytes} : b.toNat < 0x80 → c.toNat < 0x80 → AsciiEdit x y →
      AsciiEdit (b :: x) (c :: y)
  | drop {b : UInt8} {x y : Bytes} : b.toNat < 0x80 → AsciiEdit x y → AsciiEdit (b :: x) y

/-- The bytes of a longer character stay. -/
theorem AsciiEdit.of_append {a x z : Bytes} (ha : ∀ b ∈ a, ¬ b.toNat < 0x80)
    (h : AsciiEdit (a ++ x) z) : ∃ y, z = a ++ y ∧ AsciiEdit x y := by
  induction a generalizing z with
  | nil => exact ⟨z, rfl, h⟩
  | cons b a ih =>
    have hb := ha b List.mem_cons_self
    cases h with
    | keep h =>
      obtain ⟨y, rfl, hy⟩ := ih (fun c hc => ha c (List.mem_cons_of_mem _ hc)) h
      exact ⟨y, rfl, hy⟩
    | swap hlt _ _ => exact absurd hlt hb
    | drop hlt _ => exact absurd hlt hb

/-- Such an edit keeps a text a text. -/
theorem AsciiEdit.utf8 {x y : Bytes} (h : AsciiEdit x y) (hx : Utf8 x) : Utf8 y := by
  obtain ⟨cs, rfl⟩ := hx
  induction cs generalizing y with
  | nil =>
    cases h
    exact Utf8.nil
  | cons c cs ih =>
    rw [encode_cons] at h
    by_cases hascii : ∃ b ∈ String.utf8EncodeChar c, b.toNat < 0x80
    · obtain ⟨b, hmem, hb⟩ := hascii
      rw [utf8EncodeChar_of_ascii_mem hb hmem, List.singleton_append] at h
      cases h with
      | keep h => exact (utf8_ascii_cons_iff hb).2 (ih h)
      | swap _ hc h => exact (utf8_ascii_cons_iff hc).2 (ih h)
      | drop _ h => exact ih h
    · obtain ⟨z, rfl, hz⟩ := AsciiEdit.of_append (fun b hb hlt => hascii ⟨b, hb, hlt⟩) h
      exact (Utf8.char c).append (ih hz)

end Base
