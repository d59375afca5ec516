import Bilbo.Base.Sleb
import Bilbo.Locations

/-!
# Offsets

What `sleb128` makes of the encoding of an `i64`. Seven bits at a time, the number is complete after
the tenth byte, whose group overruns it; the sign is filled in only when the groups end before bit
64. A build with overflow checks looks at every shift amount as well, and for up to ten bytes it
returns the same.
-/

namespace Bilbo

open Base

/-! ## A build with overflow checks -/

/-- `<<` -/
def checkedShl (x : BitVec 64) (shift : ℕ) : Except String (BitVec 64) :=
  if shift < 64 then .ok (x <<< shift) else .error "attempt to shift left with overflow"

/-- The loop of `sleb128`. -/
def sleb128CheckedLoop : Bytes → ℕ → ℕ → BitVec 64 → Except String (BitVec 64 × ℕ)
  | [], _, _, _ => .error "index out of bounds"
  | byte :: rest, i, shift, result => do
    let group ← checkedShl (BitVec.ofNat 64 (byte.toNat &&& 0x7F)) shift
    let result := result ||| group
    let shift := shift + 7
    if byte &&& 0x80 == 0 then
      if shift < 64 && byte &&& 0x40 != 0 then
        let sign ← checkedShl (BitVec.allOnes 64) shift
        pure (result ||| sign, i + 1)
      else pure (result, i + 1)
    else sleb128CheckedLoop rest (i + 1) shift result

/-- `sleb128` -/
def sleb128Checked (b : Bytes) : Except String (BitVec 64 × ℕ) := sleb128CheckedLoop b 0 0 0

theorem checkedShl_of_lt {shift : ℕ} (h : shift < 64) (x : BitVec 64) :
    checkedShl x shift = .ok (x <<< shift) := if_pos h

section Steps

variable {b : UInt8} {shift : ℕ}

theorem sleb128CheckedLoop_far (hshift : 64 ≤ shift) (rest : Bytes) (i : ℕ) (r : BitVec 64) :
    sleb128CheckedLoop (b :: rest) i shift r = .error "attempt to shift left with overflow" := by
  rw [sleb128CheckedLoop, checkedShl, if_neg (by omega)]
  rfl

/-- Below 64 the first shift returns, and the second one is only made there. -/
theorem sleb128CheckedLoop_near (hshift : shift < 64) (rest : Bytes) (i : ℕ) (r : BitVec 64) :
    sleb128CheckedLoop (b :: rest) i shift r =
      if b.toNat < 128 then sleb128Loop (b :: rest) i shift r
      else sleb128CheckedLoop rest (i + 1) (shift + 7) (addGroup r shift b) := by
  have hstep : sleb128CheckedLoop (b :: rest) i shift r =
      if b &&& 0x80 == 0 then
        if shift + 7 < 64 && b &&& 0x40 != 0 then
          (checkedShl (BitVec.allOnes 64) (shift + 7)).map fun sign =>
            (r ||| BitVec.ofNat 64 (b.toNat &&& 0x7F) <<< shift ||| sign, i + 1)
        else .ok (r ||| BitVec.ofNat 64 (b.toNat &&& 0x7F) <<< shift, i + 1)
      else sleb128CheckedLoop rest (i + 1) (shift + 7)
        (r ||| BitVec.ofNat 64 (b.toNat &&& 0x7F) <<< shift) := by
    rw [sleb128CheckedLoop, checkedShl_of_lt hshift]
    rfl
  have hgroup : r ||| BitVec.ofNat 64 (b.toNat % 128) <<< shift = addGroup r shift b := by
    rw [addGroup, Nat.mod_eq_of_lt hshift]
  simp only [uint8_and_high, uint8_and_sign, nat_and_group, hgroup, decide_eq_true_eq,
    Bool.and_eq_true] at hstep
  rw [hstep]
  by_cases hb : b.toNat < 128
  · -- the sign is filled in below 64 only, where its shift returns as well
    rw [if_pos hb, if_pos hb, sleb128Loop_last hb]
    by_cases hsign : shift + 7 < 64 ∧ 64 ≤ b.toNat % 128
    · rw [if_pos hsign, if_pos hsign, checkedShl_of_lt hsign.1]
      rfl
    · rw [if_neg hsign, if_neg hsign]
  · rw [if_neg hb, if_neg hb]

end Steps

/-- The eleventh byte is the first one that is shifted too far. -/
theorem sleb128CheckedLoop_eq {bs : Bytes} (h : IsSleb bs) (tail : Bytes) (i : ℕ) (r : BitVec 64) :
    sleb128CheckedLoop (bs ++ tail) i (7 * i) r =
      if i + bs.length ≤ 10 then sleb128Loop (bs ++ tail) i (7 * i) r
      else .error "attempt to shift left with overflow" := by
  induction h generalizing i r with
  | last hb =>
    rw [List.singleton_append, List.length_singleton]
    by_cases hi : i + 1 ≤ 10
    · rw [if_pos hi, sleb128CheckedLoop_near (by omega), if_pos hb]
    · rw [if_neg hi, sleb128CheckedLoop_far (by omega)]
  | @more b bs hb hbs ih =>
    have hpos := List.length_pos_of_ne_nil hbs.ne_nil
    rw [List.cons_append, List.length_cons]
    by_cases hi : i < 10
    · rw [sleb128CheckedLoop_near (by omega), if_neg (by omega), sleb128Loop_more hb]
      have hrest := ih (i + 1) (addGroup r (7 * i) b)
      rwa [Nat.mul_succ, Nat.add_right_comm, Nat.add_assoc i] at hrest
    · rw [if_neg (by omega), sleb128CheckedLoop_far (by omega)]

/-! ## Encoded numbers -/

/-- What two words stand for modulo 2^64 decides them. -/
theorem eq_of_modEq_toInt {v w : BitVec 64} (h : (w.toNat : ℤ) ≡ v.toInt [ZMOD 2 ^ 64]) :
    w = v := by
  have hv := v.isLt
  have hw := w.isLt
  have hint := BitVec.toInt_eq_toNat_cond v
  apply BitVec.eq_of_toNat_eq
  unfold Int.ModEq at h
  split at hint <;> omega

/-- Every `i64` has an encoding of ten bytes; the shorter ones it has are those it fits in. -/
theorem exists_encoding_ten (v : BitVec 64) : ∃ bs, bs.length = 10 ∧ SlebEncoding v.toInt bs := by
  have hlo := BitVec.le_toInt v
  have hhi := BitVec.toInt_lt (x := v)
  exact exists_slebEncoding.2 ⟨by omega, by omega⟩

/-- `sleb128` inverts the encoding of every `i64` in up to ten bytes, whatever follows, with no
shift by 64 or more. -/
theorem sleb128_encoding {v : BitVec 64} {bs : Bytes} (h : SlebEncoding v.toInt bs)
    (hlen : bs.length ≤ 10) (tail : Bytes) :
    sleb128 (bs ++ tail) = .ok (v, bs.length) ∧
      sleb128Checked (bs ++ tail) = .ok (v, bs.length) := by
  obtain ⟨hbs, hvalue⟩ := slebEncoding_iff.1 h
  obtain ⟨w, hrun, hw⟩ := sleb128_run hbs hlen tail
  rw [hvalue] at hw
  obtain rfl := eq_of_modEq_toInt hw
  have hchecked := sleb128CheckedLoop_eq hbs tail 0 0
  rw [Nat.zero_add, if_pos hlen] at hchecked
  exact ⟨hrun, hchecked.trans hrun⟩

/-- `i64::MIN` in ten bytes, with an operation behind it. -/
theorem sleb128_encoding_min :
    sleb128 ([0x80, 0x80, 0x80, 0x80, 0x80, 0x80, 0x80, 0x80, 0x80, 0x7F] ++ [0x06]) =
        .ok (BitVec.intMin 64, 10) ∧
      sleb128Checked ([0x80, 0x80, 0x80, 0x80, 0x80, 0x80, 0x80, 0x80, 0x80, 0x7F] ++ [0x06]) =
        .ok (BitVec.intMin 64, 10) := by
  have hmore : ∀ {bs : Bytes}, IsSleb bs → IsSleb (0x80 :: bs) := .more (by decide)
  have hbs : IsSleb [0x80, 0x80, 0x80, 0x80, 0x80, 0x80, 0x80, 0x80, 0x80, 0x7F] := by
    repeat apply hmore
    exact .last (by decide)
  exact sleb128_encoding (slebEncoding_iff.2 ⟨hbs, by decide⟩) (by decide) [0x06]

end Bilbo
