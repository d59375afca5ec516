import Mathlib.Data.Int.ModEq
import Mathlib.Tactic.Ring
import Bilbo.Base.Utf8

/-!
# Signed LEB128

A signed number as groups of seven bits, low group first. Every byte but the last has its high bit
set, and bit 6 of the last one is the sign.
-/

namespace Base

/-- A complete signed LEB128 number. -/
inductive IsSleb : Bytes → Prop
  | last {b : UInt8} : b.toNat < 128 → IsSleb [b]
  | more {b : UInt8} {bs : Bytes} : 128 ≤ b.toNat → IsSleb bs → IsSleb (b :: bs)

/-- The number that it stands for. -/
def slebValue : Bytes → ℤ
  | [] => 0
  | [b] => if b.toNat % 128 < 64 then b.toNat % 128 else b.toNat % 128 - 128
  | b :: bs => b.toNat % 128 + 128 * slebValue bs

theorem IsSleb.ne_nil {bs : Bytes} (h : IsSleb bs) : bs ≠ [] := by
  cases h <;> exact List.cons_ne_nil _ _

theorem slebValue_cons {b : UInt8} {bs : Bytes} (h : bs ≠ []) :
    slebValue (b :: bs) = b.toNat % 128 + 128 * slebValue bs := by
  cases bs with
  | nil => exact absurd rfl h
  | cons c bs => rfl

/-- No number is the front of another one. -/
theorem IsSleb.tail_eq_nil {bs tail : Bytes} (h : IsSleb bs) (h' : IsSleb (bs ++ tail)) :
    tail = [] := by
  induction h with
  | last hb =>
    cases h' with
    | last _ => rfl
    | more hb' _ => omega
  | @more b bs hb hbs ih =>
    rw [List.cons_append] at h'
    generalize hx : bs ++ tail = x at h'
    cases h' with
    | last hb' => omega
    | more _ hrest => exact ih (hx ▸ hrest)

/-! ## Encoding -/

/-- The bytes that an encoder of `x` may write: it may end as soon as the number fits one group, and
may go on with sign bits as long as it likes. -/
inductive SlebEncoding : ℤ → Bytes → Prop
  | last {x : ℤ} : -64 ≤ x → x < 64 → SlebEncoding x [UInt8.ofNat (x % 128).toNat]
  | more {x : ℤ} {bs : Bytes} : SlebEncoding (x / 128) bs →
      SlebEncoding x (UInt8.ofNat (x % 128 + 128).toNat :: bs)

theorem toNat_ofNat_toNat {y : ℤ} (h : 0 ≤ y) (h' : y < 256) :
    ((UInt8.ofNat y.toNat).toNat : ℤ) = y := by
  rw [UInt8.toNat_ofNat']
  omega

theorem SlebEncoding.decoded {x : ℤ} {bs : Bytes} (h : SlebEncoding x bs) :
    IsSleb bs ∧ slebValue bs = x := by
  induction h with
  | @last x hlo hhi =>
    have hbyte := toNat_ofNat_toNat (y := x % 128) (by omega) (by omega)
    refine ⟨.last (by omega), ?_⟩
    rw [slebValue]
    split <;> omega
  | @more x bs _ ih =>
    have hbyte := toNat_ofNat_toNat (y := x % 128 + 128) (by omega) (by omega)
    refine ⟨.more (by omega) ih.1, ?_⟩
    rw [slebValue_cons ih.1.ne_nil, ih.2]
    omega

theorem IsSleb.encoding {bs : Bytes} (h : IsSleb bs) : SlebEncoding (slebValue bs) bs := by
  induction h with
  | @last b hb =>
    have hvalue : slebValue [b] = if b.toNat % 128 < 64 then (b.toNat : ℤ) % 128
      else b.toNat % 128 - 128 := rfl
    have hbyte : UInt8.ofNat (slebValue [b] % 128).toNat = b := by
      apply UInt8.toNat_inj.1
      rw [UInt8.toNat_ofNat', hvalue]
      split <;> omega
    have hend := SlebEncoding.last (x := slebValue [b]) (by split at hvalue <;> omega)
      (by split at hvalue <;> omega)
    rwa [hbyte] at hend
  | @more b bs hb hbs ih =>
    have hvalue := slebValue_cons (b := b) hbs.ne_nil
    have hbyte : UInt8.ofNat (slebValue (b :: bs) % 128 + 128).toNat = b := by
      have hlt := b.toNat_lt
      apply UInt8.toNat_inj.1
      rw [UInt8.toNat_ofNat', hvalue]
      omega
    -- what the encoder goes on with is what the rest stands for
    have hquot : slebValue (b :: bs) / 128 = slebValue bs := by omega
    have hend := SlebEncoding.more (x := slebValue (b :: bs)) (hquot ▸ ih)
    rwa [hbyte] at hend

/-- The encodings of a number are the complete numbers that stand for it. -/
theorem slebEncoding_iff {x : ℤ} {bs : Bytes} :
    SlebEncoding x bs ↔ IsSleb bs ∧ slebValue bs = x := by
  refine ⟨SlebEncoding.decoded, ?_⟩
  rintro ⟨h, rfl⟩
  exact h.encoding

/-- A number has an encoding of `n + 1` bytes exactly when it fits their bits. -/
theorem exists_slebEncoding {n : ℕ} {x : ℤ} :
    (∃ bs, bs.length = n + 1 ∧ SlebEncoding x bs) ↔ -2 ^ (7 * n + 6) ≤ x ∧ x < 2 ^ (7 * n + 6) := by
  induction n generalizing x with
  | zero =>
    constructor
    · rintro ⟨bs, hlen, h⟩
      cases h with
      | last hlo hhi => exact ⟨hlo, hhi⟩
      | more h => cases h <;> simp at hlen
    · rintro ⟨hlo, hhi⟩
      exact ⟨_, rfl, .last hlo hhi⟩
  | succ n ih =>
    -- a number fits one group more when its quotient fits
    have hpow : (2 : ℤ) ^ (7 * (n + 1) + 6) = 128 * 2 ^ (7 * n + 6) := by ring
    have hfits : -2 ^ (7 * (n + 1) + 6) ≤ x ∧ x < 2 ^ (7 * (n + 1) + 6) ↔
        -2 ^ (7 * n + 6) ≤ x / 128 ∧ x / 128 < 2 ^ (7 * n + 6) := by
      rw [hpow]
      omega
    rw [hfits, ← ih]
    constructor
    · rintro ⟨bs, hlen, h⟩
      cases h with
      | last hlo hhi => simp at hlen
      | more h => exact ⟨_, Nat.succ.inj hlen, h⟩
    · rintro ⟨bs, hlen, h⟩
      exact ⟨_, by rw [List.length_cons, hlen], .more h⟩

/-! ## The bits of a byte -/

theorem uint8_and_high (b : UInt8) : (b &&& 0x80 == 0) = decide (b.toNat < 128) := by
  obtain ⟨⟨n⟩⟩ := b
  revert n
  decide +kernel

theorem uint8_and_sign (b : UInt8) : (b &&& 0x40 != 0) = decide (64 ≤ b.toNat % 128) := by
  obtain ⟨⟨n⟩⟩ := b
  revert n
  decide +kernel

theorem nat_and_group (n : ℕ) : n &&& 0x7F = n % 128 := Nat.and_two_pow_sub_one_eq_mod n 7

/-! ## Groups put together -/

/-- Bits put in front of a number that has none there are added to it. -/
theorem or_shiftLeft_eq_add {r : BitVec 64} {k : ℕ} (hr : r.toNat < 2 ^ k) (z : BitVec 64) :
    r ||| z <<< k = r + z <<< k := by
  symm
  apply BitVec.add_eq_or_of_and_eq_zero
  apply BitVec.eq_of_getLsbD_eq
  intro i hi
  rw [BitVec.getLsbD_and, BitVec.getLsbD_shiftLeft, BitVec.getLsbD_zero]
  by_cases hik : i < k
  · rw [decide_eq_true hik, Bool.not_true, Bool.and_false, Bool.false_and, Bool.and_false]
  · have hlt : r.toNat < 2 ^ i := hr.trans_le (Nat.pow_le_pow_right (by decide) (by omega))
    rw [BitVec.getLsbD, Nat.testBit_lt_two_pow hlt, Bool.false_and]

theorem toNat_or_shiftLeft {r : BitVec 64} {k : ℕ} (hr : r.toNat < 2 ^ k) (z : BitVec 64) :
    (r ||| z <<< k).toNat = (r.toNat + z.toNat * 2 ^ k) % 2 ^ 64 := by
  rw [or_shiftLeft_eq_add hr, BitVec.toNat_add, BitVec.toNat_shiftLeft, Nat.shiftLeft_eq,
    Nat.add_mod_mod]

end Base
