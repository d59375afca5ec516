import Bilbo.Interpreting

/-!
# Integers in both backends

The emitted scan accumulates in wrapping 64-bit arithmetic and stores the low bytes; the
interpreter parses 128 bits and cuts them off. Both store the number modulo `256 ^ n`.
-/

namespace Bilbo

open Base Comp

variable {env : Env} {inp : Input} {c n : ℕ} {w ds tail : Bytes} {sign : Sign}

/-- `Ty::I` or `Ty::U` -/
def intTy (signed : Bool) (n : ℕ) : Ty := if signed then .i n else .u n

/-- The `n` bytes of a number, in two's complement. -/
def intBytes (n : ℕ) (z : ℤ) : Bytes := le n (z % (256 ^ n : ℕ)).toNat

/-- The state with a number stored at `dst`. -/
def withInt (s : State) (dst n : ℕ) (z : ℤ) : State :=
  { s with mem := writeCells s.mem dst (ints (intBytes n z)) }

/-- The numbers of `u128` or `i128`. -/
def Fits128 (signed : Bool) (z : ℤ) : Prop :=
  if signed then -2 ^ 127 ≤ z ∧ z < 2 ^ 127 else 0 ≤ z ∧ z < 2 ^ 128

/-- Numbers that are congruent have the same bytes. -/
theorem le_eq_intBytes {x : ℕ} {z : ℤ} (h : (x : ℤ) % (256 ^ n : ℕ) = z % (256 ^ n : ℕ)) :
    le n x = intBytes n z := by
  have hx : ((x : ℤ) % (256 ^ n : ℕ)).toNat = x % 256 ^ n := by
    rw [← Int.natCast_mod, Int.toNat_natCast]
  rw [intBytes, ← h, hx, le_mod]

/-- A wrapping 64-bit value has the low bytes of the number it wraps. -/
theorem wrap64_mod (hn : IntSize n) (sign : Sign) (v : ℕ) :
    ((if sign = .minus then wrapSub 0 (v % 2 ^ 64) else v % 2 ^ 64 : ℕ) : ℤ) % (256 ^ n : ℕ) =
      sign.apply v % (256 ^ n : ℕ) := by
  unfold wrapSub Sign.apply
  rcases hn with rfl | rfl | rfl | rfl <;> cases sign <;>
    simp only [reduceCtorEq, if_false, if_true] <;> omega

/-- 128 bits in two's complement have the low bytes of the number. -/
theorem wrap128_mod (hn : IntSize n) (z : ℤ) :
    ((z % 2 ^ 128).toNat : ℤ) % (256 ^ n : ℕ) = z % (256 ^ n : ℕ) := by
  rcases hn with rfl | rfl | rfl | rfl <;> omega

/-- The emitted code on digits behind a sign. -/
theorem parse_int_runs {signed : Bool} (hn : IntSize n) (hsign : sign = .minus → signed = true)
    (hw : IsWs w) (hds : Digits ds) (h : inp.rest c = w ++ ((sign.text ++ ds) ++ tail))
    (htail : DigitsEnd tail) (dst : ℕ) (s : State) :
    Runs (fun k d => parse env inp k d (intTy signed n) dst c) s
      (c + (w.length + (sign.text ++ ds).length)) (withInt s dst n (sign.apply (decimal ds))) := by
  -- the wrapping value is congruent to the number, and only its low bytes are stored
  have hint := intval_runs hsign hw hds h htail s
  have hbytes := le_eq_intBytes (wrap64_mod hn sign (decimal ds))
  have hcall : ∀ k d, parse env inp k (d + 1) (intTy signed n) dst c = (do
      let x ← intval inp k c signed
      storeSized dst x.1 n
      pure x.2) := by
    intro k d
    cases signed <;> rfl
  apply Runs.call hcall
  apply hint.bind
  apply Runs.of_eq
  show (Outcome.done _, { s with mem := writeCells s.mem dst (ints (le (storeWidth n) _)) }) = _
  rw [hn.storeWidth, hbytes]
  rfl

/-- `interp::run` on the same token, when the number fits its 128 bits. -/
theorem run_int_runs {signed : Bool} (hn : IntSize n) (hsign : sign = .minus → signed = true)
    (hds : Digits ds) (hfits : Fits128 signed (sign.apply (decimal ds))) (dst : ℕ) (s : State) :
    Runs (fun _ d => run env d dst (intTy signed n) (.num (sign.text ++ ds))) s ()
      (withInt s dst n (sign.apply (decimal ds))) := by
  cases signed with
  | true =>
    obtain ⟨hlo, hhi⟩ := hfits
    apply Runs.call (x := fun _ _ => do
      let v ← orPanic (Json.num (sign.text ++ ds)).asI128
      writeBytes dst n (v % 2 ^ 128).toNat) (fun _ _ => rfl)
    -- the number fits, so the conversion does not panic
    rw [asI128_eq sign hds hlo hhi]
    apply Runs.of_eq
    show (writeBytes dst n (sign.apply (decimal ds) % 2 ^ 128).toNat).run s = _
    rw [writeBytes_eq hn]
    show (Outcome.done _, { s with mem := writeCells s.mem dst (ints (le n _)) }) = _
    rw [le_eq_intBytes (wrap128_mod hn _)]
    rfl
  | false =>
    have hne : sign ≠ .minus := fun h => absurd (hsign h) (by decide)
    have hval : sign.apply (decimal ds) = decimal ds := by
      cases sign with
      | minus => exact absurd rfl hne
      | none => rfl
      | plus => rfl
    rw [hval] at hfits ⊢
    obtain ⟨-, hhi⟩ := hfits
    apply Runs.call (x := fun _ _ => do
      let v ← orPanic (Json.num (sign.text ++ ds)).asU128
      writeBytes dst n v) (fun _ _ => rfl)
    rw [asU128_eq sign hne hds (by omega)]
    apply Runs.of_eq
    show (writeBytes dst n (decimal ds)).run s = _
    rw [writeBytes_eq hn]
    show (Outcome.done _, { s with mem := writeCells s.mem dst (ints (le n _)) }) = _
    rw [le_eq_intBytes rfl]
    rfl

/-- The emitted code stores the number modulo `256 ^ n` and stops behind the last digit; when the
number fits 128 bits, the interpreter stores the same bytes. -/
theorem integers_agree {signed : Bool} (hn : IntSize n) (hsign : sign = .minus → signed = true)
    (hw : IsWs w) (hds : Digits ds) (h : inp.rest c = w ++ ((sign.text ++ ds) ++ tail))
    (htail : DigitsEnd tail) (dst : ℕ) (s : State) :
    Runs (fun k d => parse env inp k d (intTy signed n) dst c) s
        (c + (w.length + (sign.text ++ ds).length)) (withInt s dst n (sign.apply (decimal ds))) ∧
      (Fits128 signed (sign.apply (decimal ds)) →
        Runs (fun _ d => run env d dst (intTy signed n) (.num (sign.text ++ ds))) s ()
          (withInt s dst n (sign.apply (decimal ds)))) :=
  ⟨parse_int_runs hn hsign hw hds h htail dst s, fun hfits =>
    run_int_runs hn hsign hds hfits dst s⟩

/-- `-1.5` -/
def minusInput : Input := ⟨[0x2D, 0x31, 0x2E, 0x35], fun _ => 0, by decide⟩

theorem integers_agree_minus :
    Runs (fun k d => parse Env.bare minusInput k d (intTy true 2) 0 0) (State.initial 8)
        (0 + (0 + 2)) (withInt (State.initial 8) 0 2 (-1)) ∧
      (Fits128 true (-1) →
        Runs (fun _ d => run Env.bare d 0 (intTy true 2) (.num [0x2D, 0x31])) (State.initial 8) ()
          (withInt (State.initial 8) 0 2 (-1))) := by
  have hds : Digits [0x31] := Digits.single rfl
  have hrest : minusInput.rest 0 = [] ++ ((Sign.minus.text ++ [0x31]) ++ [0x2E, 0x35]) := rfl
  exact integers_agree (.inr (.inl rfl)) (fun _ => rfl) (fun _ h => absurd h List.not_mem_nil) hds
    hrest rfl 0 (State.initial 8)

end Bilbo
