import Bilbo.Base.Sleb
import Bilbo.Locals

/-!
# Location expressions

`eval_addr` compares the length of what is behind an operation with the number of bytes that
`sleb128` has used, so an expression of several operations has no address. `DW_OP_call_frame_cfa`
has no operand and is the exception: what is behind it is not looked at.
-/

namespace Bilbo

open Base

/-! ## The decoder -/

/-- A group of seven bits is put in front of what has been read. -/
def addGroup (result : BitVec 64) (shift : ℕ) (b : UInt8) : BitVec 64 :=
  result ||| BitVec.ofNat 64 (b.toNat % 128) <<< (shift % 64)

theorem sleb128Loop_more {b : UInt8} (hb : 128 ≤ b.toNat) (rest : Bytes) (i shift : ℕ)
    (r : BitVec 64) :
    sleb128Loop (b :: rest) i shift r =
      sleb128Loop rest (i + 1) (shift + 7) (addGroup r shift b) := by
  rw [sleb128Loop]
  simp only [uint8_and_high, nat_and_group, decide_eq_true_eq]
  rw [if_neg (by omega)]
  rfl

theorem sleb128Loop_last {b : UInt8} (hb : b.toNat < 128) (rest : Bytes) (i shift : ℕ)
    (r : BitVec 64) :
    sleb128Loop (b :: rest) i shift r =
      .ok (if shift + 7 < 64 ∧ 64 ≤ b.toNat % 128 then
        addGroup r shift b ||| BitVec.allOnes 64 <<< (shift + 7) else addGroup r shift b, i + 1) := by
  rw [sleb128Loop]
  simp only [uint8_and_high, uint8_and_sign, nat_and_group, decide_eq_true_eq, Bool.and_eq_true]
  rw [if_pos hb]
  rfl

/-- The decoder uses one number and reports its length. -/
theorem sleb128Loop_returns {bs : Bytes} (h : IsSleb bs) (tail : Bytes) (i shift : ℕ)
    (r : BitVec 64) : ∃ v, sleb128Loop (bs ++ tail) i shift r = .ok (v, i + bs.length) := by
  induction h generalizing i shift r with
  | last hb =>
    rw [List.singleton_append, sleb128Loop_last hb]
    exact ⟨_, rfl⟩
  | @more b bs hb _ ih =>
    obtain ⟨v, hv⟩ := ih (i + 1) (shift + 7) (addGroup r shift b)
    refine ⟨v, ?_⟩
    rw [List.cons_append, sleb128Loop_more hb, hv, List.length_cons, Nat.add_assoc,
      Nat.add_comm 1]

theorem toNat_addGroup {r : BitVec 64} {k : ℕ} (hr : r.toNat < 2 ^ k) (hk : k < 64) (b : UInt8) :
    (addGroup r k b).toNat = (r.toNat + b.toNat % 128 * 2 ^ k) % 2 ^ 64 := by
  have hgroup : (BitVec.ofNat 64 (b.toNat % 128)).toNat = b.toNat % 128 := by
    rw [BitVec.toNat_ofNat]
    omega
  rw [addGroup, Nat.mod_eq_of_lt hk, toNat_or_shiftLeft hr, hgroup]

theorem toNat_addGroup_lt {r : BitVec 64} {k : ℕ} (hr : r.toNat < 2 ^ k) (hk : k < 64)
    (b : UInt8) : (addGroup r k b).toNat < 2 ^ (k + 7) := by
  have hgroup : b.toNat % 128 ≤ 127 := by omega
  calc (addGroup r k b).toNat
      ≤ r.toNat + b.toNat % 128 * 2 ^ k := by
        rw [toNat_addGroup hr hk]
        exact Nat.mod_le _ _
    _ < 2 ^ k + 127 * 2 ^ k := by
        have hle := Nat.mul_le_mul_right (2 ^ k) hgroup
        omega
    _ = 2 ^ (k + 7) := by ring

theorem modEq_addGroup {r : BitVec 64} {k : ℕ} (hr : r.toNat < 2 ^ k) (hk : k < 64) (b : UInt8) :
    ((addGroup r k b).toNat : ℤ) ≡ r.toNat + b.toNat % 128 * 2 ^ k [ZMOD 2 ^ 64] := by
  rw [toNat_addGroup hr hk]
  push_cast
  exact Int.mod_modEq _ _

/-- The sign fills the bits behind the last group. -/
theorem modEq_sign {r : BitVec 64} {k : ℕ} (hr : r.toNat < 2 ^ k) :
    ((r ||| BitVec.allOnes 64 <<< k).toNat : ℤ) ≡ r.toNat - 2 ^ k [ZMOD 2 ^ 64] := by
  rw [toNat_or_shiftLeft hr, BitVec.toNat_allOnes]
  push_cast
  apply (Int.mod_modEq _ _).trans
  apply Int.modEq_iff_dvd.2
  refine ⟨-2 ^ k, ?_⟩
  ring

/-- Up to ten bytes are read modulo 2^64; the tenth one has no room for its sign. -/
theorem sleb128Loop_value {bs : Bytes} (h : IsSleb bs) (tail : Bytes) {i : ℕ} {r v : BitVec 64}
    {used : ℕ} (hlen : i + bs.length ≤ 10) (hr : r.toNat < 2 ^ (7 * i))
    (hrun : sleb128Loop (bs ++ tail) i (7 * i) r = .ok (v, used)) :
    (v.toNat : ℤ) ≡ r.toNat + slebValue bs * 2 ^ (7 * i) [ZMOD 2 ^ 64] := by
  induction h generalizing i r with
  | @last b hb =>
    rw [List.singleton_append, sleb128Loop_last hb] at hrun
    obtain ⟨rfl, -⟩ := Prod.mk.inj (Except.ok.inj hrun)
    rw [List.length_singleton] at hlen
    have hk : 7 * i < 64 := by omega
    have hgroup := modEq_addGroup hr hk b
    rw [slebValue]
    by_cases hsign : 64 ≤ b.toNat % 128
    · rw [if_neg (show ¬ b.toNat % 128 < 64 by omega)]
      by_cases hshift : 7 * i + 7 < 64
      · rw [if_pos ⟨hshift, hsign⟩]
        have hfill := (modEq_sign (toNat_addGroup_lt hr hk b)).trans (hgroup.sub_right _)
        have heq : (r.toNat : ℤ) + b.toNat % 128 * 2 ^ (7 * i) - 2 ^ (7 * i + 7) =
            r.toNat + (b.toNat % 128 - 128) * 2 ^ (7 * i) := by ring
        rwa [heq] at hfill
      · -- the sign of the tenth byte is a multiple of 2^64
        rw [if_neg fun h => hshift h.1]
        obtain rfl : i = 9 := by omega
        apply hgroup.trans
        apply Int.modEq_iff_dvd.2
        refine ⟨-64, ?_⟩
        ring
    · rw [if_neg fun h => hsign h.2, if_pos (show b.toNat % 128 < 64 by omega)]
      exact hgroup
  | @more b bs hb hbs ih =>
    have hpos := List.length_pos_of_ne_nil hbs.ne_nil
    rw [List.length_cons] at hlen
    have hk : 7 * i < 64 := by omega
    rw [List.cons_append, sleb128Loop_more hb] at hrun
    have hrest := ih (i := i + 1) (by omega) (toNat_addGroup_lt hr hk b) hrun
    have hgroup := modEq_addGroup hr hk b
    have heq : (r.toNat : ℤ) + b.toNat % 128 * 2 ^ (7 * i) + slebValue bs * 2 ^ (7 * (i + 1)) =
        r.toNat + slebValue (b :: bs) * 2 ^ (7 * i) := by
      rw [slebValue_cons hbs.ne_nil]
      ring
    rw [← heq]
    exact hrest.trans (hgroup.add_right _)

/-- A complete number of at most ten bytes is read, and nothing behind it. -/
theorem sleb128_run {bs : Bytes} (h : IsSleb bs) (hlen : bs.length ≤ 10) (tail : Bytes) :
    ∃ v, sleb128 (bs ++ tail) = .ok (v, bs.length) ∧ (v.toNat : ℤ) ≡ slebValue bs [ZMOD 2 ^ 64] := by
  obtain ⟨v, hv⟩ := sleb128Loop_returns h tail 0 0 0
  rw [Nat.zero_add] at hv
  refine ⟨v, hv, ?_⟩
  have hvalue := sleb128Loop_value h tail (i := 0) (r := 0) (by omega) (by decide) hv
  have hzero : ((0 : BitVec 64).toNat : ℤ) = 0 := rfl
  rwa [hzero, Int.zero_add, Nat.mul_zero, pow_zero, Int.mul_one] at hvalue

/-! ## One operation -/

/-- What the operand of an operation is added to. -/
def baseOf (ops : DwarfRegs) (r : Regs) (op : UInt8) : Option ℕ :=
  if op = 0x91 then some r.frameBase
  else if op = ops.opBregFp then some r.fp
  else if op = ops.opBregSp then some r.sp
  else none

/-- Base plus offset, modulo 2^64. -/
def addressAt (base : ℕ) (offset : ℤ) : ℕ := ((base + offset) % 2 ^ 64).toNat

/-- An expression of one operation that yields an address: `call_frame_cfa`, or `fbreg`, `breg<fp>`
or `breg<sp>` with its operand. -/
inductive OneOperation (ops : DwarfRegs) (r : Regs) : Bytes → ℕ → Prop
  | callFrameCfa : OneOperation ops r [0x9C] r.sp
  | offset {op : UInt8} {operand : Bytes} {base : ℕ} : baseOf ops r op = some base →
      IsSleb operand → OneOperation ops r (op :: operand) (addressAt base (slebValue operand))

/-- An expression whose first operation, if it has an operand, has a complete one of at most ten
bytes. -/
def WholeOperand (ops : DwarfRegs) (r : Regs) : Bytes → Prop
  | [] => False
  | op :: rest => (baseOf ops r op).isSome = true →
    ∃ operand tail, rest = operand ++ tail ∧ IsSleb operand ∧ operand.length ≤ 10

/-- Addresses are what expressions of one operation yield, and no others. -/
def ExactAddress (ops : DwarfRegs) (r : Regs) (e : Bytes) : Prop :=
  (∀ a, evalAddr ops e r = .ok (some a) ↔ OneOperation ops r e a) ∧
    ((∀ a, ¬ OneOperation ops r e a) → evalAddr ops e r = .ok none)

theorem wrappingAdd_eq {v : BitVec 64} {x : ℤ} (h : (v.toNat : ℤ) ≡ x [ZMOD 2 ^ 64]) (base : ℕ) :
    wrappingAdd base v = addressAt base x := by
  have hsum : ((base : ℤ) + v.toNat) % 2 ^ 64 = (base + x) % 2 ^ 64 := h.add_left _
  rw [addressAt, ← hsum, wrappingAdd]
  omega

/-! ## The evaluator -/

variable {ops : DwarfRegs} {r : Regs}

/-- The platforms, whose register operations differ from the other two and from each other. -/
def DwarfRegs.Known (ops : DwarfRegs) : Prop := ops = .linux ∨ ops = .darwin

theorem evalAddr_operand {op : UInt8} {base : ℕ} (hops : ops.Known)
    (hbase : baseOf ops r op = some base) (rest : Bytes) :
    evalAddr ops (op :: rest) r = (sleb128 rest >>= fun x =>
      pure (if rest.length = x.2 then some (wrappingAdd base x.1) else none)) := by
  unfold baseOf at hbase
  split_ifs at hbase with h₁ h₂ h₃
  · obtain rfl := Option.some.inj hbase
    subst h₁
    rfl
  · obtain rfl := Option.some.inj hbase
    subst h₂
    rcases hops with rfl | rfl <;> rfl
  · obtain rfl := Option.some.inj hbase
    subst h₃
    rcases hops with rfl | rfl <;> rfl

theorem baseOf_callFrameCfa (hops : ops.Known) : baseOf ops r 0x9C = none := by
  rcases hops with rfl | rfl <;> rfl

theorem evalAddr_other {op : UInt8} (hbase : baseOf ops r op = none) (hcfa : op ≠ 0x9C)
    (rest : Bytes) : evalAddr ops (op :: rest) r = .ok none := by
  unfold baseOf at hbase
  split_ifs at hbase with h₁ h₂ h₃
  unfold evalAddr
  simp only [beq_eq_false_iff_ne.2 h₁, beq_eq_false_iff_ne.2 hcfa, beq_eq_false_iff_ne.2 h₂,
    beq_eq_false_iff_ne.2 h₃, Bool.false_eq_true, if_false]

/-- An operation with an operand has an address unless something is behind the operand. -/
theorem evalAddr_offset {op : UInt8} {base : ℕ} {operand : Bytes} (hops : ops.Known)
    (hbase : baseOf ops r op = some base) (h : IsSleb operand) (hlen : operand.length ≤ 10)
    (tail : Bytes) : evalAddr ops (op :: (operand ++ tail)) r =
      .ok (if tail = [] then some (addressAt base (slebValue operand)) else none) := by
  obtain ⟨v, hv, hvalue⟩ := sleb128_run h hlen tail
  rw [evalAddr_operand hops hbase, hv]
  show Except.ok (if (operand ++ tail).length = operand.length then
    some (wrappingAdd base v) else none) = _
  rw [wrappingAdd_eq hvalue base]
  by_cases htail : tail = []
  · subst htail
    rw [List.append_nil, if_pos rfl, if_pos rfl]
  · have hpos := List.length_pos_of_ne_nil htail
    rw [List.length_append, if_neg (by omega), if_neg htail]

theorem OneOperation.of_none {op : UInt8} {rest : Bytes} {a : ℕ}
    (h : OneOperation ops r (op :: rest) a) (hbase : baseOf ops r op = none) :
    op = 0x9C ∧ rest = [] := by
  generalize he : op :: rest = e at h
  cases h with
  | callFrameCfa => exact List.cons.inj he
  | offset hbase' _ =>
    obtain ⟨rfl, -⟩ := List.cons.inj he
    rw [hbase] at hbase'
    cases hbase'

theorem exactAddress_offset {op : UInt8} {base : ℕ} {operand : Bytes} (hops : ops.Known)
    (hbase : baseOf ops r op = some base) (h : IsSleb operand) (hlen : operand.length ≤ 10)
    (tail : Bytes) : ExactAddress ops r (op :: (operand ++ tail)) := by
  have hcfa : op ≠ 0x9C := by
    rintro rfl
    rw [baseOf_callFrameCfa hops] at hbase
    cases hbase
  -- what stands for an address is the operation with this operand and nothing else
  have hone : ∀ a, OneOperation ops r (op :: (operand ++ tail)) a ↔
      tail = [] ∧ a = addressAt base (slebValue operand) := by
    intro a
    constructor
    · intro hop
      generalize he : op :: (operand ++ tail) = e at hop
      cases hop with
      | callFrameCfa => exact absurd (List.cons.inj he).1 hcfa
      | offset hbase' h' =>
        obtain ⟨rfl, rfl⟩ := List.cons.inj he
        obtain rfl := h.tail_eq_nil h'
        obtain rfl := Option.some.inj (hbase.symm.trans hbase')
        rw [List.append_nil]
        exact ⟨rfl, rfl⟩
    · rintro ⟨rfl, rfl⟩
      rw [List.append_nil]
      exact .offset hbase h
  unfold ExactAddress
  rw [evalAddr_offset hops hbase h hlen]
  by_cases htail : tail = []
  · rw [if_pos htail]
    constructor
    · intro a
      rw [hone]
      constructor
      · intro heq
        exact ⟨htail, (Option.some.inj (Except.ok.inj heq)).symm⟩
      · rintro ⟨-, rfl⟩
        rfl
    · exact fun hno => absurd ((hone _).2 ⟨htail, rfl⟩) (hno _)
  · rw [if_neg htail]
    refine ⟨fun a => ⟨fun heq => ?_, fun hop => absurd ((hone a).1 hop).1 htail⟩, fun _ => rfl⟩
    cases heq

/-- Only complete expressions have addresses, except for `call_frame_cfa` with more behind it. -/
theorem exactAddress_iff (ops : DwarfRegs) (hops : ops.Known) (r : Regs) (e : Bytes)
    (he : WholeOperand ops r e) :
    ExactAddress ops r e ↔ ¬ ∃ c rest, e = 0x9C :: c :: rest := by
  cases e with
  | nil => exact absurd he id
  | cons op rest =>
    cases hbase : baseOf ops r op with
    | some base =>
      obtain ⟨operand, tail, rfl, hsleb, hlen⟩ := he (by rw [hbase]; rfl)
      refine iff_of_true (exactAddress_offset hops hbase hsleb hlen tail) ?_
      rintro ⟨c, rest', heq⟩
      obtain ⟨rfl, -⟩ := List.cons.inj heq
      rw [baseOf_callFrameCfa hops] at hbase
      cases hbase
    | none =>
      by_cases hcfa : op = 0x9C
      · subst hcfa
        have heval : evalAddr ops (0x9C :: rest) r = .ok (some r.sp) := rfl
        cases rest with
        | nil =>
          refine iff_of_true ⟨fun a => ⟨fun heq => ?_, fun hop => ?_⟩, fun hno => ?_⟩ ?_
          · rw [heval] at heq
            cases heq
            exact .callFrameCfa
          · cases hop with
            | callFrameCfa => exact heval
            | offset hbase' _ =>
              rw [hbase] at hbase'
              cases hbase'
          · exact absurd .callFrameCfa (hno r.sp)
          · rintro ⟨c, rest', heq⟩
            cases heq
        | cons c rest =>
          -- more behind it, and an address all the same
          refine iff_of_false (fun hexact => ?_) fun hno => hno ⟨c, rest, rfl⟩
          have hone := ((hexact.1 r.sp).1 heval).of_none hbase
          cases hone.2
      · have heval := evalAddr_other hbase hcfa rest
        have hno : ∀ a, ¬ OneOperation ops r (op :: rest) a :=
          fun a hop => hcfa (hop.of_none hbase).1
        refine iff_of_true ⟨fun a => ⟨fun heq => ?_, fun hop => absurd hop (hno a)⟩,
          fun _ => heval⟩ ?_
        · rw [heval] at heq
          cases heq
        · rintro ⟨c, rest', heq⟩
          exact hcfa (List.cons.inj heq).1

/-- `fbreg -16` -/
theorem exactAddress_fbreg :
    ExactAddress .linux ⟨900, 1000, 1000⟩ [0x91, 0x70] ↔
      ¬ ∃ c rest, [(0x91 : UInt8), 0x70] = 0x9C :: c :: rest :=
  exactAddress_iff .linux (.inl rfl) ⟨900, 1000, 1000⟩ [0x91, 0x70]
    fun _ => ⟨[0x70], [], rfl, .last (by decide), by decide⟩

/-- `call_frame_cfa; deref` has the address of `call_frame_cfa`. -/
theorem callFrameCfa_deref :
    WholeOperand .linux ⟨900, 1000, 1000⟩ [0x9C, 0x06] ∧
      evalAddr .linux [0x9C, 0x06] ⟨900, 1000, 1000⟩ = .ok (some 1000) ∧
      ¬ OneOperation .linux ⟨900, 1000, 1000⟩ [0x9C, 0x06] 1000 := by
  refine ⟨fun h => ?_, rfl, fun h => ?_⟩
  · cases h
  · cases (h.of_none rfl).2

end Bilbo
