import Bilbo.Layouts
import Bilbo.Literals

/-!
# What the emitted stores leave behind

A parser overwrites its destination and allocates. `Puts` says that the destination holds the
value then, with everything it points to above the old break; `Fresh` is what an allocation
adds. The stores of one value are read back here, so that the parsers only put them together.
-/

namespace Bilbo

open Base Comp

/-! ## Memory -/

/-- The memories differ in the `n` cells at `a` at most. -/
def Overwrites (m m' : Memory) (a n : ℕ) : Prop := ∀ x, x < a ∨ a + n ≤ x → m' x = m x

theorem Overwrites.refl (m : Memory) (a n : ℕ) : Overwrites m m a n := fun _ _ => rfl

theorem Overwrites.trans {m m₁ m₂ : Memory} {a n b k : ℕ} (h : Overwrites m m₁ a n)
    (h' : Overwrites m₁ m₂ b k) (hlo : a ≤ b) (hhi : b + k ≤ a + n) : Overwrites m m₂ a n := by
  intro x hx
  rw [h' x (by omega), h x hx]

theorem overwrites_writeCells (m : Memory) {a n b : ℕ} {cs : List Cell} (hlo : a ≤ b)
    (hhi : b + cs.length ≤ a + n) : Overwrites m (writeCells m b cs) a n := by
  intro x hx
  apply writeCells_outside
  omega

theorem Overwrites.writes {s : State} {m : Memory} {a n : ℕ} (h : Overwrites s.mem m a n) :
    Writes s { s with mem := m } a n :=
  ⟨Nat.le_refl _, fun x _ hx => h x hx, fun _ _ => rfl, fun _ hb _ => hb⟩

/-- A displacement below 2 GiB is added as it is. -/
theorem disp_eq {base off : ℕ} (h : off < maxSize) : disp base off = base + off := by
  have hmax : maxSize = 2 ^ 31 := rfl
  rw [disp, wrapI32_of_lt (by omega) (by omega)]
  omega

/-! ## The words of a value -/

/-- The three words of a `Vec`-like value are stored where they are read. -/
theorem storeSeq_run {seq : SeqLayout} (hseq : seq.Ok) (dst ptr cap len : ℕ) (s : State) :
    ∃ m, (storeSeq dst seq ptr cap len).run s = (.done (), { s with mem := m }) ∧
      Overwrites s.mem m dst (max (max seq.ptrOff seq.capOff) seq.lenOff + 8) ∧
      readPtr m (dst + seq.ptrOff) = some ptr ∧
      readNat m (dst + seq.capOff) 8 = some (cap % 256 ^ 8) ∧
      readNat m (dst + seq.lenOff) 8 = some (len % 256 ^ 8) := by
  obtain ⟨hp, hc, hl, hpc, hpl, hcl⟩ := hseq
  unfold Apart at hpc hpl hcl
  refine ⟨writeCells (writeCells (writeCells s.mem (dst + seq.ptrOff) (ptrCells ptr))
    (dst + seq.capOff) (ints (le 8 cap))) (dst + seq.lenOff) (ints (le 8 len)), ?_, ?_, ?_, ?_, ?_⟩
  · rw [storeSeq, disp_eq hp, disp_eq hc, disp_eq hl]
    rfl
  -- outside the three words nothing changes
  · intro x hx
    rw [writeCells_outside, writeCells_outside, writeCells_outside]
    · rw [length_ptrCells]
      omega
    · rw [length_ints, length_le]
      omega
    · rw [length_ints, length_le]
      omega
  -- the words are apart, so a later store leaves an earlier one
  · rw [readPtr_congr (m := writeCells s.mem (dst + seq.ptrOff) (ptrCells ptr))
      (a := dst + seq.ptrOff) ?_, readPtr_writeCells]
    intro i hi
    rw [writeCells_outside, writeCells_outside]
    · rw [length_ints, length_le]
      omega
    · rw [length_ints, length_le]
      omega
  · rw [readNat_congr (m := writeCells (writeCells s.mem (dst + seq.ptrOff) (ptrCells ptr))
      (dst + seq.capOff) (ints (le 8 cap))) (a := dst + seq.capOff) ?_, readNat_write_le]
    intro i hi
    rw [writeCells_outside]
    rw [length_ints, length_le]
    omega
  · rw [readNat_write_le]

/-- The two words of a `&str`. -/
theorem storeStrRef_run {ptrOff lenOff : ℕ} (hp : ptrOff < maxSize) (hl : lenOff < maxSize)
    (hpl : Apart ptrOff 8 lenOff 8) (dst ptr len : ℕ) (s : State) :
    ∃ m, (storeStrRef dst ptrOff lenOff ptr len).run s = (.done (), { s with mem := m }) ∧
      Overwrites s.mem m dst (max ptrOff lenOff + 8) ∧
      readPtr m (dst + ptrOff) = some ptr ∧
      readNat m (dst + lenOff) 8 = some (len % 256 ^ 8) := by
  unfold Apart at hpl
  refine ⟨writeCells (writeCells s.mem (dst + ptrOff) (ptrCells ptr)) (dst + lenOff)
    (ints (le 8 len)), ?_, ?_, ?_, ?_⟩
  · rw [storeStrRef, disp_eq hp, disp_eq hl]
    rfl
  · intro x hx
    rw [writeCells_outside, writeCells_outside]
    · rw [length_ptrCells]
      omega
    · rw [length_ints, length_le]
      omega
  · rw [readPtr_congr (m := writeCells s.mem (dst + ptrOff) (ptrCells ptr))
      (a := dst + ptrOff) ?_, readPtr_writeCells]
    intro i hi
    rw [writeCells_outside]
    rw [length_ints, length_le]
    omega
  · rw [readNat_write_le]

/-- Stores one behind the other, from offset `a` to offset `b`. -/
def Tiles (a : ℕ) : List (ℕ × ℕ) → ℕ → Prop
  | [], b => a = b
  | x :: l, b => x.1 = a ∧ 0 < x.2 ∧ Tiles (a + x.2) l b

theorem Tiles.append {a b k : ℕ} {l l' : List (ℕ × ℕ)} (h : Tiles a l b) (h' : Tiles b l' k) :
    Tiles a (l ++ l') k := by
  induction l generalizing a with
  | nil =>
    obtain rfl : a = b := h
    exact h'
  | cons x l ih => exact ⟨h.1, h.2.1, ih h.2.2⟩

theorem tiles_one {a b w : ℕ} {p : Prop} [Decidable p] (hw : 0 < w) (h : b = if p then a + w else a) :
    Tiles a (if p then [(a, w)] else []) b := by
  split at h
  · next hp =>
    rw [if_pos hp]
    exact ⟨rfl, hw, h.symm⟩
  · next hp =>
    rw [if_neg hp]
    exact h.symm

/-- The stores of `memset0` cover the bytes it clears. -/
theorem memset0Chunks_tiles (size : ℕ) : Tiles 0 (memset0Chunks size) size := by
  have hwords : ∀ k, Tiles 0 ((List.range k).map fun i => (8 * i, 8)) (8 * k) := by
    intro k
    induction k with
    | zero => rfl
    | succ k ih =>
      rw [List.range_succ, List.map_append]
      exact ih.append ⟨rfl, Nat.succ_pos 7, rfl⟩
  unfold memset0Chunks
  apply Tiles.append _ (tiles_one (by decide) _)
  · apply Tiles.append _ (tiles_one (by decide) _)
    · apply (hwords (size / 8)).append
      rw [Nat.mul_comm 8]
      exact tiles_one (b := size / 8 * 8 + size % 8 / 4 * 4) (by decide) (by split <;> omega)
    · split <;> omega
  · split <;> omega

/-- Stores of zero, one behind the other, are one store. -/
theorem tiles_run {a b : ℕ} {l : List (ℕ × ℕ)} (h : Tiles a l b) (hb : b ≤ maxSize) (dst : ℕ)
    (s : State) : a ≤ b ∧
      (l.forM fun x => storeInt (disp dst x.1) x.2 0 : M Unit).run s =
        (.done (), { s with mem := writeCells s.mem (dst + a) (List.replicate (b - a) (.int 0)) }) := by
  induction l generalizing a s with
  | nil =>
    obtain rfl : a = b := h
    rw [Nat.sub_self]
    refine ⟨Nat.le_refl a, ?_⟩
    show (Outcome.done (), s) = _
    rw [List.replicate_zero, writeCells_nil]
  | cons x l ih =>
    obtain ⟨rfl, hw, hl⟩ := h
    obtain ⟨hle, hrun⟩ := ih hl
      { s with mem := writeCells s.mem (dst + x.1) (List.replicate x.2 (.int 0)) }
    refine ⟨by omega, ?_⟩
    -- the zeros of the first tile in front of those of the others
    have hcat := writeCells_append s.mem (dst + x.1) (List.replicate x.2 (.int 0))
      (List.replicate (b - (x.1 + x.2)) (.int 0))
    rw [List.length_replicate, ← List.replicate_add, Nat.add_assoc,
      show x.2 + (b - (x.1 + x.2)) = b - x.1 by omega] at hcat
    have hstore : (storeInt (disp dst x.1) x.2 0).run s =
        (.done (), { s with mem := writeCells s.mem (dst + x.1) (List.replicate x.2 (.int 0)) }) := by
      rw [disp_eq (by omega), storeInt, ints_le_zero]
      rfl
    show (storeInt (disp dst x.1) x.2 0 >>= fun _ => _).run s = _
    rw [bind_done hstore, hrun, hcat]

/-- `memset0` clears its bytes. -/
theorem memset0_run {size : ℕ} (h : size ≤ maxSize) (dst : ℕ) (s : State) :
    (memset0 dst size).run s =
      (.done (), { s with mem := writeCells s.mem dst (List.replicate size (.int 0)) }) :=
  (tiles_run (memset0Chunks_tiles size) h dst s).2

/-- What both `None` stores leave: the discriminant, inside the value. -/
theorem storeNone_run {discOff discSize noneDiscr payloadOff size payload : ℕ}
    {someDiscr : Option ℕ} (h : DiscOk discOff discSize noneDiscr someDiscr payloadOff size payload)
    (dst : ℕ) (s : State) :
    ∃ m, (memset0 dst size >>= fun _ => storeImm dst discOff noneDiscr discSize).run s =
        (.done (), { s with mem := m }) ∧
      Overwrites s.mem m dst size ∧
      readNat m (dst + discOff) (storeWidth discSize) = some (discWord discSize noneDiscr) := by
  have hrun := memset0_run (Nat.le_of_lt h.small) dst s
  have hm : Overwrites s.mem (writeCells s.mem dst (List.replicate size (.int 0))) dst size :=
    overwrites_writeCells s.mem (Nat.le_refl _) (by rw [List.length_replicate])
  have hwidth := h.width.storeWidth
  have hdisc := h.disc
  have hsmall := h.small
  refine ⟨writeCells (writeCells s.mem dst (List.replicate size (.int 0))) (dst + discOff)
    (ints (le (storeWidth discSize) noneDiscr)), ?_, ?_, ?_⟩
  · rw [bind_done hrun, storeImm, disp_eq (by omega)]
    rfl
  · apply hm.trans (overwrites_writeCells _ (Nat.le_refl (dst + discOff)) (Nat.le_refl _))
    · omega
    · rw [length_ints, length_le, hwidth]
      omega
  · exact readNat_write_le _ _ _ _

/-! ## Allocations -/

/-- A new allocation of `n` bytes at `p`. -/
structure Fresh (s s' : State) (p n align : ℕ) : Prop where
  brk : s.brk ≤ s'.brk
  mem : s'.mem = s.mem
  maps : s'.maps = s.maps
  blocks : s.blocks ⊆ s'.blocks
  held : Held s' s.brk s'.brk p n align

theorem Fresh.writes {s s' : State} {p n align : ℕ} (h : Fresh s s' p n align) (dst k : ℕ) :
    Writes s s' dst k :=
  ⟨h.brk, fun x _ _ => by rw [h.mem], fun x _ => by rw [h.maps], fun _ hb _ => h.blocks hb⟩

theorem fresh_empty (s : State) (p align : ℕ) : Fresh s s p 0 align :=
  ⟨Nat.le_refl _, rfl, rfl, fun _ hb => hb, .inl rfl⟩

theorem alloc_run {size align : ℕ} (h : layoutOk size align = true) (s : State) :
    ∃ p s', (alloc size align).run s = (.done p, s') ∧ Fresh s s' p size align := by
  have hpow : isPow2 align = true := by
    rw [layoutOk, Bool.and_eq_true] at h
    exact h.1
  have hle : s.brk ≤ alignUp s.brk align := le_alignUp _ (isPow2_pos hpow)
  refine ⟨alignUp s.brk align, _, by rw [alloc, if_pos h]; rfl, ?_⟩
  exact ⟨hle.trans (Nat.le_add_right _ _), rfl, rfl, fun _ hb => List.mem_cons_of_mem _ hb,
    .inr ⟨hle, Nat.le_refl _, List.mem_cons_self⟩⟩

/-- The allocator takes `n` values of a size that a layout may have, and room for as many
again. -/
theorem AllocOk.layoutOk {size align n : ℕ} (h : AllocOk size align) (hn : n ≤ maxSize * 2) :
    layoutOk (n * size) (max align 1) = true := by
  have hmax : maxSize = 2 ^ 31 := rfl
  have hisize : isizeMax = 2 ^ 63 - 1 := rfl
  have hsmall := h.small
  have halign := h.alignSmall
  have hmul : n * size ≤ maxSize * 2 * (maxSize - 1) := Nat.mul_le_mul hn (by omega)
  have hprod : maxSize * 2 * (maxSize - 1) = 2 ^ 63 - 2 ^ 32 := rfl
  rw [Bilbo.layoutOk, h.pow2, Bool.true_and, decide_eq_true_eq]
  omega

theorem rtAlloc_run {n : ℕ} (h : n ≤ isizeMax) (s : State) :
    ∃ p s', (rtAlloc n).run s = (.done p, s') ∧ Fresh s s' p n 1 := by
  by_cases hn : n = 0
  · subst hn
    exact ⟨1, s, rfl, fresh_empty s 1 1⟩
  · rw [rtAlloc, if_neg hn]
    apply alloc_run
    rw [layoutOk, Bool.and_eq_true, decide_eq_true_eq]
    exact ⟨rfl, h⟩

theorem rtBoxAlloc_run {size align : ℕ} (h : layoutOk size (max align 1) = true) (s : State) :
    ∃ p s', (rtBoxAlloc size align).run s = (.done p, s') ∧ Fresh s s' p size (max align 1) := by
  by_cases hn : size = 0
  · subst hn
    exact ⟨max align 1, s, rfl, fresh_empty s _ _⟩
  · rw [rtBoxAlloc, if_neg hn]
    exact alloc_run h s

end Bilbo
