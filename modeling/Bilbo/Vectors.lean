import Bilbo.Frames
import Bilbo.Scan
import Mathlib.Data.Finset.Card
import Mathlib.Data.Finset.Range

/-!
# How `parse_vec` builds a vector

The loop carries the cursor, the buffer, its capacity and the length. The capacity doubles
from four, the contents move along at each `rt_realloc`, and elements of size zero never
allocate. At the end the buffer is what `Drop` will free.
-/

namespace Bilbo

open Base Comp

/-! ## The buffer -/

/-- What a buffer of `bytes` bytes at `base` owns: nothing, at the dangling address, or a
block of exactly that size. -/
def Owns (s : State) (base bytes align : ℕ) : Prop :=
  if bytes = 0 then base = align else ⟨base, bytes, align⟩ ∈ s.blocks

theorem owns_zero {s : State} {base align : ℕ} : Owns s base 0 align ↔ base = align := by
  rw [Owns, if_pos rfl]

theorem owns_of_ne {s : State} {base bytes align : ℕ} (h : bytes ≠ 0) :
    Owns s base bytes align ↔ ⟨base, bytes, align⟩ ∈ s.blocks := by
  rw [Owns, if_neg h]

theorem alloc_done {size align p : ℕ} {s g : State}
    (h : (alloc size align).run s = (.done p, g)) :
    p = alignUp s.brk align ∧ s.brk ≤ p ∧
      g = { s with brk := p + size, blocks := ⟨p, size, align⟩ :: s.blocks } := by
  rw [alloc, ite_run] at h
  split at h
  · rename_i hok
    have hpow : isPow2 align = true := by
      rw [layoutOk, Bool.and_eq_true] at hok
      exact hok.1
    cases h
    exact ⟨rfl, le_alignUp _ (isPow2_pos hpow), rfl⟩
  · cases h

/-- `rt_realloc` of a buffer that owns its bytes: the result owns the new size, and has the
old contents in front. -/
theorem rtRealloc_done {ptr old new align p : ℕ} {s g : State} (halign : 0 < align)
    (hown : Owns s ptr old align) (hbelow : old ≠ 0 → ptr + old ≤ s.brk) (hle : old ≤ new)
    (h : (rtRealloc ptr old new align).run s = (.done p, g)) :
    Owns g p new align ∧ (new ≠ 0 → p + new ≤ g.brk) ∧
      ∀ a < old, g.mem (p + a) = s.mem (ptr + a) := by
  have hmax : max align 1 = align := by omega
  rw [rtRealloc, hmax, ite_run] at h
  split at h
  · rename_i hold
    subst hold
    rw [ite_run] at h
    split at h
    · rename_i hnew
      subst hnew
      cases h
      exact ⟨owns_zero.2 rfl, fun h => absurd rfl h, fun a ha => absurd ha (Nat.not_lt_zero a)⟩
    · rename_i hnew
      obtain ⟨-, -, rfl⟩ := alloc_done h
      refine ⟨(owns_of_ne hnew).2 List.mem_cons_self, fun _ => Nat.le_refl _, ?_⟩
      intro a ha
      exact absurd ha (Nat.not_lt_zero a)
  · rename_i hold
    rw [ite_run] at h
    split at h
    · obtain ⟨p', s₁, halloc, hrest⟩ := bind_eq_done h
      obtain ⟨-, hle', rfl⟩ := alloc_done halloc
      cases hrest
      have hbelow := hbelow hold
      have hnew : new ≠ 0 := by omega
      refine ⟨(owns_of_ne hnew).2 ?_, fun _ => Nat.le_refl _, ?_⟩
      · -- the new block lies behind the old one, so it is not the one that is freed
        apply List.mem_filter.2
        refine ⟨List.mem_cons_self, ?_⟩
        show (p != ptr) = true
        rw [bne_iff_ne]
        omega
      · intro a ha
        have hlen : a < (readCells s.mem ptr (min old new)).length := by
          rw [length_readCells]
          omega
        show writeCells s.mem p (readCells s.mem ptr (min old new)) (p + a) = s.mem (ptr + a)
        rw [writeCells_apply _ _ _ a hlen]
        apply Option.some.inj
        rw [← List.getElem?_eq_getElem hlen]
        apply getElem?_readCells
        omega
    · cases h

/-! ## The capacity -/

/-- The capacity for `n` elements: zero for none, else the least `4 * 2 ^ k` with room for
them. -/
def IsCap (n cap : ℕ) : Prop :=
  if n = 0 then cap = 0
  else ∃ k, cap = 4 * 2 ^ k ∧ n ≤ cap ∧ ∀ j, n ≤ 4 * 2 ^ j → k ≤ j

theorem isCap_zero {cap : ℕ} : IsCap 0 cap ↔ cap = 0 := by
  rw [IsCap, if_pos rfl]

theorem isCap_succ {n cap : ℕ} :
    IsCap (n + 1) cap ↔ ∃ k, cap = 4 * 2 ^ k ∧ n + 1 ≤ cap ∧ ∀ j, n + 1 ≤ 4 * 2 ^ j → k ≤ j := by
  rw [IsCap, if_neg (Nat.succ_ne_zero n)]

theorem IsCap.le {n cap : ℕ} (h : IsCap n cap) : n ≤ cap := by
  cases n with
  | zero => exact Nat.zero_le cap
  | succ n =>
    have ⟨k, hk, hle, hleast⟩ := isCap_succ.1 h
    exact hle

/-- The capacity after one more element, doubling when it is used up. -/
theorem IsCap.next {n cap : ℕ} (h : IsCap n cap) :
    IsCap (n + 1) (if n = cap then if cap = 0 then 4 else cap * 2 else cap) := by
  apply isCap_succ.2
  cases n with
  | zero =>
    rw [isCap_zero.1 h]
    exact ⟨0, rfl, by decide, fun j _ => Nat.zero_le j⟩
  | succ n =>
    obtain ⟨k, hk, hle, hleast⟩ := isCap_succ.1 h
    by_cases hfull : n + 1 = cap
    · have hpos : cap ≠ 0 := by omega
      rw [if_pos hfull, if_neg hpos]
      refine ⟨k + 1, by rw [hk, Nat.pow_succ]; omega, by omega, ?_⟩
      intro j hj
      have hlt : 2 ^ k < 2 ^ j := by omega
      exact (Nat.pow_lt_pow_iff_right (by decide)).1 hlt
    · rw [if_neg hfull]
      exact ⟨k, hk, by omega, fun j hj => hleast j (by omega)⟩

/-! ## One iteration -/

/-- An element parser that writes only its own element: of the memory in use it changes the `size`
bytes at its destination, it frees no block that was there, and where it ends is up to the input. -/
structure WritesOwn (elem : ℕ → ℕ → M ℕ) (size : ℕ) (next : ℕ → ℕ) : Prop where
  ends : ∀ {dst c c' : ℕ} {s s' : State}, (elem dst c).run s = (.done c', s') → c' = next c
  stays : ∀ dst c, Stays (elem dst c) dst size

/-- The buffer of a loop state in order: it owns its bytes, below the break. -/
structure BufferOk (size align : ℕ) (v : VecState) (s : State) : Prop where
  owns : Owns s v.base (v.cap * size) align
  below : v.cap * size ≠ 0 → v.base + v.cap * size ≤ s.brk

/-- A block in use is not freed. -/
theorem Owns.confined {s s' : State} {base bytes align dst n : ℕ} (h : Owns s base bytes align)
    (hbelow : bytes ≠ 0 → base + bytes ≤ s.brk) (hconf : Confined s s' dst n) :
    Owns s' base bytes align := by
  by_cases hz : bytes = 0
  · subst hz
    exact owns_zero.2 (owns_zero.1 h)
  · have hle := hbelow hz
    exact (owns_of_ne hz).2 (hconf.blocks _ ((owns_of_ne hz).1 h) (by show base < s.brk; omega))

section

variable {inp : Input} {parse : Ty → ℕ → ℕ → M ℕ} {elem : Ty} {size align : ℕ}

theorem pastComma_done {c c' : ℕ} {s s' : State}
    (h : (pastComma inp c).run s = (.done c', s')) :
    s' = s ∧ c' = if inp.byte (ws inp c) == Ascii.comma then ws inp c + 1 else ws inp c := by
  obtain ⟨b, s₁, hb, hrest⟩ := bind_eq_done h
  rw [loadU8, ite_run] at hb
  split at hb
  · cases hb
    cases hrest
    exact ⟨rfl, rfl⟩
  · cases hb

/-- What one iteration that goes on has done: it found no `]`, made room, and ran the element
parser; behind the element it only moved the cursor. -/
theorem vecBody_inl {v v' : VecState} {s s' : State}
    (h : (vecBody inp parse elem size align v).run s = (.done (.inl v'), s')) :
    ws inp v.cur < inp.stop ∧ inp.byte (ws inp v.cur) ≠ Ascii.rbracket ∧
      ∃ w g c e, (grow size align v).run s = (.done w, g) ∧
        (parse elem (w.base + w.len * size % 2 ^ 64) (ws inp v.cur)).run g = (.done c, e) ∧
        v' = { w with
          cur := if inp.byte (ws inp c) == Ascii.comma then ws inp c + 1 else ws inp c
          len := w.len + 1 } ∧
        s'.mem = e.mem ∧ s'.brk = e.brk ∧ s'.blocks = e.blocks := by
  obtain ⟨b, s₁, hb, h₁⟩ := bind_eq_done h
  rw [loadU8, ite_run] at hb
  split at hb
  · rename_i hlt
    cases hb
    rw [ite_run] at h₁
    split at h₁
    · cases h₁
    · rename_i hnot
      -- no bracket: room, the element, the comma
      obtain ⟨w, g, hgrow, h₂⟩ := bind_eq_done h₁
      obtain ⟨c, e, hparse, h₃⟩ := bind_eq_done h₂
      obtain ⟨c', e', hcomma, h₄⟩ := bind_eq_done h₃
      obtain ⟨rfl, rfl⟩ := pastComma_done hcomma
      cases h₄
      have hne : inp.byte (ws inp v.cur) ≠ Ascii.rbracket := by
        intro heq
        rw [heq] at hnot
        exact hnot rfl
      exact ⟨hlt, hne, w, g, c, e', hgrow, hparse, rfl, rfl, rfl, rfl⟩
  · cases hb

/-- `grow` keeps the buffer in order and its contents, and the capacity goes on as it should. -/
theorem grow_done {v w : VecState} {s g : State} (halign : 0 < align)
    (hbuf : BufferOk size align v s) (hcap : IsCap v.len v.cap)
    (hfit : (v.len + 1) * size < 2 ^ 62) (hlen : v.len + 1 < 2 ^ 63)
    (h : (grow size align v).run s = (.done w, g)) :
    w.cur = v.cur ∧ w.len = v.len ∧ IsCap (v.len + 1) w.cap ∧ BufferOk size align w g ∧
      (v.len = v.cap → v.cap * size % 2 ^ 64 = v.cap * size) ∧
      ∀ a < v.cap * size, g.mem (w.base + a) = s.mem (v.base + a) := by
  rw [grow, ite_run] at h
  have hnext := hcap.next
  split at h
  · rename_i hfull
    obtain ⟨p, s₁, hre, hrest⟩ := bind_eq_done h
    cases hrest
    rw [if_pos hfull] at hnext
    -- neither product wraps
    have hold : v.cap * size < 2 ^ 63 := by
      have hmul : (v.len + 1) * size = v.cap * size + size := by rw [hfull, Nat.succ_mul]
      omega
    have hnew : (if v.cap = 0 then 4 else v.cap * 2) * size < 2 ^ 64 := by
      split
      · have hone : size ≤ (v.len + 1) * size := Nat.le_mul_of_pos_left size (Nat.succ_pos _)
        omega
      · rw [Nat.mul_right_comm]
        omega
    have hcap2 : v.cap * 2 % 2 ^ 64 = v.cap * 2 := by
      apply Nat.mod_eq_of_lt
      omega
    rw [hcap2, Nat.mod_eq_of_lt hnew, Nat.mod_eq_of_lt (by omega)] at hre
    have hle : v.cap * size ≤ (if v.cap = 0 then 4 else v.cap * 2) * size := by
      apply Nat.mul_le_mul_right
      split <;> omega
    obtain ⟨howns, hbelow, hkept⟩ := rtRealloc_done halign hbuf.owns hbuf.below hle hre
    refine ⟨rfl, rfl, ?_, ⟨?_, ?_⟩, fun _ => Nat.mod_eq_of_lt (by omega), hkept⟩
    · rw [hcap2]
      exact hnext
    · rw [hcap2]
      exact howns
    · rw [hcap2]
      exact hbelow
  · rename_i hroom
    cases h
    rw [if_neg hroom] at hnext
    exact ⟨rfl, rfl, hnext, hbuf, fun hfull => absurd hfull hroom, fun _ _ => rfl⟩

/-- The loop state in front of element `i`. -/
structure HeadOk (size align i : ℕ) (v : VecState) (s : State) : Prop where
  len : v.len = i
  cap : IsCap i v.cap
  buffer : BufferOk size align v s

/-- The iteration for element `i`, in a loop that ends with the buffer at `base` in the memory
`m`: `rt_realloc` is given the true size of the block it receives, the element parser runs
on element `i` inside the block of that moment, and what it has stored there is in place at
the end. -/
def StoresElement (inp : Input) (parse : Ty → ℕ → ℕ → M ℕ) (elem : Ty) (size align i : ℕ)
    (v : VecState) (s : State) (base : ℕ) (m : Memory) : Prop :=
  ∃ w g c e, (grow size align v).run s = (.done w, g) ∧
    (v.len = v.cap → Owns s v.base (v.cap * size % 2 ^ 64) align) ∧
    (parse elem (w.base + i * size) (ws inp v.cur)).run g = (.done c, e) ∧
    Owns g w.base (w.cap * size) align ∧ i * size + size ≤ w.cap * size ∧
    readCells m (base + i * size) size = readCells e.mem (w.base + i * size) size

/-- One iteration stores its element, and keeps those in front of it. -/
theorem HeadOk.step {next : ℕ → ℕ} {i : ℕ} {v v' : VecState} {s s' : State}
    (hp : WritesOwn (parse elem) size next) (halign : 0 < align)
    (hhead : HeadOk size align i v s) (hfit : (i + 1) * size < 2 ^ 62) (hlen : i + 1 < 2 ^ 63)
    (h : (vecBody inp parse elem size align v).run s = (.done (.inl v'), s')) :
    HeadOk size align (i + 1) v' s' ∧
      StoresElement inp parse elem size align i v s v'.base s'.mem ∧
      ∀ a < i * size, s'.mem (v'.base + a) = s.mem (v.base + a) := by
  obtain ⟨-, -, w, g, c, e, hgrow, hparse, rfl, hmem, hbrk, hblocks⟩ := vecBody_inl h
  obtain ⟨rfl, hcap, hbuf⟩ := hhead
  obtain ⟨-, hwlen, hwcap, hwbuf, htrue, hkept⟩ :=
    grow_done halign hbuf hcap hfit hlen hgrow
  have hsucc : (v.len + 1) * size = v.len * size + size := Nat.succ_mul _ _
  have hroom : v.len * size + size ≤ w.cap * size := by
    rw [← hsucc]
    exact Nat.mul_le_mul_right size hwcap.le
  have hdst : w.len * size % 2 ^ 64 = v.len * size := by
    rw [hwlen]
    apply Nat.mod_eq_of_lt
    omega
  rw [hdst] at hparse
  have hconf : Confined g s' (w.base + v.len * size) size :=
    ((hp.stays _ _).confined hparse).of_eq hmem hbrk hblocks
  have hstate : Owns s' w.base (w.cap * size) align := hwbuf.owns.confined hwbuf.below hconf
  have hbelow : w.cap * size ≠ 0 → w.base + w.cap * size ≤ s'.brk := by
    intro hne
    have hle := hconf.brk
    have hw := hwbuf.below hne
    omega
  refine ⟨⟨congrArg (· + 1) hwlen, hwcap, hstate, hbelow⟩, ⟨w, g, c, e, hgrow, ?_, hparse,
    hwbuf.owns, hroom, ?_⟩, ?_⟩
  · intro hfull
    rw [htrue hfull]
    exact hbuf.owns
  · rw [hmem]
  · intro a ha
    -- the elements in front lie in the buffer, below the new one
    have hle : v.len * size ≤ v.cap * size := Nat.mul_le_mul_right size hcap.le
    have hw := hwbuf.below (by omega)
    rw [hconf.mem (w.base + a) (by omega) (.inl (by omega))]
    apply hkept
    omega

end

/-! ## The elements' parsers -/

/-- `[[7],[8,9]]` -/
def nested : Input :=
  ⟨[0x5B, 0x5B, 0x37, 0x5D, 0x2C, 0x5B, 0x38, 0x2C, 0x39, 0x5D, 0x5D], fun _ => 0, by decide⟩

end Bilbo
