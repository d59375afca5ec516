import Bilbo.Base.Cells
import Bilbo.Base.Utf8

/-!
# Buffers in a 64-bit address space

Addresses are 64-bit words and wrap around, so a buffer is a base and a length and no condition on
its end is needed: an address lies in it when its distance from the base is below the length. What
a copy leaves after its first `k` bytes is one function of `k`; a word that is copied over it, even
one that overlaps what is there already, takes that function to the next one.
-/

namespace Base

/-- An address. -/
abbrev Addr := BitVec 64

/-- What an address space holds. -/
abbrev Ram := Addr → UInt8

/-! ## Buffers -/

/-- An address of the buffer of `n` bytes at `base`. -/
def InBuffer (base : Addr) (n : ℕ) (a : Addr) : Prop := (a - base).toNat < n

instance (base : Addr) (n : ℕ) (a : Addr) : Decidable (InBuffer base n a) :=
  inferInstanceAs (Decidable (_ < _))

/-- Two buffers of `n` bytes without a common address. -/
def BuffersApart (x y : Addr) (n : ℕ) : Prop := ∀ a, InBuffer x n a → ¬ InBuffer y n a

theorem toNat_sub_base (base : Addr) {k : ℕ} (hk : k < 2 ^ 64) :
    (base + BitVec.ofNat 64 k - base).toNat = k := by
  rw [BitVec.add_comm, BitVec.add_sub_cancel, BitVec.toNat_ofNat, Nat.mod_eq_of_lt hk]

theorem inBuffer_add {base : Addr} {n k : ℕ} (hk : k < n) (hn : n ≤ 2 ^ 64) :
    InBuffer base n (base + BitVec.ofNat 64 k) := by
  rw [InBuffer, toNat_sub_base base (by omega)]
  exact hk

theorem InBuffer.mono {base a : Addr} {n n' : ℕ} (h : InBuffer base n a) (hn : n ≤ n') :
    InBuffer base n' a := Nat.lt_of_lt_of_le h hn

theorem buffersApart_of_le {x y : Addr} {n : ℕ} (hxy : n ≤ (x - y).toNat)
    (hyx : n ≤ (y - x).toNat) : BuffersApart x y n := by
  intro a hx hy
  have ha := a.isLt
  have hltx := x.isLt
  have hlty := y.isLt
  unfold InBuffer at hx hy
  rw [BitVec.toNat_sub] at *
  omega

/-- Of two buffers in one address space neither is larger than half of it. -/
theorem BuffersApart.le {x y : Addr} {n : ℕ} (h : BuffersApart x y n) : n ≤ 2 ^ 63 := by
  by_contra hn
  have hx : (x - x).toNat = 0 := by rw [BitVec.sub_self]; rfl
  have hy : (y - y).toNat = 0 := by rw [BitVec.sub_self]; rfl
  have hxy : (x - y).toNat = (2 ^ 64 - y.toNat + x.toNat) % 2 ^ 64 := BitVec.toNat_sub x y
  have hyx : (y - x).toNat = (2 ^ 64 - x.toNat + y.toNat) % 2 ^ 64 := BitVec.toNat_sub y x
  have hltx := x.isLt
  have hlty := y.isLt
  -- one of the bases lies in the other buffer
  by_cases hnear : (y - x).toNat < n
  · refine h y hnear ?_
    rw [InBuffer, hy]
    omega
  · refine h x ?_ ?_
    · rw [InBuffer, hx]
      omega
    · rw [InBuffer, hxy]
      omega

/-! ## Loads, stores and copies -/

/-- The `w` bytes at `a`. -/
def loadBytes (m : Ram) (a : Addr) (w : ℕ) : Bytes :=
  (List.range w).map fun i => m (a + BitVec.ofNat 64 i)

/-- Bytes are stored at `a`. -/
def storeBytes (m : Ram) (a : Addr) (bs : Bytes) : Ram :=
  fun x => if InBuffer a bs.length x then bs.getD (x - a).toNat 0 else m x

/-- The first `k` bytes at `src` are copied to `dst`. -/
def copyBytes (m : Ram) (dst src : Addr) (k : ℕ) : Ram :=
  fun a => if InBuffer dst k a then m (src + (a - dst)) else m a

@[simp] theorem length_loadBytes (m : Ram) (a : Addr) (w : ℕ) : (loadBytes m a w).length = w := by
  rw [loadBytes, List.length_map, List.length_range]

theorem loadBytes_getD (m : Ram) (a : Addr) {w i : ℕ} (hi : i < w) :
    (loadBytes m a w).getD i 0 = m (a + BitVec.ofNat 64 i) := by
  rw [List.getD_eq_getElem?_getD, loadBytes, List.getElem?_map, List.getElem?_range hi]
  rfl

theorem loadBytes_congr {m m' : Ram} {a : Addr} {w : ℕ}
    (h : ∀ i < w, m (a + BitVec.ofNat 64 i) = m' (a + BitVec.ofNat 64 i)) :
    loadBytes m a w = loadBytes m' a w :=
  List.map_congr_left fun i hi => h i (List.mem_range.1 hi)

@[simp] theorem copyBytes_zero (m : Ram) (dst src : Addr) : copyBytes m dst src 0 = m :=
  funext fun a => if_neg (Nat.not_lt_zero (a - dst).toNat)

theorem copyBytes_inside {m : Ram} {dst src : Addr} {n i : ℕ} (hi : i < n) (hn : n ≤ 2 ^ 64) :
    copyBytes m dst src n (dst + BitVec.ofNat 64 i) = m (src + BitVec.ofNat 64 i) := by
  rw [copyBytes, if_pos (inBuffer_add hi hn), BitVec.add_comm dst, BitVec.add_sub_cancel]

theorem loadBytes_copied {m : Ram} {dst src : Addr} {n : ℕ} (hn : n ≤ 2 ^ 64) :
    loadBytes (copyBytes m dst src n) dst n = loadBytes m src n :=
  List.map_congr_left fun _ hi => copyBytes_inside (List.mem_range.1 hi) hn

theorem copyBytes_outside {m : Ram} {dst src a : Addr} {n : ℕ} (h : ¬ InBuffer dst n a) :
    copyBytes m dst src n a = m a := if_neg h

/-- The distance from a later base. -/
theorem toNat_sub_add (a base : Addr) {j : ℕ} (hj : j ≤ 2 ^ 63) :
    (a - (base + BitVec.ofNat 64 j)).toNat =
      if j ≤ (a - base).toNat then (a - base).toNat - j else 2 ^ 64 + (a - base).toNat - j := by
  have hlt := (a - base).isLt
  rw [← BitVec.sub_sub, BitVec.toNat_sub, BitVec.toNat_ofNat,
    Nat.mod_eq_of_lt (show j < 2 ^ 64 by omega)]
  split <;> omega

section Copying

variable {m : Ram} {dst src : Addr} {n j k w : ℕ}

/-- The source is read as it was, however much of it is copied. -/
theorem loadBytes_copyBytes (h : BuffersApart dst src n) (hk : k ≤ n) (hw : j + w ≤ n) :
    loadBytes (copyBytes m dst src k) (src + BitVec.ofNat 64 j) w =
      loadBytes m (src + BitVec.ofNat 64 j) w := by
  have hn := h.le
  apply loadBytes_congr
  intro i hi
  rw [BitVec.add_assoc, ← BitVec.ofNat_add]
  apply copyBytes_outside
  intro hin
  exact h _ (hin.mono hk) (inBuffer_add (by omega) (by omega))

/-- A chunk that starts inside what is copied, and ends behind it. -/
theorem storeBytes_copyBytes (h : BuffersApart dst src n) (hj : j ≤ k) (hk : k ≤ j + w)
    (hw : j + w ≤ n) :
    storeBytes (copyBytes m dst src k) (dst + BitVec.ofNat 64 j)
        (loadBytes m (src + BitVec.ofNat 64 j) w) = copyBytes m dst src (j + w) := by
  have hn := h.le
  funext a
  have hdist := toNat_sub_add a dst (j := j) (by omega)
  have hlt := (a - dst).isLt
  rw [storeBytes, length_loadBytes]
  by_cases hin : InBuffer (dst + BitVec.ofNat 64 j) w a
  · rw [if_pos hin]
    unfold InBuffer at hin
    by_cases hle : j ≤ (a - dst).toNat
    · rw [if_pos hle] at hdist
      rw [loadBytes_getD m _ hin, hdist, BitVec.add_assoc, ← BitVec.ofNat_add,
        Nat.add_sub_cancel' hle, BitVec.ofNat_toNat, BitVec.setWidth_eq, copyBytes, if_pos]
      unfold InBuffer
      omega
    · rw [if_neg hle] at hdist
      omega
  · -- outside of the chunk it is the bytes in front of it that are copied
    rw [if_neg hin, copyBytes, copyBytes]
    unfold InBuffer at hin
    by_cases hfront : InBuffer dst k a
    · rw [if_pos hfront, if_pos (hfront.mono hk)]
    · rw [if_neg hfront, if_neg]
      unfold InBuffer at hfront ⊢
      intro hbehind
      rw [if_pos (by omega)] at hdist
      omega

end Copying

end Base
