import Mathlib.Tactic.Common
import Mathlib.Tactic.Ring
import Mathlib.Data.Nat.Notation
import Mathlib.Data.List.Basic
import Mathlib.Data.List.GetD

/-!
# A byte-addressed memory

A memory is a total map from addresses to cells. A cell holds a byte of an integer or
one of the eight bytes of a pointer, as in block-based memory models: a stored pointer
is read back as that pointer and never as a number, so addresses need no width and the
allocator never runs out. Cells nobody has written hold whatever they hold.

The lemmas come in three groups: little-endian integers as byte lists, what a read sees
after a write, and how a read depends on the cells of its own range only.
-/

namespace Base

/-- One byte of memory. -/
inductive Cell where
  /-- a byte of an integer -/
  | int (b : UInt8)
  /-- byte `i` of a pointer to `a` -/
  | ptr (a i : ℕ)
deriving DecidableEq, Repr, Inhabited

/-- A memory: every address has a cell. -/
abbrev Memory := ℕ → Cell

/-! ## Little-endian integers -/

/-- The `n` low bytes of `v`, least significant first. -/
def le : ℕ → ℕ → List UInt8
  | 0, _ => []
  | n + 1, v => UInt8.ofNat v :: le n (v / 256)

/-- The number a little-endian byte list denotes. -/
def ofLe : List UInt8 → ℕ
  | [] => 0
  | b :: bs => b.toNat + 256 * ofLe bs

@[simp] theorem length_le (n v : ℕ) : (le n v).length = n := by
  induction n generalizing v with
  | zero => rfl
  | succ n ih => simp only [le, List.length_cons, ih]

/-- Writing out `n` bytes and reading them back reduces modulo `256 ^ n`. -/
theorem ofLe_le (n v : ℕ) : ofLe (le n v) = v % 256 ^ n := by
  induction n generalizing v with
  | zero => simp [le, ofLe, Nat.mod_one]
  | succ n ih =>
    rw [le, ofLe, ih, pow_succ', Nat.mod_mul]
    simp only [UInt8.toNat_ofNat']

/-- A byte list is the little-endian form of the number it denotes. -/
theorem le_ofLe (bs : List UInt8) : le bs.length (ofLe bs) = bs := by
  induction bs with
  | nil => rfl
  | cons b bs ih =>
    have hb : b.toNat < 256 := b.toNat_lt
    have hdiv : (b.toNat + 256 * ofLe bs) / 256 = ofLe bs := by omega
    rw [List.length_cons, ofLe, le, hdiv, ih]
    congr 1
    apply UInt8.toNat_inj.1
    rw [UInt8.toNat_ofNat', Nat.add_mul_mod_self_left]
    exact Nat.mod_eq_of_lt hb

/-- The low bytes depend on the value modulo `256 ^ n` only. -/
theorem le_mod (n v : ℕ) : le n (v % 256 ^ n) = le n v := by
  have h := le_ofLe (le n v)
  rwa [length_le, ofLe_le] at h

/-- Byte lists of one length are equal when they denote the same number. -/
theorem ofLe_inj {xs ys : List UInt8} (hlen : xs.length = ys.length) :
    ofLe xs = ofLe ys ↔ xs = ys := by
  constructor
  · intro h
    rw [← le_ofLe xs, ← le_ofLe ys, hlen, h]
  · intro h
    rw [h]

/-- The low bytes of a word. -/
theorem ofLe_mod (bs : List UInt8) (n : ℕ) : ofLe bs % 256 ^ n = ofLe (bs.take n) := by
  induction n generalizing bs with
  | zero => simp [ofLe, Nat.mod_one]
  | succ n ih =>
    cases bs with
    | nil => simp [ofLe]
    | cons b bs =>
      have hb : b.toNat < 256 := b.toNat_lt
      have hmod : (b.toNat + 256 * ofLe bs) % 256 = b.toNat := by omega
      have hdiv : (b.toNat + 256 * ofLe bs) / 256 = ofLe bs := by omega
      rw [List.take_succ_cons, ofLe, ofLe, pow_succ', Nat.mod_mul, hmod, hdiv, ih]

/-- Zeros above a number do not count. -/
theorem ofLe_append_zeros (bs : List UInt8) (k : ℕ) :
    ofLe (bs ++ List.replicate k 0) = ofLe bs := by
  induction bs with
  | nil =>
    induction k with
    | zero => rfl
    | succ k ih =>
      show (0 : UInt8).toNat + 256 * ofLe (List.replicate k 0) = 0
      rw [List.nil_append] at ih
      rw [ih]
      rfl
  | cons b bs ih => rw [List.cons_append, ofLe, ih, ofLe]

/-- A word under the mask of its `n` low bytes equals a byte string of length `n`, padded with
zeros, exactly when it starts with that string. -/
theorem ofLe_and_mask_eq {bs name : List UInt8} (h : name.length ≤ bs.length) (k : ℕ) :
    ofLe bs &&& (2 ^ (8 * name.length) - 1) = ofLe (name ++ List.replicate k 0) ↔
      bs.take name.length = name := by
  have hpow : 2 ^ (8 * name.length) = 256 ^ name.length := by rw [Nat.pow_mul]
  rw [Nat.and_two_pow_sub_one_eq_mod, hpow, ofLe_mod, ofLe_append_zeros]
  apply ofLe_inj
  rw [List.length_take, Nat.min_eq_left h]

/-! ## Cells as integers and as pointers -/

/-- The cells of an integer's bytes. -/
def ints (bs : List UInt8) : List Cell := bs.map .int

@[simp] theorem length_ints (bs : List UInt8) : (ints bs).length = bs.length := by
  simp [ints]

theorem ints_injective : Function.Injective ints := by
  intro a b h
  exact List.map_injective_iff.2 (fun x y hxy => by simpa using hxy) h

/-- The cells of a stored pointer. -/
def ptrCells (a : ℕ) : List Cell := (List.range 8).map (.ptr a)

theorem ints_le_zero (n : ℕ) : ints (le n 0) = List.replicate n (.int 0) := by
  induction n with
  | zero => rfl
  | succ n ih => exact congrArg (List.cons (.int 0)) ih

@[simp] theorem length_ptrCells (a : ℕ) : (ptrCells a).length = 8 := by simp [ptrCells]

/-- The bytes of a list of cells, when all of them are bytes of integers. -/
def bytesOf : List Cell → Option (List UInt8)
  | [] => some []
  | .int b :: cs => (bytesOf cs).map (b :: ·)
  | .ptr _ _ :: _ => none

@[simp] theorem bytesOf_ints (bs : List UInt8) : bytesOf (ints bs) = some bs := by
  induction bs with
  | nil => rfl
  | cons b bs ih =>
    show (bytesOf (ints bs)).map (b :: ·) = some (b :: bs)
    rw [ih]
    rfl

/-! ## Reading and writing -/

/-- The `n` cells from `a` on. -/
def readCells (m : Memory) (a : ℕ) : ℕ → List Cell
  | 0 => []
  | n + 1 => m a :: readCells m (a + 1) n

/-- Put the cells `cs` at `a`. -/
def writeCells (m : Memory) (a : ℕ) (cs : List Cell) : Memory :=
  fun x => if a ≤ x then (cs[x - a]?).getD (m x) else m x

/-- The `n`-byte integer at `a`, when its cells hold one. -/
def readNat (m : Memory) (a n : ℕ) : Option ℕ := (bytesOf (readCells m a n)).map ofLe

/-- The pointer at `a`, when its cells hold one. -/
def readPtr (m : Memory) (a : ℕ) : Option ℕ :=
  match m a with
  | .int _ => none
  | .ptr p _ => if readCells m a 8 = ptrCells p then some p else none

@[simp] theorem length_readCells (m : Memory) (a n : ℕ) : (readCells m a n).length = n := by
  induction n generalizing a with
  | zero => rfl
  | succ n ih => simp only [readCells, List.length_cons, ih]

theorem getElem?_readCells (m : Memory) (a : ℕ) {n i : ℕ} (h : i < n) :
    (readCells m a n)[i]? = some (m (a + i)) := by
  induction n generalizing a i with
  | zero => omega
  | succ n ih =>
    cases i with
    | zero => rfl
    | succ i =>
      rw [readCells, List.getElem?_cons_succ, ih (a + 1) (by omega)]
      congr 2
      omega

/-- A read depends only on the cells of its own range. -/
theorem readCells_congr {m m' : Memory} {a a' n : ℕ} (h : ∀ i < n, m' (a' + i) = m (a + i)) :
    readCells m' a' n = readCells m a n := by
  induction n generalizing a a' with
  | zero => rfl
  | succ n ih =>
    have h0 := h 0 (by omega)
    rw [Nat.add_zero, Nat.add_zero] at h0
    rw [readCells, readCells, h0, ih fun i hi => ?_]
    have hi' := h (i + 1) (by omega)
    rw [show a' + 1 + i = a' + (i + 1) by omega, show a + 1 + i = a + (i + 1) by omega]
    exact hi'

theorem readCells_add (m : Memory) (a n k : ℕ) :
    readCells m a (n + k) = readCells m a n ++ readCells m (a + n) k := by
  induction n generalizing a with
  | zero => simp [readCells]
  | succ n ih =>
    rw [show n + 1 + k = n + k + 1 by omega, readCells, readCells, ih (a + 1),
      List.cons_append, show a + 1 + n = a + (n + 1) by omega]

theorem readNat_congr {m m' : Memory} {a a' n : ℕ} (h : ∀ i < n, m' (a' + i) = m (a + i)) :
    readNat m' a' n = readNat m a n := by
  rw [readNat, readNat, readCells_congr h]

theorem readPtr_congr {m m' : Memory} {a a' : ℕ} (h : ∀ i < 8, m' (a' + i) = m (a + i)) :
    readPtr m' a' = readPtr m a := by
  have h0 := h 0 (by omega)
  rw [Nat.add_zero, Nat.add_zero] at h0
  rw [readPtr, readPtr, h0, readCells_congr h]

theorem writeCells_apply (m : Memory) (a : ℕ) (cs : List Cell) (i : ℕ) (h : i < cs.length) :
    writeCells m a cs (a + i) = cs[i] := by
  rw [writeCells, if_pos (by omega), Nat.add_sub_cancel_left, List.getElem?_eq_getElem h]
  rfl

/-- A write leaves the cells outside its range alone. -/
theorem writeCells_of_lt (m : Memory) {a : ℕ} (cs : List Cell) {x : ℕ} (h : x < a) :
    writeCells m a cs x = m x := by
  rw [writeCells, if_neg (by omega)]

theorem writeCells_of_ge (m : Memory) {a : ℕ} (cs : List Cell) {x : ℕ}
    (h : a + cs.length ≤ x) : writeCells m a cs x = m x := by
  rw [writeCells, if_pos (by omega), List.getElem?_eq_none (by omega)]
  rfl

theorem writeCells_outside (m : Memory) {a : ℕ} (cs : List Cell) {x : ℕ}
    (h : x < a ∨ a + cs.length ≤ x) : writeCells m a cs x = m x := by
  rcases h with h | h
  · exact writeCells_of_lt m cs h
  · exact writeCells_of_ge m cs h

@[simp] theorem writeCells_nil (m : Memory) (a : ℕ) : writeCells m a [] = m := by
  funext x
  exact writeCells_outside m [] (by simp; omega)

/-- A write, and a second one right behind it. -/
theorem writeCells_append (m : Memory) (a : ℕ) (cs cs' : List Cell) :
    writeCells (writeCells m a cs) (a + cs.length) cs' = writeCells m a (cs ++ cs') := by
  funext x
  by_cases hx : x < a + cs.length
  · rw [writeCells_of_lt _ _ hx]
    by_cases ha : x < a
    · rw [writeCells_of_lt _ _ ha, writeCells_of_lt _ _ ha]
    · rw [writeCells, writeCells, if_pos (by omega), if_pos (by omega),
        List.getElem?_append_left (by omega)]
  · rw [writeCells, writeCells_of_ge _ _ (by omega), if_pos (by omega), writeCells,
      if_pos (by omega), List.getElem?_append_right (by omega), Nat.sub_sub]

/-- Two writes of slices of one list, the second starting inside the first, are one write. -/
theorem writeCells_slice (m : Memory) (a : ℕ) (cs : List Cell) {i j w : ℕ} (hj : j ≤ i)
    (hi : i ≤ j + w) (hw : j + w ≤ cs.length) :
    writeCells (writeCells m a (cs.take i)) (a + j) ((cs.drop j).take w) =
      writeCells m a (cs.take (j + w)) := by
  funext x
  by_cases hx : a + j ≤ x ∧ x < a + j + w
  · obtain ⟨k, rfl⟩ : ∃ k, x = a + j + k := ⟨x - (a + j), by omega⟩
    rw [writeCells_apply _ _ _ k (by simp; omega), show a + j + k = a + (j + k) by omega,
      writeCells_apply _ _ _ (j + k) (by simp; omega)]
    simp
  · rw [writeCells_outside _ _ (by simp; omega)]
    by_cases hx' : a ≤ x ∧ x < a + i
    · obtain ⟨k, rfl⟩ : ∃ k, x = a + k := ⟨x - a, by omega⟩
      rw [writeCells_apply _ _ _ k (by simp; omega), writeCells_apply _ _ _ k (by simp; omega)]
      simp
    · rw [writeCells_outside _ _ (by simp; omega), writeCells_outside _ _ (by simp; omega)]

/-- What was written is read back. -/
theorem readCells_writeCells (m : Memory) (a : ℕ) (cs : List Cell) :
    readCells (writeCells m a cs) a cs.length = cs := by
  refine List.ext_getElem? fun i => ?_
  by_cases hi : i < cs.length
  · rw [getElem?_readCells _ _ hi, writeCells_apply m a cs i hi, List.getElem?_eq_getElem hi]
  · rw [List.getElem?_eq_none (by simpa using hi), List.getElem?_eq_none (by omega)]

theorem readNat_writeCells (m : Memory) (a : ℕ) (bs : List UInt8) :
    readNat (writeCells m a (ints bs)) a bs.length = some (ofLe bs) := by
  have h := readCells_writeCells m a (ints bs)
  rw [length_ints] at h
  rw [readNat, h, bytesOf_ints]
  rfl

theorem readNat_write_le (m : Memory) (a n v : ℕ) :
    readNat (writeCells m a (ints (le n v))) a n = some (v % 256 ^ n) := by
  have h := readNat_writeCells m a (le n v)
  rwa [length_le, ofLe_le] at h

theorem readPtr_eq_some {m : Memory} {a p : ℕ} :
    readPtr m a = some p ↔ readCells m a 8 = ptrCells p := by
  have hz : (ptrCells p)[0]? = some (.ptr p 0) := by simp [ptrCells, List.range_succ]
  constructor
  · intro h
    simp only [readPtr] at h
    split at h
    · cases h
    · split at h
      · cases h
        assumption
      · cases h
  · intro h
    have h0 : m a = .ptr p 0 := by
      have := getElem?_readCells m a (n := 8) (i := 0) (by omega)
      rw [h, hz] at this
      simpa using this.symm
    rw [readPtr, h0]
    simp only [h, if_true]

theorem readPtr_writeCells (m : Memory) (a p : ℕ) :
    readPtr (writeCells m a (ptrCells p)) a = some p := by
  rw [readPtr_eq_some]
  simpa using readCells_writeCells m a (ptrCells p)

/-- A pointer that was written in front of other cells. -/
theorem readPtr_write_append (m : Memory) (a p : ℕ) (cs : List Cell) :
    readPtr (writeCells m a (ptrCells p ++ cs)) a = some p := by
  rw [readPtr_eq_some]
  have h := readCells_writeCells m a (ptrCells p ++ cs)
  rw [List.length_append, length_ptrCells, readCells_add] at h
  exact (List.append_inj h (by rw [length_readCells, length_ptrCells])).1

/-- A stored pointer does not read as an integer. -/
theorem readNat_of_readPtr {m : Memory} {a p n : ℕ} (h : readPtr m a = some p) (hn : 0 < n) :
    readNat m a n = none := by
  have hc : m a = .ptr p 0 := by
    have h' := readPtr_eq_some.1 h
    have h0 := getElem?_readCells m a (n := 8) (i := 0) (by omega)
    rw [h'] at h0
    simpa [ptrCells, List.range_succ] using h0.symm
  obtain ⟨k, rfl⟩ : ∃ k, n = k + 1 := ⟨n - 1, by omega⟩
  rw [readNat, readCells, hc]
  rfl

end Base
