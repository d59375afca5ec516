import Bilbo.Base.Cells

/-!
# Memory as bytes

A memory of cells keeps pointers apart from integers. Underneath, every cell is a byte; a write of
cells is a write of their bytes, and so is a read. A pointer is stored as its eight low bytes.
-/

namespace Base

/-- Put bytes at `a`. -/
def putBytes (m : ℕ → UInt8) (a : ℕ) (bs : List UInt8) : ℕ → UInt8 :=
  fun x => if a ≤ x then (bs[x - a]?).getD (m x) else m x

/-- The `n` bytes from `a` on. -/
def getBytes (m : ℕ → UInt8) (a : ℕ) : ℕ → List UInt8
  | 0 => []
  | n + 1 => m a :: getBytes m (a + 1) n

/-- The byte that a cell is in memory. -/
def Cell.byte : Cell → UInt8
  | .int b => b
  | .ptr a i => (le 8 a).getD i 0

/-- The bytes of a memory. -/
def Memory.bytes (m : Memory) : ℕ → UInt8 := fun a => (m a).byte

theorem bytes_writeCells (m : Memory) (a : ℕ) (cs : List Cell) :
    Memory.bytes (writeCells m a cs) = putBytes (Memory.bytes m) a (cs.map Cell.byte) := by
  funext x
  simp only [Memory.bytes, writeCells, putBytes]
  split
  · rw [List.getElem?_map]
    cases cs[x - a]? <;> rfl
  · rfl

theorem getBytes_bytes (m : Memory) (a n : ℕ) :
    getBytes (Memory.bytes m) a n = (readCells m a n).map Cell.byte := by
  induction n generalizing a with
  | zero => rfl
  | succ n ih =>
    rw [getBytes, readCells, List.map_cons, ih]
    rfl

@[simp] theorem map_byte_ints (bs : List UInt8) : (ints bs).map Cell.byte = bs := by
  rw [ints, List.map_map]
  exact List.map_id bs

@[simp] theorem map_byte_ptrCells (a : ℕ) : (ptrCells a).map Cell.byte = le 8 a := rfl

end Base
