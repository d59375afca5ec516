import Bilbo.Base.Comp
import Bilbo.Base.Cells
import Bilbo.Base.SortedMap
import Bilbo.Plan

/-!
# The machine the binders run on

Both binders poke bytes through a destination pointer, call the allocator, and (for maps)
the `BTreeMap` trampolines of `tramp.rs`. `State` holds what they share: the memory, the
break below which everything is taken, the live heap blocks, and the maps behind the
24-byte `BTreeMap` headers. The allocator always moves the break, so a fresh block never
overlaps anything older; `Layout::from_size_align` still refuses what it refuses in Rust.

`State.trace` records what the emitted parser did, for statements about every step of a
run; no code reads it.
-/

namespace Bilbo

open Base

/-- `isize::MAX`, the largest size a `Layout` may have. -/
def isizeMax : ℕ := 2 ^ 63 - 1

/-- The code under the absolute addresses in `Ty::Map`, monomorphized for a `V` of
`valSize` bytes, with the word order rustc chose for `String`. -/
inductive Tramp where
  | mapNewAt
  | mapInsert (key : SeqLayout) (valSize : ℕ)
deriving DecidableEq, Repr

/-- The float routines outside the repository, on IEEE bit patterns:
`fast_float2::parse_partial`, `str::parse::<f64>` and the conversion to `f32`. -/
structure FloatOps where
  parsePartial : Bytes → Option (ℕ × ℕ)
  parse : Bytes → Option ℕ
  demote : ℕ → ℕ

/-- What a binder finds in the process: the recursive cells, the trampolines, the float
routines. -/
structure Env where
  cells : Cells
  tramps : ℕ → Option Tramp
  float : FloatOps

/-- Why a binder stops without returning. -/
inductive Stop where
  /-- a load at or past the end of the input -/
  | load (addr : ℕ)
  /-- a Rust panic; inside the `extern "C"` shims it aborts the process -/
  | panic (msg : String)
  /-- a trampoline called on memory that holds no value of its type -/
  | undefined
deriving DecidableEq, Repr

/-- A live heap block. -/
structure Block where
  base : ℕ
  size : ℕ
  align : ℕ
deriving DecidableEq, Repr

/-- What the emitted parser did. -/
inductive Event where
  /-- one iteration of a `parse_vec` loop took the cursor from `before` to `after` -/
  | iter (elem : Ty) (before after : ℕ)
  /-- a string scanned from `start` on has been stored: the cells that its pointer and its length
  in memory designate, when they are such words -/
  | str (start : ℕ) (designated : Option (List Cell))

/-- The state of a binder. -/
structure State where
  mem : Memory
  /-- everything in use lies below the break -/
  brk : ℕ
  blocks : List Block
  /-- the entries of each `BTreeMap`, by the handle in its header: key bytes and the address
  of the value -/
  maps : ℕ → List (Bytes × ℕ)
  /-- the two words of the 16-byte scratch slot -/
  sc : ℕ × ℕ
  trace : List Event

/-- A process that has bound nothing yet and uses the addresses below `brk`. -/
def State.initial (brk : ℕ) : State := ⟨fun _ => .int 0, brk, [], fun _ => [], (0, 0), []⟩

/-- A process without recursive types, without maps, and with float routines that accept
nothing. -/
def Env.bare : Env := ⟨fun _ => none, fun _ => none, ⟨fun _ => none, fun _ => none, id⟩⟩

/-- A binder's computations. -/
abbrev M := Comp State Stop

open Comp

/-! ## Loads and stores -/

/-- Store cells. -/
def storeCells (a : ℕ) (cs : List Cell) : M Unit :=
  modify fun s => { s with mem := writeCells s.mem a cs }

/-- Store the `n` low bytes of a value. -/
def storeInt (a n v : ℕ) : M Unit := storeCells a (ints (le n v))

/-- Store a pointer. -/
def storePtr (a p : ℕ) : M Unit := storeCells a (ptrCells p)

/-- Record an event. -/
def emit (e : Event) : M Unit := modify fun s => { s with trace := e :: s.trace }

/-! ## The allocator -/

/-- A nonzero power of two. -/
def isPow2 (a : ℕ) : Bool := a != 0 && a &&& (a - 1) == 0

/-- Whether `Layout::from_size_align` succeeds. -/
def layoutOk (size align : ℕ) : Bool := isPow2 align && size ≤ isizeMax - (align - 1)

/-- The next multiple of `a`. -/
def alignUp (x a : ℕ) : ℕ := (x + a - 1) / a * a

theorem le_alignUp (x : ℕ) {a : ℕ} (ha : 0 < a) : x ≤ alignUp x a := by
  have h := Nat.div_add_mod (x + a - 1) a
  have hm := Nat.mod_lt (x + a - 1) ha
  rw [alignUp, Nat.mul_comm]
  omega

theorem isPow2_pos {a : ℕ} (h : isPow2 a = true) : 0 < a := by
  simp only [isPow2, Bool.and_eq_true, bne_iff_ne] at h
  omega

/-- `Layout::from_size_align(size, align).unwrap()` followed by `alloc`. -/
def alloc (size align : ℕ) : M ℕ := do
  if layoutOk size align then
    let s ← get
    let base := alignUp s.brk align
    modify fun s => { s with brk := base + size, blocks := ⟨base, size, align⟩ :: s.blocks }
    pure base
  else fail (.panic "called `Result::unwrap()` on an `Err` value: LayoutError")

/-- Room in the stack frame: fresh memory that is no heap block. -/
def stackSlot (size : ℕ) : M ℕ := do
  let s ← get
  let base := alignUp s.brk 8
  modify fun s => { s with brk := base + size }
  pure base

/-! ## `tramp.rs` -/

/-- `map_new_at::<V>`: write an empty map. The header is opaque; its first word is the
handle, the rest is zero. -/
def mapNewAt (dst : ℕ) : M Unit := do
  let s ← get
  let h := s.brk
  modify fun s => { s with
    brk := h + 1
    maps := fun x => if x = h then [] else s.maps x
    mem := writeCells s.mem dst (ptrCells h ++ ints (le 16 0)) }

/-- `map_insert::<V>`: read the `String` at `k` and the `valSize` bytes at `v`, and insert
them into the map at `dst`. -/
def mapInsert (key : SeqLayout) (valSize : ℕ) (dst k v : ℕ) : M Unit := do
  let s ← get
  match readPtr s.mem dst, readPtr s.mem (k + key.ptrOff), readNat s.mem (k + key.lenOff) 8 with
  | some h, some p, some len =>
    match bytesOf (readCells s.mem p len) with
    | some bs =>
      let node := s.brk
      modify fun s => { s with
        brk := node + valSize
        mem := writeCells s.mem node (readCells s.mem v valSize)
        maps := fun x => if x = h then SortedMap.insert bs node (s.maps h) else s.maps x }
    | none => fail .undefined
  | _, _, _ => fail .undefined

end Bilbo
