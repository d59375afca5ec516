import Bilbo.Classify
import Bilbo.Locals

/-!
# The two caches

`resolved` goes from a call site to a type entry (`L1`) and from a type entry to its `Ty`
(`L2`). Reading the caller's frame and unwinding it are the platform's; a frame is
whatever it captured. A panic while the guard of a mutex is held poisons that mutex.
-/

namespace Bilbo

open Base Comp

/-- `Caller` -/
structure Caller where
  staticPc : ℕ
  callerFp : ℕ
  callerSp : ℕ
deriving DecidableEq, Repr

/-- What the platform does with a captured frame; `unwind` can panic. -/
structure Platform (Raw : Type) where
  regs : DwarfRegs
  callerPc : Raw → ℕ
  unwind : Raw → Except String Caller

/-- A type entry: unit index and offset. -/
abbrev TypeKey := Site

/-- The state of the process that `resolved` sees: the two maps, whether a panic has
poisoned their mutexes, and what `classify` works on. -/
structure Proc where
  l1 : List (ℕ × TypeKey)
  l2 : List (TypeKey × Ty)
  l1Poisoned : Bool
  l2Poisoned : Bool
  heap : Heap

/-- The process before the first call. -/
def Proc.initial : Proc := ⟨[], [], false, false, Heap.initial⟩

/-! ## Mutexes -/

/-- `lock().unwrap()` -/
def lock (poisoned : Proc → Bool) : Comp Proc String Unit := do
  let p ← get
  if poisoned p then fail "called `Result::unwrap()` on an `Err` value: PoisonError { .. }"
  else pure ()

/-- Run with the guard of a mutex held. -/
def guarded {α : Type} (poison : Proc → Proc) (x : Comp Proc String α) : Comp Proc String α :=
  ⟨fun p =>
    match x.run p with
    | (.stop e, p') => (.stop e, poison p')
    | r => r⟩

/-- A panic under the guard of `L1`. -/
def Proc.poisonL1 (p : Proc) : Proc := { p with l1Poisoned := true }

/-- A panic under the guard of `L2`. -/
def Proc.poisonL2 (p : Proc) : Proc := { p with l2Poisoned := true }

/-- A computation on the heap alone. -/
def onHeap {α : Type} (x : Comp Heap String α) : Comp Proc String α :=
  ⟨fun p => ((x.run p.heap).1, { p with heap := (x.run p.heap).2 })⟩

section

variable {Raw : Type} (st : Store) (pf : Platform Raw)

/-- The slow path down to the type entry: unwind, `subprogram_at`, `local_at_address`. -/
def typeKeyOf (raw : Raw) (ptr : ℕ) : Except String TypeKey := do
  let caller ← pf.unwind raw
  match subprogramAt st caller.staticPc with
  | none => .error "no subprogram for caller PC"
  | some sp =>
    match ← localAtAddress st pf.regs sp caller.callerFp caller.callerSp caller.staticPc ptr with
    | none => .error "no local matched the pointer we were handed"
    | some (_, tyOff) => pure (sp.1, tyOff)

/-- A computation of `Except`. -/
def ofExcept {σ α : Type} : Except String α → Comp σ String α
  | .ok a => pure a
  | .error e => fail e

/-- The type for an entry of `L2`, classified when it is not there yet. -/
def classified (d : ℕ) (tk : TypeKey) : Comp Proc String Ty := do
  let p ← get
  match p.l2.lookup tk with
  | some ty => pure ty
  | none => do
    let ty ← onHeap (classify st d tk)
    modify fun p => { p with l2 := (tk, ty) :: p.l2 }
    pure ty

/-- `l2.lock().unwrap().get(&tk).expect("L2 present")` -/
def present (tk : TypeKey) : Comp Proc String Ty := do
  lock Proc.l2Poisoned
  guarded Proc.poisonL2 (do
    let p ← get
    match p.l2.lookup tk with
    | some ty => pure ty
    | none => fail "L2 present")

/-- `resolved`, without the downstream slot of `Resolved`. -/
def resolved (d : ℕ) (raw : Raw) (ptr : ℕ) : Comp Proc String Ty := do
  lock Proc.l1Poisoned
  let p ← get
  let pc := pf.callerPc raw
  match p.l1.lookup pc with
  | some tk => guarded Proc.poisonL1 (present tk)
  | none => do
    let tk ← ofExcept (typeKeyOf st pf raw ptr)
    lock Proc.l2Poisoned
    let ty ← guarded Proc.poisonL2 (classified st d tk)
    lock Proc.l1Poisoned
    modify fun p => { p with l1 := (pc, tk) :: p.l1 }
    pure ty

/-- The specification: the slow path without caches. -/
def uncached (d : ℕ) (raw : Raw) (ptr : ℕ) : Comp Heap String Ty := do
  let tk ← ofExcept (typeKeyOf st pf raw ptr)
  classify st d tk

end

end Bilbo
