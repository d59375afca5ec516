import Bilbo.Base.Bytes
import Bilbo.Base.Ssa
import Bilbo.Base.Written
import Bilbo.Emit

/-!
# The machine under the emitted code

The instructions that `Emit` asks Cranelift for, and what they do. Memory consists of bytes. A word is
an integer of 64 bits or an address, and an address says what it points into: the input, the heap, or
a stack slot of the function that is running. Only addresses into one of them are compared, and an
offset moves an address inside it.

The `rt_*` shims are called like instructions. They are Rust and not emitted, so they are here what
they are for the parser; a shim that panics takes the process down. The trampolines of `tramp.rs` and
the stack slots of a map have no meaning here: code that gets to one of them is stuck.
-/

namespace Bilbo

open Base Base.Cfg

namespace Clif

/-- Conditions on two words. -/
inductive IntCC where
  | equal
  | notEqual
  | unsignedLessThan
  | unsignedLessThanOrEqual
  | unsignedGreaterThanOrEqual
deriving DecidableEq, Repr

def IntCC.holds : IntCC → ℕ → ℕ → Bool
  | .equal, x, y => x == y
  | .notEqual, x, y => x != y
  | .unsignedLessThan, x, y => x < y
  | .unsignedLessThanOrEqual, x, y => x ≤ y
  | .unsignedGreaterThanOrEqual, x, y => y ≤ x

/-- The integer types. -/
abbrev Width := Ssa.Width

/-- The functions that `Jit::new` imports. -/
inductive Shim where
  | alloc
  | boxAlloc
  | realloc
  | skip
  | f64v
  | unescape
  | wsskip
  | strscan
deriving DecidableEq, Repr

/-- The operations. The offset of a load or store is an `i32`. -/
inductive Op where
  | iconst (n : BitVec 64)
  | iadd
  | iaddImm (n : BitVec 64)
  | imul
  | imulImm (n : BitVec 64)
  | ineg
  | bor
  | band
  | bandImm (n : BitVec 64)
  | icmp (cc : IntCC)
  | icmpImm (cc : IntCC) (n : BitVec 64)
  | select
  | ireduce (ty : Width)
  /-- to a double; its bits stay -/
  | bitcast
  /-- from a double to a float -/
  | fdemote
  | uload8 (off : ℤ)
  | load (ty : Width) (off : ℤ)
  | store (ty : Width) (off : ℤ)
  | stackAddr (slot : ℕ)
  | callShim (f : Shim)
  | callIndirect
deriving DecidableEq, Repr

/-- What a value holds. -/
inductive Datum where
  | int (n : BitVec 64)
  /-- into the input, and the memory behind it -/
  | text (c : ℕ)
  | heap (a : ℕ)
  /-- of a stack slot of the running function -/
  | slot (k : ℕ)
deriving DecidableEq, Repr

/-- A number, cut to 64 bits. -/
def Datum.nat (n : ℕ) : Datum := .int (.ofNat 64 n)

/-- What `icmp` yields. -/
def Datum.ofBool (p : Bool) : Datum := .int (if p then 1 else 0)

/-- The process: its memory, the break, and the live heap blocks. -/
@[ext] structure Process where
  mem : ℕ → UInt8
  brk : ℕ
  blocks : List Bilbo.Block

/-- The two words of the 16-byte scratch slot. -/
abbrev Scratch := BitVec 64 × BitVec 64

/-! ## Memory -/

/-- The address `off` bytes from `a`. -/
def shift (a : ℕ) (off : ℤ) : ℕ := (a + off).toNat

/-- The bytes a word is stored as; only integers have a type narrower than 64 bits. -/
def Datum.bytes : Width → Datum → Option Bytes
  | ty, .int n => some (le ty.bytes n.toNat)
  | .i64, .heap a => some (le 8 a)
  | _, _ => none

/-- The bytes of the input that an operation loads: where they start and how many they are. -/
def Op.loads : Op → List Datum → Option (ℕ × ℕ)
  | .uload8 off, [.text c] => some (shift c off, 1)
  | .load ty off, [.text c] => some (shift c off, ty.bytes)
  | _, _ => none

/-! ## The shims -/

/-- `alloc` behind `Layout::from_size_align(size, align).unwrap()`. -/
def Process.alloc (g : Process) (size align : ℕ) : Except String (ℕ × Process) :=
  if layoutOk size align then
    .ok (alignUp g.brk align, { g with
      brk := alignUp g.brk align + size
      blocks := ⟨alignUp g.brk align, size, align⟩ :: g.blocks })
  else .error "called `Result::unwrap()` on an `Err` value: LayoutError"

/-- `rt_alloc` -/
def Process.rtAlloc (g : Process) (n : ℕ) : Except String (ℕ × Process) :=
  if n = 0 then .ok (1, g) else g.alloc n 1

/-- `rt_box_alloc` -/
def Process.rtBoxAlloc (g : Process) (size align : ℕ) : Except String (ℕ × Process) :=
  if size = 0 then .ok (max align 1, g) else g.alloc size (max align 1)

/-- `rt_realloc`; what it is given is looked at only when there is something to move. -/
def Process.rtRealloc (g : Process) (ptr : Datum) (old new align : ℕ) : Option (Except String (ℕ × Process)) :=
  if old = 0 then
    if new = 0 then some (.ok (max align 1, g)) else some (g.alloc new (max align 1))
  else if layoutOk old (max align 1) then
    match ptr with
    | .heap p => some do
      let (q, g') ← g.alloc new (max align 1)
      pure (q, { g' with
        mem := putBytes g'.mem q (getBytes g'.mem p (min old new))
        blocks := g'.blocks.filter fun b => b.base != p })
    | _ => none
  else some (.error "called `Result::unwrap()` on an `Err` value: LayoutError")

/-- `rt_unescape`: the buffer, the decoded length, and the process with the decoded bytes. -/
def Process.rtUnescape (g : Process) (inp : Input) (src len : ℕ) : Except String (ℕ × ℕ × Process) :=
  match Bilbo.unescape (inp.span src len) with
  | none => .error "index out of bounds"
  | some out => do
    let (buf, g') ← g.rtAlloc out.length
    pure (buf, out.length, { g' with mem := putBytes g'.mem buf out })

section Eval

variable (fl : FloatOps) (inp : Input)

/-- A call of a shim on words of the right kind; `end` is the end of the input, and what is returned
through memory goes to the scratch slot. -/
def callShim (sc : Scratch) (g : Process) :
    Shim → List Datum → Option (Except String (Datum × Scratch × Process))
  | .alloc, [.int n] => some ((g.rtAlloc n.toNat).map fun x => (.heap x.1, sc, x.2))
  | .boxAlloc, [.int size, .int align] =>
    some ((g.rtBoxAlloc size.toNat align.toNat).map fun x => (.heap x.1, sc, x.2))
  | .realloc, [ptr, .int old, .int new, .int align] =>
    (g.rtRealloc ptr old.toNat new.toNat align.toNat).map fun r =>
      r.map fun x => (.heap x.1, sc, x.2)
  | .skip, [.text c, .text e] =>
    if e = inp.stop then some (.ok (.text (rtSkip inp c), sc, g)) else none
  | .wsskip, [.text c, .text e] =>
    if e = inp.stop then some (.ok (.text (rtWsskip inp c), sc, g)) else none
  | .f64v, [.text c, .text e, .slot 0] =>
    let c' := rtWs inp c
    let r := (fl.parsePartial (inp.rest c')).getD (0, 0)
    if e = inp.stop then some (.ok (.text (c' + r.2), (.ofNat 64 r.1, sc.2), g)) else none
  | .strscan, [.text q, .text e, .slot 0] =>
    let r := Bilbo.strscan inp q
    if e = inp.stop then some (.ok (.text r.after, (.ofNat 64 r.len, .ofNat 64 r.esc), g)) else none
  | .unescape, [.text src, .int len, .slot 0] =>
    some ((g.rtUnescape inp src len.toNat).map fun x =>
      (.heap x.1, (.ofNat 64 x.2.1, sc.2), x.2.2))
  | _, _ => none

/-! ## Operations -/

/-- An operation on words of the right kind. -/
def eval : Op → List Datum → Scratch → Process → Option (Datum × Scratch × Process)
  | .iconst n, [], sc, g => some (.int n, sc, g)
  | .iadd, [.int x, .int y], sc, g => some (.int (x + y), sc, g)
  | .iadd, [.text c, .int n], sc, g => some (.text (c + n.toNat), sc, g)
  | .iadd, [.heap a, .int n], sc, g => some (.heap (a + n.toNat), sc, g)
  | .iaddImm n, [.int x], sc, g => some (.int (x + n), sc, g)
  | .iaddImm n, [.text c], sc, g => some (.text (c + n.toNat), sc, g)
  | .iaddImm n, [.heap a], sc, g => some (.heap (a + n.toNat), sc, g)
  | .imul, [.int x, .int y], sc, g => some (.int (x * y), sc, g)
  | .imulImm n, [.int x], sc, g => some (.int (x * n), sc, g)
  | .ineg, [.int x], sc, g => some (.int (-x), sc, g)
  | .bor, [.int x, .int y], sc, g => some (.int (x ||| y), sc, g)
  | .band, [.int x, .int y], sc, g => some (.int (x &&& y), sc, g)
  | .bandImm n, [.int x], sc, g => some (.int (x &&& n), sc, g)
  | .icmp cc, [.int x, .int y], sc, g => some (.ofBool (cc.holds x.toNat y.toNat), sc, g)
  | .icmp cc, [.text x, .text y], sc, g => some (.ofBool (cc.holds x y), sc, g)
  | .icmpImm cc n, [.int x], sc, g => some (.ofBool (cc.holds x.toNat n.toNat), sc, g)
  | .select, [.int c, x, y], sc, g => some (if c = 0 then y else x, sc, g)
  | .ireduce ty, [.int x], sc, g => some (.int (.ofNat 64 (x.toNat % 256 ^ ty.bytes)), sc, g)
  | .bitcast, [.int x], sc, g => some (.int x, sc, g)
  | .fdemote, [.int x], sc, g => some (.int (.ofNat 64 (fl.demote x.toNat)), sc, g)
  | .uload8 off, [.text c], sc, g => some (.int (.ofNat 64 (inp.byte (shift c off)).toNat), sc, g)
  | .load ty off, [.text c], sc, g =>
    some (.int (.ofNat 64 (ofLe ((List.range ty.bytes).map fun i => inp.byte (shift c off + i)))),
      sc, g)
  | .load .i64 0, [.slot 0], sc, g => some (.int sc.1, sc, g)
  | .load .i64 8, [.slot 0], sc, g => some (.int sc.2, sc, g)
  | .store ty off, [v, .heap a], sc, g =>
    (v.bytes ty).map fun bs => (v, sc, { g with mem := putBytes g.mem (shift a off) bs })
  | .stackAddr k, [], sc, g => some (.slot k, sc, g)
  | .callShim f, ws, sc, g =>
    match callShim fl inp sc g f ws with
    | some (.ok r) => some r
    | _ => none
  | _, _, _, _ => none

theorem eval_store (ty : Width) (off : ℤ) (v : Datum) (a : ℕ) (sc : Scratch) (g : Process) :
    eval fl inp (.store ty off) [v, .heap a] sc g = (v.bytes ty).map fun bs =>
      (v, sc, { g with mem := putBytes g.mem (shift a off) bs }) := rfl

theorem eval_callShim (f : Shim) (ws : List Datum) (sc : Scratch) (g : Process) :
    eval fl inp (.callShim f) ws sc g =
      match callShim fl inp sc g f ws with
      | some (.ok r) => some r
      | _ => none := rfl

/-- What the emitted code means. -/
def semantics : Semantics Op Datum Scratch Process where
  eval := eval fl inp
  truth
    | .int n => some (n != 0)
    | _ => none
  index
    | .int n => some n.toNat
    | _ => none
  junk := .int 0
  blank := (0, 0)

end Eval

/-! ## Faults -/

/-- What the running function is about to do, with the words it does it to. -/
def upcoming (P : Program Op) (c : Config Datum Scratch Process) : Option (Op × List Datum × Scratch) :=
  match c.stack.head?, next P c with
  | some a, some (.inl (.define _ o args)) => some (o, args.map a.frame.vals, a.frame.loc)
  | _, _ => none

/-- The ends that the parser comes to without returning: the next instruction loads bytes past the
end of the input, or it calls a shim that panics. -/
def Fault (fl : FloatOps) (inp : Input) (P : Program Op) : Stop → Config Datum Scratch Process → Prop
  | .load a, c => ∃ o ws sc w, upcoming P c = some (o, ws, sc) ∧ o.loads ws = some (a, w) ∧
      inp.stop < a + w
  | .panic msg, c => ∃ f ws sc, upcoming P c = some (.callShim f, ws, sc) ∧
      callShim fl inp sc c.glob f ws = some (.error msg)
  | .undefined, _ => False

/-- The process that runs a program on an input. -/
abbrev system (fl : FloatOps) (inp : Input) (P : Program Op) :
    System (Config Datum Scratch Process) Stop :=
  machine (semantics fl inp) P (Fault fl inp P)

end Clif

/-- What is left of a state when its memory is bytes. -/
def State.proc (s : State) : Clif.Process := ⟨s.mem.bytes, s.brk, s.blocks⟩

end Bilbo
