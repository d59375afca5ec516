import Bilbo.Base.SortedMap
import Bilbo.Clif
import Bilbo.Compiling

/-!
# The program that emits the parser

`Emit` in `jit.rs`, call by call: each function here makes the calls of the builder that the function
of the same name makes, so what it leaves is the code that Cranelift is given. `Emit.lean` says what
that code does when it runs.

The parser of a type is written by a recursion on the type. What emits the parsers of its parts is
handed to the functions for containers as an `Emit`; a loop over the fields of a struct goes over the
fields with the `Emit` of each.
-/

namespace Bilbo

open Base Base.Cfg

namespace Emitter

open Clif

/-- Programs that write code for the machine. -/
abbrev Build := Cfg.Build Op

/-- `Pctx` -/
structure Pctx where
  end_ : Value
  sc : Value

/-- What emits a parser: from the destination and the cursor to the new cursor. -/
abbrev Emit := Value → Value → Build Value

/-! ## Single instructions -/

def iconst (n : ℕ) : Build Value := define (.iconst (.ofNat 64 n)) []

def iadd (x y : Value) : Build Value := define .iadd [x, y]

def iaddImm (x : Value) (n : BitVec 64) : Build Value := define (.iaddImm n) [x]

def icmp (cc : IntCC) (x y : Value) : Build Value := define (.icmp cc) [x, y]

def icmpImm (cc : IntCC) (x : Value) (n : ℕ) : Build Value := define (.icmpImm cc (.ofNat 64 n)) [x]

def select (c x y : Value) : Build Value := define .select [c, x, y]

def ireduce (ty : Width) (x : Value) : Build Value := define (.ireduce ty) [x]

def load (ty : Width) (addr : Value) (off : ℤ) : Build Value := define (.load ty off) [addr]

def store (ty : Width) (v addr : Value) (off : ℤ) : Build Unit := effect (.store ty off) [v, addr]

/-- `call1` to `call4`, for a shim. -/
def callShim (f : Shim) (args : List Value) : Build Value := define (.callShim f) args

/-- `load_u8` -/
def loadU8 (addr : Value) : Build Value := define (.uload8 0) [addr]

/-- `load_u8_off` -/
def loadU8Off (addr : Value) (off : ℤ) : Build Value := define (.uload8 off) [addr]

/-- `scratch` -/
def scratch (sc : Value) (off : ℤ) : Build Value := load .i64 sc off

/-- `byte_eq` -/
def byteEq (b : Value) (ch : UInt8) : Build Value := icmpImm .equal b ch.toNat

/-- `store_at` -/
def storeAt (base : Value) (off : ℕ) (v : Value) : Build Unit := store .i64 v base (wrapI32 off)

/-- The integer type of `n` bytes; anything but 1, 2 and 4 is a word. -/
def widthOf (n : ℕ) : Width :=
  if n = 1 then .i8 else if n = 2 then .i16 else if n = 4 then .i32 else .i64

/-- The low bytes of a word. -/
def narrow (ty : Width) (v : Value) : Build Value := if ty = .i64 then pure v else ireduce ty v

/-- `store_sized` -/
def storeSized (dst v : Value) (n : ℕ) : Build Unit := do
  let v ← narrow (widthOf n) v
  store (widthOf n) v dst 0

/-- `store_imm` -/
def storeImm (dst : Value) (off val size : ℕ) : Build Unit := do
  let v ← iconst val
  store (widthOf size) v dst (wrapI32 off)

/-- The part of `memset0` below a word. -/
def memsetTail (z dst : Value) : ℕ → ℕ → List Width → Build Unit
  | _, _, [] => pure ()
  | o, rem, ty :: tys =>
    if ty.bytes ≤ rem then do
      let zz ← ireduce ty z
      store ty zz dst (wrapI32 o)
      memsetTail z dst (o + ty.bytes) (rem - ty.bytes) tys
    else memsetTail z dst o rem tys

/-- `memset0` -/
def memset0 (dst : Value) (size : ℕ) : Build Unit := do
  let z ← iconst 0
  (List.range (size / 8)).forM fun k => store .i64 z dst (wrapI32 (8 * k : ℕ))
  memsetTail z dst (size / 8 * 8) (size % 8) [.i32, .i16, .i8]

/-! ## Tokens -/

/-- `peel_ws` -/
def peelWs (c end_ : Value) (cont tail : Blk) : Build Unit := do
  let inb ← icmp .unsignedLessThan c end_
  let bchk ← createBlock 0
  brif inb bchk [] cont [c]
  switchToBlock bchk
  let v ← loadU8 c
  let isWs ← icmpImm .unsignedLessThanOrEqual v 0x20
  let c1 ← iaddImm c 1
  brif isWs tail [c1] cont [c]

/-- `ws` -/
def ws (cur : Value) (p : Pctx) : Build Value := do
  let cont ← createBlock 1
  let b1 ← createBlock 1
  let slow ← createBlock 1
  peelWs cur p.end_ cont b1
  switchToBlock b1
  peelWs (b1.param 0) p.end_ cont slow
  switchToBlock slow
  let r ← callShim .wsskip [slow.param 0, p.end_]
  jump cont [r]
  switchToBlock cont
  pure (cont.param 0)

/-- What `strspan` returns. -/
structure Span where
  start : Value
  len : Value
  after : Value
  esc : Value

/-- `strspan` -/
def strspan (cur : Value) (p : Pctx) : Build Span := do
  let q ← ws cur p
  let start ← iaddImm q 1
  let after ← callShim .strscan [q, p.end_, p.sc]
  let len ← scratch p.sc 0
  let esc ← scratch p.sc 8
  pure ⟨start, len, after, esc⟩

/-- `cp` -/
def cp (src dst : Value) (ty : Width) (off : Value) : Build Unit := do
  let sa ← iadd src off
  let da ← iadd dst off
  let v ← load ty sa 0
  store ty v da 0

/-- The first `ty` bytes and the last ones, which may overlap. -/
def copyEnds (dst src len z : Value) (ty : Width) (done : Blk) : Build Unit := do
  cp src dst ty z
  let l ← iaddImm len (-.ofNat 64 ty.bytes)
  cp src dst ty l
  jump done []

/-- The branch of `emit_copy` for a word and more. -/
def copyBig (dst src len z : Value) (done : Blk) : Build Unit := do
  let wh ← createBlock 1
  let wb ← createBlock 1
  let tail ← createBlock 0
  jump wh [z]
  switchToBlock wh
  let i8 ← iaddImm (wh.param 0) 8
  let fits ← icmp .unsignedLessThanOrEqual i8 len
  brif fits wb [wh.param 0] tail []
  switchToBlock wb
  cp src dst .i64 (wb.param 0)
  let i2 ← iaddImm (wb.param 0) 8
  jump wh [i2]
  switchToBlock tail
  let l8 ← iaddImm len (-.ofNat 64 8)
  cp src dst .i64 l8
  jump done []

/-- The branch for less than a word. -/
def copySmall (dst src len z : Value) (done : Blk) : Build Unit := do
  let s2 ← createBlock 0
  let s4 ← createBlock 0
  let ge4 ← icmpImm .unsignedGreaterThanOrEqual len 4
  brif ge4 s4 [] s2 []
  switchToBlock s4
  copyEnds dst src len z .i32 done
  switchToBlock s2
  let do2 ← createBlock 0
  let s1 ← createBlock 0
  let ge2 ← icmpImm .unsignedGreaterThanOrEqual len 2
  brif ge2 do2 [] s1 []
  switchToBlock do2
  copyEnds dst src len z .i16 done
  switchToBlock s1
  let one ← createBlock 0
  let nz ← icmpImm .notEqual len 0
  brif nz one [] done []
  switchToBlock one
  cp src dst .i8 z
  jump done []

/-- `emit_copy` -/
def emitCopy (dst src len : Value) : Build Unit := do
  let z ← iconst 0
  let big ← createBlock 0
  let small ← createBlock 0
  let done ← createBlock 0
  let ge8 ← icmpImm .unsignedGreaterThanOrEqual len 8
  brif ge8 big [] small []
  switchToBlock big
  copyBig dst src len z done
  switchToBlock small
  copySmall dst src len z done
  switchToBlock done

/-- `build_str`: the buffer and its length. -/
def buildStr (sp sl esc : Value) (p : Pctx) : Build (Value × Value) := do
  let fast ← createBlock 0
  let slow ← createBlock 0
  let cont ← createBlock 2
  brif esc slow [] fast []
  switchToBlock fast
  let buf ← callShim .alloc [sl]
  emitCopy buf sp sl
  jump cont [buf, sl]
  switchToBlock slow
  let buf ← callShim .unescape [sp, sl, p.sc]
  let dl ← scratch p.sc 0
  jump cont [buf, dl]
  switchToBlock cont
  pure (cont.param 0, cont.param 1)

/-- The digit loop of `intval`: the cursor behind the digits and their value. -/
def digits (cur : Value) (p : Pctx) : Build (Value × Value) := do
  let head ← createBlock 2
  let chk ← createBlock 2
  let done ← createBlock 2
  let z ← iconst 0
  jump head [cur, z]
  switchToBlock head
  let c := head.param 0
  let v := head.param 1
  let inb ← icmp .unsignedLessThan c p.end_
  brif inb chk [c, v] done [c, v]
  switchToBlock chk
  let c := chk.param 0
  let v := chk.param 1
  let b ← loadU8 c
  let d ← iaddImm b (-.ofNat 64 0x30)
  let isDig ← icmpImm .unsignedLessThan d 10
  let v10 ← define (.imulImm (.ofNat 64 10)) [v]
  let vn ← iadd v10 d
  let c1 ← iaddImm c 1
  brif isDig head [c1, vn] done [c, v]
  switchToBlock done
  pure (done.param 0, done.param 1)

/-- Whether the first byte is the minus of a signed number. -/
def minusSign (signed : Bool) (b0 : Value) : Build Value :=
  if signed then byteEq b0 Ascii.minus else iconst 0

/-- The value of a signed number that has its minus. -/
def negated (signed : Bool) (neg val : Value) : Build Value :=
  if signed then do
    let negd ← define .ineg [val]
    select neg negd val
  else pure val

/-- `intval`: the value and the cursor behind it. -/
def intval (cur : Value) (p : Pctx) (signed : Bool) : Build (Value × Value) := do
  let cur ← ws cur p
  let b0 ← loadU8 cur
  let neg ← minusSign signed b0
  let isPlus ← byteEq b0 Ascii.plus
  let isSign ← define .bor [neg, isPlus]
  let cur1 ← iaddImm cur 1
  let cur ← select isSign cur1 cur
  let (cend, val) ← digits cur p
  let val ← negated signed neg val
  pure (val, cend)

/-- Past an optional comma, after whitespace. -/
def pastComma (c : Value) (p : Pctx) : Build Value := do
  let c ← ws c p
  let b ← loadU8 c
  let isComma ← byteEq b Ascii.comma
  let c1 ← iaddImm c 1
  select isComma c1 c

/-! ## Key dispatch -/

/-- The comparisons of `keyeq` from byte `i` on. -/
def keyeqFrom (kp : Value) : ℕ → Bytes → Value → Build Value
  | _, [], acc => pure acc
  | i, ch :: name, acc => do
    let byte ← loadU8Off kp (wrapI32 i)
    let eqi ← byteEq byte ch
    let acc ← define .band [acc, eqi]
    keyeqFrom kp (i + 1) name acc

/-- `keyeq` -/
def keyeq (kp kl : Value) (name : Bytes) : Build Value := do
  let acc ← icmpImm .equal kl name.length
  keyeqFrom kp 0 name acc

/-- The test of the word chain on a name, `w` being the word at the key. -/
def wordeq (w kp kl : Value) (name : Bytes) : Build Value :=
  if name.length ≤ 8 then do
    let word := ofLe (name ++ List.replicate (8 - name.length) 0)
    let mask := if name.length = 8 then 2 ^ 64 - 1 else 1 <<< (8 * name.length) - 1
    let lc ← icmpImm .equal kl name.length
    let wm ← define (.bandImm (.ofNat 64 mask)) [w]
    let we ← icmpImm .equal wm word
    define .band [lc, we]
  else keyeq kp kl name

/-- A field with the block that parses it. -/
abbrev Arm := FieldTy × Blk

/-- A compare chain: to the block of the first field that passes, else to the skip block. -/
def chain (test : Bytes → Build Value) (skip : Blk) : List Arm → Build Unit
  | [] => jump skip []
  | arm :: arms => do
    let cond ← test arm.1.key
    let next ← createBlock 0
    brif cond arm.2 [] next []
    switchToBlock next
    chain test skip arms

/-- The map `by_len`: the fields by the length of their names, each list in the order of the
fields. -/
def byLen (arms : List Arm) : List (ℕ × List Arm) :=
  SortedMap.group (fun arm => arm.1.key.length) arms

/-- A block for each length. -/
def createBuckets : List (ℕ × List Arm) → Build (List (ℕ × Blk × List Arm))
  | [] => pure []
  | (len, arms) :: m => do
    let blk ← createBlock 0
    let buckets ← createBuckets m
    pure ((len, blk, arms) :: buckets)

/-- The dispatch of a struct with many fields. -/
def dispatchWide (kp kl : Value) (arms : List Arm) (skip : Blk) : Build Unit := do
  let buckets ← createBuckets (byLen arms)
  switch kl (buckets.map fun x => (x.1, x.2.1)) skip
  buckets.forM fun x => do
    switchToBlock x.2.1
    chain (keyeq kp kl) skip x.2.2

/-- The dispatch of a struct with few fields. -/
def dispatchNarrow (kp kl : Value) (p : Pctx) (arms : List Arm) (skip : Blk) : Build Unit := do
  let kp8 ← iaddImm kp 8
  let canWord ← icmp .unsignedLessThanOrEqual kp8 p.end_
  let fast ← createBlock 0
  let slow ← createBlock 0
  brif canWord fast [] slow []
  switchToBlock fast
  let w ← load .i64 kp 0
  chain (wordeq w kp kl) skip arms
  switchToBlock slow
  chain (keyeq kp kl) skip arms

/-- The jump to the block of the field that a key names. -/
def dispatch (kp kl : Value) (p : Pctx) (arms : List Arm) (skip : Blk) : Build Unit :=
  if switchMinFields ≤ arms.length then dispatchWide kp kl arms skip
  else dispatchNarrow kp kl p arms skip

/-! ## Containers -/

section Containers

variable (p : Pctx)

/-- Store `None` in a field whose type is syntactically an option. -/
def defaultNone (dst : Value) (f : FieldTy) : Build Unit :=
  match f.ty with
  | .opt discOff discSize noneDiscr _ _ size _ => do
    let off ← iconst f.offset
    let fdst ← iadd dst off
    memset0 fdst size
    storeImm fdst discOff noneDiscr discSize
  | _ => pure ()

/-- A block for each field. -/
def createArms : List FieldTy → Build (List Arm)
  | [] => pure []
  | f :: fs => do
    let l ← createBlock 0
    let arms ← createArms fs
    pure ((f, l) :: arms)

/-- The block of a field: parse it, and go on behind the dispatch. -/
def parseArm (dst c : Value) (after : Blk) (x : Arm × Emit) : Build Unit := do
  switchToBlock x.1.2
  let off ← iconst x.1.1.offset
  let fdst ← iadd dst off
  let cc ← x.2 fdst c
  jump after [cc]

/-- The start of an iteration over a container: behind the whitespace, out when the container ends
there, else on to a block for the rest. -/
def untilEnd (close : UInt8) (header cont : Blk) : Build Blk := do
  let hc ← ws (header.param 0) p
  let bch ← loadU8 hc
  let isEnd ← byteEq bch close
  let body ← createBlock 1
  let hc1 ← iaddImm hc 1
  brif isEnd cont [hc1] body [hc]
  pure body

/-- A member of a struct: its key, the value that the key asks for, and the way back. -/
def parseMember (fields : List (FieldTy × Emit)) (dst bc : Value) (header : Blk) : Build Unit := do
  let k ← strspan bc p
  let c ← ws k.after p
  let c ← iaddImm c 1
  let after ← createBlock 1
  let arms ← createArms (fields.map Prod.fst)
  let skip ← createBlock 0
  dispatch k.start k.len p arms skip
  (arms.zip (fields.map Prod.snd)).forM (parseArm dst c after)
  switchToBlock skip
  let skipped ← callShim .skip [c, p.end_]
  jump after [skipped]
  switchToBlock after
  let ac ← pastComma (after.param 0) p
  jump header [ac]

/-- `parse_struct` -/
def parseStruct (fields : List (FieldTy × Emit)) (dst cur : Value) : Build Value := do
  let cur ← ws cur p
  let cur ← iaddImm cur 1
  fields.forM fun f => defaultNone dst f.1
  let header ← createBlock 1
  let cont ← createBlock 1
  jump header [cur]
  switchToBlock header
  let body ← untilEnd p Ascii.rbrace header cont
  switchToBlock body
  parseMember p fields dst (body.param 0) header
  switchToBlock cont
  pure (cont.param 0)

/-- The fields of `parse_tuple`, in order, each with an optional comma behind it. -/
def parseFields (dst : Value) : List (FieldTy × Emit) → Value → Build Value
  | [], c => pure c
  | f :: fs, c => do
    let off ← iconst f.1.offset
    let fdst ← iadd dst off
    let c ← f.2 fdst c
    let c ← pastComma c p
    parseFields dst fs c

/-- `parse_tuple` -/
def parseTuple (fields : List (FieldTy × Emit)) (dst cur : Value) : Build Value := do
  let cur ← ws cur p
  let c ← iaddImm cur 1
  let c ← parseFields p dst fields c
  let c ← ws c p
  iaddImm c 1

/-- The block `grow` of `parse_vec`, for a vector that is full. -/
def growVec (esz align : Value) (grow afterg : Blk) : Build Unit := do
  let is0 ← icmpImm .equal (grow.param 2) 0
  let cap2 ← define (.imulImm (.ofNat 64 2)) [grow.param 2]
  let four ← iconst 4
  let newcap ← select is0 four cap2
  let oldbytes ← define .imul [grow.param 2, esz]
  let newbytes ← define .imul [newcap, esz]
  let nbase ← callShim .realloc [grow.param 1, oldbytes, newbytes, align]
  jump afterg [grow.param 0, nbase, newcap, grow.param 3]

/-- The block `afterg` of `parse_vec`, for an element that has its place. -/
def parseElem (elem : Emit) (esz : Value) (afterg head : Blk) : Build Unit := do
  let aoff ← define .imul [afterg.param 3, esz]
  let edst ← iadd (afterg.param 1) aoff
  let ac ← elem edst (afterg.param 0)
  let ac ← pastComma ac p
  let alen1 ← iaddImm (afterg.param 3) 1
  jump head [ac, afterg.param 1, afterg.param 2, alen1]

/-- The loop of `parse_vec`, up to its block `done`. -/
def parseElems (elem : Emit) (esz align : Value) (head body grow afterg done : Blk) : Build Unit := do
  switchToBlock head
  let hc ← ws (head.param 0) p
  let bch ← loadU8 hc
  let isEnd ← byteEq bch Ascii.rbracket
  brif isEnd done [hc, head.param 1, head.param 2, head.param 3]
    body [hc, head.param 1, head.param 2, head.param 3]
  switchToBlock body
  let full ← icmp .equal (body.param 3) (body.param 2)
  brif full grow [body.param 0, body.param 1, body.param 2, body.param 3]
    afterg [body.param 0, body.param 1, body.param 2, body.param 3]
  switchToBlock grow
  growVec esz align grow afterg
  switchToBlock afterg
  parseElem p elem esz afterg head

/-- `parse_vec` -/
def parseVec (elem : Emit) (elemSize elemAlign : ℕ) (seq : SeqLayout) (dst cur : Value) :
    Build Value := do
  let esz ← iconst elemSize
  let align ← iconst (max elemAlign 1)
  let cur ← ws cur p
  let c0 ← iaddImm cur 1
  let z ← iconst 0
  let head ← createBlock 4
  let body ← createBlock 4
  let grow ← createBlock 4
  let afterg ← createBlock 4
  let done ← createBlock 4
  jump head [c0, align, z, z]
  parseElems p elem esz align head body grow afterg done
  switchToBlock done
  let fc ← ws (done.param 0) p
  let fc ← iaddImm fc 1
  storeAt dst seq.ptrOff (done.param 1)
  storeAt dst seq.capOff (done.param 2)
  storeAt dst seq.lenOff (done.param 3)
  pure fc

/-- `call_addr` -/
def callAddr (addr : ℕ) (args : List Value) : Build Unit := do
  let a ← iconst addr
  effect .callIndirect (a :: args)

/-- `parse_map` -/
def parseMap (key : Emit) (keySize : ℕ) (val : Emit) (valSize newAt insert : ℕ) (dst cur : Value) :
    Build Value := do
  callAddr newAt [dst]
  let ks ← createStackSlot (max keySize 1 % 2 ^ 32)
  let vs ← createStackSlot (max valSize 1 % 2 ^ 32)
  let cur ← ws cur p
  let cur ← iaddImm cur 1
  let header ← createBlock 1
  let cont ← createBlock 1
  jump header [cur]
  switchToBlock header
  let body ← untilEnd p Ascii.rbrace header cont
  switchToBlock body
  let kaddr ← define (.stackAddr ks) []
  let vaddr ← define (.stackAddr vs) []
  let c ← key kaddr (body.param 0)
  let c ← ws c p
  let c ← iaddImm c 1
  let c ← val vaddr c
  callAddr insert [dst, kaddr, vaddr]
  let c ← pastComma c p
  jump header [c]
  switchToBlock cont
  pure (cont.param 0)

/-- Store the discriminant of `Some`, when it has one. -/
def storeSome (dst : Value) (discOff discSize : ℕ) : Option ℕ → Build Unit
  | some sd => storeImm dst discOff sd discSize
  | none => pure ()

/-- The branch of `Ty::Opt`. -/
def parseOpt (discOff discSize noneDiscr : ℕ) (someDiscr : Option ℕ) (payloadOff size : ℕ)
    (inner : Emit) (dst cur : Value) : Build Value := do
  let c ← ws cur p
  let b ← loadU8 c
  let isNull ← byteEq b 0x6E
  let noneB ← createBlock 0
  let someB ← createBlock 0
  let cont ← createBlock 1
  brif isNull noneB [] someB []
  switchToBlock noneB
  memset0 dst size
  storeImm dst discOff noneDiscr discSize
  let c4 ← iaddImm c 4
  jump cont [c4]
  switchToBlock someB
  let off ← iconst payloadOff
  let pdst ← iadd dst off
  let cc ← inner pdst c
  storeSome dst discOff discSize someDiscr
  jump cont [cc]
  switchToBlock cont
  pure (cont.param 0)

/-- The branch of `Ty::Bool`. -/
def parseBool (dst cur : Value) : Build Value := do
  let c ← ws cur p
  let b ← loadU8 c
  let isT ← byteEq b 0x74
  let isF ← byteEq b 0x66
  store .i8 isT dst 0
  let five ← iconst 5
  let four ← iconst 4
  let adv ← select isF five four
  iadd c adv

/-- The store of a double, or of the float next to it. -/
def storeFloat (single : Bool) (f dst : Value) : Build Unit :=
  if single then do
    let f ← define .fdemote [f]
    store .i32 f dst 0
  else store .i64 f dst 0

/-- The branches of `Ty::F32` and `Ty::F64`. -/
def parseFloat (single : Bool) (dst cur : Value) : Build Value := do
  let c ← callShim .f64v [cur, p.end_, p.sc]
  let bits ← scratch p.sc 0
  let f ← define .bitcast [bits]
  storeFloat single f dst
  pure c

end Containers

/-! ## Types -/

mutual

/-- `Emit::parse` -/
def parse (recs : List (RecCell × FuncId)) (p : Pctx) : Ty → Value → Value → Build Value
  | .bool, dst, cur => parseBool p dst cur
  | .u size, dst, cur => do
    let (v, c) ← intval cur p false
    storeSized dst v size
    pure c
  | .i size, dst, cur => do
    let (v, c) ← intval cur p true
    storeSized dst v size
    pure c
  | .f32, dst, cur => parseFloat p true dst cur
  | .f64, dst, cur => parseFloat p false dst cur
  | .char, dst, cur => do
    let s ← strspan cur p
    let ch ← loadU8 s.start
    let ch ← ireduce .i32 ch
    store .i32 ch dst 0
    pure s.after
  | .str seq, dst, cur => do
    let s ← strspan cur p
    let (buf, blen) ← buildStr s.start s.len s.esc p
    storeAt dst seq.ptrOff buf
    storeAt dst seq.capOff blen
    storeAt dst seq.lenOff blen
    pure s.after
  | .strRef ptrOff lenOff, dst, cur => do
    let s ← strspan cur p
    let (buf, blen) ← buildStr s.start s.len s.esc p
    storeAt dst ptrOff buf
    storeAt dst lenOff blen
    pure s.after
  | .struct _ fields, dst, cur => parseStruct p (withEmit recs p fields) dst cur
  | .tuple fields, dst, cur => parseTuple p (withEmit recs p fields) dst cur
  | .vec elem elemSize elemAlign seq, dst, cur =>
    parseVec p (parse recs p elem) elemSize elemAlign seq dst cur
  | .boxed inner size align, dst, cur => do
    let sz ← iconst size
    let al ← iconst align
    let bp ← callShim .boxAlloc [sz, al]
    let after ← parse recs p inner bp cur
    store .i64 bp dst 0
    pure after
  | .unit, _, cur => callShim .skip [cur, p.end_]
  | .opt discOff discSize noneDiscr someDiscr payloadOff size inner, dst, cur =>
    parseOpt p discOff discSize noneDiscr someDiscr payloadOff size (parse recs p inner) dst cur
  | .map key keySize val valSize newAt insert, dst, cur =>
    parseMap p (parse recs p key) keySize (parse recs p val) valSize newAt insert dst cur
  | .ref cell, dst, cur =>
    match recs.lookup cell with
    | some fid => call fid [dst, cur, p.end_]
    | none => .panic "no entry found for key"
  | .unknown _, _, _ => .panic "jit parser: unknown type"

/-- The fields of a struct or tuple, each with what emits its parser. -/
def withEmit (recs : List (RecCell × FuncId)) (p : Pctx) :
    List (FieldOf Ty) → List (FieldTy × Emit)
  | [] => []
  | f :: fs => (f, emitField recs p f) :: withEmit recs p fs

/-- What emits the parser of a field. -/
def emitField (recs : List (RecCell × FuncId)) (p : Pctx) : FieldOf Ty → Emit
  | ⟨_, _, ty⟩ => parse recs p ty

end

theorem emitField_eq (recs : List (RecCell × FuncId)) (p : Pctx) (f : FieldTy) :
    emitField recs p f = parse recs p f.ty := by
  cases f
  rw [emitField]

theorem withEmit_fst (recs : List (RecCell × FuncId)) (p : Pctx) (fields : List FieldTy) :
    (withEmit recs p fields).map Prod.fst = fields := by
  induction fields with
  | nil => rfl
  | cons f fs ih => rw [withEmit, List.map_cons, ih]

theorem mem_withEmit {recs : List (RecCell × FuncId)} {p : Pctx} {fields : List FieldTy} {y : FieldTy × Emit}
    (hy : y ∈ withEmit recs p fields) : y.1 ∈ fields ∧ y.2 = parse recs p y.1.ty := by
  induction fields with
  | nil => exact absurd hy List.not_mem_nil
  | cons f fs ih =>
    rw [withEmit] at hy
    rcases List.mem_cons.1 hy with rfl | hy
    · exact ⟨List.mem_cons_self, emitField_eq recs p f⟩
    · obtain ⟨hmem, heq⟩ := ih hy
      exact ⟨List.mem_cons_of_mem _ hmem, heq⟩

/-- The end of the input: a parameter, or the input and its length. -/
def entryEnd (entry : Blk) (isNode : Bool) : Build Value :=
  if isNode then pure (entry.param 2) else iadd (entry.param 1) (entry.param 2)

/-- `emit_one`: a function from the destination, the cursor and the end to the new cursor, or one from
the destination, the input and its length. -/
def emitOne (recs : List (RecCell × FuncId)) (body : Ty) (isNode : Bool) : Build Unit := do
  let entry ← createBlock 3
  switchToBlock entry
  let end_ ← entryEnd entry isNode
  let slot ← createStackSlot 16
  let sc ← define (.stackAddr slot) []
  let nc ← parse recs ⟨end_, sc⟩ body (entry.param 0) (entry.param 1)
  return_ (if isNode then [nc] else [])

/-- The code of a function. -/
def compileOne (recs : List (RecCell × FuncId)) (body : Ty) (isNode : Bool) :
    Except String (Code Op) :=
  (emitOne recs body isNode).finish

/-! ## Modules -/

/-- The code of the functions of some cells. -/
def compileNodes (cells : Cells) (recs : List (RecCell × FuncId)) :
    List (RecCell × FuncId) → Except String (List (FuncId × Code Op))
  | [] => .ok []
  | (cell, fid) :: recFns =>
    match cells cell with
    | none => .error "recursive Ty cell not set"
    | some body => do
      let code ← compileOne recs body true
      let codes ← compileNodes cells recs recFns
      pure ((fid, code) :: codes)

/-- The code that `compile_parser` defines, once the functions of the cells and of the type are
declared. -/
def compileModule (cells : Cells) (recFns : List (RecCell × FuncId)) (fid : FuncId) (ty : Ty) :
    Except String (Program Op) := do
  let codes ← compileNodes cells recFns.reverse recFns
  let code ← compileOne recFns.reverse ty false
  pure fun f => ((fid, code) :: codes).lookup f

end Emitter

end Bilbo
