import Bilbo.Shims

/-!
# The emitted parser

What the code that `Emit` in `jit.rs` emits for a type does when it runs. The emitter
unrolls a type into straight code and loops, and turns a recursive cell into a function of
its own; running that code is running `parse` on the type, so one definition stands for
the emitter and its output. `n` bounds the iterations of each loop, the recursion argument
bounds the nesting of `parse`.

Every load that decides the next step goes through `loadU8` and stops the run at or past
`end`. The loads that compare a key with the field names do not: the code makes them
whatever lies behind the key.
-/

namespace Bilbo

open Base Comp

/-! ## Loads and stores -/

/-- `load_u8` of an input byte. -/
def loadU8 (inp : Input) (c : ℕ) : M UInt8 :=
  if c < inp.stop then pure (inp.byte c) else fail (.load c)

/-- The address of a store at `off as i32` from `base`. -/
def disp (base off : ℕ) : ℕ := (base + wrapI32 off).toNat

/-- The width of a store: 1, 2 and 4 are kept, anything else is a word. -/
def storeWidth (n : ℕ) : ℕ := if n = 1 ∨ n = 2 ∨ n = 4 then n else 8

/-- `store_sized` -/
def storeSized (dst v n : ℕ) : M Unit := storeInt dst (storeWidth n) v

/-- `store_imm` -/
def storeImm (dst off v size : ℕ) : M Unit := storeInt (disp dst off) (storeWidth size) v

/-- The three `store_at` of a `Vec`-like value. -/
def storeSeq (dst : ℕ) (seq : SeqLayout) (ptr cap len : ℕ) : M Unit := do
  storePtr (disp dst seq.ptrOff) ptr
  storeInt (disp dst seq.capOff) 8 cap
  storeInt (disp dst seq.lenOff) 8 len

/-- The two `store_at` of a `&str`. -/
def storeStrRef (dst ptrOff lenOff ptr len : ℕ) : M Unit := do
  storePtr (disp dst ptrOff) ptr
  storeInt (disp dst lenOff) 8 len

/-- The stores of `memset0`: offset and width. -/
def memset0Chunks (size : ℕ) : List (ℕ × ℕ) :=
  let words := (List.range (size / 8)).map fun k => (8 * k, 8)
  let o := size / 8 * 8
  let rem := size % 8
  let four := if 4 ≤ rem then [(o, 4)] else []
  let two := if 2 ≤ rem % 4 then [(o + rem / 4 * 4, 2)] else []
  let one := if 1 ≤ rem % 2 then [(o + rem / 2 * 2, 1)] else []
  words ++ four ++ two ++ one

/-- `memset0` -/
def memset0 (dst size : ℕ) : M Unit :=
  (memset0Chunks size).forM fun c => storeInt (disp dst c.1) c.2 0

/-- `cp`: copy the `w` bytes at `src + off` to `dst + off`. -/
def cp (inp : Input) (src dst w off : ℕ) : M Unit :=
  if src + off + w ≤ inp.stop then storeCells (dst + off) (ints (inp.span (src + off) w))
  else fail (.load (src + off))

/-- The word loop of `emit_copy`. -/
def copyWords (inp : Input) (dst src len : ℕ) : ℕ → ℕ → M Unit :=
  loop fun i =>
    if i + 8 ≤ len then do
      cp inp src dst 8 i
      pure (.inl (i + 8))
    else pure (.inr ())

/-- `emit_copy` -/
def emitCopy (inp : Input) (n dst src len : ℕ) : M Unit :=
  if 8 ≤ len then do
    copyWords inp dst src len n 0
    cp inp src dst 8 (len - 8)
  else if 4 ≤ len then do
    cp inp src dst 4 0
    cp inp src dst 4 (len - 4)
  else if 2 ≤ len then do
    cp inp src dst 2 0
    cp inp src dst 2 (len - 2)
  else if len ≠ 0 then cp inp src dst 1 0
  else pure ()

/-! ## Tokens -/

/-- `peel_ws`: one whitespace byte inline. -/
def peelWs (inp : Input) (c : ℕ) (tail : ℕ → ℕ) : ℕ :=
  if c < inp.stop then if inp.byte c ≤ 0x20 then tail (c + 1) else c
  else c

/-- `ws` -/
def ws (inp : Input) (cur : ℕ) : ℕ := peelWs inp cur fun c => peelWs inp c (rtWsskip inp)

/-- Past an optional comma, after whitespace. -/
def pastComma (inp : Input) (cur : ℕ) : M ℕ := do
  let c := ws inp cur
  let b ← loadU8 inp c
  pure (if b == Ascii.comma then c + 1 else c)

/-- What `strspan` returns. -/
structure StrSpan where
  start : ℕ
  len : ℕ
  after : ℕ
  esc : ℕ

/-- `strspan` -/
def strspan (inp : Input) (cur : ℕ) : M StrSpan := do
  let q := ws inp cur
  let after ← rtStrscan inp q
  let s ← get
  pure ⟨q + 1, s.sc.1, after, s.sc.2⟩

/-- `build_str`: the pointer and the length of an owned string. -/
def buildStr (inp : Input) (n : ℕ) (sp : StrSpan) : M (ℕ × ℕ) :=
  if sp.esc ≠ 0 then do
    let buf ← rtUnescape inp sp.start sp.len
    let s ← get
    pure (buf, s.sc.1)
  else do
    let buf ← rtAlloc sp.len
    emitCopy inp n buf sp.start sp.len
    pure (buf, sp.len)

/-- The digit loop of `intval`: cursor and accumulator. -/
def digits (inp : Input) : ℕ → ℕ × ℕ → M (ℕ × ℕ) :=
  loop fun b =>
    if b.1 < inp.stop ∧ Ascii.isDigit (inp.byte b.1) then
      pure (.inl (b.1 + 1, (b.2 * 10 + ((inp.byte b.1).toNat - 0x30)) % 2 ^ 64))
    else pure (.inr b)

/-- `intval`: the value and the cursor behind it. -/
def intval (inp : Input) (n cur : ℕ) (signed : Bool) : M (ℕ × ℕ) := do
  let c := ws inp cur
  let b0 ← loadU8 inp c
  let neg := signed && b0 == Ascii.minus
  let (cend, v) ← digits inp n (if neg || b0 == Ascii.plus then c + 1 else c, 0)
  pure (if neg then wrapSub 0 v else v, cend)

/-! ## Key dispatch -/

/-- A load of the key comparison: address and width. -/
abbrev KeyLoad := ℕ × ℕ

/-- The loads of `keyeq`. -/
def keyeqLoads (kp : ℕ) (name : Bytes) : List KeyLoad :=
  (List.range name.length).map fun i => (kp + i, 1)

/-- `keyeq` -/
def keyeq (inp : Input) (kp kl : ℕ) (name : Bytes) : Bool :=
  kl == name.length && (List.range name.length).all fun i => some (inp.byte (kp + i)) == name[i]?

/-- A compare chain: the first field that passes, and the loads made on the way. -/
def chain (test : FieldTy → Bool) (loads : FieldTy → List KeyLoad) :
    List FieldTy → Option FieldTy × List KeyLoad
  | [] => (none, [])
  | f :: fs =>
    if test f then (some f, loads f)
    else ((chain test loads fs).1, loads f ++ (chain test loads fs).2)

/-- The word at `kp`. -/
def keyWord (inp : Input) (kp : ℕ) : ℕ :=
  ofLe ((List.range 8).map fun i => inp.byte (kp + i))

/-- The test of the word chain on one field. -/
def wordeq (inp : Input) (kp kl : ℕ) (name : Bytes) : Bool :=
  if name.length ≤ 8 then
    let word := ofLe (name ++ List.replicate (8 - name.length) 0)
    let mask := if name.length = 8 then 2 ^ 64 - 1 else 1 <<< (8 * name.length) - 1
    kl == name.length && keyWord inp kp &&& mask == word
  else keyeq inp kp kl name

/-- `SWITCH_MIN_FIELDS` -/
def switchMinFields : ℕ := 12

/-- The block the key at `kp` of length `kl` jumps to, `none` being the skip block, and the
loads made to find it. -/
def dispatch (inp : Input) (kp kl : ℕ) (fields : List FieldTy) :
    Option FieldTy × List KeyLoad :=
  if switchMinFields ≤ fields.length then
    chain (fun f => keyeq inp kp kl f.key) (fun f => keyeqLoads kp f.key)
      (fields.filter fun f => f.key.length == kl)
  else if kp + 8 ≤ inp.stop then
    let r := chain (fun f => wordeq inp kp kl f.key)
      (fun f => if f.key.length ≤ 8 then [] else keyeqLoads kp f.key) fields
    (r.1, (kp, 8) :: r.2)
  else chain (fun f => keyeq inp kp kl f.key) (fun f => keyeqLoads kp f.key) fields

/-! ## The parser -/

/-- Store `None` in every field whose type is syntactically an option. -/
def defaultNone (dst : ℕ) (f : FieldTy) : M Unit :=
  match f.ty with
  | .opt discOff discSize noneDiscr _ _ size _ => do
    memset0 (dst + f.offset) size
    storeImm (dst + f.offset) discOff noneDiscr discSize
  | _ => pure ()

/-- Store the discriminant of `Some`, when it has one. -/
def storeSome (dst discOff discSize : ℕ) : Option ℕ → M Unit
  | some sd => storeImm dst discOff sd discSize
  | none => pure ()

/-- The calls through the trampoline addresses of `Ty::Map`. -/
def callNewAt (env : Env) (addr dst : ℕ) : M Unit :=
  match env.tramps addr with
  | some .mapNewAt => mapNewAt dst
  | _ => fail .undefined

/-- See `callNewAt`. -/
def callInsert (env : Env) (addr dst k v : ℕ) : M Unit :=
  match env.tramps addr with
  | some (.mapInsert key valSize) => mapInsert key valSize dst k v
  | _ => fail .undefined

section Containers

variable (env : Env) (inp : Input) (n : ℕ) (parse : Ty → ℕ → ℕ → M ℕ)

/-- The block the dispatch jumps to: the value of a field, or one to skip. -/
def parseMember (fields : List FieldTy) (dst : ℕ) (k : StrSpan) (c : ℕ) : M ℕ :=
  match (dispatch inp k.start k.len fields).1 with
  | some f => parse f.ty (dst + f.offset) c
  | none => pure (rtSkip inp c)

/-- One iteration of the loop of `parse_struct`. -/
def structBody (fields : List FieldTy) (dst hc : ℕ) : M (ℕ ⊕ ℕ) := do
  let hc := ws inp hc
  let b ← loadU8 inp hc
  if b == Ascii.rbrace then pure (.inr (hc + 1))
  else do
    let k ← strspan inp hc
    let ac ← parseMember inp parse fields dst k (ws inp k.after + 1)
    let ac ← pastComma inp ac
    pure (.inl ac)

/-- `parse_struct` -/
def parseStruct (fields : List FieldTy) (dst cur : ℕ) : M ℕ := do
  let c0 := ws inp cur + 1
  fields.forM (defaultNone dst)
  loop (structBody inp parse fields dst) n c0

/-- One iteration of the loop of `parse_map`. -/
def mapBody (key val : Ty) (insert dst kaddr vaddr hc : ℕ) : M (ℕ ⊕ ℕ) := do
  let hc := ws inp hc
  let b ← loadU8 inp hc
  if b == Ascii.rbrace then pure (.inr (hc + 1))
  else do
    let c ← parse key kaddr hc
    let c ← parse val vaddr (ws inp c + 1)
    callInsert env insert dst kaddr vaddr
    let c ← pastComma inp c
    pure (.inl c)

/-- `parse_map` -/
def parseMap (key : Ty) (keySize : ℕ) (val : Ty) (valSize newAt insert dst cur : ℕ) :
    M ℕ := do
  let kaddr ← stackSlot (max keySize 1)
  let vaddr ← stackSlot (max valSize 1)
  callNewAt env newAt dst
  loop (mapBody env inp parse key val insert dst kaddr vaddr) n (ws inp cur + 1)

/-- The fields of `parse_tuple`, in order, each with an optional comma behind it. -/
def parseFields (dst : ℕ) : List FieldTy → ℕ → M ℕ
  | [], c => pure c
  | f :: fs, c => do
    let c ← parse f.ty (dst + f.offset) c
    let c ← pastComma inp c
    parseFields dst fs c

/-- `parse_tuple` -/
def parseTuple (fields : List FieldTy) (dst cur : ℕ) : M ℕ := do
  let c ← parseFields inp parse dst fields (ws inp cur + 1)
  pure (ws inp c + 1)

/-- The loop state of `parse_vec`. -/
structure VecState where
  cur : ℕ
  base : ℕ
  cap : ℕ
  len : ℕ

/-- The `grow` block of `parse_vec`. -/
def grow (elemSize align : ℕ) (v : VecState) : M VecState :=
  if v.len = v.cap then do
    let newcap := if v.cap = 0 then 4 else v.cap * 2 % 2 ^ 64
    let base ← rtRealloc v.base (v.cap * elemSize % 2 ^ 64) (newcap * elemSize % 2 ^ 64) align
    pure { v with base := base, cap := newcap }
  else pure v

/-- One iteration of the loop of `parse_vec`. -/
def vecBody (elem : Ty) (elemSize align : ℕ) (v : VecState) : M (VecState ⊕ VecState) := do
  let hc := ws inp v.cur
  let b ← loadU8 inp hc
  if b == Ascii.rbracket then pure (.inr { v with cur := hc })
  else do
    let v ← grow elemSize align v
    let ac ← parse elem (v.base + v.len * elemSize % 2 ^ 64) hc
    let ac ← pastComma inp ac
    emit (.iter elem hc ac)
    pure (.inl { v with cur := ac, len := v.len + 1 })

/-- `parse_vec`; an empty vector keeps the aligned dangling pointer. -/
def parseVec (elem : Ty) (elemSize elemAlign : ℕ) (seq : SeqLayout) (dst cur : ℕ) :
    M ℕ := do
  let align := max elemAlign 1
  let v ← loop (vecBody inp parse elem elemSize align) n ⟨ws inp cur + 1, align, 0, 0⟩
  storeSeq dst seq v.base v.cap v.len
  pure (ws inp v.cur + 1)

end Containers

/-- The cells that the pointer stored at `p` and the length stored at `l` designate. -/
def designated (m : Memory) (p l : ℕ) : Option (List Cell) := do
  let ptr ← readPtr m p
  let len ← readNat m l 8
  pure (readCells m ptr len)

/-- Log a string that has been stored, its pointer at `p` and its length at `l`. -/
def emitStr (start p l : ℕ) : M Unit := do
  let s ← get
  emit (.str start (designated s.mem p l))

/-- `Emit::parse`, or rather what it emits, run on the value at `cur`; returns the cursor
just past it. -/
def parse (env : Env) (inp : Input) (n : ℕ) : ℕ → Ty → ℕ → ℕ → M ℕ
  | 0, _, _, _ => deep
  | d + 1, ty, dst, cur =>
    match ty with
    | .bool => do
      let c := ws inp cur
      let b ← loadU8 inp c
      storeInt dst 1 (if b == 0x74 then 1 else 0)
      pure (c + if b == 0x66 then 5 else 4)
    | .u size => do
      let (v, c) ← intval inp n cur false
      storeSized dst v size
      pure c
    | .i size => do
      let (v, c) ← intval inp n cur true
      storeSized dst v size
      pure c
    | .f32 => do
      let c ← rtF64v env.float inp cur
      let s ← get
      storeInt dst 4 (env.float.demote s.sc.1)
      pure c
    | .f64 => do
      let c ← rtF64v env.float inp cur
      let s ← get
      storeInt dst 8 s.sc.1
      pure c
    | .char => do
      let sp ← strspan inp cur
      let b ← loadU8 inp sp.start
      storeInt dst 4 b.toNat
      pure sp.after
    | .str seq => do
      let sp ← strspan inp cur
      let (buf, blen) ← buildStr inp n sp
      storeSeq dst seq buf blen blen
      emitStr sp.start (dst + seq.ptrOff) (dst + seq.lenOff)
      pure sp.after
    | .strRef ptrOff lenOff => do
      let sp ← strspan inp cur
      let (buf, blen) ← buildStr inp n sp
      storeStrRef dst ptrOff lenOff buf blen
      emitStr sp.start (dst + ptrOff) (dst + lenOff)
      pure sp.after
    | .struct _ fields => parseStruct inp n (parse env inp n d) fields dst cur
    | .tuple fields => parseTuple inp (parse env inp n d) fields dst cur
    | .vec elem elemSize elemAlign seq =>
      parseVec inp n (parse env inp n d) elem elemSize elemAlign seq dst cur
    | .boxed inner size align => do
      let bp ← rtBoxAlloc size align
      let after ← parse env inp n d inner bp cur
      storePtr dst bp
      pure after
    | .unit => pure (rtSkip inp cur)
    | .opt discOff discSize noneDiscr someDiscr payloadOff size inner => do
      let c := ws inp cur
      let b ← loadU8 inp c
      if b == 0x6E then do
        memset0 dst size
        storeImm dst discOff noneDiscr discSize
        pure (c + 4)
      else do
        let cc ← parse env inp n d inner (dst + payloadOff) c
        storeSome dst discOff discSize someDiscr
        pure cc
    | .map key keySize val valSize newAt insert =>
      parseMap env inp n (parse env inp n d) key keySize val valSize newAt insert dst cur
    | .ref cell =>
      match env.cells cell with
      | none => fail (.panic "recursive Ty cell not set")
      | some body => do
        -- the function compiled for the cell has a scratch slot of its own
        let s ← get
        let c ← parse env inp n d body dst cur
        modify fun s' => { s' with sc := s.sc }
        pure c
    | .unknown _ => fail (.panic "jit parser: unknown type")

/-- A call through a cell that is set. -/
theorem parse_ref {env : Env} {cell : RecCell} {body : Ty} (hc : env.cells cell = some body)
    (inp : Input) (n d dst cur : ℕ) :
    parse env inp n (d + 1) (.ref cell) dst cur = (do
      let s ← get
      let c ← parse env inp n d body dst cur
      modify fun s' => { s' with sc := s.sc }
      pure c) := by
  simp only [parse, hc]

theorem parse_ref_none {env : Env} {cell : RecCell} (hc : env.cells cell = none)
    (inp : Input) (n d dst cur : ℕ) :
    parse env inp n (d + 1) (.ref cell) dst cur =
      fail (.panic "recursive Ty cell not set") := by
  simp only [parse, hc]

/-- The function `compile_parser` returns, called with a destination and the input. -/
def runParser (env : Env) (inp : Input) (n d : ℕ) (ty : Ty) (dst : ℕ) : M Unit := do
  let _ ← parse env inp n d ty dst 0
  pure ()

end Bilbo
