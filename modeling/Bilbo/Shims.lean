import Bilbo.Ascii
import Bilbo.Machine

/-!
# The input and the runtime shims of the emitted code

A cursor is an offset from the first byte of the input. The input is a slice, so it is
shorter than `isize::MAX`; `after` is whatever memory holds from its end on. The shims
(`rt_*` in `jit.rs`) walk the bytes left before `end`, so each loop is a recursion on that
list; `memchr2` is the search for the first of its two bytes.
-/

namespace Bilbo

open Base Comp

/-- The input of a parser and the memory behind it. -/
structure Input where
  text : Bytes
  after : ℕ → UInt8
  short : text.length ≤ isizeMax

namespace Input

/-- The offset of `end`. -/
def stop (inp : Input) : ℕ := inp.text.length

/-- The byte at an offset, also behind `end`. -/
def byte (inp : Input) (c : ℕ) : UInt8 := inp.text[c]?.getD (inp.after (c - inp.text.length))

/-- `slice(cur, end)` -/
def rest (inp : Input) (c : ℕ) : Bytes := inp.text.drop c

/-- The `len` bytes from `c` on. -/
def span (inp : Input) (c len : ℕ) : Bytes := (inp.rest c).take len

theorem rest_of_stop_le {inp : Input} {c : ℕ} (h : inp.stop ≤ c) : inp.rest c = [] :=
  List.drop_eq_nil_of_le h

theorem rest_of_lt {inp : Input} {c : ℕ} (h : c < inp.stop) :
    inp.rest c = inp.byte c :: inp.rest (c + 1) := by
  rw [rest, List.drop_eq_getElem_cons h, byte, List.getElem?_eq_getElem h]
  rfl

theorem length_rest (inp : Input) (c : ℕ) : (inp.rest c).length = inp.stop - c :=
  List.length_drop

theorem rest_add (inp : Input) (c k : ℕ) : (inp.rest c).drop k = inp.rest (c + k) := by
  rw [rest, rest, List.drop_drop]

theorem length_span {inp : Input} {c len : ℕ} (h : c + len ≤ inp.stop) :
    (inp.span c len).length = len := by
  rw [span, List.length_take, length_rest]
  omega

end Input

/-- A `u64` subtraction. -/
def wrapSub (a b : ℕ) : ℕ := (a + 2 ^ 64 - b) % 2 ^ 64

/-- An `i32` sum. -/
def wrapI32 (x : ℤ) : ℤ := x.bmod (2 ^ 32)

/-! ## Allocation -/

/-- `rt_alloc` -/
def rtAlloc (n : ℕ) : M ℕ := if n = 0 then pure 1 else alloc n 1

/-- `rt_box_alloc` -/
def rtBoxAlloc (size align : ℕ) : M ℕ :=
  if size = 0 then pure (max align 1) else alloc size (max align 1)

/-- `rt_realloc`: the block grows by moving. The allocator checks the layout of the old
block and the new size; the bytes the two sizes have in common move along. -/
def rtRealloc (ptr old new align : ℕ) : M ℕ :=
  if old = 0 then
    if new = 0 then pure (max align 1) else alloc new (max align 1)
  else if layoutOk old (max align 1) then do
    let p ← alloc new (max align 1)
    modify fun s => { s with
      mem := writeCells s.mem p (readCells s.mem ptr (min old new))
      blocks := s.blocks.filter fun b => b.base != ptr }
    pure p
  else fail (.panic "called `Result::unwrap()` on an `Err` value: LayoutError")

/-! ## Whitespace and values to skip -/

/-- `isws` -/
def isws (b : UInt8) : Bool :=
  b == Ascii.space || b == Ascii.newline || b == Ascii.tab || b == Ascii.return'

/-- `rt_ws` -/
def rtWs (inp : Input) (cur : ℕ) : ℕ := cur + ((inp.rest cur).takeWhile isws).length

/-- `rt_wsskip` -/
def rtWsskip (inp : Input) (cur : ℕ) : ℕ :=
  match (inp.rest cur).findIdx? fun b => 0x20 < b with
  | some i => cur + i
  | none => inp.stop

/-- The string branch of `rt_skip`, behind the opening quote: where its loop stops. -/
def skipString : Bytes → ℕ → ℕ
  | [], c => c
  | b :: bs, c =>
    if b == Ascii.quote then c
    else if b == Ascii.backslash then
      match bs with
      | [] => c + 2
      | _ :: bs' => skipString bs' (c + 2)
    else skipString bs (c + 1)

/-- The bracket branch of `rt_skip`. -/
def skipNested : Bytes → Bool → ℤ → ℕ → ℕ
  | [], _, _, c => c
  | b :: bs, inStr, depth, c =>
    if inStr then
      if b == Ascii.backslash then
        match bs with
        | [] => c + 2
        | _ :: bs' => skipNested bs' true depth (c + 2)
      else skipNested bs (b != Ascii.quote) depth (c + 1)
    else if b == Ascii.quote then skipNested bs true depth (c + 1)
    else if b == Ascii.lbrace || b == Ascii.lbracket then
      skipNested bs false (wrapI32 (depth + 1)) (c + 1)
    else if b == Ascii.rbrace || b == Ascii.rbracket then
      if wrapI32 (depth - 1) = 0 then c + 1
      else skipNested bs false (wrapI32 (depth - 1)) (c + 1)
    else skipNested bs false depth (c + 1)

/-- What ends a scalar for `rt_skip`. -/
def endsScalar (b : UInt8) : Bool :=
  b == Ascii.comma || b == Ascii.rbrace || b == Ascii.rbracket || isws b

/-- `rt_skip` -/
def rtSkip (inp : Input) (cur : ℕ) : ℕ :=
  let c := rtWs inp cur
  match inp.rest c with
  | [] => c
  | b :: bs =>
    if b == Ascii.quote then skipString bs (c + 1) + 1
    else if b == Ascii.lbrace || b == Ascii.lbracket then skipNested (b :: bs) false 0 c
    else c + ((b :: bs).takeWhile fun b => !endsScalar b).length

/-! ## Floats -/

/-- `rt_f64v`: the bits of the float go into the scratch slot. -/
def rtF64v (fl : FloatOps) (inp : Input) (cur : ℕ) : M ℕ := do
  let c := rtWs inp cur
  let r := (fl.parsePartial (inp.rest c)).getD (0, 0)
  modify fun s => { s with sc := (r.1, s.sc.2) }
  pure (c + r.2)

/-! ## Strings -/

/-- What `rt_strscan` reports: the cursor it returns and the two words it writes. -/
structure Span where
  after : ℕ
  len : ℕ
  esc : ℕ
deriving DecidableEq, Repr

/-- The loop of `rt_strscan`: `s` is where the body starts, `i` where the bytes left
start. -/
def strscanLoop (stop s : ℕ) : Bytes → ℕ → ℕ → Span
  | [], _, esc => ⟨stop, wrapSub stop s, esc⟩
  | b :: bs, i, esc =>
    if b == Ascii.quote then ⟨i + 1, i - s, esc⟩
    else if b == Ascii.backslash then
      -- past the backslash and the byte behind it, or to `end` when there is none
      match bs with
      | [] => ⟨stop, wrapSub stop s, 1⟩
      | _ :: bs' => strscanLoop stop s bs' (i + 2) 1
    else strscanLoop stop s bs (i + 1) esc

/-- `rt_strscan`, without the two stores. -/
def strscan (inp : Input) (q : ℕ) : Span :=
  strscanLoop inp.stop (q + 1) (inp.rest (q + 1)) (q + 1) 0

/-- `rt_strscan` -/
def rtStrscan (inp : Input) (q : ℕ) : M ℕ := do
  let r := strscan inp q
  modify fun s => { s with sc := (r.len, r.esc) }
  pure r.after

/-- The `hex` of `rt_unescape`. -/
def hex (b : UInt8) : ℕ :=
  if Ascii.isDigit b then b.toNat - 0x30
  else if 0x61 ≤ b && b ≤ 0x66 then b.toNat - 0x61 + 10
  else if 0x41 ≤ b && b ≤ 0x46 then b.toNat - 0x41 + 10
  else 0

/-- The `u4` of `rt_unescape`, on the four bytes it reads. -/
def u4 (a b c d : UInt8) : ℕ := hex a <<< 12 ||| hex b <<< 8 ||| hex c <<< 4 ||| hex d

/-- `char::from_u32(cp).unwrap_or('\u{FFFD}')`, encoded. -/
def encodeScalar (cp : ℕ) : Bytes :=
  if cp.isValidChar then String.utf8EncodeChar (Char.ofNat cp)
  else String.utf8EncodeChar (Char.ofNat 0xFFFD)

/-- What an escape of one byte stands for. -/
def shortEscape (e : UInt8) : UInt8 :=
  if e == 0x6E then Ascii.newline
  else if e == 0x74 then Ascii.tab
  else if e == 0x72 then Ascii.return'
  else if e == 0x62 then 0x08
  else if e == 0x66 then 0x0C
  else e

/-- A high surrogate. -/
def isHigh (cp : ℕ) : Bool := 0xD800 ≤ cp && cp ≤ 0xDBFF

/-- A low surrogate. -/
def isLow (cp : ℕ) : Bool := 0xDC00 ≤ cp && cp ≤ 0xDFFF

/-- The character of a surrogate pair. -/
def pairUp (hi lo : ℕ) : ℕ := 0x10000 + (hi - 0xD800) <<< 10 + (lo - 0xDC00)

/-- The low surrogate escape that what is left starts with, if it does. -/
def lowEscape : Bytes → Option ℕ
  | x :: y :: l0 :: l1 :: l2 :: l3 :: _ =>
    if x == Ascii.backslash && y == 0x75 && isLow (u4 l0 l1 l2 l3) then some (u4 l0 l1 l2 l3)
    else none
  | _ => none

/-- The loop of `rt_unescape` over what is left of the span; `none` is an index out of
range. -/
def unescape : Bytes → Option Bytes
  | [] => some []
  | b :: bs =>
    if b != Ascii.backslash then (unescape bs).map (b :: ·)
    else
      match bs with
      | [] => some []
      | e :: r =>
        if e == 0x75 then
          match r with
          | h0 :: h1 :: h2 :: h3 :: r' =>
            let cp := u4 h0 h1 h2 h3
            match if isHigh cp then lowEscape r' else none, r' with
            | some lo, _ :: _ :: _ :: _ :: _ :: _ :: r'' =>
              (unescape r'').map (encodeScalar (pairUp cp lo) ++ ·)
            | _, r'' => (unescape r'').map (encodeScalar cp ++ ·)
          | _ => none
        else (unescape r).map (shortEscape e :: ·)

/-- `rt_unescape`: the decoded bytes in a block of exactly their length, which goes into
the scratch slot. -/
def rtUnescape (inp : Input) (src len : ℕ) : M ℕ :=
  match unescape (inp.span src len) with
  | none => fail (.panic "index out of bounds")
  | some out => do
    let buf ← rtAlloc out.length
    storeCells buf (ints out)
    modify fun s => { s with sc := (out.length, s.sc.2) }
    pure buf

end Bilbo
