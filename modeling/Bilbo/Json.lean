import Mathlib.Algebra.Order.Ring.Nat
import Mathlib.Algebra.Ring.Int.Defs
import Mathlib.Data.Int.Notation
import Bilbo.Ascii
import Bilbo.Base.Comp

/-!
# The lenient JSON parser

`json.rs`, as a computation on the index into the text that stops with the message of a
panic. Strings are byte lists; `parseString` converts them with `String::from_utf8` as the
source does. `n` bounds the iterations of each loop, the recursion argument of
`parseValue` the nesting.
-/

namespace Bilbo

open Base Comp

/-- `Json` -/
inductive Json where
  | str (s : Bytes)
  | num (s : Bytes)
  | bool (b : Bool)
  | null
  | array (items : List Json)
  | object (members : List (Bytes × Json))
deriving Inhabited

namespace Json

/-- The value of a nonempty digit string. -/
def parseDigits (s : Bytes) : Option ℕ :=
  if s ≠ [] ∧ s.all Ascii.isDigit then
    some (s.foldl (fun v b => v * 10 + (b.toNat - 0x30)) 0)
  else none

/-- `s.parse::<u128>()` -/
def parseU128 (s : Bytes) : Option ℕ :=
  let v := match s with
    | b :: r => if b == Ascii.plus then parseDigits r else parseDigits s
    | [] => none
  v.filter (· < 2 ^ 128)

/-- `s.parse::<i128>()` -/
def parseI128 (s : Bytes) : Option ℤ :=
  let v := match s with
    | b :: r =>
      if b == Ascii.minus then (parseDigits r).map fun v => -(v : ℤ)
      else (parseDigits (if b == Ascii.plus then r else s)).map fun v => (v : ℤ)
    | [] => none
  v.filter fun v => -2 ^ 127 ≤ v ∧ v < 2 ^ 127

/-- `Json::as_u128`; the error is the message of the panic. -/
def asU128 : Json → Except String ℕ
  | num s => (parseU128 s).elim (.error "uint") .ok
  | str s => (parseU128 s).elim (.error "uint") .ok
  | bool b => .ok (if b then 1 else 0)
  | _ => .error "expected integer"

/-- `Json::as_i128` -/
def asI128 : Json → Except String ℤ
  | num s => (parseI128 s).elim (.error "int") .ok
  | str s => (parseI128 s).elim (.error "int") .ok
  | _ => .error "expected integer"

/-- `Json::as_f64`, on bit patterns. -/
def asF64 (parse : Bytes → Option ℕ) : Json → Except String ℕ
  | num s => (parse s).elim (.error "float") .ok
  | _ => .error "expected number"

/-- `Json::as_str` -/
def asStr : Json → Except String Bytes
  | str s => .ok s
  | _ => .error "expected string"

/-- `Json::get`: the first member with the key. -/
def get (key : Bytes) : Json → Option Json
  | object kvs => (kvs.find? fun kv => kv.1 == key).map (·.2)
  | _ => none

end Json

/-! ## The parser -/

/-- The computations of `json.rs`, over the index `i`. -/
abbrev Scan := Comp ℕ String

section Scan

variable (b : Bytes) (n : ℕ)

/-- `b[*i]` -/
def peek : Scan UInt8 := do
  match b[← Comp.get]? with
  | some c => pure c
  | none => fail "index out of bounds"

/-- `*i += k` -/
def advance (k : ℕ) : Scan Unit := modify (· + k)

/-- `skip_ws` -/
def skipWs : Scan Unit := modify fun i => i + ((b.drop i).takeWhile Ascii.isWhitespace).length

/-- A byte of a number token. -/
def isNumChar (c : UInt8) : Bool :=
  Ascii.isDigit c || c == Ascii.minus || c == Ascii.plus || c == Ascii.dot || c == 0x65 ||
    c == 0x45

/-- The escapes of `parse_string`. -/
def unescapeByte (c : UInt8) : UInt8 :=
  if c == 0x6E then Ascii.newline
  else if c == 0x74 then Ascii.tab
  else c

/-- `parse_string` -/
def parseString : Scan Bytes := do
  let c ← peek b
  if c != Ascii.quote then fail "expected string"
  else do
    advance 1
    let bytes ← loop (fun bytes => do
      let c ← peek b
      if c == Ascii.quote then pure (.inr bytes)
      else if c == Ascii.backslash then do
        advance 1
        let e ← peek b
        advance 1
        pure (.inl (bytes ++ [unescapeByte e]))
      else do
        advance 1
        pure (.inl (bytes ++ [c]))) n []
    advance 1
    if isUtf8 bytes then pure bytes else fail "valid UTF-8 in JSON string"

/-- Past an optional comma. -/
def skipComma : Scan Unit := do
  let c ← peek b
  if c == Ascii.comma then advance 1 else pure ()

variable (value : Scan Json)

/-- `parse_object` -/
def parseObject : Scan Json := do
  advance 1
  loop (fun out => do
    skipWs b
    let c ← peek b
    if c == Ascii.rbrace then do
      advance 1
      pure (.inr (Json.object out))
    else do
      let key ← parseString b n
      skipWs b
      let c ← peek b
      if c != Ascii.colon then fail "expected colon"
      else do
        advance 1
        let val ← value
        skipWs b
        skipComma b
        pure (.inl (out ++ [(key, val)]))) n []

/-- `parse_array` -/
def parseArray : Scan Json := do
  advance 1
  loop (fun out => do
    skipWs b
    let c ← peek b
    if c == Ascii.rbracket then do
      advance 1
      pure (.inr (Json.array out))
    else do
      let val ← value
      skipWs b
      skipComma b
      pure (.inl (out ++ [val]))) n []

/-- The number branch of `parse_value`. -/
def parseNumber : Scan Json := do
  let start ← Comp.get
  let tok := (b.drop start).takeWhile isNumChar
  advance tok.length
  if isUtf8 tok then pure (Json.num tok) else fail "invalid utf-8"

end Scan

/-- `parse_value` -/
def parseValue (b : Bytes) (n : ℕ) : ℕ → Scan Json
  | 0 => deep
  | d + 1 => do
    skipWs b
    let c ← peek b
    if c == Ascii.lbrace then parseObject b n (parseValue b n d)
    else if c == Ascii.lbracket then parseArray b n (parseValue b n d)
    else if c == Ascii.quote then do
      let s ← parseString b n
      pure (.str s)
    else if c == 0x74 then do
      advance 4
      pure (.bool true)
    else if c == 0x66 then do
      advance 5
      pure (.bool false)
    else if c == 0x6E then do
      advance 4
      pure .null
    else parseNumber b

/-- `json::parse`: what it returns for all large enough bounds. -/
def Json.Parses (b : Bytes) (j : Json) : Prop :=
  ∃ i, Runs (fun n d => parseValue b n d) 0 j i

end Bilbo
