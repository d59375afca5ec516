import Bilbo.Json
import Bilbo.Values
import Bilbo.Strings

/-!
# Documents

The texts that spell a value of a type. White space may stand in front of every token. In
arrays and objects a comma, white space or both stand between two items, and a last comma may
stand before the closing bracket; JSON's own form, a comma between items and none behind the
last, is the case that matters most. `Q` says which string bodies spell which strings, so
that one grammar serves for all escapes and for fewer.
-/

namespace Bilbo

open Base

/-! ## White space and items -/

/-- JSON white space. -/
def IsWs (w : Bytes) : Prop := ∀ b ∈ w, isws b = true

/-- What stands behind the leading white space. -/
def token (t : Bytes) : Bytes := t.dropWhile isws

/-- What may follow a value: the end, white space, a comma or a closing bracket. -/
def Delim : Bytes → Prop
  | [] => True
  | b :: _ => endsScalar b = true

/-- What stands behind an item: white space and perhaps a comma. -/
def IsSep (sep : Bytes) : Prop := ∃ w, IsWs w ∧ (sep = w ∨ sep = w ++ [Ascii.comma])

/-- The items of an array or object, each with what stands behind it, and the closing
bracket. -/
def closed (close : UInt8) : List (Bytes × Bytes) → Bytes
  | [] => [close]
  | x :: l => x.1 ++ (x.2 ++ closed close l)

theorem closed_cons_append (e : UInt8) (x : Bytes × Bytes) (l : List (Bytes × Bytes)) (r : Bytes) :
    closed e (x :: l) ++ r = x.1 ++ (x.2 ++ (closed e l ++ r)) := by
  rw [closed, List.append_assoc, List.append_assoc]

theorem length_closed_cons (e : UInt8) (x : Bytes × Bytes) (l : List (Bytes × Bytes)) :
    (closed e (x :: l)).length = x.1.length + x.2.length + (closed e l).length := by
  rw [closed, List.length_append, List.length_append, Nat.add_assoc]

/-- Items with separators behind them; only the last one may stand without. -/
def Separated : List (Bytes × Bytes) → Prop
  | [] => True
  | x :: l => IsSep x.2 ∧ (l = [] ∨ x.2 ≠ []) ∧ Separated l

/-! ## Strings and numbers -/

/-- The short escapes of JSON, and what they stand for. -/
def shortEscapes : List (UInt8 × UInt8) :=
  [(Ascii.quote, Ascii.quote), (Ascii.backslash, Ascii.backslash), (Ascii.slash, Ascii.slash),
    (0x62, 0x08), (0x66, 0x0C), (0x6E, Ascii.newline), (0x72, Ascii.return'),
    (0x74, Ascii.tab)]

/-- A hexadecimal digit. -/
def isHexDigit (b : UInt8) : Bool :=
  Ascii.isDigit b || (0x61 ≤ b && b ≤ 0x66) || (0x41 ≤ b && b ≤ 0x46)

/-- The digits of a `\u` escape. -/
def Hex4 (a b c d : UInt8) : Prop := ∀ x ∈ [a, b, c, d], isHexDigit x = true

/-- The code unit that four digits spell. -/
def codeUnit (a b c d : UInt8) : ℕ := ((hex a * 16 + hex b) * 16 + hex c) * 16 + hex d

/-- A string body and the string it spells, with all escapes of JSON. -/
inductive Quoted : Bytes → Bytes → Prop
  | nil : Quoted [] []
  | plain {b : UInt8} {r t : Bytes} : b ≠ Ascii.quote → b ≠ Ascii.backslash → Quoted r t →
      Quoted (b :: r) (b :: t)
  | short {e c : UInt8} {r t : Bytes} : (e, c) ∈ shortEscapes → Quoted r t →
      Quoted (Ascii.backslash :: e :: r) (c :: t)
  | unicode {a b c d : UInt8} {r t : Bytes} : Hex4 a b c d → isHigh (codeUnit a b c d) = false →
      isLow (codeUnit a b c d) = false → Quoted r t →
      Quoted (Ascii.backslash :: 0x75 :: a :: b :: c :: d :: r)
        (String.utf8EncodeChar (Char.ofNat (codeUnit a b c d)) ++ t)
  | pair {a b c d e f g h : UInt8} {r t : Bytes} : Hex4 a b c d → Hex4 e f g h →
      isHigh (codeUnit a b c d) = true → isLow (codeUnit e f g h) = true → Quoted r t →
      Quoted (Ascii.backslash :: 0x75 :: a :: b :: c :: d ::
        Ascii.backslash :: 0x75 :: e :: f :: g :: h :: r)
        (String.utf8EncodeChar (Char.ofNat (pairUp (codeUnit a b c d) (codeUnit e f g h))) ++ t)

/-- A string body, whatever it spells: quotes are escaped. -/
inductive RawBody : Bytes → Prop
  | nil : RawBody []
  | plain {b : UInt8} {r : Bytes} : b ≠ Ascii.quote → b ≠ Ascii.backslash → RawBody r →
      RawBody (b :: r)
  | escape {e : UInt8} {r : Bytes} : RawBody r → RawBody (Ascii.backslash :: e :: r)

/-- A body between its quotes. -/
def quoted (raw : Bytes) : Bytes := Ascii.quote :: (raw ++ [Ascii.quote])

/-- A body without escapes. -/
def PlainKey (raw : Bytes) : Prop := Ascii.quote ∉ raw ∧ Ascii.backslash ∉ raw

/-- A nonempty row of digits. -/
structure Digits (ds : Bytes) : Prop where
  nonempty : ds ≠ []
  digits : ∀ b ∈ ds, Ascii.isDigit b = true

/-- The number that digits spell. -/
def decimal (ds : Bytes) : ℕ := ds.foldl (fun v b => v * 10 + (b.toNat - 0x30)) 0

/-- `true` or `false` -/
def boolText : Bool → Bytes
  | true => [0x74, 0x72, 0x75, 0x65]
  | false => [0x66, 0x61, 0x6C, 0x73, 0x65]

/-- `null` -/
def nullText : Bytes := [0x6E, 0x75, 0x6C, 0x6C]

/-- Digits with or without a sign. -/
def signedText (neg : Bool) (ds : Bytes) : Bytes := if neg then Ascii.minus :: ds else ds

/-- The number that digits with a sign spell. -/
def signedVal (neg : Bool) (ds : Bytes) : ℤ := if neg then -(decimal ds : ℤ) else decimal ds

/-! ## Members -/

/-- A member of an object: the body of its key, and the text of its value. -/
structure Member where
  before : Bytes
  key : Bytes
  after : Bytes
  value : Bytes
  sep : Bytes

/-- A member and what stands behind it. -/
def Member.item (m : Member) : Bytes × Bytes :=
  (m.before ++ (quoted m.key ++ (m.after ++ Ascii.colon :: m.value)), m.sep)

theorem Member.item_append (m : Member) (r : Bytes) : m.item.1 ++ r =
    m.before ++ (quoted m.key ++ (m.after ++ Ascii.colon :: (m.value ++ r))) := by
  simp only [item, List.append_assoc, List.cons_append]

theorem Member.length_item (m : Member) : m.item.1.length =
    m.before.length + (quoted m.key).length + m.after.length + 1 + m.value.length := by
  simp only [item, List.length_append, List.length_cons]
  omega

/-- The end of a member, and the members behind it. -/
theorem add_length_members (p : ℕ) (e : UInt8) (m : Member) (l : List Member) :
    p + (m.item.1.length + m.sep.length) + (closed e (l.map Member.item)).length =
      p + (closed e ((m :: l).map Member.item)).length := by
  rw [List.map_cons, length_closed_cons, Nat.add_assoc]
  rfl

/-- The text of members behind the opening bracket. -/
def objectText (w : Bytes) (members : List Member) : Bytes :=
  w ++ closed Ascii.rbrace (members.map Member.item)

/-- The text of items behind the opening bracket. -/
def arrayText (w : Bytes) (items : List (Bytes × Bytes)) : Bytes :=
  w ++ closed Ascii.rbracket items

/-- White space around the keys, and separators behind the values. -/
structure Spaced (w : Bytes) (members : List Member) : Prop where
  lead : IsWs w
  before : ∀ m ∈ members, IsWs m.before
  after : ∀ m ∈ members, IsWs m.after
  seps : Separated (members.map Member.item)

/-! ## The texts -/

/-- A JSON value of any kind. -/
inductive IsJson : Bytes → Prop
  | bool {w : Bytes} (b : Bool) : IsWs w → IsJson (w ++ boolText b)
  | null {w : Bytes} : IsWs w → IsJson (w ++ nullText)
  /-- digits, signs, dots and exponent letters, the numbers of JSON among them -/
  | number {w t : Bytes} : IsWs w → t ≠ [] → (∀ b ∈ t, isNumChar b = true) → IsJson (w ++ t)
  | string {w raw : Bytes} : IsWs w → RawBody raw → IsJson (w ++ quoted raw)
  | array {w w' : Bytes} {items : List (Bytes × Bytes)} : IsWs w → IsWs w' → Separated items →
      (∀ x ∈ items, IsJson x.1) → IsJson (w ++ Ascii.lbracket :: arrayText w' items)
  | object {w w' : Bytes} {members : List Member} : IsWs w → Spaced w' members →
      (∀ m ∈ members, RawBody m.key) → (∀ m ∈ members, IsJson m.value) →
      IsJson (w ++ Ascii.lbrace :: objectText w' members)

/-- A JSON value of any kind, with at most so many brackets around each other. -/
inductive NestedJson : ℕ → Bytes → Prop
  | bool {n : ℕ} {w : Bytes} (b : Bool) : IsWs w → NestedJson n (w ++ boolText b)
  | null {n : ℕ} {w : Bytes} : IsWs w → NestedJson n (w ++ nullText)
  | number {n : ℕ} {w t : Bytes} : IsWs w → t ≠ [] → (∀ b ∈ t, isNumChar b = true) →
      NestedJson n (w ++ t)
  | string {n : ℕ} {w raw : Bytes} : IsWs w → RawBody raw → NestedJson n (w ++ quoted raw)
  | array {n : ℕ} {w w' : Bytes} {items : List (Bytes × Bytes)} : IsWs w → IsWs w' →
      Separated items → (∀ x ∈ items, NestedJson n x.1) →
      NestedJson (n + 1) (w ++ Ascii.lbracket :: arrayText w' items)
  | object {n : ℕ} {w w' : Bytes} {members : List Member} : IsWs w → Spaced w' members →
      (∀ m ∈ members, RawBody m.key) → (∀ m ∈ members, NestedJson n m.value) →
      NestedJson (n + 1) (w ++ Ascii.lbrace :: objectText w' members)

/-- The text spells the value of the type. -/
inductive Spells (cells : Cells) (Q : Bytes → Bytes → Prop) : Ty → Val → Bytes → Prop
  | bool {w : Bytes} (b : Bool) : IsWs w → Spells cells Q .bool (.bool b) (w ++ boolText b)
  | u {w ds : Bytes} {n : ℕ} : IsWs w → Digits ds → decimal ds < 256 ^ n →
      Spells cells Q (.u n) (.int (decimal ds)) (w ++ ds)
  | i {w ds : Bytes} {n : ℕ} (neg : Bool) : IsWs w → Digits ds →
      -(256 ^ n : ℕ) ≤ 2 * signedVal neg ds → 2 * signedVal neg ds < (256 ^ n : ℕ) →
      Spells cells Q (.i n) (.int (signedVal neg ds)) (w ++ signedText neg ds)
  | str {w raw bs : Bytes} {seq : SeqLayout} : IsWs w → Q raw bs →
      Spells cells Q (.str seq) (.str bs) (w ++ quoted raw)
  | strRef {w raw bs : Bytes} {ptrOff lenOff : ℕ} : IsWs w → Q raw bs →
      Spells cells Q (.strRef ptrOff lenOff) (.str bs) (w ++ quoted raw)
  /-- keys in any order, without escapes and not repeated; others than the fields' are
  skipped, and only options may be absent -/
  | struct {w w' : Bytes} {name : String} {fields : List FieldTy} {members : List Member}
      (bind : Bytes → Val) : IsWs w → Spaced w' members → (∀ m ∈ members, PlainKey m.key) →
      (members.map Member.key).Nodup →
      (∀ m ∈ members, ∀ f ∈ fields, f.key = m.key → Spells cells Q f.ty (bind f.key) m.value) →
      (∀ m ∈ members, (∀ f ∈ fields, f.key ≠ m.key) → IsJson m.value) →
      (∀ f ∈ fields, (∀ m ∈ members, f.key ≠ m.key) → f.ty.isOpt = true ∧ bind f.key = .none) →
      Spells cells Q (.struct name fields) (.record (fields.map fun f => bind f.key))
        (w ++ Ascii.lbrace :: objectText w' members)
  /-- as many items as fields -/
  | tuple {w w' : Bytes} {fields : List FieldTy} {vs : List Val} {items : List (Bytes × Bytes)} :
      IsWs w → IsWs w' → Separated items → vs.length = fields.length →
      items.length = fields.length →
      (∀ (i : ℕ) (f : FieldTy) (v : Val) (x : Bytes × Bytes), fields[i]? = some f →
        vs[i]? = some v → items[i]? = some x → Spells cells Q f.ty v x.1) →
      Spells cells Q (.tuple fields) (.record vs) (w ++ Ascii.lbracket :: arrayText w' items)
  | vec {w w' : Bytes} {elem : Ty} {size align : ℕ} {seq : SeqLayout} {vs : List Val}
      {items : List (Bytes × Bytes)} : IsWs w → IsWs w' → Separated items →
      items.length = vs.length →
      (∀ (i : ℕ) (v : Val) (x : Bytes × Bytes), vs[i]? = some v → items[i]? = some x →
        Spells cells Q elem v x.1) →
      Spells cells Q (.vec elem size align seq) (.seq vs)
        (w ++ Ascii.lbracket :: arrayText w' items)
  | unit {w : Bytes} : IsWs w → Spells cells Q .unit .unit (w ++ nullText)
  | boxed {t : Bytes} {inner : Ty} {size align : ℕ} {v : Val} : Spells cells Q inner v t →
      Spells cells Q (.boxed inner size align) (.boxed v) t
  | none {w : Bytes} {discOff discSize noneDiscr payloadOff size : ℕ} {someDiscr : Option ℕ}
      {inner : Ty} : IsWs w →
      Spells cells Q (.opt discOff discSize noneDiscr someDiscr payloadOff size inner) .none
        (w ++ nullText)
  | some {t : Bytes} {discOff discSize noneDiscr payloadOff size : ℕ} {someDiscr : Option ℕ}
      {inner : Ty} {v : Val} : token t ≠ nullText → Spells cells Q inner v t →
      Spells cells Q (.opt discOff discSize noneDiscr someDiscr payloadOff size inner) (.some v) t
  /-- of several entries with one key the last one counts -/
  | map {w w' : Bytes} {seq : SeqLayout} {keySize : ℕ} {val : Ty} {valSize newAt insert : ℕ}
      {members : List Member} {keys : List Bytes} {vs : List Val} : IsWs w → Spaced w' members →
      keys.length = members.length → vs.length = members.length →
      (∀ (i : ℕ) (m : Member) (k : Bytes), members[i]? = some m → keys[i]? = some k →
        Q m.key k) →
      (∀ (i : ℕ) (m : Member) (v : Val), members[i]? = some m → vs[i]? = some v →
        Spells cells Q val v m.value) →
      Spells cells Q (.map (.str seq) keySize val valSize newAt insert)
        (.map (SortedMap.ofList (keys.zip vs))) (w ++ Ascii.lbrace :: objectText w' members)
  | ref {t : Bytes} {c : RecCell} {body : Ty} {v : Val} : cells c = some body →
      Spells cells Q body v t → Spells cells Q (.ref c) v t

end Bilbo
