import Mathlib.Algebra.Ring.Int.Defs
import Mathlib.Data.Int.Notation
import Bilbo.Base.Calls
import Bilbo.Plan

/-!
# Debug information

The part of DWARF that `dwarf.rs` reads: units of debugging information entries, each with
a tag, attributes in the class `gimli` normalizes them to, and children. An offset names an
entry inside its unit; a `Site` names one in the whole store. Names are read with
`to_string_lossy`, so they are strings.
-/

namespace Bilbo

open Base

/-- `UnitOffset` -/
abbrev Off := ℕ

/-- A unit index and an offset in that unit. -/
abbrev Site := ℕ × Off

/-- `DW_TAG_*` -/
inductive DwTag where
  | baseType
  | pointerType
  | structureType
  | unionType
  | enumerationType
  | typedef
  | constType
  | volatileType
  | restrictType
  | member
  | variantPart
  | variant
  | templateTypeParameter
  | subprogram
  | lexicalBlock
  | inlinedSubroutine
  | variable
  | formalParameter
  | other (code : ℕ)
deriving DecidableEq, Repr

/-- `DW_AT_*` -/
inductive DwAt where
  | name
  | type
  | byteSize
  | alignment
  | dataMemberLocation
  | encoding
  | declaration
  | abstractOrigin
  | specification
  | discr
  | discrValue
  | lowPc
  | frameBase
  | location
deriving DecidableEq, Repr

/-- `DW_ATE_*` -/
inductive DwAte where
  | boolean
  | float
  | signed
  | signedChar
  | unsigned
  | unsignedChar
  | utf
  | other (code : ℕ)
deriving DecidableEq, Repr

/-- `AttributeValue`, as far as it is looked at. -/
inductive AttributeValue where
  | udata (n : ℕ)
  | sdata (n : ℤ)
  | unitRef (o : Off)
  | string (s : String)
  | flag (b : Bool)
  | encoding (e : DwAte)
  | exprloc (expr : Bytes)
  /-- a location list: ranges of program counters and an expression for each -/
  | loclist (entries : List ((ℕ × ℕ) × Bytes))
  | addr (a : ℕ)
  | other
deriving DecidableEq, Repr

/-- An entry without its children. `ranges` is what `die_ranges` finds for it. -/
structure Entry where
  offset : Off
  tag : DwTag
  attrs : List (DwAt × AttributeValue)
  ranges : List (ℕ × ℕ)
deriving DecidableEq, Repr

/-- `attr_value` -/
def Entry.attrValue (e : Entry) (a : DwAt) : Option AttributeValue :=
  (e.attrs.find? fun x => x.1 == a).map (·.2)

/-- An entry with its children. -/
inductive Die where
  | mk (entry : Entry) (kids : List Die)

namespace Die

/-- The entry itself. -/
def entry : Die → Entry
  | mk e _ => e

/-- The children. -/
def kids : Die → List Die
  | mk _ ks => ks

mutual

/-- All entries of a tree in depth-first order, each with its depth. -/
def preorder : ℕ → Die → List (ℕ × Die)
  | depth, mk e ks => (depth, mk e ks) :: preorderAll (depth + 1) ks

/-- The entries of some trees, one tree after the other. -/
def preorderAll : ℕ → List Die → List (ℕ × Die)
  | _, [] => []
  | depth, k :: ks => preorder depth k ++ preorderAll depth ks

end

end Die

/-- `Unit`: the tree under the unit's root. -/
structure CompUnit where
  root : Die

/-- The entries of a unit in depth-first order. -/
def CompUnit.dies (u : CompUnit) : List Die := (u.root.preorder 0).map (·.2)

/-- `Store`, and the slide between link-time and run-time addresses. -/
structure Store where
  units : List CompUnit
  imageSlide : ℕ

/-! ## Low-level entry helpers -/

section Helpers

variable (st : Store)

/-- The tree under an offset. -/
def dieAt (s : Site) : Option Die := do
  let u ← st.units[s.1]?
  u.dies.find? fun d => d.entry.offset == s.2

/-- `unit.entry(off)` -/
def entryAt (s : Site) : Option Entry := (dieAt st s).map Die.entry

/-- How many entries a unit has; no chain of references in it is longer without a
repetition. -/
def unitSize (ui : ℕ) : ℕ := ((st.units[ui]?).map fun u => u.dies.length).getD 0

/-- `child_offsets` -/
def childOffsets (s : Site) : List Off :=
  ((dieAt st s).map fun d => d.kids.map fun k => k.entry.offset).getD []

/-- `attr_value` of the entry at an offset. -/
def attrAt (s : Site) (a : DwAt) : Option AttributeValue :=
  (entryAt st s).bind fun e => e.attrValue a

/-- `origin` -/
def origin (s : Site) : Option Off :=
  match (attrAt st s .abstractOrigin).or (attrAt st s .specification) with
  | some (.unitRef o) => some o
  | _ => none

/-- A lookup in an entry, or else in its origin and so on, `n` entries at most: `none` when
there are more. `look` says where the search ends, and with what. -/
def alongOrigins {α : Type} (look : Site → Option (Option α)) : ℕ → Site → Option (Option α)
  | 0, _ => none
  | n + 1, s =>
    match look s with
    | some r => some r
    | none =>
      match origin st s with
      | some o => alongOrigins look n (s.1, o)
      | none => some none

/-- `die_name` in the entry itself. -/
def ownName (s : Site) : Option (Option String) :=
  match attrAt st s .name with
  | some (.string x) => some (some x)
  | some _ => some none
  | none => none

/-- `die_name`; `none` when the chain of origins comes back to itself, on which the search never
returns. -/
def dieNameRead (s : Site) : Option (Option String) :=
  alongOrigins st (ownName st) (unitSize st s.1 + 1) s

/-- What `die_name` returns, if it does. -/
def dieName (s : Site) : Option String := (dieNameRead st s).join

/-- The tag of an entry that exists. -/
def tagAt (s : Site) : Option DwTag := (entryAt st s).map Entry.tag

/-- `udata` -/
def udata (s : Site) (a : DwAt) : Option ℕ :=
  match attrAt st s a with
  | some (.udata n) => some n
  | some (.sdata n) => some (n % 2 ^ 64).toNat
  | _ => none

/-- `attr_udata` -/
def attrUdata (s : Site) (a : DwAt) : Option ℕ :=
  match attrAt st s a with
  | some (.udata n) => some n
  | some (.sdata n) => if n < 0 then none else some n.toNat
  | _ => none

/-- `type_ref` in the entry itself. -/
def ownType (s : Site) : Option (Option Off) :=
  match attrAt st s .type with
  | some (.unitRef o) => some (some o)
  | _ => none

/-- `type_ref`; `none` when the chain of origins comes back to itself, on which the search never
returns. -/
def typeRefRead (s : Site) : Option (Option Off) :=
  alongOrigins st (ownType st) (unitSize st s.1 + 1) s

/-- What `type_ref` returns, if it does. -/
def typeRef (s : Site) : Option Off := (typeRefRead st s).join

/-- The children of an entry that carry a tag. -/
def childrenWithTag (s : Site) (t : DwTag) : List Off :=
  (childOffsets st s).filter fun c => tagAt st (s.1, c) == some t

/-- `child_with_tag` -/
def childWithTag (s : Site) (t : DwTag) : Option Off := (childrenWithTag st s t).head?

/-- `template_param` -/
def templateParam (s : Site) : Option Off :=
  (childWithTag st s .templateTypeParameter).bind fun c => typeRef st (s.1, c)

/-- `template_named` -/
def templateNamed (s : Site) (want : String) : Option Off :=
  ((childrenWithTag st s .templateTypeParameter).find? fun c =>
    dieName st (s.1, c) == some want).bind fun c => typeRef st (s.1, c)

end Helpers

/-! ## The index of complete definitions -/

/-- Whether an entry says `DW_AT_declaration`. -/
def Entry.isDecl (e : Entry) : Bool := e.attrValue .declaration == some (.flag true)

/-- A struct or union. -/
def DwTag.isAggregate (t : DwTag) : Bool := t == .structureType || t == .unionType

/-- What makes a struct or union complete: a member or a variant part. -/
def DwTag.isContent (t : DwTag) : Bool := t == .member || t == .variantPart

/-- `IdxFrame` -/
structure IdxFrame where
  depth : ℕ
  off : Off
  decl : Bool
  name : Option String
  hasChild : Bool
deriving DecidableEq, Repr

/-- The map under construction in `def_index`. -/
abbrev DefMap := List (String × Site)

/-- `idx_close`: the first definition of a name stays. -/
def idxClose (ui : ℕ) (f : IdxFrame) (map : DefMap) : DefMap :=
  match f.name with
  | some n =>
    if f.hasChild ∧ ¬ f.decl ∧ map.lookup n = none then map ++ [(n, (ui, f.off))] else map
  | none => map

/-- Close every frame whose subtree an entry at this depth has left. -/
def idxPop (ui depth : ℕ) : List IdxFrame → DefMap → List IdxFrame × DefMap
  | [], map => ([], map)
  | f :: fs, map =>
    if depth ≤ f.depth then idxPop ui depth fs (idxClose ui f map) else (f :: fs, map)

/-- One entry of the traversal. -/
def idxStep (ui : ℕ) (acc : List IdxFrame × DefMap) (x : ℕ × Die) : List IdxFrame × DefMap :=
  let e := x.2.entry
  let (stack, map) := idxPop ui x.1 acc.1 acc.2
  if e.tag.isAggregate then
    let name := match e.attrValue .name with
      | some (.string n) => some n
      | _ => none
    (⟨x.1, e.offset, e.isDecl, name, false⟩ :: stack, map)
  else
    match stack with
    | top :: fs =>
      if e.tag.isContent ∧ x.1 = top.depth + 1 then ({ top with hasChild := true } :: fs, map)
      else (stack, map)
    | [] => (stack, map)

/-- The definitions of one unit. -/
def idxUnit (ui : ℕ) (u : CompUnit) (map : DefMap) : DefMap :=
  let (stack, map) := (u.root.preorder 0).foldl (idxStep ui) ([], map)
  stack.foldl (fun map f => idxClose ui f map) map

/-- `def_index` -/
def defIndex (st : Store) : DefMap :=
  (st.units.zipIdx.foldl fun map x => idxUnit x.2 x.1 map) []

/-- `is_stub` -/
def isStub (st : Store) (s : Site) : Bool :=
  match entryAt st s with
  | none => false
  | some e =>
    e.tag.isAggregate &&
      (e.isDecl ||
        ((udata st s .byteSize).getD 0 != 0 &&
          !(childOffsets st s).any fun c => ((tagAt st (s.1, c)).map DwTag.isContent).getD false))

/-- `def_site` -/
def defSite (st : Store) (s : Site) : Site :=
  if isStub st s then ((dieName st s).bind fun n => (defIndex st).lookup n).getD s else s

end Bilbo
