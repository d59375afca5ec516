import Mathlib.Algebra.Order.Ring.Nat
import Mathlib.Data.List.Sort
import Bilbo.Dwarf

/-!
# Type entries

What `classify` does with one type entry between two recursive calls: `boxed`,
`structure`, `parse_option` and what they read. The calls to `classify` are left open
(`Calls.ask`), so the same bodies serve the memoized recursion and its specification; a
`Ty` that `parse_option` throws away is dropped with `Calls.forget`.
-/

namespace Bilbo

open Base Calls

/-- A piece of `classify`: it classifies sites, drops types, and can panic. -/
abbrev Body := Calls Site Ty String

/-- `usize::MAX` -/
def usizeMax : ℕ := 2 ^ 64 - 1

/-- `u64::next_power_of_two` -/
def nextPowerOfTwo (n : ℕ) : ℕ := if n ≤ 1 then 1 else 2 ^ ((n - 1).log2 + 1) % 2 ^ 64

/-- `str::starts_with` -/
def startsWith (p s : String) : Bool := p.toList.isPrefixOf s.toList

section

variable (st : Store)

/-- `tag`, which panics on an offset without an entry. -/
def tag (s : Site) : Body DwTag :=
  match tagAt st s with
  | some t => pure t
  | none => stop "entry"

/-! ## Names and types behind origins -/

/-- What a search returns; one that never ends is an endless loop. -/
def orHang {α : Type} : Option α → Body α
  | some a => pure a
  | none => hang

/-- `die_name` -/
def dieNameM (s : Site) : Body (Option String) := orHang (dieNameRead st s)

/-- `type_ref` -/
def typeRefM (s : Site) : Body (Option Off) := orHang (typeRefRead st s)

/-- `template_param` -/
def templateParamM (s : Site) : Body (Option Off) :=
  match childWithTag st s .templateTypeParameter with
  | some c => typeRefM st (s.1, c)
  | none => pure none

/-- The first of some entries with a name; those behind it are not looked at. -/
def findNamed (ui : ℕ) (want : String) : List Off → Body (Option Off)
  | [] => pure none
  | c :: cs => do
    let name ← dieNameM st (ui, c)
    if name = some want then pure (some c) else findNamed ui want cs

/-- `template_named` -/
def templateNamedM (s : Site) (want : String) : Body (Option Off) := do
  match ← findNamed st s.1 want (childrenWithTag st s .templateTypeParameter) with
  | some c => typeRefM st (s.1, c)
  | none => pure none

/-- `def_site`, which reads the name of a stub. -/
def defSiteM (s : Site) : Body Site :=
  if isStub st s then do
    let name ← dieNameM st s
    pure ((name.bind fun n => (defIndex st).lookup n).getD s)
  else pure s

/-- The wrappers `strip` looks through. -/
def DwTag.isAlias : DwTag → Bool
  | .typedef | .constType | .volatileType | .restrictType => true
  | _ => false

/-- `strip` along at most `n` entries. -/
def stripAlong : ℕ → Site → Body Site
  | 0, _ => hang
  | n + 1, s => do
    let t ← tag st s
    if t.isAlias then
      match ← typeRefM st s with
      | some inner => stripAlong n (s.1, inner)
      | none => pure s
    else pure s

/-- `strip`; a cycle of wrappers is an endless loop. -/
def strip (s : Site) : Body Site := stripAlong st (unitSize st s.1 + 1) s

/-! ## Words inside `String` and `Vec` -/

/-- `walk_seq`, with `17 - depth` levels left. -/
def walkSeq : ℕ → Site → ℕ → SeqLayout → Body SeqLayout
  | 0, _, _, sl => pure sl
  | k + 1, s, base, sl => do
    let s ← strip st s
    let s ← defSiteM st s
    let t ← tag st s
    if t = .pointerType ∧ sl.ptrOff = usizeMax then pure { sl with ptrOff := base }
    else if t.isAggregate then
      (childrenWithTag st s .member).foldlM (fun sl moff => do
        let m : Site := (s.1, moff)
        let abs := base + (udata st m .dataMemberLocation).getD 0
        let name := (← dieNameM st m).getD ""
        if (name = "cap" ∨ name = "capacity") ∧ sl.capOff = usizeMax then
          pure { sl with capOff := abs }
        else if (name = "len" ∨ name = "length") ∧ sl.lenOff = usizeMax then
          pure { sl with lenOff := abs }
        else
          match ← typeRefM st m with
          | some mt => walkSeq k (s.1, mt) abs sl
          | none => pure sl) sl
    else pure sl

/-- `seq_layout` -/
def seqLayout (s : Site) : Body SeqLayout := do
  let sl ← walkSeq st 17 s 0 ⟨usizeMax, usizeMax, usizeMax⟩
  if sl.ptrOff ≠ usizeMax ∧ sl.capOff ≠ usizeMax ∧ sl.lenOff ≠ usizeMax then pure sl
  else stop "could not locate ptr/cap/len in DWARF"

/-- `str_ref_offsets` -/
def strRefOffsets (s : Site) : Body (ℕ × ℕ) :=
  (childrenWithTag st s .member).foldlM (fun acc moff => do
    let m : Site := (s.1, moff)
    let abs := (udata st m .dataMemberLocation).getD 0
    match ← dieNameM st m with
    | some "data_ptr" => pure (abs, acc.2)
    | some "length" => pure (acc.1, abs)
    | _ => pure acc) (0, 0)

/-! ## Trampolines -/

/-- What stands behind the last `::`, read from the back. -/
def leafRev : List Char → List Char
  | ':' :: ':' :: _ => []
  | c :: cs => c :: leafRev cs
  | [] => []

/-- `norm_ty` -/
def normTy (s : List Char) : List Char :=
  let head := s.takeWhile (· != '<')
  (leafRev head.reverse).reverse ++ s.drop head.length

/-- `&name[lt + 1..name.len() - 1]`, or the panic of a slice that is out of order or cuts a
character. -/
def templateArgs (name : List Char) (lt : ℕ) : Option (List Char) :=
  match (name.drop (lt + 1)).getLast? with
  | some c => if c.utf8Size = 1 then some (name.drop (lt + 1)).dropLast else none
  | none => none

/-- One subprogram of `resolve_tramp`: whether the search ends there, and with what. -/
def trampHere (fnPrefix : String) (want : List Char) (matchV : Bool) (s : Site) :
    Body (Option ℕ) := do
  let name := ((← dieNameM st s).getD "").toList
  let addr : Option ℕ := match attrAt st s .lowPc with
    | some (.addr lo) => some (lo + st.imageSlide)
    | _ => none
  if fnPrefix.toList.isPrefixOf name then
    if matchV then
      match name.findIdx? (· == '<') with
      | none => pure none
      | some lt =>
        match templateArgs name lt with
        | none => stop "byte index out of range"
        | some inner => pure (if normTy inner = want then addr else none)
    else pure addr
  else pure none

/-- The first result of a search that is not `none`. -/
def firstSome {α : Type} (f : Site → Body (Option α)) : List Site → Body (Option α)
  | [] => pure none
  | s :: rest => do
    match ← f s with
    | some a => pure (some a)
    | none => firstSome f rest

/-- All subprograms, unit by unit. -/
def subprograms : List Site :=
  st.units.zipIdx.flatMap fun x =>
    (x.1.dies.filter fun d => d.entry.tag == .subprogram).map fun d => (x.2, d.entry.offset)

/-- `resolve_tramp` -/
def resolveTramp (fnPrefix vName : String) (matchV : Bool) : Body (Option ℕ) :=
  firstSome (trampHere st fnPrefix (normTy vName.toList) matchV) (subprograms st)

/-! ## The kinds of type entries -/

/-- `base_type` -/
def baseType (s : Site) (name : String) : Ty :=
  if name = "()" then .unit
  else
    let size := (udata st s .byteSize).getD 0 % 256
    match attrAt st s .encoding with
    | some (.encoding .boolean) => .bool
    | some (.encoding .float) => if size = 4 then .f32 else .f64
    | some (.encoding .unsignedChar) => if name = "char" then .char else .u size
    | some (.encoding .utf) => .char
    | some (.encoding .signed) => .i size
    | some (.encoding .signedChar) => .i size
    | some (.encoding .unsigned) => .u size
    | _ => .unknown name

/-- `boxed` -/
def boxed (s : Site) (name : String) : Body Ty := do
  match ← typeRefM st s with
  | none => pure (.unknown ("*" ++ name))
  | some pointee =>
    let inner ← ask (s.1, pointee)
    let p ← strip st (s.1, pointee)
    let size := (udata st p .byteSize).getD 0
    let align := (udata st p .alignment).getD (nextPowerOfTwo (max size 1))
    pure (.boxed inner size align)

/-- The `Some` found so far by `parse_option`: discriminant, payload offset, type. -/
abbrev SomeArm := Option ℕ × ℕ × Ty

/-- Overwrite the `Some` arm; the old one is dropped. -/
def replaceSome (old : Option SomeArm) (new : SomeArm) : Body (Option SomeArm) := do
  match old with
  | some (_, _, ty) => forget ty
  | none => pure ()
  pure (some new)

/-- One variant of `parse_option`. -/
def parseVariant (ui : ℕ) (acc : Option ℕ × Option SomeArm) (v : Off) :
    Body (Option ℕ × Option SomeArm) :=
  let dv := attrUdata st (ui, v) .discrValue
  match childWithTag st (ui, v) .member with
  | none => pure acc
  | some pm => do
    let pmOff := (udata st (ui, pm) .dataMemberLocation).getD 0
    match ← typeRefM st (ui, pm) with
    | none => pure acc
    | some pstruct =>
      let ps ← strip st (ui, pstruct)
      match ← findNamed st ui "__0" (childrenWithTag st ps .member) with
      | none => pure (dv, acc.2)
      | some f0 =>
        let foff := (udata st (ui, f0) .dataMemberLocation).getD 0
        match ← typeRefM st (ui, f0) with
        | none => pure acc
        | some t =>
          let ty ← ask (ui, t)
          let arm ← replaceSome acc.2 (dv, pmOff + foff, ty)
          pure (acc.1, arm)

/-- The width of the discriminant in `parse_option`. -/
def discrSize (s : Site) : Body ℕ := do
  match ← typeRefM st s with
  | none => pure 8
  | some t =>
    let t ← strip st (s.1, t)
    pure ((udata st t .byteSize).getD 8 % 256)

/-- `parse_option` -/
def parseOption (s : Site) (vp : Off) (name : String) : Body Ty :=
  match attrAt st (s.1, vp) .discr with
  | some (.unitRef discM) => do
    let size := (udata st s .byteSize).getD 0
    let discOff := (udata st (s.1, discM) .dataMemberLocation).getD 0
    let discSize ← discrSize st (s.1, discM)
    let (noneDiscr, arm) ←
      (childrenWithTag st (s.1, vp) .variant).foldlM (parseVariant st s.1) (none, none)
    match noneDiscr, arm with
    | some nd, some (sd, payloadOff, inner) =>
      pure (.opt discOff discSize nd sd payloadOff size inner)
    | none, some (_, _, inner) => do
      forget inner
      pure (.unknown ("enum " ++ name))
    | _, none => pure (.unknown ("enum " ++ name))
  | _ => pure (.unknown ("enum " ++ name))

/-- Whether a field is called `__0`, `__1` and so on. -/
def isTupleName (s : String) : Bool :=
  match s.toList with
  | '_' :: '_' :: n => !n.isEmpty && n.all Char.isDigit
  | _ => false

/-- The index of a tuple field, `u32::MAX` when it does not fit. -/
def tupleIndex (s : String) : ℕ :=
  let v := (s.toList.drop 2).foldl (fun v c => v * 10 + (c.toNat - '0'.toNat)) 0
  if v < 2 ^ 32 then v else 2 ^ 32 - 1

/-- A member of a plain aggregate. -/
def member (ui : ℕ) (moff : Off) : Body FieldTy := do
  let name ← dieNameM st (ui, moff)
  let ty ← match ← typeRefM st (ui, moff) with
    | some t => ask (ui, t)
    | none => pure (.unknown "?")
  pure {
    name := name.getD ""
    offset := (udata st (ui, moff) .dataMemberLocation).getD 0
    ty := ty }

/-- The members of a plain aggregate, in order. -/
def members (ui : ℕ) : List Off → Body (List FieldTy)
  | [] => pure []
  | m :: ms => do
    let f ← member st ui m
    let fs ← members ui ms
    pure (f :: fs)

/-- A plain aggregate: a tuple when all its fields are numbered. -/
def aggregate (s : Site) (name : String) : Body Ty := do
  let fields ← members st s.1 (childrenWithTag st s .member)
  if fields ≠ [] ∧ fields.all fun f => isTupleName f.name then
    pure (.tuple (fields.insertionSort fun a b => tupleIndex a.name ≤ tupleIndex b.name))
  else pure (.struct name fields)

/-- The `Vec` branch of `structure`. -/
def vecType (s : Site) : Body Ty := do
  match ← templateParamM st s with
  | none => stop "Vec<T> param"
  | some t =>
    let elem ← ask (s.1, t)
    let e ← strip st (s.1, t)
    let elemSize := (udata st e .byteSize).getD 1
    let elemAlign := (udata st e .alignment).getD (nextPowerOfTwo (max elemSize 1))
    let seq ← seqLayout st s
    pure (.vec elem elemSize elemAlign seq)

/-- The `BTreeMap` branch of `structure`. -/
def mapType (s : Site) : Body Ty := do
  match ← templateNamedM st s "K" with
  | none => stop "BTreeMap<K,_> param"
  | some k =>
    match ← templateNamedM st s "V" with
    | none => stop "BTreeMap<_,V> param"
    | some v =>
      let vName := (← dieNameM st (s.1, v)).getD ""
      let key ← ask (s.1, k)
      let ks ← strip st (s.1, k)
      let keySize := (udata st ks .byteSize).getD 24
      let val ← ask (s.1, v)
      let vs ← strip st (s.1, v)
      let valSize := (udata st vs .byteSize).getD 1
      match ← resolveTramp st "map_new_at" vName false with
      | none => stop "no map_new_at trampoline at all"
      | some newAt =>
        match ← resolveTramp st "map_insert" vName true with
        | none => stop "no map_insert trampoline for V"
        | some insert => pure (.map key keySize val valSize newAt insert)

/-- `structure` -/
def structure' (s : Site) (name : String) : Body Ty :=
  if name = "String" then do
    let seq ← seqLayout st s
    pure (.str seq)
  else if name = "&str" then do
    let (ptrOff, lenOff) ← strRefOffsets st s
    pure (.strRef ptrOff lenOff)
  else if startsWith "Vec<" name then vecType st s
  else if startsWith "BTreeMap<" name then mapType st s
  else
    match childWithTag st s .variantPart with
    | some vp => parseOption st s vp name
    | none => aggregate st s name

/-- What `classify` computes for an entry that is not in flight. -/
def typeBody (s : Site) (t : DwTag) (name : String) : Body Ty :=
  match t with
  | .baseType => pure (baseType st s name)
  | .pointerType => boxed st s name
  | .structureType => structure' st s name
  | .enumerationType => pure (.unknown ("enum " ++ name))
  | _ => pure (.unknown name)

/-- The layout-transparent wrappers. -/
def isTransparent (name : String) : Bool :=
  startsWith "MaybeUninit<" name || startsWith "ManuallyDrop<" name ||
    startsWith "UnsafeCell<" name

/-- What `classify` finds at a site once aliases and stubs are resolved. -/
inductive Found where
  /-- a transparent wrapper around another type -/
  | wraps (inner : Site)
  /-- an entry of its own -/
  | entry (key : Site) (t : DwTag) (name : String)

/-- The head of `classify`. -/
def resolveSite (s : Site) : Body Found := do
  let s ← strip st s
  let s ← defSiteM st s
  let t ← tag st s
  let name := (← dieNameM st s).getD ""
  if isTransparent name then
    match ← templateParamM st s with
    | some inner => pure (.wraps (s.1, inner))
    | none => stop "wrapper has no T parameter"
  else pure (.entry s t name)

end

end Bilbo
