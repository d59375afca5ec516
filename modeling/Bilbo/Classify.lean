import Bilbo.TypeDie

/-!
# Type entry to `Ty`

`classify` keeps the entries being classified in the thread-local `MEMO`, each with a
freshly minted cell. An entry met again while it is in flight becomes a `Ty::Ref` to its
cell; the cell is set when the body is done and someone beside the two owners, the local
and `MEMO`, holds it. So the `Arc` strong counts are part of the state.
-/

namespace Bilbo

open Base Comp

/-! ## References -/

mutual

/-- The cells a type refers to, with repetitions. -/
def Ty.refs : Ty → List RecCell
  | .struct _ fields => Ty.fieldsRefs fields
  | .tuple fields => Ty.fieldsRefs fields
  | .vec elem _ _ _ => elem.refs
  | .boxed inner _ _ => inner.refs
  | .opt _ _ _ _ _ _ inner => inner.refs
  | .map key _ val _ _ _ => key.refs ++ val.refs
  | .ref cell => [cell]
  | _ => []

/-- The cells the fields of a struct or tuple refer to. -/
def Ty.fieldsRefs : List (FieldOf Ty) → List RecCell
  | [] => []
  | f :: fs => Ty.fieldRefs f ++ Ty.fieldsRefs fs

/-- The cells one field refers to. -/
def Ty.fieldRefs : FieldOf Ty → List RecCell
  | ⟨_, _, ty⟩ => ty.refs

end

/-! ## Cells and their counts -/

/-- The state of `classify`: the thread's `MEMO` and the `Arc`s of all cells. A cell that
is freed keeps its entry in `cells`, which nobody can reach any more. -/
structure Heap where
  memo : List (Site × RecCell)
  /-- `Arc::strong_count` -/
  count : RecCell → ℕ
  cells : Cells
  /-- no cell from here on exists yet -/
  fresh : RecCell

namespace Heap

/-- Clone the `Arc` of a cell. -/
def clone (c : RecCell) (h : Heap) : Heap :=
  { h with count := fun x => if x = c then h.count x + 1 else h.count x }

/-- Clone a type. -/
def cloneTy (ty : Ty) (h : Heap) : Heap := ty.refs.foldl (fun h c => h.clone c) h

/-- Drop `Arc`s; one that was the last owner drops the content of its cell. -/
def releaseAll : ℕ → List RecCell → Heap → Heap
  | _, [], h => h
  | 0, _ :: _, h => h
  | n + 1, c :: cs, h =>
    let h' := { h with count := fun x => if x = c then h.count x - 1 else h.count x }
    if h.count c = 1 then releaseAll n ((h.cells c).elim [] Ty.refs ++ cs) h'
    else releaseAll n cs h'

/-- How many `Arc`s the contents of all cells hold. -/
def held (h : Heap) : ℕ :=
  ((List.range h.fresh).map fun c => ((h.cells c).elim [] Ty.refs).length).sum

/-- Drop `Arc`s and what they own. -/
def release (cs : List RecCell) (h : Heap) : Heap := releaseAll (cs.length + h.held) cs h

/-- `RecCell::new` -/
def newCell (h : Heap) : Heap :=
  { h with
    count := fun x => if x = h.fresh then 1 else h.count x
    fresh := h.fresh + 1 }

/-- Put a cell into `MEMO`. -/
def enter (key : Site) (c : RecCell) (h : Heap) : Heap :=
  { h.clone c with memo := (key, c) :: h.memo }

/-- `MemoGuard::drop` -/
def leave (key : Site) (h : Heap) : Heap :=
  ({ h with memo := h.memo.filter fun e => e.1 != key } : Heap).release
    (h.memo.lookup key).toList

/-- `cell.0.set(body.clone())` when somebody else holds the cell. -/
def tieKnot (c : RecCell) (body : Ty) (h : Heap) : Heap :=
  if 2 < h.count c then
    { h.cloneTy body with cells := fun x => if x = c then some body else h.cells x }
  else h

end Heap

/-- Drop a type. -/
def dropTy (ty : Ty) : Comp Heap String Unit := modify fun h => h.release ty.refs

/-- `classify`; the recursion argument bounds the nesting of calls. -/
def classify (st : Store) : ℕ → Site → Comp Heap String Ty
  | 0, _ => deep
  | d + 1, s => do
    match ← (resolveSite st s).exec (classify st d) dropTy with
    | .wraps inner => classify st d inner
    | .entry key t name => do
      let h ← get
      match h.memo.lookup key with
      | some cell => do
        modify fun h => h.clone cell
        pure (.ref cell)
      | none => do
        let cell := h.fresh
        modify fun h => (h.newCell).enter key cell
        let body ← onExit (do
          let body ← (typeBody st key t name).exec (classify st d) dropTy
          modify fun h => h.tieKnot cell body
          pure body) fun h => h.leave key
        modify fun h => h.release [cell]
        pure body

/-- The process before the first call. -/
def Heap.initial : Heap := ⟨[], fun _ => 0, fun _ => none, 0⟩

/-! ## The specification: no memo, cut at a depth -/

/-- What stands where a tree is cut off; no tree has references of its own. -/
def cut : Ty := .ref 0

/-- Classify without a memo down to a depth. -/
def classifyTree (st : Store) : ℕ → ℕ → Site → Comp Unit String Ty
  | 0, _, _ => deep
  | _ + 1, 0, _ => pure cut
  | d + 1, n + 1, s => do
    match ← (resolveSite st s).exec (classifyTree st d n) (fun _ => pure ()) with
    | .wraps inner => classifyTree st d (n + 1) inner
    | .entry key t name =>
      (typeBody st key t name).exec (classifyTree st d n) (fun _ => pure ())

/-- Apply a function to the types directly below a type. -/
def Ty.mapKids (f : Ty → Ty) : Ty → Ty
  | .struct name fields => .struct name (fields.map fun x => { x with ty := f x.ty })
  | .tuple fields => .tuple (fields.map fun x => { x with ty := f x.ty })
  | .vec elem elemSize elemAlign seq => .vec (f elem) elemSize elemAlign seq
  | .boxed inner size align => .boxed (f inner) size align
  | .opt discOff discSize noneDiscr someDiscr payloadOff size inner =>
    .opt discOff discSize noneDiscr someDiscr payloadOff size (f inner)
  | .map key keySize val valSize newAt insert =>
    .map (f key) keySize (f val) valSize newAt insert
  | ty => ty

/-- The types directly below a type. -/
def Ty.kids : Ty → List Ty
  | .struct _ fields => fields.map FieldOf.ty
  | .tuple fields => fields.map FieldOf.ty
  | .vec elem _ _ _ => [elem]
  | .boxed inner _ _ => [inner]
  | .opt _ _ _ _ _ _ inner => [inner]
  | .map key _ val _ _ _ => [key, val]
  | _ => []

/-- A tree down to a depth. -/
def Ty.trim : ℕ → Ty → Ty
  | 0, _ => cut
  | n + 1, ty => ty.mapKids (Ty.trim n)

/-- `RecCell::get` at a reference, `none` being its panic. -/
def Ty.deref (cells : Cells) : Ty → Option Ty
  | .ref c => cells c
  | ty => some ty

/-- Unfold a type through its cells down to a depth. -/
def Ty.unfold (cells : Cells) : ℕ → Ty → Ty
  | 0, _ => cut
  | n + 1, ty =>
    match ty.deref cells with
    | some body => body.mapKids (Ty.unfold cells n)
    | none => ty

end Bilbo
