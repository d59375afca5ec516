import Bilbo.Base.Utf8

/-!
# The plan: what a type looks like in memory

`Ty` is the artifact the cold path hands to the binders (`plan.rs`): field offsets,
primitive sizes, the word offsets inside `String` and `Vec`, and for recursive types a
`RecCell` in place of the inner occurrence. A cell is an identity; what it holds is in
`Cells`, which stands for the `Arc<OnceLock<Ty>>`s of the process: `none` is a cell not
yet set.
-/

namespace Bilbo

open Base

/-- Where the three words of a `Vec`-like value sit. -/
structure SeqLayout where
  ptrOff : ℕ
  capOff : ℕ
  lenOff : ℕ
deriving DecidableEq, Repr, Inhabited

/-- The identity of a `RecCell`. -/
abbrev RecCell := ℕ

/-- A named field at a byte offset. -/
structure FieldOf (T : Type) where
  name : String
  offset : ℕ
  ty : T

/-- The layout of a type. `U(u8)` and `I(u8)` count bytes; the `u64` and `usize` fields
are natural numbers. -/
inductive Ty where
  | bool
  | char
  | u (n : ℕ)
  | i (n : ℕ)
  | f32
  | f64
  | struct (name : String) (fields : List (FieldOf Ty))
  /-- a positional array in JSON; `fields` are in index order -/
  | tuple (fields : List (FieldOf Ty))
  | str (seq : SeqLayout)
  | vec (elem : Ty) (elemSize elemAlign : ℕ) (seq : SeqLayout)
  | strRef (ptrOff lenOff : ℕ)
  | unit
  | boxed (inner : Ty) (size align : ℕ)
  /-- `someDiscr` is `none` for the niche encoding -/
  | opt (discOff discSize noneDiscr : ℕ) (someDiscr : Option ℕ) (payloadOff size : ℕ)
      (inner : Ty)
  | map (key : Ty) (keySize : ℕ) (val : Ty) (valSize : ℕ) (newAt insert : ℕ)
  | ref (cell : RecCell)
  | unknown (what : String)
deriving Inhabited

/-- A field of a struct or tuple. -/
abbrev FieldTy := FieldOf Ty

/-- What the cells of the process hold. -/
abbrev Cells := RecCell → Option Ty

/-- Whether a type is syntactically `Ty::Opt`. -/
def Ty.isOpt : Ty → Bool
  | .opt .. => true
  | _ => false

/-- The bytes of a field's name, as the key dispatch compares them. -/
def FieldOf.key {T : Type} (f : FieldOf T) : Bytes := utf8 f.name

/-- Induction over a type with the hypothesis for each field of a struct or tuple. -/
@[elab_as_elim] theorem Ty.induct {P : Ty → Prop} (bool : P .bool) (char : P .char)
    (u : ∀ n, P (.u n)) (i : ∀ n, P (.i n)) (f32 : P .f32) (f64 : P .f64)
    (struct : ∀ name fields, (∀ f ∈ fields, P f.ty) → P (.struct name fields))
    (tuple : ∀ fields, (∀ f ∈ fields, P f.ty) → P (.tuple fields))
    (str : ∀ seq, P (.str seq))
    (vec : ∀ elem esz eal seq, P elem → P (.vec elem esz eal seq))
    (strRef : ∀ p l, P (.strRef p l)) (unit : P .unit)
    (boxed : ∀ inner size align, P inner → P (.boxed inner size align))
    (opt : ∀ d ds nd sd po size inner, P inner → P (.opt d ds nd sd po size inner))
    (map : ∀ key ks val vs na ins, P key → P val → P (.map key ks val vs na ins))
    (ref : ∀ c, P (.ref c)) (unknown : ∀ w, P (.unknown w)) (ty : Ty) : P ty :=
  Ty.rec (motive_1 := P) (motive_2 := fun fs => ∀ f ∈ fs, P f.ty) (motive_3 := fun f => P f.ty)
    bool char u i f32 f64 struct tuple str vec strRef unit boxed opt
    (fun _ _ _ _ _ _ hk hv => map _ _ _ _ _ _ hk hv) ref unknown
    (fun _ hf => absurd hf (List.not_mem_nil))
    (fun _ _ hf hfs _ hg => by
      rcases List.mem_cons.1 hg with rfl | hg
      · exact hf
      · exact hfs _ hg)
    (fun _ _ _ h => h) ty

end Bilbo
