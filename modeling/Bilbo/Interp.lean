import Bilbo.Json
import Bilbo.Machine

/-!
# The interpreter backend

`interp.rs`: walk a type and a JSON value together and poke the bytes. The recursion
argument of `run` bounds the nesting of calls; the loops run over lists.
-/

namespace Bilbo

open Base Comp

/-- A value, or the panic with its message. -/
def orPanic {α : Type} : Except String α → M α
  | .ok a => pure a
  | .error msg => fail (.panic msg)

/-- `write_bytes` of the first `k` bytes of a 16-byte integer. -/
def writeBytes (dst k v : ℕ) : M Unit :=
  if k ≤ 16 then storeInt dst k v else fail (.panic "range end index out of range")

/-- `write_seq` -/
def writeSeq (dst : ℕ) (seq : SeqLayout) (ptr cap len : ℕ) : M Unit := do
  storePtr (dst + seq.ptrOff) ptr
  storeInt (dst + seq.capOff) 8 cap
  storeInt (dst + seq.lenOff) 8 len

/-- `alloc_copy` -/
def allocCopy (bytes : Bytes) (align : ℕ) : M ℕ :=
  if bytes = [] then pure (max align 1)
  else do
    let p ← alloc bytes.length align
    storeCells p (ints bytes)
    pure p

/-- Run one action for each element, with its index. -/
def forEach {α : Type} (f : ℕ → α → M Unit) : ℕ → List α → M Unit
  | _, [] => pure ()
  | i, a :: as => do
    f i a
    forEach f (i + 1) as

/-- `interp::run` -/
def run (env : Env) : ℕ → ℕ → Ty → Json → M Unit
  | 0, _, _, _ => deep
  | d + 1, dst, ty, val =>
    match ty with
    | .bool => storeInt dst 1 (match val with | .bool true => 1 | _ => 0)
    | .char => do
      let s ← orPanic val.asStr
      storeInt dst 4 ((firstChar s).elim 0 fun c => c.toNat)
    | .u size => do
      let v ← orPanic val.asU128
      writeBytes dst size v
    | .i size => do
      let v ← orPanic val.asI128
      writeBytes dst size (v % 2 ^ 128).toNat
    | .f32 => do
      let v ← orPanic (val.asF64 env.float.parse)
      storeInt dst 4 (env.float.demote v)
    | .f64 => do
      let v ← orPanic (val.asF64 env.float.parse)
      storeInt dst 8 v
    | .struct _ fields => fields.forM fun f =>
      match val.get f.key with
      | some fv => run env d (dst + f.offset) f.ty fv
      | none =>
        if f.ty.isOpt then run env d (dst + f.offset) f.ty .null
        else fail (.panic "JSON missing key")
    | .tuple fields =>
      match val with
      | .array items => (fields.zip items).forM fun x => run env d (dst + x.1.offset) x.1.ty x.2
      | _ => fail (.panic "expected JSON array for tuple")
    | .str seq => do
      let bytes ← orPanic val.asStr
      let p ← allocCopy bytes 1
      writeSeq dst seq p bytes.length bytes.length
    | .strRef ptrOff lenOff => do
      let bytes ← orPanic val.asStr
      let p ← allocCopy bytes 1
      storePtr (dst + ptrOff) p
      storeInt (dst + lenOff) 8 bytes.length
    | .vec elem elemSize elemAlign seq =>
      match val with
      | .array items => do
        let align := max elemAlign 1
        let base ←
          if items.length = 0 then pure align
          else do
            let p ← alloc (elemSize * items.length % 2 ^ 64) align
            forEach (fun i item => run env d (p + i * elemSize) elem item) 0 items
            pure p
        writeSeq dst seq base items.length items.length
      | _ => fail (.panic "expected JSON array for Vec")
    | .boxed inner size align => do
      let p ← if size = 0 then pure (max align 1) else alloc size (max align 1)
      run env d p inner val
      storePtr dst p
    | .unit => pure ()
    | .opt discOff discSize noneDiscr someDiscr payloadOff size inner =>
      match val with
      | .null => do
        storeCells dst (List.replicate size (.int 0))
        writeBytes (dst + discOff) discSize noneDiscr
      | val => do
        run env d (dst + payloadOff) inner val
        match someDiscr with
        | some sd => writeBytes (dst + discOff) discSize sd
        | none => pure ()
    | .map .. => fail (.panic "interp backend doesn't build maps; use the JIT parser")
    | .ref cell =>
      match env.cells cell with
      | none => fail (.panic "recursive Ty cell not set")
      | some body => run env d dst body val
    | .unknown _ => fail (.panic "don't know how to write type")

/-- What `interp::run` does for a field of a struct. -/
def runField (env : Env) (dst : ℕ) (val : Json) (d : ℕ) (f : FieldTy) : M Unit :=
  match val.get f.key with
  | some fv => run env d (dst + f.offset) f.ty fv
  | none =>
    if f.ty.isOpt then run env d (dst + f.offset) f.ty .null
    else fail (.panic "JSON missing key")

theorem run_struct (env : Env) (d dst : ℕ) (name : String) (fields : List FieldTy) (val : Json) :
    run env (d + 1) dst (.struct name fields) val = fields.forM (runField env dst val d) := rfl

end Bilbo
