import Mathlib.Data.List.Dedup
import Bilbo.TypeDie

/-!
# Which local a pointer aliases

From a program counter to its subprogram, and from an address to the local of that
subprogram which lives there. A panic is an error with its message; what is only logged is
left out.
-/

namespace Bilbo

open Base

/-- `dwarf_regs`: the opcodes whose register numbers depend on the architecture. -/
structure DwarfRegs where
  opRegFp : UInt8
  opBregFp : UInt8
  opBregSp : UInt8

/-- `dwarf_regs` of `linux.rs` -/
def DwarfRegs.linux : DwarfRegs := ⟨0x56, 0x76, 0x77⟩

/-- `dwarf_regs` of `darwin.rs` -/
def DwarfRegs.darwin : DwarfRegs := ⟨0x6D, 0x8D, 0x8F⟩

/-- `Regs` -/
structure Regs where
  fp : ℕ
  sp : ℕ
  frameBase : ℕ

/-! ## Location expressions -/

/-- The loop of `sleb128`. -/
def sleb128Loop : Bytes → ℕ → ℕ → BitVec 64 → Except String (BitVec 64 × ℕ)
  | [], _, _, _ => .error "index out of bounds"
  | byte :: rest, i, shift, result =>
    let result := result ||| BitVec.ofNat 64 (byte.toNat &&& 0x7F) <<< (shift % 64)
    let shift := shift + 7
    if byte &&& 0x80 == 0 then
      .ok (if shift < 64 && byte &&& 0x40 != 0 then result ||| BitVec.allOnes 64 <<< shift
        else result, i + 1)
    else sleb128Loop rest (i + 1) shift result

/-- `sleb128` -/
def sleb128 (b : Bytes) : Except String (BitVec 64 × ℕ) := sleb128Loop b 0 0 0

/-- `u64::wrapping_add` of an offset. -/
def wrappingAdd (base : ℕ) (offset : BitVec 64) : ℕ := (base + offset.toNat) % 2 ^ 64

/-- `eval_addr` -/
def evalAddr (ops : DwarfRegs) (bytes : Bytes) (r : Regs) : Except String (Option ℕ) :=
  match bytes with
  | [] => .ok none
  | op :: rest =>
    let withOperand (base : ℕ) : Except String (Option ℕ) := do
      let (offset, used) ← sleb128 rest
      pure (if rest.length = used then some (wrappingAdd base offset) else none)
    if op == 0x91 then withOperand r.frameBase
    else if op == 0x9C then .ok (some r.sp)
    else if op == ops.opBregFp then withOperand r.fp
    else if op == ops.opBregSp then withOperand r.sp
    else .ok none

section

variable (st : Store)

/-- `var_location` -/
def varLocation (s : Site) (pc : ℕ) : Option Bytes :=
  match attrAt st s .location with
  | some (.exprloc expr) => some expr
  | some (.loclist entries) =>
    (entries.find? fun e => e.1.1 ≤ pc && pc < e.1.2).map (·.2)
  | _ => none

/-! ## Program counter to subprogram -/

/-- `subprogram_at` -/
def subprogramAt (pc : ℕ) : Option Site :=
  (st.units.zipIdx.flatMap fun x =>
    (x.1.dies.filter fun d =>
      d.entry.tag == .subprogram && d.entry.ranges.any fun r => r.1 ≤ pc && pc < r.2).map
        fun d => (x.2, d.entry.offset)).head?

/-! ## The hunt -/

/-- What the hunt has seen so far (`Hunt`). -/
structure Hunt where
  /-- the first local at the address that is not a `MaybeUninit` -/
  fallback : Option (String × Off)
  /-- every `MaybeUninit` local: name, type name, type entry -/
  mu : List (String × String × Off)

/-- A local found, or none yet, and the hunt so far. -/
abbrev Scanned := Except String (Option (String × Off) × Hunt)

/-- One variable or parameter in `Hunt::scan`. -/
def scanLocal (ops : DwarfRegs) (regs : Regs) (pc ptr : ℕ) (s : Site) (h : Hunt) : Scanned := do
  let name := (dieName st s).getD ""
  let ty := typeRef st s
  let tn := (ty.bind fun t => dieName st (s.1, t)).getD ""
  let isMu := startsWith "MaybeUninit<" tn
  let addr ← match varLocation st s pc with
    | some expr => evalAddr ops expr regs
    | none => pure none
  match ty with
  | none => pure (none, h)
  | some t =>
    if addr = some ptr ∧ isMu then pure (some (name, t), h)
    else
      let fallback := if addr = some ptr then h.fallback.or (some (name, t)) else h.fallback
      let mu := if isMu then h.mu ++ [(name, tn, t)] else h.mu
      pure (none, ⟨fallback, mu⟩)

/-- A scope that `Hunt::scan` descends into. -/
def DwTag.isScope (t : DwTag) : Bool := t == .lexicalBlock || t == .inlinedSubroutine

/-- A local. -/
def DwTag.isLocal (t : DwTag) : Bool := t == .variable || t == .formalParameter

/-- The children of a scope, in order, until one is the target. -/
def scanKids (ui : ℕ) (descend : Off → Hunt → Scanned) (local' : Off → Hunt → Scanned) :
    List Off → Hunt → Scanned
  | [], h => pure (none, h)
  | o :: os, h => do
    let t ← match tagAt st (ui, o) with
      | some t => pure t
      | none => .error "entry"
    let r ←
      if t.isScope then descend o h
      else if t.isLocal then local' o h
      else pure (none, h)
    match r with
    | (some hit, h) => pure (some hit, h)
    | (none, h) => scanKids ui descend local' os h

/-- `Hunt::scan`, with `33 - depth` levels left. -/
def scan (ops : DwarfRegs) (regs : Regs) (pc ptr ui : ℕ) : ℕ → Off → Hunt → Scanned
  | 0, _, h => pure (none, h)
  | k + 1, parent, h =>
    scanKids st ui (fun o h => scan ops regs pc ptr ui k o h)
      (fun o h => scanLocal st ops regs pc ptr (ui, o) h) (childOffsets st (ui, parent)) h

/-- `sole_maybe_uninit` -/
def soleMaybeUninit (h : Hunt) : Option (String × Off) :=
  if (h.mu.map fun x => x.2.1).dedup.length = 1 then h.mu.head?.map fun x => (x.1, x.2.2)
  else none

/-- The frame base of a subprogram. -/
def frameBase (ops : DwarfRegs) (sp : Site) (callerFp callerSp : ℕ) :
    Except String (Option ℕ) :=
  match attrAt st sp .frameBase with
  | some (.exprloc []) => .ok none
  | some (.exprloc (op :: rest)) =>
    if op == 0x9C then .ok (some callerSp)
    else if op == ops.opRegFp then .ok (some callerFp)
    else if op == ops.opBregFp then do
      let r ← sleb128 rest
      pure (some (wrappingAdd callerFp r.1))
    else .ok none
  | _ => .ok none

/-- `local_at_address` -/
def localAtAddress (ops : DwarfRegs) (sp : Site) (callerFp callerSp pc ptr : ℕ) :
    Except String (Option (String × Off)) := do
  match ← frameBase st ops sp callerFp callerSp with
  | none => pure none
  | some fb =>
    let (hit, h) ← scan st ops ⟨callerFp, callerSp, fb⟩ pc ptr sp.1 33 sp.2 ⟨none, []⟩
    pure ((hit.or h.fallback).or (soleMaybeUninit h))

end

end Bilbo
