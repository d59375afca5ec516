import Bilbo.Base.Reader

/-!
# The jitdump stream

`register` appends one record for each function to a file that the first call opens. The size of a
record is computed apart from its fields, the name ends at a NUL and the code after `code_size`
bytes, so a reader depends on all three; `readDump` uses each of them and refuses when one byte is
missing or left over.

The results of opening and writing are the system's, and `register` ignores them; the world keeps
whether one of them has failed.
-/

namespace Bilbo

open Base

namespace Jitdump

/-! ## The writer -/

/-- `JITDUMP_MAGIC` -/
def jitdumpMagic : UInt32 := 0x4A695444

/-- `JIT_CODE_LOAD` -/
def jitCodeLoad : UInt32 := 0

/-- `target_arch` -/
inductive Arch where
  | aarch64
  | x8664
deriving DecidableEq, Repr

/-- `E_MACHINE` -/
def Arch.eMachine : Arch → UInt32
  | .aarch64 => 183
  | .x8664 => 62

structure Host where
  arch : Arch
  endian : Endian

/-- `u32::to_ne_bytes` -/
def Host.u32 (h : Host) (x : UInt32) : Bytes := h.endian.bytes 4 x.toNat

/-- `u64::to_ne_bytes` -/
def Host.u64 (h : Host) (x : UInt64) : Bytes := h.endian.bytes 8 x.toNat

/-- What the system answers during a call: the process id, the time since `base`, whether the file
opens, and after how many bytes the device fails if it does. -/
structure Os where
  pid : UInt32
  nanos : ℕ
  opens : Bool
  headerFault : Option ℕ
  recordFault : Option ℕ

/-- `State`, less the file. -/
structure State where
  index : UInt64

/-- The file, `STATE`, and whether an opening or a write has failed. -/
structure World where
  file : Option Bytes
  state : Option (Option State)
  failed : Bool

/-- The largest length of a file. -/
def maxLength : ℕ := 2 ^ 63 - 1

/-- `write_all` -/
def World.writeAll (w : World) (bs : Bytes) (fault : Option ℕ) : World × Bool :=
  let old := w.file.getD []
  let n := min (fault.getD bs.length) (maxLength - old.length)
  if bs.length ≤ n then ({ w with file := some (old ++ bs) }, true)
  else ({ w with file := some (old ++ bs.take n), failed := true }, false)

/-- The 40-byte global header. -/
def header (h : Host) (pid : UInt32) : Bytes :=
  h.u32 jitdumpMagic ++ (h.u32 1 ++ (h.u32 40 ++ (h.u32 h.arch.eMachine ++ (h.u32 0 ++
    (h.u32 pid ++ (h.u64 0 ++ h.u64 0))))))

/-- What `state` does once. -/
def create (h : Host) (os : Os) (w : World) : World × Option State :=
  if os.opens then
    match { w with file := some [] }.writeAll (header h os.pid) os.headerFault with
    | (w, true) => (w, some ⟨0⟩)
    | (w, false) => (w, none)
  else ({ w with failed := true }, none)

/-- `state` -/
def state (h : Host) (os : Os) (w : World) : World × Option State :=
  match w.state with
  | some st => (w, st)
  | none =>
    match create h os w with
    | (w, st) => ({ w with state := some st }, st)

/-- The arguments of `register`, and what the system answers. -/
structure Call where
  name : String
  addr : UInt64
  code : Bytes
  os : Os

/-- `total`: the prefix, the fixed fields, the name with its NUL, and the code. -/
def Call.total (c : Call) : ℕ := 16 + 40 + (utf8 c.name).length + 1 + c.code.length

/-- The record of a call. -/
def record (h : Host) (c : Call) (idx : UInt64) : Bytes :=
  h.u32 jitCodeLoad ++ (h.u32 (.ofNat c.total) ++ (h.u64 (.ofNat c.os.nanos) ++ (h.u32 c.os.pid ++
    (h.u32 0 ++ (h.u64 c.addr ++ (h.u64 c.addr ++ (h.u64 (.ofNat c.code.length) ++ (h.u64 idx ++
      (utf8 c.name ++ [0] ++ c.code)))))))))

/-- `register` -/
def register (h : Host) (w : World) (c : Call) : World :=
  match state h c.os w with
  | (w, none) => w
  | (w, some st) =>
    let w := { w with state := some (some { st with index := st.index + 1 }) }
    (w.writeAll (record h c st.index) c.os.recordFault).1

/-- A process that starts where another one of its id may have left a file. -/
def World.start (file : Option Bytes) : World := ⟨file, none, false⟩

/-- A run of calls. -/
def run (h : Host) (file : Option Bytes) (calls : List Call) : World :=
  calls.foldl (register h) (World.start file)

/-! ## The reader -/

structure Header where
  magic : ℕ
  version : ℕ
  size : ℕ
  machine : ℕ
  pad : ℕ
  pid : ℕ
  timestamp : ℕ
  flags : ℕ
deriving DecidableEq, Repr

structure Record where
  id : ℕ
  totalSize : ℕ
  timestamp : ℕ
  pid : ℕ
  tid : ℕ
  vma : ℕ
  codeAddr : ℕ
  codeSize : ℕ
  codeIndex : ℕ
  name : Bytes
  code : Bytes
deriving DecidableEq, Repr

structure Dump where
  header : Header
  records : List Record
deriving DecidableEq, Repr

/-- The rest of the header after its size. -/
def readHeaderRest (e : Endian) (magic version size : ℕ) : Reader Header := do
  let machine ← field e 4
  let pad ← field e 4
  let pid ← field e 4
  let timestamp ← field e 8
  let flags ← field e 8
  pure { magic, version, size, machine, pad, pid, timestamp, flags }

def readHeader (e : Endian) : Reader Header := do
  let magic ← field e 4
  check (magic = jitdumpMagic.toNat)
  let version ← field e 4
  let size ← field e 4
  within (size - 12) (readHeaderRest e magic version size)

/-- The rest of a record after its prefix. -/
def readCodeLoad (e : Endian) (id totalSize timestamp : ℕ) : Reader Record := do
  let pid ← field e 4
  let tid ← field e 4
  let vma ← field e 8
  let codeAddr ← field e 8
  let codeSize ← field e 8
  let codeIndex ← field e 8
  let name ← untilNul
  let code ← take codeSize
  pure { id, totalSize, timestamp, pid, tid, vma, codeAddr, codeSize, codeIndex, name, code }

def readRecord (e : Endian) : Reader Record := do
  let id ← field e 4
  let totalSize ← field e 4
  let timestamp ← field e 8
  within (totalSize - 16) (readCodeLoad e id totalSize timestamp)

/-- A whole file. -/
def readDump (e : Endian) (bs : Bytes) : Option Dump := do
  let (header, rest) ← (readHeader e).run bs
  let records ← readAll (readRecord e) rest.length rest
  pure { header, records }

/-! ## One part of the file -/

/-- What the header says. -/
def headerOf (h : Host) (pid : UInt32) : Header where
  magic := jitdumpMagic.toNat
  version := 1
  size := 40
  machine := h.arch.eMachine.toNat
  pad := 0
  pid := pid.toNat
  timestamp := 0
  flags := 0

/-- What the record of the `i`-th call says. -/
def recordOf (c : Call) (i : ℕ) : Record where
  id := 0
  totalSize := c.total
  timestamp := c.os.nanos % 2 ^ 64
  pid := c.os.pid.toNat
  tid := 0
  vma := c.addr.toNat
  codeAddr := c.addr.toNat
  codeSize := c.code.length
  codeIndex := i
  name := utf8 c.name
  code := c.code

variable {h : Host} {c : Call}

theorem reads_u32 (h : Host) (x : UInt32) : Reads (field h.endian 4) (h.u32 x) x.toNat :=
  reads_field h.endian x.toNat_lt

theorem reads_u64 (h : Host) (x : UInt64) : Reads (field h.endian 8) (h.u64 x) x.toNat :=
  reads_field h.endian x.toNat_lt

@[simp] theorem length_u32 (h : Host) (x : UInt32) : (h.u32 x).length = 4 :=
  h.endian.length_bytes 4 _

@[simp] theorem length_u64 (h : Host) (x : UInt64) : (h.u64 x).length = 8 :=
  h.endian.length_bytes 8 _

theorem length_header (h : Host) (pid : UInt32) : (header h pid).length = 40 := by
  simp only [header, List.length_append, length_u32, length_u64]

/-- The size that is computed by hand is the size. -/
theorem length_record (h : Host) (c : Call) (idx : UInt64) :
    (record h c idx).length = c.total := by
  simp only [record, List.length_append, length_u32, length_u64, List.length_singleton, Call.total]
  omega

theorem reads_header (h : Host) (pid : UInt32) :
    Reads (readHeader h.endian) (header h pid) (headerOf h pid) := by
  apply (reads_u32 h _).bind
  apply (reads_check (decide_eq_true rfl)).after
  apply (reads_u32 h _).bind
  apply (reads_u32 h _).bind
  apply Reads.within _ (by simp)
  apply (reads_u32 h _).bind
  apply (reads_u32 h _).bind
  apply (reads_u32 h _).bind
  apply (reads_u64 h _).bind
  exact (reads_u64 h _).last (Reads.pure _)

/-- A record is read back when its size fits its field and its name holds no NUL. -/
theorem reads_record (hname : 0 ∉ utf8 c.name) (hsize : c.total < 2 ^ 32) (idx : UInt64) :
    Reads (readRecord h.endian) (record h c idx) (recordOf c idx.toNat) := by
  have htotal : (UInt32.ofNat c.total).toNat = c.total := by
    rw [UInt32.toNat_ofNat']
    omega
  have hcode : (UInt64.ofNat c.code.length).toNat = c.code.length := by
    rw [UInt64.toNat_ofNat']
    unfold Call.total at hsize
    omega
  have hrecord : recordOf c idx.toNat = {
      id := jitCodeLoad.toNat
      totalSize := (UInt32.ofNat c.total).toNat
      timestamp := (UInt64.ofNat c.os.nanos).toNat
      pid := c.os.pid.toNat
      tid := (0 : UInt32).toNat
      vma := c.addr.toNat
      codeAddr := c.addr.toNat
      codeSize := (UInt64.ofNat c.code.length).toNat
      codeIndex := idx.toNat
      name := utf8 c.name
      code := c.code } := by
    rw [htotal, hcode, UInt64.toNat_ofNat']
    rfl
  have hlen := length_record h c idx
  rw [hrecord]
  apply (reads_u32 h _).bind
  apply (reads_u32 h _).bind
  apply (reads_u64 h _).bind
  apply Reads.within
  · apply (reads_u32 h _).bind
    apply (reads_u32 h _).bind
    apply (reads_u64 h _).bind
    apply (reads_u64 h _).bind
    apply (reads_u64 h _).bind
    apply (reads_u64 h _).bind
    apply (reads_untilNul hname).bind
    exact (reads_take hcode.symm).last (Reads.pure _)
  · -- what is left of `total` behind the prefix
    rw [htotal, ← hlen]
    simp only [record, List.length_append, length_u32, length_u64]
    omega

/-! ## The whole file -/

section Writes

variable {w w' : World} {bs : Bytes} {fault : Option ℕ} {os : Os} {st : State}

/-- A write that succeeds appends everything, and the file stays below its largest length. -/
theorem World.writeAll_ok (hok : (w.writeAll bs fault).1.failed = false) :
    w.writeAll bs fault = ({ w with file := some (w.file.getD [] ++ bs) }, true) ∧
      bs.length ≤ maxLength - (w.file.getD []).length ∧ w.failed = false := by
  by_cases hfit : bs.length ≤ min (fault.getD bs.length) (maxLength - (w.file.getD []).length)
  · have hwrite : w.writeAll bs fault = ({ w with file := some (w.file.getD [] ++ bs) }, true) :=
      if_pos hfit
    rw [hwrite] at hok
    exact ⟨hwrite, hfit.trans (Nat.min_le_right _ _), hok⟩
  · rw [writeAll, if_neg hfit] at hok
    cases hok

theorem create_ok (hok : (create h os w).1.failed = false) :
    create h os w = ({ w with file := some (header h os.pid) }, some ⟨0⟩) ∧ w.failed = false := by
  unfold create at hok ⊢
  by_cases hopens : os.opens
  · rw [if_pos hopens] at hok ⊢
    have hwritten : ({ w with file := some [] }.writeAll (header h os.pid)
        os.headerFault).1.failed = false := by
      split at hok <;> next hwrite => rw [hwrite]; exact hok
    obtain ⟨hwrite, -, hw⟩ := World.writeAll_ok hwritten
    rw [hwrite]
    exact ⟨rfl, hw⟩
  · rw [if_neg hopens] at hok
    cases hok

theorem state_ok (hok : (state h os w).1.failed = false) : w.failed = false := by
  unfold state at hok
  split at hok
  · exact hok
  · exact (create_ok hok).2

theorem register_of_state (hst : state h c.os w = (w', some st)) :
    register h w c = ({ w' with state := some (some ⟨st.index + 1⟩) }.writeAll
      (record h c st.index) c.os.recordFault).1 := by
  rw [register, hst]

theorem state_ok_of_register (hok : (register h w c).failed = false) :
    (state h c.os w).1.failed = false := by
  unfold register at hok
  split at hok
  · next w' hst =>
    rw [hst]
    exact hok
  · next w' st hst =>
    rw [hst]
    exact (World.writeAll_ok hok).2.2

/-- A failure is not forgotten. -/
theorem register_ok (hok : (register h w c).failed = false) : w.failed = false :=
  state_ok (state_ok_of_register hok)

theorem foldl_register_ok {calls : List Call}
    (hok : (calls.foldl (register h) w).failed = false) : w.failed = false := by
  induction calls generalizing w with
  | nil => exact hok
  | cons c calls ih => exact register_ok (ih hok)

end Writes

/-- The records of calls. -/
def records (h : Host) (calls : List Call) : Bytes :=
  calls.zipIdx.flatMap fun x => record h x.1 (.ofNat x.2)

/-- Everything was written: the header and a record for each call. -/
structure Logged (h : Host) (pid : UInt32) (calls : List Call) (w : World) : Prop where
  file : w.file = some (header h pid ++ records h calls)
  opened : w.state = some (some ⟨.ofNat calls.length⟩)
  count : calls.length ≤ (header h pid ++ records h calls).length
  fits : (header h pid ++ records h calls).length ≤ maxLength

section Run

variable {w : World} {pid : UInt32} {calls : List Call}

theorem records_concat (h : Host) (calls : List Call) (c : Call) :
    records h (calls ++ [c]) = records h calls ++ record h c (.ofNat calls.length) := by
  rw [records, records, List.zipIdx_append, List.flatMap_append, Nat.zero_add]
  exact congrArg _ (List.append_nil _)

/-- The first call opens the file, whatever is in it. -/
theorem logged_open (h : Host) {os : Os} {file : Option Bytes}
    (hok : (state h os (World.start file)).1.failed = false) :
    ∃ w, state h os (World.start file) = (w, some ⟨0⟩) ∧ Logged h os.pid [] w := by
  obtain ⟨hcreate, -⟩ := create_ok (w := World.start file) hok
  have hstate : state h os (World.start file) =
      (⟨some (header h os.pid), some (some ⟨0⟩), false⟩, some ⟨0⟩) := by
    show (match create h os (World.start file) with
      | (w, st) => ({ w with state := some st }, st)) = _
    rw [hcreate]
    rfl
  refine ⟨_, hstate, ?_, rfl, Nat.zero_le _, ?_⟩
  · exact congrArg some (List.append_nil _).symm
  · rw [records, List.zipIdx_nil, List.flatMap_nil, List.append_nil, length_header]
    decide

/-- A call adds its record. -/
theorem Logged.add {w' : World} (hl : Logged h pid calls w')
    (hst : state h c.os w = (w', some ⟨.ofNat calls.length⟩))
    (hok : (register h w c).failed = false) :
    Logged h pid (calls ++ [c]) (register h w c) := by
  rw [register_of_state hst] at hok ⊢
  obtain ⟨hwrite, hfits, -⟩ := World.writeAll_ok hok
  rw [hwrite]
  have hfile : header h pid ++ records h (calls ++ [c]) =
      header h pid ++ records h calls ++ record h c (.ofNat calls.length) := by
    rw [records_concat, List.append_assoc]
  have hlen := length_record h c (.ofNat calls.length)
  have hlong : (header h pid ++ records h (calls ++ [c])).length =
      (header h pid ++ records h calls).length + c.total := by
    rw [hfile, List.length_append, hlen]
  have htotal : 0 < c.total := by
    unfold Call.total
    omega
  have hcount := hl.count
  have hfits' := hl.fits
  simp only [hl.file, Option.getD_some] at hfits
  -- the file grows by the record, so it has at least one byte for each call
  refine ⟨?_, ?_, ?_, ?_⟩
  · rw [hfile]
    simp only [hl.file, Option.getD_some]
  · simp
  · rw [hlong, List.length_append, List.length_singleton]
    omega
  · rw [hlong]
    omega

/-- Calls after which nothing has failed have all added their records. -/
theorem Logged.run (hl : Logged h pid calls w) (cs : List Call)
    (hok : (cs.foldl (register h) w).failed = false) :
    Logged h pid (calls ++ cs) (cs.foldl (register h) w) := by
  induction cs generalizing calls w with
  | nil =>
    rw [List.append_nil]
    exact hl
  | cons c cs ih =>
    have hstate : Jitdump.state h c.os w = (w, some ⟨.ofNat calls.length⟩) := by
      rw [Jitdump.state, hl.opened]
    have hrest := ih (hl.add hstate (foldl_register_ok hok)) hok
    rwa [List.append_assoc] at hrest

theorem logged_run {file : Option Bytes} (hok : (run h file (c :: calls)).failed = false) :
    Logged h c.os.pid (c :: calls) (run h file (c :: calls)) := by
  have hfirst : (register h (World.start file) c).failed = false := foldl_register_ok hok
  obtain ⟨w, hstate, hl⟩ := logged_open h (state_ok_of_register hfirst)
  exact (hl.add hstate hfirst).run calls hok

/-- The file is read back: the header, and the records of the calls in order. -/
theorem Logged.readDump (hl : Logged h pid calls w)
    (hname : ∀ c ∈ calls, Char.ofNat 0 ∉ c.name.toList) (hsize : ∀ c ∈ calls, c.total < 2 ^ 32) :
    readDump h.endian (header h pid ++ records h calls) =
      some ⟨headerOf h pid, calls.zipIdx.map fun x => recordOf x.1 x.2⟩ := by
  have hcount := hl.count.trans hl.fits
  obtain ⟨parts, hparts⟩ : ∃ parts, parts = calls.zipIdx.map fun x =>
    (record h x.1 (.ofNat x.2), recordOf x.1 x.2) := ⟨_, rfl⟩
  have hbytes : parts.flatMap Prod.fst = records h calls := by
    rw [hparts, List.flatMap_map]
    rfl
  have hvalues : parts.map Prod.snd = calls.zipIdx.map fun x => recordOf x.1 x.2 := by
    rw [hparts, List.map_map]
    rfl
  have hreads : ∀ x ∈ parts, x.1 ≠ [] ∧ Reads (readRecord h.endian) x.1 x.2 := by
    intro x hx
    rw [hparts] at hx
    obtain ⟨⟨c, i⟩, hmem, rfl⟩ := List.mem_map.1 hx
    rw [List.mem_zipIdx_iff_getElem?] at hmem
    have hc : c ∈ calls := List.mem_of_getElem? hmem
    have hi : i < calls.length := (List.getElem?_eq_some_iff.1 hmem).1
    -- the index does not wrap in a file that the system can hold
    have hidx : (UInt64.ofNat i).toNat = i := by
      unfold maxLength at hcount
      rw [UInt64.toNat_ofNat']
      omega
    have hrecord := reads_record (h := h) (zero_not_mem_utf8 (hname c hc)) (hsize c hc) (.ofNat i)
    rw [hidx] at hrecord
    refine ⟨List.ne_nil_of_length_pos ?_, hrecord⟩
    rw [length_record, Call.total]
    omega
  have hall := readAll_flatten hreads (Nat.le_refl _)
  rw [Jitdump.readDump, reads_header h pid]
  rw [hbytes, hvalues] at hall
  show (readAll (readRecord h.endian) (records h calls).length (records h calls)).bind _ = _
  rw [hall]
  rfl

/-- What `register` writes is read back. After calls none of whose names has a NUL, each with a
record below 2^32 bytes, and of whose writes none has failed, the file holds the header and one
record for each call, in order and with the index of the call, and nothing else; before the first
call there is no file of this process. -/
theorem register_reads_back (h : Host) (file : Option Bytes) (calls : List Call)
    (hname : ∀ c ∈ calls, Char.ofNat 0 ∉ c.name.toList) (hsize : ∀ c ∈ calls, c.total < 2 ^ 32)
    (hok : (run h file calls).failed = false) :
    match calls with
    | [] => (run h file calls).file = file
    | c :: _ => ∃ bs, (run h file calls).file = some bs ∧ readDump h.endian bs =
        some ⟨headerOf h c.os.pid, calls.zipIdx.map fun x => recordOf x.1 x.2⟩ := by
  cases calls with
  | nil => rfl
  | cons c calls =>
    have hl := logged_run hok
    exact ⟨_, hl.file, hl.readDump hname hsize⟩

end Run

/-- Two functions, the second without a name and without code. -/
def twoCalls : List Call :=
  [⟨"parse", 0x1000, [0xC0, 0x03, 0x5F, 0xD6], ⟨77, 5, true, none, none⟩⟩,
    ⟨"", 0x2000, [], ⟨77, 9, true, none, none⟩⟩]

theorem register_reads_back_two :
    ∃ bs, (run ⟨.aarch64, .little⟩ (some [1, 2, 3]) twoCalls).file = some bs ∧
      readDump .little bs = some ⟨headerOf ⟨.aarch64, .little⟩ 77,
        twoCalls.zipIdx.map fun x => recordOf x.1 x.2⟩ :=
  register_reads_back ⟨.aarch64, .little⟩ (some [1, 2, 3]) twoCalls (by decide) (by decide)
    (by decide)

end Jitdump

end Bilbo
