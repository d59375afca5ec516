import Bilbo.Base.Ssa
import Bilbo.Copy

/-!
# The code that `emit_copy` emits

`emit_copy` is a program that writes a program. Here each of its calls is the same call of a
builder, so what runs is the blocks and the instructions that it leaves, on 64-bit words and a flat
memory.

`copyBlocks` lists these blocks. `Copying` is what holds at every block: the first `k` bytes are
copied, and nothing but the two buffers has been touched. Each `cp` takes it from one `k` to a
larger one, also where its chunk overlaps what is there already, so the word loop and the ladder
below 8 bytes both end with all bytes copied.
-/

namespace Bilbo

open Base Base.Ssa

namespace Emit

/-! ## The emitter -/

/-- `cp` -/
def cp (src dst : Value) (ty : Width) (off : Value) : Build Unit := do
  let sa ← iadd src off
  let da ← iadd dst off
  let v ← load ty sa
  store ty v da

set_option linter.constructorNameAsVariable false in
/-- `emit_copy` -/
def emitCopy (dst src len : Value) : Build Unit := do
  let zero ← iconst 0
  let big ← createBlock
  let small ← createBlock
  let done ← createBlock
  let ge8 ← icmpImm .unsignedGreaterThanOrEqual len 8
  brif ge8 big [] small []
  -- big: word loop while i+8 <= len, then one overlapping word at len-8
  switchToBlock big
  let wh ← createBlock
  let _ ← appendBlockParam wh
  let wb ← createBlock
  let _ ← appendBlockParam wb
  let tail ← createBlock
  jump wh [zero]
  switchToBlock wh
  let i := (← blockParams wh).headD 0
  let i8 ← iaddImm i 8
  let fits ← icmp .unsignedLessThanOrEqual i8 len
  brif fits wb [i] tail []
  switchToBlock wb
  let i := (← blockParams wb).headD 0
  cp src dst .i64 i
  let i2 ← iaddImm i 8
  jump wh [i2]
  switchToBlock tail
  let l8 ← iaddImm len (-8)
  cp src dst .i64 l8
  jump done []
  -- small: len in 0..=7, overlapping 4/2/1
  switchToBlock small
  let s2 ← createBlock
  let s4 ← createBlock
  let ge4 ← icmpImm .unsignedGreaterThanOrEqual len 4
  brif ge4 s4 [] s2 []
  switchToBlock s4
  cp src dst .i32 zero
  let l4 ← iaddImm len (-4)
  cp src dst .i32 l4
  jump done []
  switchToBlock s2
  let do2 ← createBlock
  let s1 ← createBlock
  let ge2 ← icmpImm .unsignedGreaterThanOrEqual len 2
  brif ge2 do2 [] s1 []
  switchToBlock do2
  cp src dst .i16 zero
  let l2 ← iaddImm len (-2)
  cp src dst .i16 l2
  jump done []
  switchToBlock s1
  let one ← createBlock
  let nz ← icmpImm .notEqual len 0
  brif nz one [] done []
  switchToBlock one
  cp src dst .i8 zero
  jump done []
  switchToBlock done

/-- The instructions of `cp`, the first of which defines `r`. -/
def cpInsts (src dst : Value) (ty : Width) (off r : Value) : List Inst :=
  [.iadd r src off, .iadd (r + 1) dst off, .load (r + 2) ty r, .store ty (r + 2) (r + 1)]

theorem cp_bind {α : Type} (src dst : Value) (ty : Width) (off : Value) (f : Unit → Build α)
    (b : Builder) : (cp src dst ty off >>= f) b = f () { b with
      values := b.values + 3
      insts := b.insts ++ cpInsts src dst ty off b.values } := by
  show f () { b with
    values := b.values + 3
    insts := b.insts ++ [_] ++ [_] ++ [_] ++ [_] } = _
  simp only [List.append_assoc]
  rfl

/-- The blocks that `emit_copy` fills, the last one first, when it defines `r` first and `l` is its
first block. -/
def copyBlocks (dst src len r : Value) (l : Label) : List (Label × Ssa.Block) :=
  [(l + 10, ⟨[], cpInsts src dst .i8 r (r + 31), .jump (l + 2) []⟩),
    (l + 9, ⟨[], [.icmpImm (r + 30) .notEqual len 0], .brif (r + 30) (l + 10) [] (l + 2) []⟩),
    (l + 8, ⟨[], cpInsts src dst .i16 r (r + 23) ++
      .iaddImm (r + 26) len (-2) :: cpInsts src dst .i16 (r + 26) (r + 27), .jump (l + 2) []⟩),
    (l + 6, ⟨[], [.icmpImm (r + 22) .unsignedGreaterThanOrEqual len 2],
      .brif (r + 22) (l + 8) [] (l + 9) []⟩),
    (l + 7, ⟨[], cpInsts src dst .i32 r (r + 15) ++
      .iaddImm (r + 18) len (-4) :: cpInsts src dst .i32 (r + 18) (r + 19), .jump (l + 2) []⟩),
    (l + 1, ⟨[], [.icmpImm (r + 14) .unsignedGreaterThanOrEqual len 4],
      .brif (r + 14) (l + 7) [] (l + 6) []⟩),
    (l + 5, ⟨[], .iaddImm (r + 10) len (-8) :: cpInsts src dst .i64 (r + 10) (r + 11),
      .jump (l + 2) []⟩),
    (l + 4, ⟨[r + 3], cpInsts src dst .i64 (r + 3) (r + 6) ++ [.iaddImm (r + 9) (r + 3) 8],
      .jump (l + 3) [r + 9]⟩),
    (l + 3, ⟨[r + 2], [.iaddImm (r + 4) (r + 2) 8,
      .icmp (r + 5) .unsignedLessThanOrEqual (r + 4) len],
      .brif (r + 5) (l + 4) [r + 2] (l + 5) []⟩),
    (l, ⟨[], [], .jump (l + 3) [r]⟩)]

/-- What `emit_copy` leaves in the builder. -/
structure Built (b b' : Builder) (dst src len : Value) : Prop where
  filled : b'.filled = copyBlocks dst src len b.values b.labels ++
    (b.current, ⟨b.params b.current, b.insts ++ [.iconst b.values 0,
      .icmpImm (b.values + 1) .unsignedGreaterThanOrEqual len 8],
      .brif (b.values + 1) b.labels [] (b.labels + 1) []⟩) :: b.filled
  current : b'.current = b.labels + 2
  insts : b'.insts = []

theorem emitCopy_built (dst src len : Value) {b : Builder} (hb : b.current < b.labels) :
    Built b (emitCopy dst src len b).2 dst src len := by
  have hne : ∀ k, b.current ≠ b.labels + k := fun k => Nat.ne_of_lt (Nat.lt_add_right k hb)
  have hne' : b.current ≠ b.labels := Nat.ne_of_lt hb
  unfold emitCopy
  simp only [createBlock_bind, appendBlockParam_bind, blockParams_bind, switchToBlock_bind,
    define_bind, terminate_bind, cp_bind, iconst, iaddImm, icmp, icmpImm, jump, brif]
  constructor
  · show List.cons _ _ = _
    simp only [Function.update_apply, List.nil_append, Nat.add_assoc, List.append_assoc, hne, hne',
      List.headD_cons, Nat.reduceAdd, Nat.reduceEqDiff, Nat.left_eq_add, OfNat.ofNat_ne_zero,
      one_ne_zero, if_true, if_false]
    rfl
  · rfl
  · rfl

/-! ## The copy, instruction by instruction -/

/-- The first `k` of `n` bytes are copied since `s₀`. Values below `r` are as they were. -/
structure Copying (r dst src : Value) (n : ℕ) (s₀ : Frame) (k : ℕ) (s : Frame) : Prop where
  vals : ∀ v < r, s.vals v = s₀.vals v
  mem : s.mem = copyBytes s₀.mem (s₀.vals dst) (s₀.vals src) k
  reads : ∃ as, s.reads = as ++ s₀.reads ∧ ∀ a ∈ as, InBuffer (s₀.vals src) n a
  writes : ∃ as, s.writes = as ++ s₀.writes ∧ ∀ a ∈ as, InBuffer (s₀.vals dst) n a

section Frames

variable {r dst src off q : Value} {n j k : ℕ} {s₀ s : Frame} {ty : Width}

theorem Copying.start (r dst src : Value) (n : ℕ) (s : Frame) : Copying r dst src n s 0 s :=
  ⟨fun _ _ => rfl, (copyBytes_zero _ _ _).symm, ⟨[], rfl, nofun⟩, ⟨[], rfl, nofun⟩⟩

/-- A new value is defined. -/
theorem Copying.set (h : Copying r dst src n s₀ k s) (hq : r ≤ q) (x : BitVec 64) :
    Copying r dst src n s₀ k (s.set q x) :=
  ⟨fun v hv => (s.vals_set_ne x (Nat.ne_of_lt (Nat.lt_of_lt_of_le hv hq))).trans (h.vals v hv),
    h.mem, h.reads, h.writes⟩

theorem inBuffer_of_mem_span {base a : Addr} {w : ℕ}
    (ha : a ∈ span (base + BitVec.ofNat 64 j) w) (hw : j + w ≤ n) (hn : n ≤ 2 ^ 64) :
    InBuffer base n a := by
  obtain ⟨i, hi, rfl⟩ := mem_span ha
  rw [BitVec.add_assoc, ← BitVec.ofNat_add]
  exact inBuffer_add (by omega) hn

/-- What the instructions of `cp` do. -/
structure Chunk (src dst off q : Value) (ty : Width) (s s' : Frame) : Prop where
  mem : s'.mem = storeBytes s.mem (s.vals dst + s.vals off)
    (loadBytes s.mem (s.vals src + s.vals off) ty.bytes)
  reads : s'.reads = span (s.vals src + s.vals off) ty.bytes ++ s.reads
  writes : s'.writes = span (s.vals dst + s.vals off) ty.bytes ++ s.writes
  vals : ∀ v < q, s'.vals v = s.vals v

theorem chunk_cpInsts (src : Value) (ty : Width) (hdst : dst < q) (hoff : off < q) (s : Frame) :
    Chunk src dst off q ty s (execAll (cpInsts src dst ty off q) s) := by
  have hlt₁ : ∀ v < q, v ≠ q := fun v hv => Nat.ne_of_lt hv
  have hlt₂ : ∀ v < q, v ≠ q + 1 := fun v hv => Nat.ne_of_lt (Nat.lt_add_right 1 hv)
  have hlt₃ : ∀ v < q, v ≠ q + 2 := fun v hv => Nat.ne_of_lt (Nat.lt_add_right 2 hv)
  have hq₁ : q ≠ q + 1 := Nat.ne_of_lt (Nat.lt_succ_self q)
  have hq₂ : q + 1 ≠ q + 2 := Nat.ne_of_lt (Nat.lt_succ_self (q + 1))
  simp only [cpInsts, execAll_cons, execAll_nil, exec, Frame.set, hlt₁ dst hdst, hlt₁ off hoff,
    hq₁, hq₂, if_true, if_false, le_load]
  refine ⟨rfl, rfl, rfl, fun v hv => ?_⟩
  simp only [hlt₁ v hv, hlt₂ v hv, hlt₃ v hv, if_false]

/-- `cp` of a chunk that starts inside what is copied and ends behind it. -/
theorem Copying.cp (h : Copying r dst src n s₀ k s) (ty : Width) (off : Value)
    (hapart : BuffersApart (s₀.vals dst) (s₀.vals src) n) (hdst : dst < r) (hsrc : src < r)
    (hq : r ≤ q) (hoff : off < q) (hj : s.vals off = BitVec.ofNat 64 j) (hjk : j ≤ k)
    (hk : k ≤ j + ty.bytes) (hn : j + ty.bytes ≤ n) :
    Copying r dst src n s₀ (j + ty.bytes) (execAll (cpInsts src dst ty off q) s) ∧
      ∀ v < q, (execAll (cpInsts src dst ty off q) s).vals v = s.vals v := by
  have hn' := hapart.le
  -- what the four instructions do, in terms of the frame the copy started in
  have hc := chunk_cpInsts src ty (Nat.lt_of_lt_of_le hdst hq) hoff s
  generalize execAll (cpInsts src dst ty off q) s = s' at hc ⊢
  have hmem := hc.mem
  have hreads := hc.reads
  have hwrites := hc.writes
  rw [h.vals dst hdst, h.vals src hsrc, hj] at hmem
  rw [h.vals src hsrc, hj] at hreads
  rw [h.vals dst hdst, hj] at hwrites
  refine ⟨⟨fun v hv => (hc.vals v (Nat.lt_of_lt_of_le hv hq)).trans (h.vals v hv), ?_, ?_, ?_⟩,
    hc.vals⟩
  · -- the source is still what it was, and the overlap is written with what is there
    rw [hmem, h.mem, loadBytes_copyBytes hapart (hk.trans hn) hn,
      storeBytes_copyBytes hapart hjk hk hn]
  · obtain ⟨as, has, hin⟩ := h.reads
    refine ⟨_ ++ as, by rw [hreads, has, List.append_assoc], fun a ha => ?_⟩
    rcases List.mem_append.1 ha with ha | ha
    · exact inBuffer_of_mem_span ha hn (by omega)
    · exact hin a ha
  · obtain ⟨as, has, hin⟩ := h.writes
    refine ⟨_ ++ as, by rw [hwrites, has, List.append_assoc], fun a ha => ?_⟩
    rcases List.mem_append.1 ha with ha | ha
    · exact inBuffer_of_mem_span ha hn (by omega)
    · exact hin a ha

/-- The distance of the last `w` bytes from the base. -/
theorem add_neg_ofNat {x : BitVec 64} {w : ℕ} (hw : w ≤ x.toNat) :
    x + -BitVec.ofNat 64 w = BitVec.ofNat 64 (x.toNat - w) := by
  have hlt := x.isLt
  apply BitVec.eq_of_toNat_eq
  rw [← BitVec.sub_eq_add_neg, BitVec.toNat_sub, BitVec.toNat_ofNat, BitVec.toNat_ofNat]
  omega

/-- The last word, half word and so on, which overlaps what is copied. -/
theorem Copying.last {len : Value} {imm : BitVec 64} (h : Copying r dst src n s₀ k s)
    (ty : Width) (hapart : BuffersApart (s₀.vals dst) (s₀.vals src) n) (hdst : dst < r)
    (hsrc : src < r) (hlen : len < r) (hn : (s₀.vals len).toNat = n) (hq : r ≤ q)
    (himm : imm = -BitVec.ofNat 64 ty.bytes) (hw : ty.bytes ≤ n) (hk : k ≤ n)
    (hlast : n ≤ k + ty.bytes) : Copying r dst src n s₀ n
      (execAll (.iaddImm q len imm :: cpInsts src dst ty q (q + 1)) s) := by
  have hvals : (exec s (.iaddImm q len imm)).vals q = BitVec.ofNat 64 (n - ty.bytes) := by
    rw [exec, Frame.vals_set_self, h.vals len hlen, himm, add_neg_ofNat (by omega), hn]
  have hcopy := ((h.set hq _).cp ty q hapart hdst hsrc (Nat.le_succ_of_le hq)
    (Nat.lt_succ_self q) hvals (by omega) (by omega) (by omega)).1
  rwa [Nat.sub_add_cancel hw] at hcopy

end Frames

/-! ## The copy, block by block -/

section Blocks

variable {code : Code} {r dst src len : Value} {l : Label} {n : ℕ} {s₀ : Frame}

/-- What is fixed while `emit_copy`'s code runs: its blocks are there, and the word `len` holds is
the length of two buffers apart. -/
structure Setting (code : Code) (dst src len r : Value) (l : Label) (s₀ : Frame) (n : ℕ) :
    Prop where
  blocks : ∀ x ∈ copyBlocks dst src len r l, code x.1 = some x.2
  done : (code (l + 2)).isSome
  dst_lt : dst < r
  src_lt : src < r
  len_lt : len < r
  len_eq : (s₀.vals len).toNat = n
  apart : BuffersApart (s₀.vals dst) (s₀.vals src) n

variable (h : Setting code dst src len r l s₀ n)
include h

theorem Setting.le : n ≤ 2 ^ 63 := h.apart.le

theorem Setting.block (i : ℕ) {x : Label × Ssa.Block}
    (hx : (copyBlocks dst src len r l)[i]? = some x) : code x.1 = some x.2 :=
  h.blocks x (List.mem_of_getElem? hx)

/-- The word loop copies all whole words. -/
theorem Setting.wordLoop {i : ℕ} {s : Frame} (hi : i ≤ n) (hc : Copying r dst src n s₀ i s)
    (hv : s.vals (r + 2) = BitVec.ofNat 64 i) :
    ∃ k s', Steps code ⟨l + 3, 0, s⟩ ⟨l + 5, 0, s'⟩ ∧ Copying r dst src n s₀ k s' ∧
      k ≤ n ∧ n < k + 8 := by
  have hn := h.le
  have hwh : code (l + 3) = some ⟨[r + 2], [.iaddImm (r + 4) (r + 2) 8,
    .icmp (r + 5) .unsignedLessThanOrEqual (r + 4) len],
    .brif (r + 5) (l + 4) [r + 2] (l + 5) []⟩ := h.block 8 rfl
  have hwb : code (l + 4) = some ⟨[r + 3],
    cpInsts src dst .i64 (r + 3) (r + 6) ++ [.iaddImm (r + 9) (r + 3) 8],
    .jump (l + 3) [r + 9]⟩ := h.block 7 rfl
  have htail : code (l + 5) = some _ := h.block 6 rfl
  induction hm : n - i using Nat.strong_induction_on generalizing i s with
  | _ m ih =>
    -- the comparison at the head of the loop
    have hsum : BitVec.ofNat 64 i + 8 = BitVec.ofNat 64 (i + 8) := (BitVec.ofNat_add i 8).symm
    have hlen := hc.vals len h.len_lt
    obtain ⟨s₁, hs₁, hc₁, hi₁, hcmp⟩ : ∃ s₁, execAll [.iaddImm (r + 4) (r + 2) 8,
        .icmp (r + 5) .unsignedLessThanOrEqual (r + 4) len] s = s₁ ∧
        Copying r dst src n s₀ i s₁ ∧ s₁.vals (r + 2) = BitVec.ofNat 64 i ∧
        s₁.vals (r + 5) = if decide (i + 8 ≤ n) then 1 else 0 := by
      have hne : len ≠ r + 4 := Nat.ne_of_lt (Nat.lt_add_right 4 h.len_lt)
      have hne₄ : r + 2 ≠ r + 4 := by simp
      have hne₅ : r + 2 ≠ r + 5 := by simp
      refine ⟨_, rfl, (hc.set (Nat.le_add_right r 4) _).set (Nat.le_add_right r 5) _, ?_, ?_⟩
      · exact ((Frame.vals_set_ne _ _ hne₅).trans (Frame.vals_set_ne _ _ hne₄)).trans hv
      · refine (Frame.vals_set_self _ _ _).trans ?_
        rw [exec, Frame.vals_set_self, Frame.vals_set_ne _ _ hne, hv, hlen, hsum,
          holds_ofNat_ule (by omega), h.len_eq]
    by_cases hfits : i + 8 ≤ n
    · have hbody : Steps code ⟨l + 3, 0, s⟩ ⟨l + 4, 0, s₁.set (r + 3) (BitVec.ofNat 64 i)⟩ := by
        apply steps_block hwh
        rw [hs₁, follow_brif hcmp, decide_eq_true hfits, if_pos rfl, enter_one hwb, hi₁]
      obtain ⟨hc₂, hvals⟩ := (hc₁.set (Nat.le_add_right r 3) (BitVec.ofNat 64 i)).cp .i64
        (r + 3) h.apart h.dst_lt h.src_lt (Nat.le_add_right r 6) (by simp)
        (Frame.vals_set_self _ _ _) (Nat.le_refl i) (Nat.le_add_right i 8) hfits
      have hi₂ := (hvals (r + 3) (by simp)).trans (Frame.vals_set_self _ _ _)
      generalize hs₂ : execAll (cpInsts src dst .i64 (r + 3) (r + 6))
        (s₁.set (r + 3) (BitVec.ofNat 64 i)) = s₂ at hc₂ hi₂
      have hback : Steps code ⟨l + 4, 0, s₁.set (r + 3) (BitVec.ofNat 64 i)⟩ ⟨l + 3, 0,
          (s₂.set (r + 9) (BitVec.ofNat 64 (i + 8))).set (r + 2) (BitVec.ofNat 64 (i + 8))⟩ := by
        apply steps_block hwb
        rw [execAll_append, hs₂, execAll_cons, execAll_nil, exec, hi₂, hsum]
        show enter code (l + 3) [r + 9] _ = _
        rw [enter_one hwh, Frame.vals_set_self]
      obtain ⟨k, s', hrest, hend⟩ := ih (n - (i + 8)) (by omega) hfits
        ((hc₂.set (Nat.le_add_right r 9) _).set (Nat.le_add_right r 2) _)
        (Frame.vals_set_self _ _ _) rfl
      exact ⟨k, s', (hbody.trans hback).trans hrest, hend⟩
    · have hexit : Steps code ⟨l + 3, 0, s⟩ ⟨l + 5, 0, s₁⟩ := by
        apply steps_block hwh
        rw [hs₁, follow_brif hcmp, decide_eq_false hfits, if_neg Bool.false_ne_true,
          enter_nil htail]
      exact ⟨i, s₁, hexit, hc₁, hi, by omega⟩

/-- A last block: the code ends at `done` with everything copied. -/
theorem Setting.ends {l' : Label} {is : List Inst} {s : Frame}
    (hblock : code l' = some ⟨[], is, .jump (l + 2) []⟩)
    (hc : Copying r dst src n s₀ n (execAll is s)) :
    ∃ s', Steps code ⟨l', 0, s⟩ ⟨l + 2, 0, s'⟩ ∧ Copying r dst src n s₀ n s' := by
  obtain ⟨blk, hdone⟩ := Option.isSome_iff_exists.1 h.done
  exact ⟨_, steps_block hblock (enter_nil hdone _), hc⟩

/-- From 8 bytes on: the word loop and the last word. -/
theorem Setting.big {s : Frame} (h8 : 8 ≤ n) (hc : Copying r dst src n s₀ 0 s)
    (hzero : s.vals r = 0) :
    ∃ s', Steps code ⟨l, 0, s⟩ ⟨l + 2, 0, s'⟩ ∧ Copying r dst src n s₀ n s' := by
  have hbig : code l = some ⟨[], [], .jump (l + 3) [r]⟩ := h.block 9 rfl
  have hwh : code (l + 3) = some ⟨[r + 2], _, _⟩ := h.block 8 rfl
  have htail : code (l + 5) = some ⟨[], .iaddImm (r + 10) len (-8) ::
    cpInsts src dst .i64 (r + 10) (r + 11), .jump (l + 2) []⟩ := h.block 6 rfl
  have henter : Steps code ⟨l, 0, s⟩ ⟨l + 3, 0, s.set (r + 2) 0⟩ := by
    apply steps_block hbig
    rw [execAll_nil, ← hzero]
    exact enter_one hwh s
  obtain ⟨k, s₁, hloop, hc₁, hk, hlast⟩ := h.wordLoop (Nat.zero_le n)
    (hc.set (Nat.le_add_right r 2) 0) (Frame.vals_set_self _ _ _)
  obtain ⟨s', htailRun, hc'⟩ := h.ends htail (hc₁.last .i64 h.apart h.dst_lt h.src_lt
    h.len_lt h.len_eq (Nat.le_add_right r 10) rfl h8 hk (Nat.le_of_lt hlast))
  exact ⟨s', (henter.trans hloop).trans htailRun, hc'⟩

/-- Two chunks that overlap cover every length from one to two chunks. -/
theorem Setting.twice {l' : Label} {q q' : Value} {ty : Width} {imm : BitVec 64} {s : Frame}
    (hblock : code l' = some ⟨[], cpInsts src dst ty r q ++
      .iaddImm q' len imm :: cpInsts src dst ty q' (q' + 1), .jump (l + 2) []⟩)
    (hq : r < q) (hq' : r ≤ q') (himm : imm = -BitVec.ofNat 64 ty.bytes) (hw : ty.bytes ≤ n)
    (hn : n ≤ ty.bytes + ty.bytes) (hc : Copying r dst src n s₀ 0 s) (hzero : s.vals r = 0) :
    ∃ s', Steps code ⟨l', 0, s⟩ ⟨l + 2, 0, s'⟩ ∧ Copying r dst src n s₀ n s' := by
  apply h.ends hblock
  have hfirst := (hc.cp ty r (j := 0) h.apart h.dst_lt h.src_lt (Nat.le_of_lt hq) hq hzero
    (Nat.le_refl 0) (by omega) (by omega)).1
  rw [Nat.zero_add] at hfirst
  rw [execAll_append]
  exact hfirst.last ty h.apart h.dst_lt h.src_lt h.len_lt h.len_eq hq' himm hw hw hn

/-- A block that only compares the length. -/
theorem Setting.test {l' l₁ l₂ : Label} {c : Value} {cc : IntCC} {m : BitVec 64} {p : Prop}
    [Decidable p] {s : Frame} (hblock : code l' = some ⟨[], [.icmpImm c cc len m],
      .brif c l₁ [] l₂ []⟩) (h₁ : (code l₁).isSome) (h₂ : (code l₂).isSome) (hcr : r < c)
    (hp : cc.holds (s₀.vals len) m = decide p) (hc : Copying r dst src n s₀ 0 s)
    (hzero : s.vals r = 0) :
    ∃ s', Steps code ⟨l', 0, s⟩ ⟨if p then l₁ else l₂, 0, s'⟩ ∧ Copying r dst src n s₀ 0 s' ∧
      s'.vals r = 0 := by
  have hrun := steps_test [] hblock h₁ h₂ s
  rw [hc.vals len h.len_lt, hp] at hrun
  simp only [decide_eq_true_eq] at hrun
  exact ⟨_, hrun, hc.set (Nat.le_of_lt hcr) _,
    (Frame.vals_set_ne _ _ (Nat.ne_of_lt hcr)).trans hzero⟩

theorem Setting.holds_uge {m : ℕ} (hm : m < 2 ^ 64) :
    IntCC.unsignedGreaterThanOrEqual.holds (s₀.vals len) (BitVec.ofNat 64 m) = decide (m ≤ n) := by
  rw [holds_uge_ofNat hm, h.len_eq]

/-- Below 2 bytes: one or none. -/
theorem Setting.one {s : Frame} (h2 : n < 2) (hc : Copying r dst src n s₀ 0 s)
    (hzero : s.vals r = 0) :
    ∃ s', Steps code ⟨l + 9, 0, s⟩ ⟨l + 2, 0, s'⟩ ∧ Copying r dst src n s₀ n s' := by
  have hs1 : code (l + 9) = some ⟨[], [.icmpImm (r + 30) .notEqual len 0],
    .brif (r + 30) (l + 10) [] (l + 2) []⟩ := h.block 1 rfl
  have hone : code (l + 10) = some _ := h.block 0 rfl
  have hnz : IntCC.notEqual.holds (s₀.vals len) 0 = decide (0 < n) := by
    rw [holds_ne_zero, h.len_eq]
  obtain ⟨s₁, htest, hc₁, hzero₁⟩ := h.test hs1 (by simp [hone]) h.done (by simp) hnz hc hzero
  by_cases hn : 0 < n
  · rw [if_pos hn] at htest
    obtain rfl : n = 1 := by omega
    have hlast := (hc₁.cp .i8 r (j := 0) h.apart h.dst_lt h.src_lt (Nat.le_add_right r 31)
      (by simp) hzero₁ (Nat.le_refl 0) (Nat.zero_le _) (Nat.le_refl 1)).1
    obtain ⟨s', hcopy, hc'⟩ := h.ends hone hlast
    exact ⟨s', htest.trans hcopy, hc'⟩
  · -- nothing to copy: the test leads to `done`
    rw [if_neg hn] at htest
    obtain rfl : n = 0 := by omega
    exact ⟨s₁, htest, hc₁⟩

/-- Below 4 bytes: two quarters, or less. -/
theorem Setting.quarters {s : Frame} (h4 : n < 4) (hc : Copying r dst src n s₀ 0 s)
    (hzero : s.vals r = 0) :
    ∃ s', Steps code ⟨l + 6, 0, s⟩ ⟨l + 2, 0, s'⟩ ∧ Copying r dst src n s₀ n s' := by
  have hs2 : code (l + 6) = some ⟨[], [.icmpImm (r + 22) .unsignedGreaterThanOrEqual len 2],
    .brif (r + 22) (l + 8) [] (l + 9) []⟩ := h.block 3 rfl
  have hdo2 : code (l + 8) = some _ := h.block 2 rfl
  have hs1 : code (l + 9) = some _ := h.block 1 rfl
  obtain ⟨s₁, htest, hc₁, hzero₁⟩ := h.test hs2 (by simp [hdo2]) (by simp [hs1]) (by simp)
    (h.holds_uge (m := 2) (by decide)) hc hzero
  by_cases h2 : 2 ≤ n
  · rw [if_pos h2] at htest
    obtain ⟨s', hcopy, hc'⟩ := h.twice hdo2 (by simp) (Nat.le_add_right r 26) rfl h2
      (Nat.le_of_lt h4) hc₁ hzero₁
    exact ⟨s', htest.trans hcopy, hc'⟩
  · rw [if_neg h2] at htest
    obtain ⟨s', hrest, hc'⟩ := h.one (Nat.lt_of_not_le h2) hc₁ hzero₁
    exact ⟨s', htest.trans hrest, hc'⟩

/-- Below 8 bytes: two halves, or less. -/
theorem Setting.small {s : Frame} (h8 : n < 8) (hc : Copying r dst src n s₀ 0 s)
    (hzero : s.vals r = 0) :
    ∃ s', Steps code ⟨l + 1, 0, s⟩ ⟨l + 2, 0, s'⟩ ∧ Copying r dst src n s₀ n s' := by
  have hsmall : code (l + 1) = some ⟨[], [.icmpImm (r + 14) .unsignedGreaterThanOrEqual len 4],
    .brif (r + 14) (l + 7) [] (l + 6) []⟩ := h.block 5 rfl
  have hs4 : code (l + 7) = some _ := h.block 4 rfl
  have hs2 : code (l + 6) = some _ := h.block 3 rfl
  obtain ⟨s₁, htest, hc₁, hzero₁⟩ := h.test hsmall (by simp [hs4]) (by simp [hs2]) (by simp)
    (h.holds_uge (m := 4) (by decide)) hc hzero
  by_cases h4 : 4 ≤ n
  · rw [if_pos h4] at htest
    obtain ⟨s', hcopy, hc'⟩ := h.twice hs4 (by simp) (Nat.le_add_right r 18) rfl h4
      (Nat.le_of_lt h8) hc₁ hzero₁
    exact ⟨s', htest.trans hcopy, hc'⟩
  · rw [if_neg h4] at htest
    obtain ⟨s', hrest, hc'⟩ := h.quarters (Nat.lt_of_not_le h4) hc₁ hzero₁
    exact ⟨s', htest.trans hrest, hc'⟩

end Blocks

/-! ## The whole copy -/

section Whole

variable {b : Builder} {dst src len : Value} {code : Code} {s : Frame}

/-- The setting in which the code that `emit_copy` has written runs. -/
theorem Setting.of_within (hb : b.current < b.labels) (hdst : dst < b.values)
    (hsrc : src < b.values) (hlen : len < b.values)
    (hcode : ((emitCopy dst src len).run b).2.Within code)
    (hapart : BuffersApart (s.vals dst) (s.vals src) (s.vals len).toNat) :
    Setting code dst src len b.values b.labels s (s.vals len).toNat := by
  have hbuilt := emitCopy_built dst src len hb
  refine ⟨fun x hx => hcode.filled x ?_, ?_, hdst, hsrc, hlen, rfl, hapart⟩
  · show x ∈ (emitCopy dst src len b).2.filled
    rw [hbuilt.filled]
    exact List.mem_append_left _ hx
  · obtain ⟨rest, t, hdone⟩ := hcode.current
    have hcurrent : ((emitCopy dst src len).run b).2.current = b.labels + 2 := hbuilt.current
    rw [hcurrent] at hdone
    exact Option.isSome_iff_exists.2 ⟨_, hdone⟩

/-- The block being written ends with the choice between the word loop and the ladder. -/
theorem Setting.enters {n : ℕ} (h : Setting code dst src len b.values b.labels s n)
    (hentry : code b.current = some ⟨b.params b.current, b.insts ++ [.iconst b.values 0,
      .icmpImm (b.values + 1) .unsignedGreaterThanOrEqual len 8],
      .brif (b.values + 1) b.labels [] (b.labels + 1) []⟩) :
    ∃ s', Steps code (b.here s) ⟨if 8 ≤ n then b.labels else b.labels + 1, 0, s'⟩ ∧
      Copying b.values dst src n s 0 s' ∧ s'.vals b.values = 0 := by
  have hbig : code b.labels = some _ := h.block 9 rfl
  have hsmall : code (b.labels + 1) = some _ := h.block 5 rfl
  have hconst : Steps code (b.here s) ⟨b.current, b.insts.length + 1, s.set b.values 0⟩ :=
    steps_insts b.insts [.iconst b.values 0] hentry s
  -- the comparison is what is left of the block
  rw [List.append_cons] at hentry
  have htest := steps_test _ hentry (by simp [hbig]) (by simp [hsmall]) (s.set b.values 0)
  have hge : IntCC.unsignedGreaterThanOrEqual.holds (s.vals len) 8 = decide (8 ≤ n) :=
    h.holds_uge (m := 8) (by decide)
  rw [Frame.vals_set_ne _ _ (Nat.ne_of_lt h.len_lt), hge, List.length_append,
    List.length_singleton] at htest
  simp only [decide_eq_true_eq] at htest
  refine ⟨_, hconst.trans htest, ?_, ?_⟩
  · exact ((Copying.start _ _ _ _ s).set (Nat.le_refl _) _).set (Nat.le_succ _) _
  · rw [Frame.vals_set_ne _ _ (Nat.ne_of_lt (Nat.lt_succ_self _)), Frame.vals_set_self]

/-- From the point where `emit_copy` starts writing to the point where it stops, everything is
copied. -/
theorem emitCopy_copying (hb : b.current < b.labels) (hdst : dst < b.values)
    (hsrc : src < b.values) (hlen : len < b.values)
    (hcode : ((emitCopy dst src len).run b).2.Within code)
    (hapart : BuffersApart (s.vals dst) (s.vals src) (s.vals len).toNat) :
    ∃ s', Steps code (b.here s) (((emitCopy dst src len).run b).2.here s') ∧
      Copying b.values dst src (s.vals len).toNat s (s.vals len).toNat s' := by
  have hset := Setting.of_within hb hdst hsrc hlen hcode hapart
  have hbuilt := emitCopy_built dst src len hb
  have hhere : ∀ s', ((emitCopy dst src len).run b).2.here s' = ⟨b.labels + 2, 0, s'⟩ := by
    intro s'
    show Point.mk (emitCopy dst src len b).2.current (emitCopy dst src len b).2.insts.length s' = _
    rw [hbuilt.current, hbuilt.insts]
    rfl
  obtain ⟨s₁, hstart, hc₁, hzero⟩ := hset.enters (hcode.filled (b.current, _) (by
    show _ ∈ (emitCopy dst src len b).2.filled
    rw [hbuilt.filled]
    exact List.mem_append_right _ List.mem_cons_self))
  by_cases h8 : 8 ≤ (s.vals len).toNat
  · rw [if_pos h8] at hstart
    obtain ⟨s', hrun, hc⟩ := hset.big h8 hc₁ hzero
    exact ⟨s', by rw [hhere]; exact hstart.trans hrun, hc⟩
  · rw [if_neg h8] at hstart
    obtain ⟨s', hrun, hc⟩ := hset.small (Nat.lt_of_not_le h8) hc₁ hzero
    exact ⟨s', by rw [hhere]; exact hstart.trans hrun, hc⟩

/-- The code that `emit_copy` emits is memcpy, whatever the function around it is: from the point
where the copy starts it gets to the point behind the copy, and there the destination is what the
source was, no other byte has changed, all bytes read are in the source and all bytes written in
the destination. -/
theorem emitCopy_memcpy (hb : b.current < b.labels) (hdst : dst < b.values)
    (hsrc : src < b.values) (hlen : len < b.values)
    (hcode : ((emitCopy dst src len).run b).2.Within code)
    (hapart : BuffersApart (s.vals dst) (s.vals src) (s.vals len).toNat) :
    ∃ s', Steps code (b.here s) (((emitCopy dst src len).run b).2.here s') ∧
      loadBytes s'.mem (s.vals dst) (s.vals len).toNat =
        loadBytes s.mem (s.vals src) (s.vals len).toNat ∧
      (∀ a, ¬ InBuffer (s.vals dst) (s.vals len).toNat a → s'.mem a = s.mem a) ∧
      (∃ as, s'.reads = as ++ s.reads ∧ ∀ a ∈ as, InBuffer (s.vals src) (s.vals len).toNat a) ∧
      (∃ as, s'.writes = as ++ s.writes ∧ ∀ a ∈ as, InBuffer (s.vals dst) (s.vals len).toNat a) ∧
      ∀ v < b.values, s'.vals v = s.vals v := by
  obtain ⟨s', hrun, hc⟩ := emitCopy_copying hb hdst hsrc hlen hcode hapart
  have hn := hapart.le
  refine ⟨s', hrun, ?_, ?_, hc.reads, hc.writes, hc.vals⟩
  · rw [hc.mem, loadBytes_copied (by omega)]
  · intro a ha
    rw [hc.mem, copyBytes_outside ha]

/-- Three bytes, copied by the whole of a function: the values `0`, `1` and `2` are its
parameters. -/
theorem emitCopy_memcpy_three :
    let b : Builder := ⟨3, 1, fun _ => [], [], 0, []⟩
    let s : Frame := ⟨fun v => [0x2000, 0x1000, 3].getD v 0, fun a => .ofNat a.toNat, [], []⟩
    ∃ s', Steps (((emitCopy 0 1 2).run b).2.finish .ret) ⟨0, 0, s⟩ ⟨3, 0, s'⟩ ∧
      loadBytes s'.mem 0x2000 3 = loadBytes s.mem 0x1000 3 := by
  intro b s
  have hcode : ((emitCopy 0 1 2).run b).2.Within (((emitCopy 0 1 2).run b).2.finish .ret) :=
    Builder.within_finish (by decide) .ret
  obtain ⟨s', hrun, hcopy, -⟩ := emitCopy_memcpy (s := s) (by decide) (by decide) (by decide)
    (by decide) hcode (buffersApart_of_le (by decide) (by decide))
  exact ⟨s', hrun, hcopy⟩

/-- The bytes it leaves are those that the copy of the parser model leaves in its heap, wherever
the input lies. -/
theorem emitCopy_agrees {inp : Input} {m : State} {n p off : ℕ} (hb : b.current < b.labels)
    (hdst : dst < b.values) (hsrc : src < b.values) (hlen : len < b.values)
    (hcode : ((emitCopy dst src len).run b).2.Within code)
    (hapart : BuffersApart (s.vals dst) (s.vals src) (s.vals len).toNat)
    (hin : off + (s.vals len).toNat ≤ inp.stop)
    (htext : loadBytes s.mem (s.vals src) (s.vals len).toNat = inp.span off (s.vals len).toNat)
    (hn : 8 ≤ (s.vals len).toNat → (s.vals len).toNat / 8 < n) :
    ∃ s' m', Steps code (b.here s) (((emitCopy dst src len).run b).2.here s') ∧
      (Bilbo.emitCopy inp n p off (s.vals len).toNat).run m = (.done (), m') ∧
      readCells m'.mem p (s.vals len).toNat =
        ints (loadBytes s'.mem (s.vals dst) (s.vals len).toNat) := by
  obtain ⟨s', hrun, hc⟩ := emitCopy_copying hb hdst hsrc hlen hcode hapart
  refine ⟨s', _, hrun, emitCopy_run hin hn, ?_⟩
  have hstored := readCells_writeCells m.mem p (ints (inp.span off (s.vals len).toNat))
  rw [length_ints, Input.length_span hin] at hstored
  have hle := hapart.le
  rw [hc.mem, loadBytes_copied (by omega), htext]
  exact hstored

end Whole

end Emit

end Bilbo
