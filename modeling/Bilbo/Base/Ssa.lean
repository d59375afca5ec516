import Mathlib.Logic.Relation
import Bilbo.Base.Buffers

/-!
# Code in blocks

The part of a static-single-assignment form that integer code over a flat memory needs: values that
hold 64-bit words, instructions, and blocks with parameters that end in a jump. `step` runs code one
instruction at a time and records every byte it reads or writes; `Build` is the builder that writes
code, block by block, into a function.

Code that a builder has written is part of every function it goes on to write, so what is said of it
is said of all functions that `Builder.Within` allows: the blocks that are filled, and the block
being written with whatever follows.
-/

namespace Base.Ssa

/-! ## Code -/

/-- A value. -/
abbrev Value := ℕ

/-- A block. -/
abbrev Label := ℕ

/-- Conditions on two words. -/
inductive IntCC where
  | notEqual
  | unsignedLessThanOrEqual
  | unsignedGreaterThanOrEqual
deriving DecidableEq, Repr

def IntCC.holds : IntCC → BitVec 64 → BitVec 64 → Bool
  | .notEqual, x, y => x != y
  | .unsignedLessThanOrEqual, x, y => x ≤ y
  | .unsignedGreaterThanOrEqual, x, y => y ≤ x

/-- The integer types. -/
inductive Width where
  | i8
  | i16
  | i32
  | i64
deriving DecidableEq, Repr

def Width.bytes : Width → ℕ
  | .i8 => 1
  | .i16 => 2
  | .i32 => 4
  | .i64 => 8

/-- An instruction, with the value it defines first. -/
inductive Inst where
  | iconst (r : Value) (n : BitVec 64)
  | iadd (r x y : Value)
  | iaddImm (r x : Value) (n : BitVec 64)
  | icmp (r : Value) (cc : IntCC) (x y : Value)
  | icmpImm (r : Value) (cc : IntCC) (x : Value) (n : BitVec 64)
  | load (r : Value) (ty : Width) (addr : Value)
  | store (ty : Width) (v addr : Value)
deriving DecidableEq, Repr

/-- How a block ends. -/
inductive Term where
  | jump (l : Label) (args : List Value)
  | brif (c : Value) (l : Label) (args : List Value) (l' : Label) (args' : List Value)
  | ret
deriving DecidableEq, Repr

/-- A block. -/
structure Block where
  params : List Value
  insts : List Inst
  term : Term
deriving DecidableEq, Repr

/-- The blocks of a function. -/
abbrev Code := Label → Option Block

/-! ## Running it -/

/-- What instructions work on: the words the values hold, the memory, and the addresses of all
bytes read and written so far. -/
structure Frame where
  vals : Value → BitVec 64
  mem : Ram
  reads : List Addr
  writes : List Addr

def Frame.set (s : Frame) (r : Value) (x : BitVec 64) : Frame :=
  { s with vals := fun v => if v = r then x else s.vals v }

/-- The addresses of `w` bytes. -/
def span (a : Addr) (w : ℕ) : List Addr := (List.range w).map fun i => a + BitVec.ofNat 64 i

/-- One instruction. Memory is little-endian, and what is narrower than a word is extended with
zeros. -/
def exec (s : Frame) : Inst → Frame
  | .iconst r n => s.set r n
  | .iadd r x y => s.set r (s.vals x + s.vals y)
  | .iaddImm r x n => s.set r (s.vals x + n)
  | .icmp r cc x y => s.set r (if cc.holds (s.vals x) (s.vals y) then 1 else 0)
  | .icmpImm r cc x n => s.set r (if cc.holds (s.vals x) n then 1 else 0)
  | .load r ty a =>
    { s with reads := span (s.vals a) ty.bytes ++ s.reads }.set r
      (BitVec.ofNat 64 (ofLe (loadBytes s.mem (s.vals a) ty.bytes)))
  | .store ty v a =>
    { s with
      mem := storeBytes s.mem (s.vals a) (le ty.bytes (s.vals v).toNat)
      writes := span (s.vals a) ty.bytes ++ s.writes }

/-- Instructions in a row. -/
def execAll (is : List Inst) (s : Frame) : Frame := is.foldl exec s

/-- A point in a function: before an instruction of a block, or at its end. -/
structure Point where
  label : Label
  index : ℕ
  frame : Frame

/-- A block is entered with the words of its arguments. -/
def enter (code : Code) (l : Label) (args : List Value) (s : Frame) : Option Point :=
  (code l).map fun blk =>
    ⟨l, 0, (blk.params.zip (args.map s.vals)).foldl (fun s x => s.set x.1 x.2) s⟩

/-- The end of a block. -/
def follow (code : Code) (s : Frame) : Term → Option Point
  | .jump l args => enter code l args s
  | .brif c l args l' args' =>
    if s.vals c = 0 then enter code l' args' s else enter code l args s
  | .ret => none

def step (code : Code) (p : Point) : Option Point :=
  (code p.label).bind fun blk =>
    match blk.insts[p.index]? with
    | some i => some ⟨p.label, p.index + 1, exec p.frame i⟩
    | none => follow code p.frame blk.term

/-- A run. -/
abbrev Steps (code : Code) : Point → Point → Prop :=
  Relation.ReflTransGen fun p q => step code p = some q

/-! ## The rules for running it -/

@[simp] theorem Frame.vals_set_self (s : Frame) (r : Value) (x : BitVec 64) :
    (s.set r x).vals r = x := if_pos rfl

theorem Frame.vals_set_ne (s : Frame) {r v : Value} (x : BitVec 64) (h : v ≠ r) :
    (s.set r x).vals v = s.vals v := if_neg h

theorem holds_ofNat_ule {m : ℕ} (hm : m < 2 ^ 64) (x : BitVec 64) :
    IntCC.unsignedLessThanOrEqual.holds (BitVec.ofNat 64 m) x = decide (m ≤ x.toNat) := by
  rw [IntCC.holds, decide_eq_decide, BitVec.le_def, BitVec.toNat_ofNat, Nat.mod_eq_of_lt hm]

theorem holds_uge_ofNat {m : ℕ} (hm : m < 2 ^ 64) (x : BitVec 64) :
    IntCC.unsignedGreaterThanOrEqual.holds x (BitVec.ofNat 64 m) = decide (m ≤ x.toNat) :=
  holds_ofNat_ule hm x

theorem holds_ne_zero (x : BitVec 64) : IntCC.notEqual.holds x 0 = decide (0 < x.toNat) := by
  rw [IntCC.holds]
  by_cases hx : x = 0
  · rw [hx]
    rfl
  · have hpos : 0 < x.toNat := Nat.pos_of_ne_zero fun h => hx (BitVec.eq_of_toNat_eq h)
    rw [decide_eq_true hpos, bne_iff_ne]
    exact hx

theorem mem_span {a x : Addr} {w : ℕ} (h : x ∈ span a w) : ∃ i < w, x = a + BitVec.ofNat 64 i := by
  obtain ⟨i, hi, rfl⟩ := List.mem_map.1 h
  exact ⟨i, List.mem_range.1 hi, rfl⟩

/-- What is loaded is stored again byte for byte. -/
theorem le_load (m : Ram) (a : Addr) (ty : Width) :
    le ty.bytes (BitVec.ofNat 64 (ofLe (loadBytes m a ty.bytes))).toNat =
      loadBytes m a ty.bytes := by
  have hload := le_ofLe (loadBytes m a ty.bytes)
  rw [length_loadBytes] at hload
  have hlt : ofLe (loadBytes m a ty.bytes) < 2 ^ 64 := by
    rw [← hload, ofLe_le]
    refine (Nat.mod_lt _ (Nat.pow_pos (by decide))).trans_le ?_
    cases ty <;> decide
  rw [BitVec.toNat_ofNat, Nat.mod_eq_of_lt hlt, hload]

@[simp] theorem execAll_nil (s : Frame) : execAll [] s = s := rfl

@[simp] theorem execAll_cons (i : Inst) (is : List Inst) (s : Frame) :
    execAll (i :: is) s = execAll is (exec s i) := rfl

theorem execAll_append (is is' : List Inst) (s : Frame) :
    execAll (is ++ is') s = execAll is' (execAll is s) := List.foldl_append

variable {code : Code} {l : Label} {params : List Value} {t : Term} {q : Point}

/-- The instructions in front of a point are run one by one. -/
theorem steps_insts (pre is : List Inst) {rest : List Inst}
    (h : code l = some ⟨params, pre ++ (is ++ rest), t⟩) (s : Frame) :
    Steps code ⟨l, pre.length, s⟩ ⟨l, pre.length + is.length, execAll is s⟩ := by
  induction is generalizing pre s with
  | nil => exact .refl
  | cons i is ih =>
    have hnext : (pre ++ (i :: is ++ rest))[pre.length]? = some i := by
      rw [List.getElem?_append_right (Nat.le_refl _), Nat.sub_self]
      rfl
    have hstep : step code ⟨l, pre.length, s⟩ = some ⟨l, pre.length + 1, exec s i⟩ := by
      rw [step, h, Option.bind_some, hnext]
    have hrest := ih (pre ++ [i]) (by rw [h, List.append_assoc]; rfl) (exec s i)
    rw [List.length_append, List.length_singleton] at hrest
    rw [List.length_cons, Nat.add_comm is.length, ← Nat.add_assoc]
    exact .head hstep hrest

/-- From a point in a block to wherever the block ends. -/
theorem steps_follow (pre : List Inst) {is : List Inst}
    (h : code l = some ⟨params, pre ++ is, t⟩) {s : Frame}
    (hq : follow code (execAll is s) t = some q) : Steps code ⟨l, pre.length, s⟩ q := by
  have hcode : code l = some ⟨params, pre ++ (is ++ []), t⟩ := by
    rw [h, List.append_nil]
  have hrun := steps_insts pre is hcode s
  refine hrun.tail ?_
  have hend : (pre ++ is)[pre.length + is.length]? = none := by
    rw [List.getElem?_eq_none_iff, List.length_append]
  rw [step, h, Option.bind_some, hend]
  exact hq

/-- A block from its start. -/
theorem steps_block {is : List Inst} (h : code l = some ⟨params, is, t⟩) {s : Frame}
    (hq : follow code (execAll is s) t = some q) : Steps code ⟨l, 0, s⟩ q :=
  steps_follow [] h hq

theorem enter_nil {blk : Block} (h : code l = some blk) (s : Frame) :
    enter code l [] s = some ⟨l, 0, s⟩ := by
  rw [enter, h, Option.map_some, List.map_nil, List.zip_nil_right]
  rfl

theorem enter_one {param arg : Value} {is : List Inst} (h : code l = some ⟨[param], is, t⟩)
    (s : Frame) : enter code l [arg] s = some ⟨l, 0, s.set param (s.vals arg)⟩ := by
  rw [enter, h]
  rfl

/-- A branch on a comparison. -/
theorem follow_brif {c : Value} {s : Frame} {p : Bool} (hc : s.vals c = if p then 1 else 0)
    (l₁ l₂ : Label) (args₁ args₂ : List Value) :
    follow code s (.brif c l₁ args₁ l₂ args₂) =
      if p then enter code l₁ args₁ s else enter code l₂ args₂ s := by
  rw [follow, hc]
  cases p <;> rfl

/-- From a point where a word is compared, and a block without parameters chosen. -/
theorem steps_test (pre : List Inst) {cc : IntCC} {c x : Value} {n : BitVec 64} {l₁ l₂ : Label}
    (h : code l = some ⟨params, pre ++ [.icmpImm c cc x n], .brif c l₁ [] l₂ []⟩)
    (h₁ : (code l₁).isSome) (h₂ : (code l₂).isSome) (s : Frame) :
    Steps code ⟨l, pre.length, s⟩ ⟨if cc.holds (s.vals x) n then l₁ else l₂, 0,
      s.set c (if cc.holds (s.vals x) n then 1 else 0)⟩ := by
  obtain ⟨blk₁, h₁⟩ := Option.isSome_iff_exists.1 h₁
  obtain ⟨blk₂, h₂⟩ := Option.isSome_iff_exists.1 h₂
  apply steps_follow pre h
  show follow code (s.set c _) _ = _
  rw [follow_brif (s.vals_set_self c _), enter_nil h₁, enter_nil h₂]
  split <;> rfl

/-! ## Writing it -/

/-- The builder of a function: the values and blocks it has handed out, the parameters of the
blocks, those that are filled, and the one it is writing. -/
structure Builder where
  values : ℕ
  labels : ℕ
  params : Label → List Value
  filled : List (Label × Block)
  current : Label
  insts : List Inst

abbrev Build := StateM Builder

def createBlock : Build Label := fun b =>
  (b.labels, { b with
    labels := b.labels + 1
    params := Function.update b.params b.labels [] })

def appendBlockParam (l : Label) : Build Value := fun b =>
  (b.values, { b with
    values := b.values + 1
    params := Function.update b.params l (b.params l ++ [b.values]) })

def blockParams (l : Label) : Build (List Value) := fun b => (b.params l, b)

/-- The next block to write. -/
def switchToBlock (l : Label) : Build Unit := fun b => ((), { b with current := l, insts := [] })

/-- An instruction that defines a value. -/
def define (i : Value → Inst) : Build Value := fun b =>
  (b.values, { b with values := b.values + 1, insts := b.insts ++ [i b.values] })

def iconst (n : BitVec 64) : Build Value := define fun r => .iconst r n

def iadd (x y : Value) : Build Value := define fun r => .iadd r x y

def iaddImm (x : Value) (n : BitVec 64) : Build Value := define fun r => .iaddImm r x n

def icmp (cc : IntCC) (x y : Value) : Build Value := define fun r => .icmp r cc x y

def icmpImm (cc : IntCC) (x : Value) (n : BitVec 64) : Build Value :=
  define fun r => .icmpImm r cc x n

def load (ty : Width) (addr : Value) : Build Value := define fun r => .load r ty addr

def store (ty : Width) (v addr : Value) : Build Unit := fun b =>
  ((), { b with insts := b.insts ++ [.store ty v addr] })

/-- The block being written ends, and is filled. -/
def terminate (t : Term) : Build Unit := fun b =>
  ((), { b with
    filled := (b.current, ⟨b.params b.current, b.insts, t⟩) :: b.filled
    insts := [] })

def jump (l : Label) (args : List Value) : Build Unit := terminate (.jump l args)

def brif (c : Value) (l : Label) (args : List Value) (l' : Label) (args' : List Value) :
    Build Unit := terminate (.brif c l args l' args')

section Bind

variable {α : Type} (b : Builder)

theorem createBlock_bind (f : Label → Build α) : (createBlock >>= f) b = f b.labels { b with
    labels := b.labels + 1
    params := Function.update b.params b.labels [] } := rfl

theorem appendBlockParam_bind (l : Label) (f : Value → Build α) :
    (appendBlockParam l >>= f) b = f b.values { b with
      values := b.values + 1
      params := Function.update b.params l (b.params l ++ [b.values]) } := rfl

theorem blockParams_bind (l : Label) (f : List Value → Build α) :
    (blockParams l >>= f) b = f (b.params l) b := rfl

theorem switchToBlock_bind (l : Label) (f : Unit → Build α) :
    (switchToBlock l >>= f) b = f () { b with current := l, insts := [] } := rfl

theorem define_bind (i : Value → Inst) (f : Value → Build α) :
    (define i >>= f) b = f b.values { b with
      values := b.values + 1
      insts := b.insts ++ [i b.values] } := rfl

theorem terminate_bind (t : Term) (f : Unit → Build α) : (terminate t >>= f) b = f () { b with
    filled := (b.current, ⟨b.params b.current, b.insts, t⟩) :: b.filled
    insts := [] } := rfl

end Bind

/-- The function that the builder has written when the block it is writing ends in `t`. -/
def Builder.finish (b : Builder) (t : Term) : Code := fun l =>
  if l = b.current then some ⟨b.params l, b.insts, t⟩ else b.filled.lookup l

/-- The code written so far is part of a function. -/
structure Builder.Within (b : Builder) (code : Code) : Prop where
  filled : ∀ x ∈ b.filled, code x.1 = some x.2
  current : ∃ rest t, code b.current = some ⟨b.params b.current, b.insts ++ rest, t⟩

/-- Whatever the block being written ends in. -/
theorem Builder.within_finish {b : Builder} (h : (b.current :: b.filled.map Prod.fst).Nodup)
    (t : Term) : b.Within (b.finish t) := by
  obtain ⟨hcurrent, hfilled⟩ := List.nodup_cons.1 h
  refine ⟨fun x hx => ?_, [], t, by rw [finish, if_pos rfl, List.append_nil]⟩
  have hne : x.1 ≠ b.current := by
    intro heq
    exact hcurrent (heq ▸ List.mem_map_of_mem hx)
  obtain ⟨bs₁, bs₂, hsplit⟩ := List.append_of_mem hx
  rw [hsplit, List.map_append, List.map_cons, List.nodup_append] at hfilled
  rw [finish, if_neg hne, List.lookup_eq_some_iff]
  refine ⟨bs₁, bs₂, hsplit, fun y hy => bne_iff_ne.2 ?_⟩
  exact (hfilled.2.2 _ (List.mem_map_of_mem hy) _ List.mem_cons_self).symm

/-- The point behind the code written so far. -/
def Builder.here (b : Builder) (s : Frame) : Point := ⟨b.current, b.insts.length, s⟩

end Base.Ssa
