import Mathlib.Data.List.Perm.Basic
import Mathlib.Data.List.Range
import Bilbo.Base.Transition

/-!
# Functions as graphs of blocks

Code in single-assignment form over whatever operations, words and memory there are: blocks with
parameters, calls between functions, and a stack of activations to run them on. What an operation
does is a parameter, `Semantics`.

A program that writes such code is a `Build`. It goes from builder to builder, and carries the proof
that it only ever adds to what is written (`Builder.Ext`): every function that the later builder is
part of, the earlier one is part of too. So `Wrote code m b a b'`, which says that `m` has written its
part of `code` between two builders, comes apart at each bind, and each piece of a program that emits
code can be run on its own, from the point where its writing starts to the point where it stops.
-/

namespace Base.Cfg

/-! ## Code -/

/-- A value. -/
abbrev Value := ℕ

/-- A block. -/
abbrev Label := ℕ

/-- A function. -/
abbrev FuncRef := ℕ

/-- An instruction. The value it defines comes first. -/
inductive Inst (Op : Type) where
  | define (r : Value) (o : Op) (args : List Value)
  /-- an operation without a result -/
  | effect (o : Op) (args : List Value)
  | call (r : Value) (f : FuncRef) (args : List Value)
deriving DecidableEq, Repr

/-- How a block ends. -/
inductive Term where
  | jump (l : Label) (args : List Value)
  | brif (c : Value) (l : Label) (args : List Value) (l' : Label) (args' : List Value)
  /-- to the block that the table has for a number, or to the last one -/
  | switch (v : Value) (table : List (ℕ × Label)) (l : Label)
  | ret (args : List Value)
deriving DecidableEq, Repr

/-- Where a block may go, and with how many arguments. -/
def Term.targets : Term → List (Label × ℕ)
  | .jump l args => [(l, args.length)]
  | .brif _ l args l' args' => [(l, args.length), (l', args'.length)]
  | .switch _ table l => (l, 0) :: table.map fun e => (e.2, 0)
  | .ret _ => []

/-- A block. -/
structure Block (Op : Type) where
  params : List Value
  insts : List (Inst Op)
  term : Term
deriving DecidableEq, Repr

/-- The blocks of a function; it is entered at block 0. -/
abbrev Code (Op : Type) := Label → Option (Block Op)

/-- The functions of a program. -/
abbrev Program (Op : Type) := FuncRef → Option (Code Op)

variable {Op Word Loc Glob : Type}

/-! ## Running it -/

/-- What operations do with words, with what belongs to an activation, and with what belongs to
all. -/
structure Semantics (Op Word Loc Glob : Type) where
  eval : Op → List Word → Loc → Glob → Option (Word × Loc × Glob)
  /-- the condition of a branch -/
  truth : Word → Option Bool
  /-- the number that a table is looked up with -/
  index : Word → Option ℕ
  /-- what the values of a new activation hold -/
  junk : Word
  /-- what belongs to a new activation -/
  blank : Loc

/-- What instructions work on. -/
@[ext] structure Frame (Word Loc : Type) where
  vals : Value → Word
  loc : Loc

def Frame.set (fr : Frame Word Loc) (r : Value) (w : Word) : Frame Word Loc :=
  { fr with vals := fun v => if v = r then w else fr.vals v }

/-- The frame of a new activation. -/
def Semantics.frame (S : Semantics Op Word Loc Glob) : Frame Word Loc := ⟨fun _ => S.junk, S.blank⟩

/-- The parameters of a block get the words of the arguments. -/
def Frame.bind (fr : Frame Word Loc) : List Value → List Word → Frame Word Loc
  | p :: ps, w :: ws => (fr.set p w).bind ps ws
  | _, _ => fr

/-- A function that is running: the point it is at, and the value of the caller that waits for
its result. -/
structure Activation (Word Loc : Type) where
  func : FuncRef
  label : Label
  index : ℕ
  frame : Frame Word Loc
  ret : Value

/-- The activations, the running one first. -/
structure Config (Word Loc Glob : Type) where
  stack : List (Activation Word Loc)
  glob : Glob

section Step

variable (S : Semantics Op Word Loc Glob) (P : Program Op)

/-- A block is entered with the words of its arguments. -/
def enter (code : Code Op) (l : Label) (ws : List Word) (a : Activation Word Loc) :
    Option (Activation Word Loc) :=
  (code l).map fun blk => { a with label := l, index := 0, frame := a.frame.bind blk.params ws }

/-- The activation of a function that is called. -/
def activate (f : FuncRef) (ret : Value) (ws : List Word) : Option (Activation Word Loc) :=
  (P f).bind fun code => enter code 0 ws ⟨f, 0, 0, S.frame, ret⟩

/-- One instruction of the running activation. -/
def exec (a : Activation Word Loc) (rest : List (Activation Word Loc)) (g : Glob) :
    Inst Op → Option (Config Word Loc Glob)
  | .define r o args =>
    (S.eval o (args.map a.frame.vals) a.frame.loc g).map fun x =>
      ⟨{ a with index := a.index + 1, frame := { a.frame with loc := x.2.1 }.set r x.1 } :: rest,
        x.2.2⟩
  | .effect o args =>
    (S.eval o (args.map a.frame.vals) a.frame.loc g).map fun x =>
      ⟨{ a with index := a.index + 1, frame := { a.frame with loc := x.2.1 } } :: rest, x.2.2⟩
  | .call r f args =>
    (activate S P f r (args.map a.frame.vals)).map fun callee =>
      ⟨callee :: { a with index := a.index + 1 } :: rest, g⟩

/-- The end of a block of the running activation. -/
def leave (code : Code Op) (a : Activation Word Loc) (rest : List (Activation Word Loc)) (g : Glob) :
    Term → Option (Config Word Loc Glob)
  | .jump l args => (enter code l (args.map a.frame.vals) a).map fun a => ⟨a :: rest, g⟩
  | .brif c l args l' args' =>
    (S.truth (a.frame.vals c)).bind fun t =>
      (if t then enter code l (args.map a.frame.vals) a
        else enter code l' (args'.map a.frame.vals) a).map fun a => ⟨a :: rest, g⟩
  | .switch v table l =>
    (S.index (a.frame.vals v)).bind fun n =>
      (enter code ((table.lookup n).getD l) [] a).map fun a => ⟨a :: rest, g⟩
  | .ret args =>
    match rest, args with
    | [], _ => some ⟨[], g⟩
    | caller :: rest, v :: _ =>
      some ⟨{ caller with frame := caller.frame.set a.ret (a.frame.vals v) } :: rest, g⟩
    | _ :: _, [] => none

/-- What the running activation does next: an instruction, or the end of its block. -/
def next (c : Config Word Loc Glob) : Option (Inst Op ⊕ Term) :=
  c.stack.head?.bind fun a => (P a.func).bind fun code => (code a.label).map fun blk =>
    match blk.insts[a.index]? with
    | some i => .inl i
    | none => .inr blk.term

def step (c : Config Word Loc Glob) : Option (Config Word Loc Glob) :=
  match c.stack, next P c with
  | a :: rest, some (.inl i) => exec S P a rest c.glob i
  | a :: rest, some (.inr t) => (P a.func).bind fun code => leave S code a rest c.glob t
  | _, _ => none

end Step

/-! ## Frames -/

namespace Frame

variable (fr : Frame Word Loc)

@[simp] theorem loc_set (r : ℕ) (w : Word) : (fr.set r w).loc = fr.loc := rfl

@[simp] theorem vals_set_self (r : ℕ) (w : Word) : (fr.set r w).vals r = w := if_pos rfl

theorem vals_set_ne {r v : ℕ} (w : Word) (h : v ≠ r) : (fr.set r w).vals v = fr.vals v :=
  if_neg h

@[simp] theorem bind_nil (ps : List ℕ) : fr.bind ps [] = fr := by cases ps <;> rfl

@[simp] theorem loc_bind (ps : List Value) (ws : List Word) : (fr.bind ps ws).loc = fr.loc := by
  induction ps generalizing fr ws with
  | nil => rfl
  | cons p ps ih =>
    cases ws with
    | nil => rfl
    | cons w ws => exact ih (fr.set p w) ws

/-- The later frame holds the same words below `n`. -/
def Agree (n : ℕ) (fr fr' : Frame Word Loc) : Prop := ∀ v : ℕ, v < n → fr'.vals v = fr.vals v

variable {fr} {fr' fr'' : Frame Word Loc} {n m : ℕ}

theorem Agree.refl (n : ℕ) (fr : Frame Word Loc) : Agree n fr fr := fun _ _ => rfl

theorem Agree.trans (h : Agree n fr fr') (h' : Agree m fr' fr'') (hle : n ≤ m) :
    Agree n fr fr'' := fun v hv => (h' v (Nat.lt_of_lt_of_le hv hle)).trans (h v hv)

theorem Agree.le (h : Agree m fr fr') (hle : n ≤ m) : Agree n fr fr' := fun v hv =>
  h v (Nat.lt_of_lt_of_le hv hle)

theorem Agree.set (h : Agree n fr fr') {r : ℕ} (hr : n ≤ r) (w : Word) :
    Agree n fr (fr'.set r w) := fun v hv =>
  (vals_set_ne fr' w (Nat.ne_of_lt (Nat.lt_of_lt_of_le hv hr))).trans (h v hv)

theorem Agree.bind (h : Agree n fr fr') {ps : List ℕ} (hps : ∀ p ∈ ps, n ≤ p)
    (ws : List Word) : Agree n fr (fr'.bind ps ws) := by
  induction ps generalizing fr' ws with
  | nil => exact h
  | cons p ps ih =>
    cases ws with
    | nil => exact h
    | cons w ws =>
      exact ih (h.set (hps p List.mem_cons_self) w) (fun q hq => hps q (List.mem_cons_of_mem _ hq)) ws

theorem vals_bind_range' (fr : Frame Word Loc) {k n : ℕ} {ws : List Word} (hws : ws.length = n) {i : ℕ}
    {w : Word} (hi : ws[i]? = some w) : (fr.bind (List.range' k n) ws).vals (k + i) = w := by
  induction ws generalizing fr k n i with
  | nil => cases hi
  | cons w' ws ih =>
    subst hws
    rw [List.length_cons, List.range'_succ, bind]
    cases i with
    | zero =>
      have hkeep : Agree (k + 1) (fr.set k w') ((fr.set k w').bind (List.range' (k + 1) ws.length) ws) :=
        (Agree.refl _ _).bind (fun p hp => (List.mem_range'_1.1 hp).1) ws
      obtain rfl : w' = w := Option.some.inj hi
      exact (hkeep k (Nat.lt_succ_self k)).trans (vals_set_self fr k w')
    | succ i =>
      rw [← Nat.add_assoc, Nat.add_right_comm]
      exact ih (fr.set k w') rfl hi

end Frame

/-- What a table with distinct keys has, is what it is asked for. -/
theorem lookup_iff_mem {A : Type} {table : List (ℕ × A)} (hnodup : (table.map Prod.fst).Nodup) {k : ℕ}
    {a : A} : table.lookup k = some a ↔ (k, a) ∈ table := by
  induction table with
  | nil => exact iff_of_false nofun List.not_mem_nil
  | cons e table ih =>
    rw [List.map_cons, List.nodup_cons] at hnodup
    rw [List.lookup_cons, List.mem_cons, ← ih hnodup.2, Prod.ext_iff]
    by_cases hk : k = e.1
    · have hne : (k, a) ∉ table := fun hmem => hnodup.1 (hk ▸ List.mem_map.2 ⟨(k, a), hmem, rfl⟩)
      rw [← ih hnodup.2] at hne
      simp [hk, eq_comm, hk ▸ hne]
    · simp [hk, beq_eq_false_iff_ne.2 hk]

/-! ## Writing it -/

/-- The builder of a function: how many values it has handed out, how many parameters each block has,
the blocks to be written, those that are filled, the one it is writing, and the sizes of the stack
slots. -/
structure Builder (Op : Type) where
  values : ℕ
  arity : List ℕ
  pending : List Label
  filled : List (Label × Block Op)
  label : Label
  params : List Value
  insts : List (Inst Op)
  isOpen : Bool
  slots : List ℕ

namespace Builder

variable {b b' b'' : Builder Op}

/-- A builder that has not begun. -/
def empty : Builder Op := ⟨0, [], [], [], 0, [], [], false, []⟩

/-- The block being written. -/
def openLabel (b : Builder Op) : List Label := if b.isOpen then [b.label] else []

/-- All blocks. -/
def blocks (b : Builder Op) : List Label := b.pending ++ b.openLabel ++ b.filled.map Prod.fst

/-- The code written so far is part of a function. -/
structure Within (b : Builder Op) (code : Code Op) : Prop where
  filled : ∀ x ∈ b.filled, code x.1 = some x.2
  current : b.isOpen = true → ∃ rest t, code b.label = some ⟨b.params, b.insts ++ rest, t⟩

/-- Every block is in one of the three places, and has as many parameters as arguments come with the
jumps to it. -/
structure Tidy (b : Builder Op) : Prop where
  blocks : b.blocks.Perm (List.range b.arity.length)
  params : b.isOpen = true → b.arity[b.label]? = some b.params.length
  filled : ∀ x ∈ b.filled, b.arity[x.1]? = some x.2.params.length
  targets : ∀ x ∈ b.filled, ∀ t ∈ x.2.term.targets, b.arity[t.1]? = some t.2

/-- No block is filled twice. -/
theorem Tidy.nodup (h : b.Tidy) : (b.filled.map Prod.fst).Nodup := by
  have hall := h.blocks.nodup_iff.2 List.nodup_range
  rw [Builder.blocks] at hall
  exact (List.nodup_append.1 hall).2.1

theorem tidy_empty : (empty : Builder Op).Tidy :=
  ⟨List.Perm.refl [], Bool.noConfusion, fun _ h => absurd h List.not_mem_nil,
    fun _ h => absurd h List.not_mem_nil⟩

/-- What was written before is still there. -/
structure Ext (b b' : Builder Op) : Prop where
  values : b.values ≤ b'.values
  within : ∀ code, b'.Within code → b.Within code
  tidy : b.Tidy → b'.Tidy

theorem Ext.refl (b : Builder Op) : b.Ext b := ⟨Nat.le_refl _, fun _ h => h, fun h => h⟩

theorem Ext.trans (h : b.Ext b') (h' : b'.Ext b'') : b.Ext b'' :=
  ⟨h.values.trans h'.values, fun code hcode => h.within code (h'.within code hcode),
    fun ht => h'.tidy (h.tidy ht)⟩

/-- Whether there is a block with so many parameters. -/
def accepts (b : Builder Op) (t : Label × ℕ) : Bool := b.arity[t.1]? == some t.2

/-- A new block. -/
def create (b : Builder Op) (n : ℕ) : Builder Op :=
  { b with values := b.values + n, arity := b.arity ++ [n], pending := b.arity.length :: b.pending }

/-- An instruction that defines `n` values. -/
def push (b : Builder Op) (n : ℕ) (i : Inst Op) : Builder Op :=
  { b with values := b.values + n, insts := b.insts ++ [i] }

/-- The block being written ends. -/
def fill (b : Builder Op) (t : Term) : Builder Op :=
  { b with filled := (b.label, ⟨b.params, b.insts, t⟩) :: b.filled, isOpen := false }

/-- The next block to write. -/
def goTo (b : Builder Op) (l : Label) (ps : List Value) : Builder Op :=
  { b with pending := b.pending.erase l, label := l, params := ps, insts := [], isOpen := true }

theorem ext_create (b : Builder Op) (n : ℕ) : b.Ext (b.create n) := by
  refine ⟨Nat.le_add_right _ _, fun code h => ⟨h.filled, h.current⟩, fun h => ?_⟩
  have hold : ∀ {l k : ℕ}, b.arity[l]? = some k → (b.arity ++ [n])[l]? = some k := by
    intro l k hl
    obtain ⟨hlt, -⟩ := List.getElem?_eq_some_iff.1 hl
    rw [List.getElem?_append_left hlt, hl]
  refine ⟨?_, fun ho => hold (h.params ho), fun x hx => hold (h.filled x hx),
    fun x hx t ht => hold (h.targets x hx t ht)⟩
  show (b.arity.length :: b.blocks).Perm (List.range (b.arity ++ [n]).length)
  rw [List.length_append, List.length_singleton, List.range_succ]
  exact (h.blocks.cons _).trans (List.perm_append_singleton _ _).symm

theorem ext_push (b : Builder Op) (n : ℕ) (i : Inst Op) : b.Ext (b.push n i) := by
  refine ⟨Nat.le_add_right _ _, fun code h => ⟨h.filled, fun ho => ?_⟩,
    fun h => ⟨h.blocks, h.params, h.filled, h.targets⟩⟩
  obtain ⟨rest, t, hcode⟩ := h.current ho
  refine ⟨i :: rest, t, hcode.trans ?_⟩
  rw [List.append_cons]
  rfl

theorem ext_fill {t : Term} (hopen : b.isOpen = true) (ht : t.targets.all b.accepts = true) :
    b.Ext (b.fill t) := by
  refine ⟨Nat.le_refl _, fun code h => ⟨fun x hx => h.filled x (List.mem_cons_of_mem _ hx),
    fun _ => ⟨[], t, ?_⟩⟩, fun h => ⟨?_, Bool.noConfusion, ?_, ?_⟩⟩
  · rw [h.filled (b.label, ⟨b.params, b.insts, t⟩) List.mem_cons_self, List.append_nil]
  · refine List.Perm.trans ?_ h.blocks
    rw [blocks, blocks, openLabel, openLabel, if_pos hopen]
    show (b.pending ++ [] ++ b.label :: b.filled.map Prod.fst).Perm _
    rw [List.append_nil, List.append_assoc]
    exact List.Perm.refl _
  · intro x hx
    rcases List.mem_cons.1 hx with rfl | hx
    · exact h.params hopen
    · exact h.filled x hx
  · intro x hx
    rcases List.mem_cons.1 hx with rfl | hx
    · intro tgt htgt
      exact beq_iff_eq.1 (List.all_eq_true.1 ht tgt htgt)
    · exact h.targets x hx

theorem ext_goTo {l : Label} {ps : List Value} (hclosed : b.isOpen = false) (hl : l ∈ b.pending)
    (hps : b.accepts (l, ps.length) = true) : b.Ext (b.goTo l ps) := by
  refine ⟨Nat.le_refl _, fun code h => ⟨h.filled, fun ho => ?_⟩,
    fun h => ⟨?_, fun _ => beq_iff_eq.1 hps, h.filled, h.targets⟩⟩
  · rw [hclosed] at ho
    cases ho
  · refine List.Perm.trans ?_ h.blocks
    rw [blocks, blocks, openLabel, openLabel, hclosed]
    show (b.pending.erase l ++ [l] ++ b.filled.map Prod.fst).Perm
      (b.pending ++ [] ++ b.filled.map Prod.fst)
    rw [List.append_nil]
    exact ((List.perm_append_singleton l _).trans (List.perm_cons_erase hl).symm).append_right _

end Builder

/-- A program that writes code, or panics. It adds to what is written. -/
structure Build (Op α : Type) where
  run : Builder Op → Except String (α × Builder Op)
  ext : ∀ {b a b'}, run b = .ok (a, b') → b.Ext b'

namespace Build

variable {α β : Type}

instance : Monad (Build Op) where
  pure a := ⟨fun b => .ok (a, b), fun h => by cases h; exact .refl _⟩
  bind m k :=
    { run := fun b =>
        match m.run b with
        | .ok (a, b') => (k a).run b'
        | .error e => .error e
      ext := fun {b a b'} h => by
        rcases hm : m.run b with e | ⟨a₁, b₁⟩ <;> rw [hm] at h
        · cases h
        · exact (m.ext hm).trans ((k a₁).ext h) }

theorem run_bind (m : Build Op α) (k : α → Build Op β) (b : Builder Op) : (m >>= k).run b =
    match m.run b with
    | .ok (a, b') => (k a).run b'
    | .error e => .error e := rfl

theorem run_bind_ok {m : Build Op α} {k : α → Build Op β} {b b' : Builder Op} {a : α}
    (h : m.run b = .ok (a, b')) : (m >>= k).run b = (k a).run b' := by
  rw [run_bind, h]

theorem run_bind_error {m : Build Op α} {k : α → Build Op β} {b : Builder Op} {e : String}
    (h : m.run b = .error e) : (m >>= k).run b = .error e := by
  rw [run_bind, h]

/-- A panic. -/
def panic (e : String) : Build Op α := ⟨fun _ => .error e, fun h => by cases h⟩

/-- A step of the builder that asks for something. -/
def guarded (p : Builder Op → Bool) (e : String) (f : Builder Op → α × Builder Op)
    (h : ∀ b, p b = true → b.Ext (f b).2) : Build Op α where
  run b := if p b then .ok (f b) else .error e
  ext {b a b'} hrun := by
    split at hrun
    · next hp =>
      obtain rfl : (f b).2 = b' := congrArg Prod.snd (Except.ok.inj hrun)
      exact h b hp
    · cases hrun

end Build

/-- A block with its parameters. -/
structure Blk where
  label : Label
  params : List Value

/-- A parameter of a block. -/
def Blk.param (l : Blk) (i : ℕ) : Value := l.params.getD i 0

/-- `create_block`, with an `append_block_param` for each of its `n` parameters. -/
def createBlock (n : ℕ) : Build Op Blk :=
  .guarded (fun _ => true) "" (fun b => (⟨b.arity.length, List.range' b.values n⟩, b.create n))
    fun b _ => b.ext_create n

/-- The next block to write. -/
def switchToBlock (l : Blk) : Build Op Unit :=
  .guarded (fun b => !b.isOpen && b.pending.contains l.label && b.accepts (l.label, l.params.length))
    "you have to fill your block before switching" (fun b => ((), b.goTo l.label l.params))
    fun b h => by
      simp only [Bool.and_eq_true, Bool.not_eq_true', List.contains_iff_mem] at h
      exact Builder.ext_goTo h.1.1 h.1.2 h.2

/-- An instruction, which defines `n` values. -/
def addInst (n : ℕ) (i : Value → Inst Op) : Build Op Value :=
  .guarded Builder.isOpen "you cannot add an instruction to a block already filled"
    (fun b => (b.values, b.push n (i b.values))) fun b _ => b.ext_push n _

/-- An operation with a result. -/
def define (o : Op) (args : List Value) : Build Op Value := addInst 1 fun r => .define r o args

/-- An operation without a result. -/
def effect (o : Op) (args : List Value) : Build Op Unit := do
  let _ ← addInst 0 fun _ => .effect o args

/-- A call. -/
def call (f : FuncRef) (args : List Value) : Build Op Value := addInst 1 fun r => .call r f args

/-- The block being written ends. -/
def terminate (t : Term) : Build Op Unit :=
  .guarded (fun b => b.isOpen && t.targets.all b.accepts) "mismatched argument count"
    (fun b => ((), b.fill t)) fun b h => by
      rw [Bool.and_eq_true] at h
      exact Builder.ext_fill h.1 h.2

def jump (l : Blk) (args : List Value) : Build Op Unit := terminate (.jump l.label args)

def brif (c : Value) (l : Blk) (args : List Value) (l' : Blk) (args' : List Value) : Build Op Unit :=
  terminate (.brif c l.label args l'.label args')

/-- The dispatch on a table of numbers. -/
def switch (v : Value) (table : List (ℕ × Blk)) (l : Blk) : Build Op Unit :=
  terminate (.switch v (table.map fun e => (e.1, e.2.label)) l.label)

def return_ (args : List Value) : Build Op Unit := terminate (.ret args)

/-- A new stack slot. -/
def createStackSlot (size : ℕ) : Build Op ℕ :=
  .guarded (fun _ => true) "" (fun b => (b.slots.length, { b with slots := b.slots ++ [size] }))
    fun _ _ => ⟨Nat.le_refl _, fun _ h => ⟨h.filled, h.current⟩,
      fun h => ⟨h.blocks, h.params, h.filled, h.targets⟩⟩

/-- The blocks of a function that is finished. -/
def Builder.code (b : Builder Op) : Code Op := fun l => b.filled.lookup l

/-- The function that a program writes: all its blocks have to be filled. -/
def Build.finish (m : Build Op Unit) : Except String (Code Op) :=
  match m.run .empty with
  | .ok (_, b) =>
    if !b.isOpen && b.pending.isEmpty then .ok b.code
    else .error "all blocks should be filled before finalizing a function"
  | .error e => .error e

end Base.Cfg
