import Bilbo.Base.Cfg

/-!
# Programs that meet the demands of the builder

The builder panics when an instruction is added to no block, when a block is written twice, when a
jump has too many or too few arguments, or when a block is left over at the end. A program that keeps
an account of its blocks does none of this: `At` is the account, and each call of the builder has a
rule that says what it does to it.

A program that begins and ends inside a block, and leaves no block behind, is `Neat` when it calls no
function, and `Calls` a list of functions otherwise. Both are closed under binds, so most of a program
needs no account at all.
-/

namespace Base.Cfg

variable {Op α β γ : Type}

/-! ## Outcomes -/

section Outcomes

variable {m : Build Op α} {k : α → Build Op β} {b b' : Builder Op}

/-- `m` comes to an end that `Q` describes. -/
def Safe (m : Build Op α) (b : Builder Op) (Q : α → Builder Op → Prop) : Prop :=
  ∃ a b', m.run b = .ok (a, b') ∧ Q a b'

/-- `m` panics where `r` is an error, with its text; else it comes to an end that `Q` describes. -/
def Yields (m : Build Op α) (b : Builder Op) (r : Except String γ) (Q : γ → α → Builder Op → Prop) :
    Prop :=
  match r with
  | .ok c => Safe m b (Q c)
  | .error e => m.run b = .error e

variable {Q Q' : α → Builder Op → Prop} {R : β → Builder Op → Prop}

theorem Safe.pure {a : α} (h : Q a b) : Safe (pure a : Build Op α) b Q := ⟨a, b, rfl, h⟩

theorem Safe.bind (hm : Safe m b Q) (hk : ∀ a b', Q a b' → Safe (k a) b' R) :
    Safe (m >>= k) b R := by
  obtain ⟨a, b', hrun, hq⟩ := hm
  obtain ⟨c, b'', hrun', hr⟩ := hk a b' hq
  exact ⟨c, b'', (Build.run_bind_ok hrun).trans hrun', hr⟩

theorem Safe.mono (hm : Safe m b Q) (h : ∀ a b', Q a b' → Q' a b') : Safe m b Q' := by
  obtain ⟨a, b', hrun, hq⟩ := hm
  exact ⟨a, b', hrun, h a b' hq⟩

theorem Safe.guarded {p : Builder Op → Bool} {e : String} {f : Builder Op → α × Builder Op}
    {h : ∀ b, p b = true → b.Ext (f b).2} (hp : p b = true) (hQ : Q (f b).1 (f b).2) :
    Safe (.guarded p e f h) b Q := by
  have hrun : (Build.guarded p e f h).run b = if p b then .ok (f b) else .error e := rfl
  exact ⟨(f b).1, (f b).2, by rw [hrun, if_pos hp], hQ⟩

/-- A program that cannot panic, with one behind it that may. -/
theorem Safe.yields {r : Except String γ} {S : γ → β → Builder Op → Prop} (hm : Safe m b Q)
    (hk : ∀ a b', Q a b' → Yields (k a) b' r S) : Yields (m >>= k) b r S := by
  obtain ⟨a, b', hrun, hq⟩ := hm
  match r, hk a b' hq with
  | .ok c, ⟨d, b'', hrun', hs⟩ => exact ⟨d, b'', (Build.run_bind_ok hrun).trans hrun', hs⟩
  | .error e, he => exact (Build.run_bind_ok hrun).trans he

/-- The text of the first panic is the one that counts. -/
theorem Yields.bind {δ : Type} {r : Except String γ} {f : γ → Except String δ}
    {Q : γ → α → Builder Op → Prop} {S : δ → β → Builder Op → Prop} (hm : Yields m b r Q)
    (hk : ∀ c a b', Q c a b' → Yields (k a) b' (f c) S) : Yields (m >>= k) b (r >>= f) S := by
  match r, hm with
  | .ok c, hm => exact Safe.yields hm (hk c)
  | .error e, he => exact Build.run_bind_error he

theorem Yields.safe {r : Except String γ} {Q : γ → α → Builder Op → Prop}
    {S : γ → β → Builder Op → Prop} (hm : Yields m b r Q)
    (hk : ∀ c a b', Q c a b' → Safe (k a) b' (S c)) : Yields (m >>= k) b r S := by
  match r, hm with
  | .ok c, hm => exact Safe.bind hm (hk c)
  | .error e, he => exact Build.run_bind_error he

end Outcomes

/-! ## The account -/

/-- The function that an instruction calls. -/
def Inst.callee : Inst Op → Option FuncRef
  | .call _ f _ => some f
  | _ => none

/-- The calls that are written so far, in order. -/
def Builder.calls (b : Builder Op) : List FuncRef :=
  (b.filled.reverse.flatMap fun x => x.2.insts.filterMap Inst.callee) ++
    if b.isOpen then b.insts.filterMap Inst.callee else []

/-- A block of the builder, with as many parameters as the builder has for it. -/
def Blk.Known (l : Blk) (b : Builder Op) : Prop := b.arity[l.label]? = some l.params.length

/-- Where a program is that writes code: the blocks it may jump to, those it still has to write, whether
it is inside a block, and the calls it has written. -/
structure At (sc todo : List Blk) (o : Bool) (calls : List FuncRef) (b : Builder Op) : Prop where
  scope : ∀ l ∈ sc, l.Known b
  pending : b.pending.Perm (todo.map Blk.label)
  todo : ∀ l ∈ todo, l.Known b
  isOpen : b.isOpen = o
  calls : b.calls = calls

namespace At

variable {sc sc' todo todo' : List Blk} {o : Bool} {cs : List FuncRef} {b : Builder Op}

theorem empty : At [] [] false [] (Builder.empty : Builder Op) :=
  ⟨fun _ h => absurd h List.not_mem_nil, .refl _, fun _ h => absurd h List.not_mem_nil, rfl, rfl⟩

/-- Blocks that a part of the program does not need to know of. -/
theorem weaken (h : At sc todo o cs b) (hsub : ∀ l ∈ sc', l ∈ sc) : At sc' todo o cs b :=
  ⟨fun l hl => h.scope l (hsub l hl), h.pending, h.todo, h.isOpen, h.calls⟩

theorem perm (h : At sc todo o cs b) (hp : todo.Perm todo') : At sc todo' o cs b :=
  ⟨h.scope, h.pending.trans (hp.map _), fun l hl => h.todo l (hp.mem_iff.2 hl), h.isOpen, h.calls⟩

theorem create (h : At sc todo o cs b) (n : ℕ) : Safe (createBlock n) b fun l b' =>
    l.params.length = n ∧ At (l :: sc) (l :: todo) o cs b' := by
  have hold : ∀ l : Blk, l.Known b → l.Known (b.create n) := by
    intro l hl
    obtain ⟨hlt, -⟩ := List.getElem?_eq_some_iff.1 hl
    exact (List.getElem?_append_left hlt).trans hl
  have hnew : (⟨b.arity.length, List.range' b.values n⟩ : Blk).Known (b.create n) := by
    have hlast : (b.arity ++ [n])[b.arity.length]? = some n := List.getElem?_concat_length
    rw [Blk.Known, List.length_range']
    exact hlast
  refine .guarded rfl ⟨List.length_range', ?_, h.pending.cons _, ?_, h.isOpen, h.calls⟩
  · exact List.forall_mem_cons.2 ⟨hnew, fun l hl => hold l (h.scope l hl)⟩
  · exact List.forall_mem_cons.2 ⟨hnew, fun l hl => hold l (h.todo l hl)⟩

theorem switch {l : Blk} {rest : List Blk} (pre : List Blk) (h : At sc (pre ++ l :: rest) false cs b) :
    Safe (switchToBlock l) b fun _ => At sc (pre ++ rest) true cs := by
  have hmem : l ∈ pre ++ l :: rest := List.mem_append_right _ List.mem_cons_self
  have hperm : (l :: (pre ++ rest)).Perm (pre ++ l :: rest) := List.perm_middle.symm
  have hpending : b.pending.Perm (l.label :: (pre ++ rest).map Blk.label) :=
    h.pending.trans (hperm.symm.map _)
  have hin : l.label ∈ b.pending := hpending.mem_iff.2 List.mem_cons_self
  refine .guarded ?_ ⟨h.scope, ?_, fun l' hl' => h.todo l' (hperm.mem_iff.1 (List.mem_cons_of_mem _ hl')),
    rfl, ?_⟩
  · simp only [Bool.and_eq_true, Bool.not_eq_true', List.contains_iff_mem, Builder.accepts, beq_iff_eq]
    exact ⟨⟨h.isOpen, hin⟩, h.todo l hmem⟩
  · show (b.pending.erase l.label).Perm _
    exact ((List.perm_cons_erase hin).symm.trans hpending).cons_inv
  · have hcalls := h.calls
    rw [Builder.calls, h.isOpen] at hcalls
    exact hcalls

theorem insert (h : At sc todo true cs b) (n : ℕ) (i : Value → Inst Op) :
    Safe (addInst n i) b fun r => At sc todo true (cs ++ (i r).callee.toList) := by
  refine .guarded h.isOpen ⟨h.scope, h.pending, h.todo, h.isOpen, ?_⟩
  have hcalls := h.calls
  rw [Builder.calls, h.isOpen, if_pos rfl] at hcalls
  rw [Builder.calls, Builder.push, ← hcalls, h.isOpen, if_pos rfl, List.filterMap_append,
    List.append_assoc, List.filterMap_cons]
  cases (i b.values).callee <;> rfl

theorem terminate {t : Term} (h : At sc todo true cs b)
    (ht : ∀ x ∈ t.targets, ∃ l ∈ sc, x = (l.label, l.params.length)) :
    Safe (terminate t) b fun _ => At sc todo false cs := by
  refine .guarded ?_ ⟨h.scope, h.pending, h.todo, rfl, ?_⟩
  · rw [h.isOpen, Bool.true_and, List.all_eq_true]
    intro x hx
    obtain ⟨l, hl, rfl⟩ := ht x hx
    exact beq_iff_eq.2 (h.scope l hl)
  · have hcalls := h.calls
    rw [Builder.calls, h.isOpen, if_pos rfl] at hcalls
    rw [Builder.calls, Builder.fill, List.reverse_cons, List.flatMap_append, List.flatMap_singleton,
      if_neg Bool.false_ne_true, List.append_nil]
    exact hcalls

theorem jump {l : Blk} {args : List Value} (h : At sc todo true cs b) (hl : l ∈ sc)
    (hargs : l.params.length = args.length) : Safe (jump l args) b fun _ => At sc todo false cs := by
  refine h.terminate ?_
  rw [Term.targets, List.forall_mem_singleton]
  exact ⟨l, hl, by rw [hargs]⟩

theorem brif {c : Value} {l l' : Blk} {args args' : List Value} (h : At sc todo true cs b) (hl : l ∈ sc)
    (hargs : l.params.length = args.length) (hl' : l' ∈ sc) (hargs' : l'.params.length = args'.length) :
    Safe (brif c l args l' args') b fun _ => At sc todo false cs := by
  refine h.terminate ?_
  rw [Term.targets, List.forall_mem_cons, List.forall_mem_singleton]
  exact ⟨⟨l, hl, by rw [hargs]⟩, l', hl', by rw [hargs']⟩

theorem dispatch {v : Value} {table : List (ℕ × Blk)} {l : Blk} (h : At sc todo true cs b)
    (hl : l ∈ sc ∧ l.params.length = 0) (ht : ∀ e ∈ table, e.2 ∈ sc ∧ e.2.params.length = 0) :
    Safe (Cfg.switch v table l) b fun _ => At sc todo false cs := by
  refine h.terminate ?_
  rw [Term.targets, List.forall_mem_cons]
  refine ⟨⟨l, hl.1, by rw [hl.2]⟩, fun x hx => ?_⟩
  simp only [List.map_map, List.mem_map] at hx
  obtain ⟨e, he, rfl⟩ := hx
  obtain ⟨hmem, hlen⟩ := ht e he
  exact ⟨e.2, hmem, by rw [hlen]; rfl⟩

end At

/-! ## Programs inside a block -/

/-- A program from inside a block to inside a block, which calls no function. -/
def Neat (m : Build Op α) : Prop :=
  ∀ ⦃sc todo cs⦄ ⦃b : Builder Op⦄, At sc todo true cs b → Safe m b fun _ => At sc todo true cs

/-- A program from inside a block to inside a block, which calls some functions or panics. -/
def Calls (m : Build Op α) (r : Except String (List FuncRef)) : Prop :=
  ∀ ⦃sc todo cs⦄ ⦃b : Builder Op⦄, At sc todo true cs b →
    Yields m b r fun fs _ => At sc todo true (cs ++ fs)

/-- A program from inside a block to its end, from where it only goes to some blocks. -/
def Seals (m : Build Op α) (out : List Blk) : Prop :=
  ∀ ⦃sc todo cs⦄ ⦃b : Builder Op⦄, (∀ l ∈ out, l ∈ sc) → At sc todo true cs b →
    Safe m b fun _ => At sc todo false cs

section Programs

variable {m : Build Op α} {k : α → Build Op β} {r : Except String (List FuncRef)}

theorem Neat.pure (a : α) : Neat (pure a : Build Op α) := fun _ _ _ _ h => .pure h

theorem Neat.bind (hm : Neat m) (hk : ∀ a, Neat (k a)) : Neat (m >>= k) :=
  fun _ _ _ _ h => (hm h).bind fun a _ h' => hk a h'

theorem Neat.define (o : Op) (args : List Value) : Neat (define o args) := by
  intro sc todo cs b h
  refine (h.insert 1 fun r => .define r o args).mono fun r b' h' => ?_
  rwa [← List.append_nil cs]

theorem Neat.effect (o : Op) (args : List Value) : Neat (effect o args) := by
  intro sc todo cs b h
  refine (h.insert 0 fun _ => .effect o args).bind fun r b' h' => .pure ?_
  rwa [← List.append_nil cs]

theorem Neat.createStackSlot (size : ℕ) : Neat (createStackSlot size : Build Op ℕ) :=
  fun _ _ _ _ h => .guarded rfl ⟨h.scope, h.pending, h.todo, h.isOpen, h.calls⟩

theorem Neat.ite {p : Prop} [Decidable p] {m' : Build Op α} (hm : Neat m) (hm' : Neat m') :
    Neat (if p then m else m') := by
  split
  · exact hm
  · exact hm'

theorem Neat.forM {xs : List γ} {f : γ → Build Op PUnit} (hf : ∀ x, Neat (f x)) :
    Neat (xs.forM f) := by
  induction xs with
  | nil => exact .pure _
  | cons x xs ih => exact (hf x).bind fun _ => ih

theorem Neat.seals {out : List Blk} (hm : Neat m) (hk : ∀ a, Seals (k a) out) : Seals (m >>= k) out :=
  fun _ _ _ _ hout h => (hm h).bind fun a _ h' => hk a hout h'

theorem Neat.calls (hm : Neat m) : Calls m (.ok []) := by
  intro sc todo cs b h
  refine (hm h).mono fun a b' h' => ?_
  show At sc todo true (cs ++ []) b'
  rwa [List.append_nil]

theorem Neat.bind_calls (hm : Neat m) (hk : ∀ a, Calls (k a) r) : Calls (m >>= k) r :=
  fun _ _ _ _ h => (hm h).yields fun a _ h' => hk a h'

theorem Calls.bind_neat (hm : Calls m r) (hk : ∀ a, Neat (k a)) : Calls (m >>= k) r :=
  fun _ _ _ _ h => Yields.safe (hm h) fun _ a _ h' => hk a h'

theorem Calls.bind {r' : Except String (List FuncRef)} (hm : Calls m r) (hk : ∀ a, Calls (k a) r') :
    Calls (m >>= k) (do
      let fs ← r
      let gs ← r'
      pure (fs ++ gs)) := by
  intro sc todo cs b h
  refine Yields.bind (hm h) fun fs a b' h' => ?_
  have hrest := hk a h'
  match r', hrest with
  | .ok gs, hrest =>
    refine Safe.mono hrest fun c b'' h'' => ?_
    have hat : At sc todo true (cs ++ fs ++ gs) b'' := h''
    rwa [List.append_assoc] at hat
  | .error e, hrest => exact hrest

theorem Calls.call (f : FuncRef) (args : List Value) : Calls (call f args : Build Op Value) (.ok [f]) :=
  fun _ _ _ _ h => h.insert 1 fun r => .call r f args

theorem Calls.panic (e : String) : Calls (.panic e : Build Op α) (.error e) := fun _ _ _ _ _ => rfl

theorem Seals.jump {l : Blk} {args : List Value} (hargs : l.params.length = args.length) :
    Seals (jump l args : Build Op Unit) [l] :=
  fun _ _ _ _ hout h => h.jump (hout l List.mem_cons_self) hargs

end Programs

/-! ## Finished functions -/

/-- A function is called from the code. -/
def Code.Calls (code : Code Op) (f : FuncRef) : Prop :=
  ∃ l blk r args, code l = some blk ∧ .call r f args ∈ blk.insts

/-- All jumps of the code go to blocks of the code, with as many arguments as the block has
parameters. -/
def Code.Closed (code : Code Op) : Prop :=
  ∀ l blk, code l = some blk → ∀ t ∈ blk.term.targets, ∃ blk', code t.1 = some blk' ∧
    blk'.params.length = t.2

/-- The end of a program: its panic, or a function with the calls of `r` and a block for every jump. -/
def Build.Finishes (m : Build Op Unit) (r : Except String (List FuncRef)) : Prop :=
  match r with
  | .ok fs => ∃ code, m.finish = .ok code ∧ (∀ f, code.Calls f ↔ f ∈ fs) ∧ code.Closed
  | .error e => m.finish = .error e

/-- A program from no block to no block finishes. -/
theorem Build.finishes {m : Build Op Unit} {r : Except String (List FuncRef)}
    (h : Yields m .empty r fun fs _ => At [] [] false fs) : m.Finishes r := by
  cases r with
  | error e =>
    have hrun : m.run .empty = .error e := h
    show m.finish = .error e
    rw [Build.finish, hrun]
  | ok fs =>
    obtain ⟨⟨⟩, b, hrun, hat⟩ := h
    have htidy := (m.ext hrun).tidy Builder.tidy_empty
    have hpending : b.pending = [] := List.perm_nil.1 hat.pending
    have hblocks : (b.filled.map Prod.fst).Perm (List.range b.arity.length) := by
      have hall := htidy.blocks
      rw [Builder.blocks, Builder.openLabel, hat.isOpen, hpending] at hall
      exact hall
    have hlookup : ∀ {l blk}, b.code l = some blk ↔ (l, blk) ∈ b.filled := lookup_iff_mem htidy.nodup
    refine ⟨b.code, ?_, fun f => ?_, fun l blk hl t ht => ?_⟩
    · rw [Build.finish, hrun]
      simp only [hat.isOpen, hpending, Bool.not_false, List.isEmpty_nil, Bool.and_self, if_true]
    · have hcalls := hat.calls
      rw [Builder.calls, hat.isOpen, if_neg Bool.false_ne_true, List.append_nil] at hcalls
      rw [← hcalls, List.mem_flatMap]
      constructor
      · rintro ⟨l, blk, r, args, hl, hmem⟩
        exact ⟨(l, blk), List.mem_reverse.2 (hlookup.1 hl), List.mem_filterMap.2 ⟨_, hmem, rfl⟩⟩
      · rintro ⟨⟨l, blk⟩, hmem, hf⟩
        obtain ⟨i, hi, hcallee⟩ := List.mem_filterMap.1 hf
        cases i with
        | call r f' args =>
          obtain rfl : f' = f := Option.some.inj hcallee
          exact ⟨l, blk, r, args, hlookup.2 (List.mem_reverse.1 hmem), hi⟩
        | define r o args => cases hcallee
        | effect o args => cases hcallee
    · have harity := htidy.targets _ (hlookup.1 hl) t ht
      obtain ⟨hlt, -⟩ := List.getElem?_eq_some_iff.1 harity
      obtain ⟨⟨_, blk'⟩, hmem, rfl⟩ := List.mem_map.1 (hblocks.mem_iff.2 (List.mem_range.2 hlt))
      refine ⟨blk', hlookup.2 hmem, ?_⟩
      have hlen := htidy.filled _ hmem
      rw [harity] at hlen
      exact (Option.some.inj hlen).symm

end Base.Cfg
