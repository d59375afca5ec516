import Bilbo.Base.Cfg

/-!
# Running what a program has written

`Wrote code m b a b'` says that `m` goes from the builder `b` to `b'`, returns `a`, and that what is
written then is part of `code`. It is the hypothesis about a program that emits code, and it comes
apart along the program: at a bind (`wrote_bind`) and at each call of the builder.

An activation that runs `code` is at `Ctx.point x b` when it has run what `b` has written of the block it
is writing. Each call of the builder that adds an instruction has a lemma that takes the activation
over it.
-/

namespace Base.Cfg

variable {Op Word Loc Glob ε α β : Type}

/-- `m` has written its part of `code` between two builders. -/
def Wrote (code : Code Op) (m : Build Op α) (b : Builder Op) (a : α) (b' : Builder Op) : Prop :=
  m.run b = .ok (a, b') ∧ b'.Within code

/-! ## Taking a program apart -/

section Inversion

variable {code : Code Op} {b b' : Builder Op} {a : α}

theorem wrote_pure {a' : α} : Wrote code (pure a' : Build Op α) b a b' ↔
    a' = a ∧ b = b' ∧ b'.Within code := by
  constructor
  · rintro ⟨h, hw⟩
    cases h
    exact ⟨rfl, rfl, hw⟩
  · rintro ⟨rfl, rfl, hw⟩
    exact ⟨rfl, hw⟩

theorem wrote_bind {m : Build Op α} {k : α → Build Op β} {c : β} : Wrote code (m >>= k) b c b' ↔
    ∃ a b₁, Wrote code m b a b₁ ∧ Wrote code (k a) b₁ c b' := by
  constructor
  · rintro ⟨h, hw⟩
    rcases hm : m.run b with e | ⟨a, b₁⟩
    · rw [Build.run_bind_error hm] at h
      cases h
    · rw [Build.run_bind_ok hm] at h
      exact ⟨a, b₁, ⟨hm, ((k a).ext h).within code hw⟩, h, hw⟩
  · rintro ⟨a, b₁, ⟨hm, -⟩, h, hw⟩
    exact ⟨(Build.run_bind_ok hm).trans h, hw⟩

theorem not_wrote_panic {e : String} : ¬ Wrote code (.panic e : Build Op α) b a b' := by
  rintro ⟨h, -⟩
  cases h

theorem wrote_guarded {p : Builder Op → Bool} {e : String} {f : Builder Op → α × Builder Op}
    {h : ∀ b, p b = true → b.Ext (f b).2} : Wrote code (.guarded p e f h) b a b' ↔
      p b = true ∧ f b = (a, b') ∧ b'.Within code := by
  have hrun : (Build.guarded p e f h).run b = if p b then .ok (f b) else .error e := rfl
  rw [Wrote, hrun]
  by_cases hp : p b = true
  · rw [if_pos hp]
    constructor
    · rintro ⟨h, hw⟩
      exact ⟨hp, Except.ok.inj h, hw⟩
    · rintro ⟨-, h, hw⟩
      exact ⟨congrArg Except.ok h, hw⟩
  · rw [if_neg hp]
    constructor
    · rintro ⟨h, -⟩
      cases h
    · rintro ⟨h, -⟩
      exact absurd h hp

theorem Wrote.values {m : Build Op α} (h : Wrote code m b a b') : b.values ≤ b'.values :=
  (m.ext h.1).values

theorem Wrote.ite {p : Prop} [Decidable p] {m m' : Build Op α}
    (h : Wrote code (if p then m else m') b a b') :
    p ∧ Wrote code m b a b' ∨ ¬ p ∧ Wrote code m' b a b' := by
  by_cases hp : p
  · rw [if_pos hp] at h
    exact .inl ⟨hp, h⟩
  · rw [if_neg hp] at h
    exact .inr ⟨hp, h⟩

/-- In a loop over a list each element has had its turn. -/
theorem Wrote.forM_mem {γ : Type} {xs : List γ} {f : γ → Build Op PUnit} {u : PUnit}
    (h : Wrote code (xs.forM f) b u b') {x : γ} (hx : x ∈ xs) :
    ∃ b₁ b₂, Wrote code (f x) b₁ ⟨⟩ b₂ ∧ b.values ≤ b₁.values := by
  induction xs generalizing b with
  | nil => exact absurd hx List.not_mem_nil
  | cons y ys ih =>
    obtain ⟨⟨⟩, b₁, hy, hys⟩ := wrote_bind.1 h
    rcases List.mem_cons.1 hx with rfl | hx
    · exact ⟨b, b₁, hy, Nat.le_refl _⟩
    · obtain ⟨b₂, b₃, hfx, hle⟩ := ih hys hx
      exact ⟨b₂, b₃, hfx, hy.values.trans hle⟩

theorem wrote_createBlock {n : ℕ} {l : Blk} : Wrote code (createBlock n) b l b' ↔
    l = ⟨b.arity.length, List.range' b.values n⟩ ∧ b' = b.create n ∧ b'.Within code := by
  rw [createBlock, wrote_guarded]
  simp [Prod.ext_iff, eq_comm, and_assoc]

/-- The parameters of a new block are new values. -/
theorem Wrote.block_params {n : ℕ} {l : Blk} (h : Wrote code (createBlock n) b l b') :
    l.params = List.range' b.values n ∧ b'.values = b.values + n := by
  obtain ⟨rfl, rfl, -⟩ := wrote_createBlock.1 h
  exact ⟨rfl, rfl⟩

/-- The parameters of a block are `n` values that were handed out between two builders. -/
def Blk.New (l : Blk) (n : ℕ) (b b' : Builder Op) : Prop :=
  ∃ k, l.params = List.range' k n ∧ b.values ≤ k ∧ k + n ≤ b'.values

theorem Blk.New.widen {l : Blk} {n : ℕ} {b₀ b₁ : Builder Op} (h : l.New n b b')
    (hle : b₀.values ≤ b.values) (hle' : b'.values ≤ b₁.values) : l.New n b₀ b₁ := by
  obtain ⟨k, hparams, hlo, hhi⟩ := h
  exact ⟨k, hparams, hle.trans hlo, hhi.trans hle'⟩

theorem Wrote.new {n : ℕ} {l : Blk} (h : Wrote code (createBlock n) b l b') : l.New n b b' := by
  obtain ⟨hparams, hvalues⟩ := h.block_params
  exact ⟨b.values, hparams, Nat.le_refl _, hvalues.ge⟩

/-- The block that a program goes on to write is part of the code. -/
def Blk.Written (l : Blk) (code : Code Op) : Prop :=
  ∃ is t, code l.label = some ⟨l.params, is, t⟩

theorem wrote_switchToBlock {l : Blk} {u : Unit} (h : Wrote code (switchToBlock l) b u b') :
    b' = b.goTo l.label l.params ∧ l.Written code := by
  obtain ⟨-, heq, hw⟩ := wrote_guarded.1 h
  obtain rfl : b.goTo l.label l.params = b' := congrArg Prod.snd heq
  obtain ⟨rest, t, hcode⟩ := hw.current rfl
  exact ⟨rfl, rest, t, hcode⟩

theorem wrote_addInst {n : ℕ} {i : Value → Inst Op} {r : ℕ} (h : Wrote code (addInst n i) b r b') :
    r = b.values ∧ b' = b.push n (i b.values) ∧ ∃ rest t,
      code b.label = some ⟨b.params, b.insts ++ i b.values :: rest, t⟩ := by
  obtain ⟨hopen, heq, hw⟩ := wrote_guarded.1 h
  obtain ⟨rfl, rfl⟩ := Prod.mk.inj heq
  obtain ⟨rest, t, hcode⟩ := hw.current hopen
  refine ⟨rfl, rfl, rest, t, ?_⟩
  rw [List.append_cons]
  exact hcode

theorem wrote_terminate {t : Term} {u : Unit} (h : Wrote code (terminate t) b u b') :
    b' = b.fill t ∧ code b.label = some ⟨b.params, b.insts, t⟩ := by
  obtain ⟨-, heq, hw⟩ := wrote_guarded.1 h
  obtain rfl : b.fill t = b' := congrArg Prod.snd heq
  exact ⟨rfl, hw.filled _ List.mem_cons_self⟩

theorem wrote_createStackSlot {size k : ℕ} (h : Wrote code (createStackSlot size) b k b') :
    k = b.slots.length ∧ b' = { b with slots := b.slots ++ [size] } := by
  obtain ⟨-, heq, -⟩ := wrote_guarded.1 h
  obtain ⟨rfl, rfl⟩ := Prod.mk.inj heq
  exact ⟨rfl, rfl⟩

end Inversion

/-! ## Where an activation is -/

/-- An activation of a function, up to the point it is at, and those below it. -/
structure Ctx (Word Loc : Type) where
  func : FuncRef
  ret : Value
  rest : List (Activation Word Loc)

namespace Ctx

variable (x : Ctx Word Loc)

/-- Behind what a builder has written of its block. -/
def point (b : Builder Op) (fr : Frame Word Loc) (g : Glob) : Config Word Loc Glob :=
  ⟨⟨x.func, b.label, b.insts.length, fr, x.ret⟩ :: x.rest, g⟩

/-- At the start of a block, which gets some words. -/
def start (l : Blk) (ws : List Word) (fr : Frame Word Loc) (g : Glob) : Config Word Loc Glob :=
  ⟨⟨x.func, l.label, 0, fr.bind l.params ws, x.ret⟩ :: x.rest, g⟩

end Ctx

/-- A value that has been handed out holds a word. -/
def Carries (b : Builder Op) (fr : Frame Word Loc) (v : ℕ) (w : Word) : Prop :=
  v < b.values ∧ fr.vals v = w

/-- Values that have been handed out hold what they held. -/
structure Later (b : Builder Op) (fr : Frame Word Loc) (b' : Builder Op) (fr' : Frame Word Loc) :
    Prop where
  values : b.values ≤ b'.values
  agree : Frame.Agree b.values fr fr'

section Later

variable {b b' b'' : Builder Op} {fr fr' fr'' : Frame Word Loc} {v : ℕ} {w : Word}

theorem Later.refl (b : Builder Op) (fr : Frame Word Loc) : Later b fr b fr :=
  ⟨Nat.le_refl _, .refl _ _⟩

theorem Later.trans (h : Later b fr b' fr') (h' : Later b' fr' b'' fr'') : Later b fr b'' fr'' :=
  ⟨h.values.trans h'.values, h.agree.trans h'.agree h.values⟩

theorem Later.widen (h : Later b fr b' fr') (hle : b'.values ≤ b''.values) :
    Later b fr b'' fr' := ⟨h.values.trans hle, h.agree⟩

theorem Carries.later (hv : Carries b fr v w) (h : Later b fr b' fr') : Carries b' fr' v w :=
  ⟨Nat.lt_of_lt_of_le hv.1 h.values, (h.agree v hv.1).trans hv.2⟩

theorem Carries.widen (hv : Carries b fr v w) (hle : b.values ≤ b'.values) : Carries b' fr v w :=
  ⟨Nat.lt_of_lt_of_le hv.1 hle, hv.2⟩

theorem Later.set (h : Later b fr b' fr') (hle : b'.values ≤ b''.values) {r : ℕ}
    (hr : b.values ≤ r) (w : Word) : Later b fr b'' (fr'.set r w) :=
  ⟨h.values.trans hle, h.agree.set hr w⟩

/-- A block whose parameters are new is entered. -/
theorem Later.enter {l : Blk} {k n : ℕ} (h : Frame.Agree b.values fr fr')
    (hl : l.params = List.range' k n) (hk : b.values ≤ k) (hle : k ≤ b'.values) (ws : List Word) :
    Later b fr b' (fr'.bind l.params ws) := by
  refine ⟨hk.trans hle, h.bind (fun p hp => ?_) ws⟩
  rw [hl] at hp
  exact hk.trans (List.mem_range'_1.1 hp).1

/-- The parameters of a block that was entered hold the words it was entered with. -/
theorem Carries.param {l : Blk} {k n i : ℕ} {ws : List Word} (fr : Frame Word Loc)
    (hl : l.params = List.range' k n) (hle : k + n ≤ b.values) (hws : ws.length = n)
    (hi : ws[i]? = some w) : Carries b (fr.bind l.params ws) (l.param i) w := by
  have hin : i < n := by
    rw [← hws]
    exact (List.getElem?_eq_some_iff.1 hi).1
  have hparam : l.param i = k + i := by
    rw [Blk.param, hl, List.getD_eq_getElem?_getD, List.getElem?_range' hin, Option.getD_some,
      Nat.one_mul]
  rw [hparam, hl]
  exact ⟨by omega, fr.vals_bind_range' hws hi⟩

end Later

/-- The transition system of a program. -/
def machine (S : Semantics Op Word Loc Glob) (P : Program Op)
    (fault : ε → Config Word Loc Glob → Prop) : System (Config Word Loc Glob) ε :=
  ⟨step S P, fault⟩

/-- From one point of a function to another, with nothing done beyond its values. -/
structure Went (T : System (Config Word Loc Glob) ε) (x : Ctx Word Loc) (g : Glob) (b : Builder Op)
    (fr : Frame Word Loc) (b' : Builder Op) (fr' : Frame Word Loc) : Prop where
  steps : T.Steps (x.point b fr g) (x.point b' fr' g)
  later : Later b fr b' fr'

section Went

variable {T : System (Config Word Loc Glob) ε} {x : Ctx Word Loc} {g : Glob} {b b' b'' : Builder Op}
  {fr fr' fr'' : Frame Word Loc}

theorem Went.refl : Went T x g b fr b fr := ⟨.refl, .refl b fr⟩

theorem Went.trans (h : Went T x g b fr b' fr') (h' : Went T x g b' fr' b'' fr'') :
    Went T x g b fr b'' fr'' := ⟨h.steps.trans h'.steps, h.later.trans h'.later⟩

/-- A new block changes nothing where the code is. -/
theorem Wrote.created {code : Code Op} {n : ℕ} {l : Blk} (h : Wrote code (createBlock n) b l b') :
    Went T x g b fr b' fr := by
  have hle := h.values
  obtain ⟨-, rfl, -⟩ := wrote_createBlock.1 h
  exact ⟨.refl, (Later.refl b fr).widen hle⟩

end Went

/-! ## The rules for running it -/

section Rules

variable {S : Semantics Op Word Loc Glob} {P : Program Op} {code : Code Op} {x : Ctx Word Loc}
  {b b' : Builder Op} {fr : Frame Word Loc} {g g' : Glob} {r : ℕ} {u : Unit}

/-- A block that a program switches to is written from its start. -/
theorem Wrote.start_eq {l : Blk} (h : Wrote code (switchToBlock l) b u b') (ws : List Word)
    (fr : Frame Word Loc) (g : Glob) : x.start l ws fr g = x.point b' (fr.bind l.params ws) g := by
  obtain ⟨rfl, -⟩ := wrote_switchToBlock h
  rfl

theorem Ctx.next_point {blk : Block Op} (hP : P x.func = some code) (hcode : code b.label = some blk)
    (fr : Frame Word Loc) (g : Glob) : next P (x.point b fr g) =
      match blk.insts[b.insts.length]? with
      | some i => some (.inl i)
      | none => some (.inr blk.term) := by
  have hhead : (x.point b fr g).stack.head? =
      some ⟨x.func, b.label, b.insts.length, fr, x.ret⟩ := rfl
  rw [next, hhead, Option.bind_some, hP, Option.bind_some, hcode, Option.map_some]
  cases blk.insts[b.insts.length]? <;> rfl

/-- A block with new parameters is entered from somewhere. -/
theorem Wrote.entered {T : System (Config Word Loc Glob) ε} {b₁ b₂ : Builder Op}
    {fr₁ : Frame Word Loc} {l : Blk} {k n : ℕ} {ws : List Word}
    (h : Wrote code (switchToBlock l) b₁ u b₂) (hl : l.params = List.range' k n)
    (hk : b.values ≤ k) (hle : k ≤ b₂.values) (hagree : Frame.Agree b.values fr fr₁)
    (hrun : T.Steps (x.point b fr g) (x.start l ws fr₁ g)) :
    Went T x g b fr b₂ (fr₁.bind l.params ws) := by
  rw [h.start_eq] at hrun
  exact ⟨hrun, Later.enter hagree hl hk hle ws⟩

theorem Wrote.next_addInst {n : ℕ} {i : Value → Inst Op} (h : Wrote code (addInst n i) b r b')
    (hP : P x.func = some code) (fr : Frame Word Loc) (g : Glob) :
    next P (x.point b fr g) = some (.inl (i b.values)) := by
  obtain ⟨-, -, rest, t, hcode⟩ := wrote_addInst h
  rw [Ctx.next_point hP hcode, List.getElem?_append_right (Nat.le_refl _), Nat.sub_self]
  rfl

theorem Wrote.next_terminate {t : Term} (h : Wrote code (terminate t) b u b')
    (hP : P x.func = some code) (fr : Frame Word Loc) (g : Glob) :
    next P (x.point b fr g) = some (.inr t) := by
  obtain ⟨-, hcode⟩ := wrote_terminate h
  rw [Ctx.next_point hP hcode, List.getElem?_eq_none (Nat.le_refl _)]

theorem step_inst {i : Inst Op} (h : next P (x.point b fr g) = some (.inl i)) :
    step S P (x.point b fr g) =
      exec S P ⟨x.func, b.label, b.insts.length, fr, x.ret⟩ x.rest g i := by
  rw [step, h]
  rfl

theorem step_term {t : Term} (h : next P (x.point b fr g) = some (.inr t))
    (hP : P x.func = some code) : step S P (x.point b fr g) =
      leave S code ⟨x.func, b.label, b.insts.length, fr, x.ret⟩ x.rest g t := by
  rw [step, h]
  show ((P x.func).bind fun code => _) = _
  rw [hP]
  rfl

theorem Wrote.define_value {o : Op} {args : List Value} (h : Wrote code (define o args) b r b') :
    r = b.values ∧ b'.values = b.values + 1 := by
  obtain ⟨rfl, rfl, -⟩ := wrote_addInst h
  exact ⟨rfl, rfl⟩

/-- An operation that reaches beyond the values. -/
theorem Wrote.define_step {o : Op} {args : List Value} {w : Word} {l : Loc}
    (h : Wrote code (define o args) b r b') (hP : P x.func = some code)
    (heval : S.eval o (args.map fr.vals) fr.loc g = some (w, l, g')) :
    step S P (x.point b fr g) = some (x.point b' ({ fr with loc := l }.set r w) g') := by
  obtain ⟨rfl, rfl, -⟩ := wrote_addInst h
  rw [step_inst (h.next_addInst hP fr g), exec, heval]
  show some (Config.mk _ _) = some (Ctx.point x (b.push 1 _) _ _)
  rw [Ctx.point, Builder.push, List.length_append]
  rfl

/-- An operation on values. -/
theorem Wrote.pure_step {o : Op} {args : List Value} {w : Word}
    (h : Wrote code (define o args) b r b') (hP : P x.func = some code)
    (heval : S.eval o (args.map fr.vals) fr.loc g = some (w, fr.loc, g)) :
    step S P (x.point b fr g) = some (x.point b' (fr.set r w) g) := h.define_step hP heval

theorem map_vals {args : List Value} {ws : List Word} (h : List.Forall₂ (Carries b fr) args ws) :
    args.map fr.vals = ws := by
  rw [← List.forall₂_eq_eq_eq, List.forall₂_map_left_iff]
  exact h.imp fun _ _ h => h.2

/-- An operation on values, whose result is used after it. -/
theorem Wrote.ran {fault : ε → Config Word Loc Glob → Prop} {o : Op} {args : List Value}
    {ws : List Word} {w : Word} (h : Wrote code (define o args) b r b') (hP : P x.func = some code)
    (hargs : List.Forall₂ (Carries b fr) args ws)
    (heval : S.eval o ws fr.loc g = some (w, fr.loc, g)) :
    ∃ fr', Went (machine S P fault) x g b fr b' fr' ∧ Carries b' fr' r w ∧ fr'.loc = fr.loc := by
  obtain ⟨rfl, hvalues⟩ := h.define_value
  have hle : b.values ≤ b'.values := h.values
  refine ⟨fr.set b.values w, ⟨.single (h.pure_step hP (by rw [map_vals hargs, heval])), ?_⟩, ?_, rfl⟩
  · exact (Later.refl b fr).set hle (Nat.le_refl _) w
  · exact ⟨by omega, fr.vals_set_self _ w⟩

theorem wrote_effect {o : Op} {args : List Value} (h : Wrote code (effect o args) b u b') :
    ∃ r, Wrote code (addInst 0 fun _ => .effect o args) b r b' := by
  obtain ⟨r, b₁, hinsert, hpure⟩ := wrote_bind.1 h
  obtain ⟨-, rfl, -⟩ := wrote_pure.1 hpure
  exact ⟨r, hinsert⟩

theorem Wrote.effect_step {o : Op} {args : List Value} {w : Word} {l : Loc}
    (h : Wrote code (effect o args) b u b') (hP : P x.func = some code)
    (heval : S.eval o (args.map fr.vals) fr.loc g = some (w, l, g')) :
    step S P (x.point b fr g) = some (x.point b' { fr with loc := l } g') := by
  obtain ⟨r, h⟩ := wrote_effect h
  obtain ⟨rfl, rfl, -⟩ := wrote_addInst h
  rw [step_inst (h.next_addInst hP fr g), exec, heval]
  show some (Config.mk _ _) = some (Ctx.point x (b.push 0 _) _ _)
  rw [Ctx.point, Builder.push, List.length_append]
  rfl

/-- An operation without an effect on the values. -/
theorem Wrote.effect_values {o : Op} {args : List Value} (h : Wrote code (effect o args) b u b') :
    b'.values = b.values := by
  obtain ⟨r, h⟩ := wrote_effect h
  obtain ⟨rfl, rfl, -⟩ := wrote_addInst h
  rfl

theorem Wrote.jump_step {l : Blk} {args : List Value} (h : Wrote code (jump l args) b u b')
    (hP : P x.func = some code) (hl : l.Written code) :
    step S P (x.point b fr g) = some (x.start l (args.map fr.vals) fr g) := by
  obtain ⟨is, t, hcode⟩ := hl
  rw [step_term (h.next_terminate hP fr g) hP, leave, enter, hcode]
  rfl

/-- A branch whose condition holds or does not. -/
theorem Wrote.brif_step {c : ℕ} {l l' : Blk} {args args' : List Value} {t : Bool}
    (h : Wrote code (brif c l args l' args') b u b') (hP : P x.func = some code)
    (hl : l.Written code) (hl' : l'.Written code) (ht : S.truth (fr.vals c) = some t) :
    step S P (x.point b fr g) = some (if t then x.start l (args.map fr.vals) fr g
      else x.start l' (args'.map fr.vals) fr g) := by
  obtain ⟨is, t₁, hcode⟩ := hl
  obtain ⟨is', t₁', hcode'⟩ := hl'
  rw [step_term (h.next_terminate hP fr g) hP, leave, ht, Option.bind_some, enter, enter, hcode,
    hcode']
  cases t <;> rfl

theorem lookup_map_label (table : List (ℕ × Blk)) (l : Blk) (n : ℕ) :
    ((table.map fun e => (e.1, e.2.label)).lookup n).getD l.label =
      ((table.lookup n).getD l).label := by
  induction table with
  | nil => rfl
  | cons e table ih =>
    rw [List.map_cons, List.lookup_cons, List.lookup_cons]
    cases n == e.1
    · exact ih
    · rfl

/-- A dispatch goes to the block without parameters that the table has. -/
theorem Wrote.switch_step {v : ℕ} {table : List (ℕ × Blk)} {l : Blk} {n : ℕ}
    (h : Wrote code (switch v table l) b u b') (hP : P x.func = some code)
    (hl : ((table.lookup n).getD l).Written code) (hn : S.index (fr.vals v) = some n) :
    step S P (x.point b fr g) = some (x.start ((table.lookup n).getD l) [] fr g) := by
  obtain ⟨is, t, hcode⟩ := hl
  rw [step_term (h.next_terminate hP fr g) hP, leave, hn, Option.bind_some, lookup_map_label, enter,
    hcode]
  rfl

theorem Wrote.call_value {f : FuncRef} {args : List Value} (h : Wrote code (call f args) b r b') :
    r = b.values ∧ b'.values = b.values + 1 := by
  obtain ⟨rfl, rfl, -⟩ := wrote_addInst h
  exact ⟨rfl, rfl⟩

/-- The context of a function that is called. -/
def Ctx.callee (x : Ctx Word Loc) (f : FuncRef) (b : Builder Op) (fr : Frame Word Loc) (r : ℕ) :
    Ctx Word Loc :=
  ⟨f, r, ⟨x.func, b.label, b.insts.length + 1, fr, x.ret⟩ :: x.rest⟩

/-- A call of a function whose first block is entered with the words of the arguments. -/
theorem Wrote.call_step {f : FuncRef} {args : List Value} {code' : Code Op} {l : Blk}
    (h : Wrote code (call f args) b r b') (hP : P x.func = some code) (hf : P f = some code')
    (hl : l.Written code') (hentry : l.label = 0) :
    step S P (x.point b fr g) = some ((x.callee f b fr r).start l (args.map fr.vals) S.frame g) := by
  obtain ⟨rfl, -, -⟩ := wrote_addInst h
  obtain ⟨is, t, hcode⟩ := hl
  rw [hentry] at hcode
  rw [step_inst (h.next_addInst hP fr g), exec, activate, hf, Option.bind_some, enter, hcode, Ctx.start,
    hentry]
  rfl

/-- A function that was called returns. -/
theorem Wrote.return_step {f : FuncRef} {args : List Value} {code' : Code Op} {b₁ b₂ : Builder Op}
    {v : ℕ} {fr' : Frame Word Loc} (h : Wrote code (call f args) b r b')
    (hret : Wrote code' (return_ [v]) b₁ u b₂) (hf : P f = some code') :
    step S P ((x.callee f b fr r).point b₁ fr' g') = some (x.point b' (fr.set r (fr'.vals v)) g') := by
  obtain ⟨rfl, rfl, -⟩ := wrote_addInst h
  have hnext := hret.next_terminate (x := x.callee f b fr b.values) hf fr' g'
  rw [step_term hnext hf]
  show some (Config.mk _ _) = some (Ctx.point x (b.push 1 _) _ _)
  rw [Ctx.point, Builder.push, List.length_append]
  rfl

/-- The function that was started first returns. -/
theorem Wrote.return_last {args : List Value} (h : Wrote code (return_ args) b u b')
    (hP : P x.func = some code) (hx : x.rest = []) : step S P (x.point b fr g) = some ⟨[], g⟩ := by
  rw [step_term (h.next_terminate hP fr g) hP, hx]
  rfl

end Rules

/-! ## Finished functions -/

/-- The code of a function that is finished is what was written. -/
theorem Build.finish_wrote {m : Build Op Unit} {code : Code Op} (h : m.finish = .ok code) :
    ∃ b, Wrote code m .empty () b := by
  rw [finish] at h
  rcases hm : m.run .empty with e | ⟨⟨⟩, b⟩ <;> rw [hm] at h
  · cases h
  · simp only at h
    split at h
    · next hend =>
      simp only [Bool.and_eq_true, Bool.not_eq_true', List.isEmpty_iff] at hend
      obtain rfl : b.code = code := Except.ok.inj h
      refine ⟨b, hm, ?_, fun ho => ?_⟩
      · exact fun e he => (lookup_iff_mem ((m.ext hm).tidy Builder.tidy_empty).nodup).2 he
      · rw [hend.1] at ho
        cases ho
    · cases h

end Base.Cfg
