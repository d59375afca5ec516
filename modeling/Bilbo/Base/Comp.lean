import Mathlib.Order.Defs.Unbundled
import Mathlib.Tactic.Common
import Mathlib.Data.Nat.Notation

/-!
# Computations with a state, and the rules for running them

A computation reads and writes a state and ends in one of four ways: with a value, with a
stop that the program itself asked for, or because one of the two bounds that make
every computation total was used up: the bound on nested calls (`deep`) or the bound
on the iterations of one loop (`spent`). The state at the end is kept in all four
cases, so an invariant of every state a program reaches can be stated of the last one.

Three ways to reason about them live here:

* `Runs`, the total reading: all large enough bounds give this value and this state;
* `Ensures`, a postcondition of every ending, with the invariant rule for loops;
* `Keeps`, a preorder on states that a computation only climbs.
-/

namespace Base

/-- How a computation ends. -/
inductive Outcome (ε α : Type) where
  /-- it returns a value -/
  | done (a : α)
  /-- the program stops -/
  | stop (e : ε)
  /-- the bound on nested calls is used up -/
  | deep
  /-- the bound on loop iterations is used up -/
  | spent
deriving DecidableEq, Repr

/-- A computation over the state `σ`, stopping with an `ε` or returning an `α`. -/
@[ext] structure Comp (σ ε α : Type) where
  /-- the run from a state -/
  run : σ → Outcome ε α × σ

namespace Comp

variable {σ ε α β γ : Type}

instance : Monad (Comp σ ε) where
  pure a := ⟨fun s => (.done a, s)⟩
  bind x f := ⟨fun s =>
    match x.run s with
    | (.done a, s') => (f a).run s'
    | (.stop e, s') => (.stop e, s')
    | (.deep, s') => (.deep, s')
    | (.spent, s') => (.spent, s')⟩

/-- Read the state. -/
def get : Comp σ ε σ := ⟨fun s => (.done s, s)⟩

/-- Update the state. -/
def modify (f : σ → σ) : Comp σ ε Unit := ⟨fun s => (.done (), f s)⟩

/-- Stop. -/
def fail (e : ε) : Comp σ ε α := ⟨fun s => (.stop e, s)⟩

/-- The bound on nested calls is used up. -/
def deep : Comp σ ε α := ⟨fun s => (.deep, s)⟩

/-- The bound on loop iterations is used up. -/
def spent : Comp σ ε α := ⟨fun s => (.spent, s)⟩

/-- Run `x`, then `f` on the state however `x` ended: a guard that leaves its scope. -/
def onExit (x : Comp σ ε α) (f : σ → σ) : Comp σ ε α :=
  ⟨fun s => ((x.run s).1, f (x.run s).2)⟩

/-- A loop of at most `n` iterations: the body goes on with `inl` and leaves with `inr`. -/
def loop (body : β → Comp σ ε (β ⊕ α)) : ℕ → β → Comp σ ε α
  | 0, _ => spent
  | n + 1, b => body b >>= fun r =>
      match r with
      | .inl b' => loop body n b'
      | .inr a => pure a

/-! ## Equations -/

@[simp] theorem pure_run (a : α) (s : σ) : (pure a : Comp σ ε α).run s = (.done a, s) := rfl

@[simp] theorem get_run (s : σ) : (get : Comp σ ε σ).run s = (.done s, s) := rfl

@[simp] theorem modify_run (f : σ → σ) (s : σ) :
    (modify f : Comp σ ε Unit).run s = (.done (), f s) := rfl

@[simp] theorem fail_run (e : ε) (s : σ) : (fail e : Comp σ ε α).run s = (.stop e, s) := rfl

@[simp] theorem deep_run (s : σ) : (deep : Comp σ ε α).run s = (.deep, s) := rfl

@[simp] theorem spent_run (s : σ) : (spent : Comp σ ε α).run s = (.spent, s) := rfl

theorem bind_done {x : Comp σ ε α} {f : α → Comp σ ε β} {s s' : σ} {a : α}
    (h : x.run s = (.done a, s')) : (x >>= f).run s = (f a).run s' := by
  simp only [bind, h]

theorem bind_run (x : Comp σ ε α) (f : α → Comp σ ε β) (s : σ) :
    (x >>= f).run s =
      match x.run s with
      | (.done a, s') => (f a).run s'
      | (.stop e, s') => (.stop e, s')
      | (.deep, s') => (.deep, s')
      | (.spent, s') => (.spent, s') := rfl

/-- A sequence that returns has run its first part to a value. -/
theorem bind_eq_done {x : Comp σ ε α} {f : α → Comp σ ε β} {s s' : σ} {b : β}
    (h : (x >>= f).run s = (.done b, s')) :
    ∃ a s₁, x.run s = (.done a, s₁) ∧ (f a).run s₁ = (.done b, s') := by
  rw [bind_run] at h
  rcases hx : x.run s with ⟨_ | _ | _ | _, s₁⟩ <;> rw [hx] at h
  · exact ⟨_, s₁, rfl, h⟩
  all_goals cases h

/-- A sequence that stops has stopped in its first or in its second part. -/
theorem bind_eq_stop {x : Comp σ ε α} {f : α → Comp σ ε β} {s s' : σ} {e : ε}
    (h : (x >>= f).run s = (.stop e, s')) :
    x.run s = (.stop e, s') ∨
      ∃ a s₁, x.run s = (.done a, s₁) ∧ (f a).run s₁ = (.stop e, s') := by
  rw [bind_run] at h
  rcases hx : x.run s with ⟨_ | _ | _ | _, s₁⟩ <;> rw [hx] at h
  · exact .inr ⟨_, s₁, rfl, h⟩
  · cases h
    exact .inl rfl
  all_goals cases h

@[simp] theorem pure_bind_run (a : α) (f : α → Comp σ ε β) :
    (pure a : Comp σ ε α) >>= f = f a := rfl

@[simp] theorem get_bind_run (f : σ → Comp σ ε β) (s : σ) :
    ((get : Comp σ ε σ) >>= f).run s = (f s).run s := rfl

@[simp] theorem modify_bind_run (g : σ → σ) (f : Unit → Comp σ ε β) (s : σ) :
    ((modify g : Comp σ ε Unit) >>= f).run s = (f ()).run (g s) := rfl

@[simp] theorem fail_bind (e : ε) (f : α → Comp σ ε β) :
    (fail e : Comp σ ε α) >>= f = fail e := rfl

@[simp] theorem onExit_run (x : Comp σ ε α) (f : σ → σ) (s : σ) :
    (onExit x f).run s = ((x.run s).1, f (x.run s).2) := rfl

theorem bind_assoc_run (x : Comp σ ε α) (f : α → Comp σ ε β) (g : β → Comp σ ε γ) :
    (x >>= f) >>= g = x >>= fun a => f a >>= g := by
  refine Comp.ext (funext fun s => ?_)
  simp only [bind_run]
  rcases x.run s with ⟨_ | _ | _ | _, s'⟩ <;> rfl

@[simp] theorem ite_run (p : Prop) [Decidable p] (x y : Comp σ ε α) (s : σ) :
    (if p then x else y).run s = if p then x.run s else y.run s := by
  split <;> rfl

@[simp] theorem loop_zero (body : β → Comp σ ε (β ⊕ α)) (b : β) :
    loop body 0 b = spent := rfl

theorem loop_succ (body : β → Comp σ ε (β ⊕ α)) (n : ℕ) (b : β) :
    loop body (n + 1) b = body b >>= fun r =>
      match r with
      | .inl b' => loop body n b'
      | .inr a => pure a := rfl

/-! ## Computations that do not touch the state -/

/-- `x` neither reads nor writes the state. -/
def Stateless (x : Comp σ ε α) : Prop := ∃ o, ∀ s, x.run s = (o, s)

theorem Stateless.pure (a : α) : Stateless (pure a : Comp σ ε α) := ⟨.done a, fun _ => rfl⟩

theorem Stateless.fail (e : ε) : Stateless (fail e : Comp σ ε α) := ⟨.stop e, fun _ => rfl⟩

theorem Stateless.bind {x : Comp σ ε α} {f : α → Comp σ ε β} (hx : Stateless x)
    (hf : ∀ a, Stateless (f a)) : Stateless (x >>= f) := by
  obtain ⟨o, ho⟩ := hx
  cases o with
  | done a =>
    obtain ⟨o', ho'⟩ := hf a
    exact ⟨o', fun s => by rw [bind_run, ho s]; exact ho' s⟩
  | stop e => exact ⟨.stop e, fun s => by rw [bind_run, ho s]⟩
  | deep => exact ⟨.deep, fun s => by rw [bind_run, ho s]⟩
  | spent => exact ⟨.spent, fun s => by rw [bind_run, ho s]⟩

theorem Stateless.ite {p : Prop} [Decidable p] {x y : Comp σ ε α} (hx : Stateless x)
    (hy : Stateless y) : Stateless (if p then x else y) := by
  split
  · exact hx
  · exact hy

theorem Stateless.loop {body : β → Comp σ ε (β ⊕ α)} (h : ∀ b, Stateless (body b)) (n : ℕ)
    (b : β) : Stateless (loop body n b) := by
  induction n generalizing b with
  | zero => exact ⟨.spent, fun _ => rfl⟩
  | succ n ih =>
    rw [loop_succ]
    apply (h b).bind
    intro r
    cases r with
    | inl b' => exact ih b'
    | inr a => exact Stateless.pure a

/-! ## The iterations of a loop -/

/-- Under all large enough bounds `x` started in `s` returns `a` in the state `s'`. -/
def Runs (x : ℕ → ℕ → Comp σ ε α) (s : σ) (a : α) (s' : σ) : Prop :=
  ∃ N, ∀ n ≥ N, ∀ d ≥ N, (x n d).run s = (.done a, s')

/-- `Runs` for a loop, whose own bound varies apart from the bounds of its body. -/
def RunsLoop (body : ℕ → ℕ → β → Comp σ ε (β ⊕ α)) (b : β) (s : σ) (a : α) (s' : σ) : Prop :=
  ∃ N, ∀ n ≥ N, ∀ d ≥ N, ∀ k ≥ N, (loop (body n d) k b).run s = (.done a, s')

theorem Runs.of_eq {x : Comp σ ε α} {s s' : σ} {a : α} (h : x.run s = (.done a, s')) :
    Runs (fun _ _ => x) s a s' := ⟨0, fun _ _ _ _ => h⟩

theorem Runs.pure (a : α) (s : σ) : Runs (fun _ _ => (pure a : Comp σ ε α)) s a s :=
  Runs.of_eq rfl

theorem Runs.bind {x : ℕ → ℕ → Comp σ ε α} {f : ℕ → ℕ → α → Comp σ ε β} {s s₁ s₂ : σ}
    {a : α} {b : β} (hx : Runs x s a s₁) (hf : Runs (fun n d => f n d a) s₁ b s₂) :
    Runs (fun n d => x n d >>= f n d) s b s₂ := by
  obtain ⟨N, hN⟩ := hx
  obtain ⟨M, hM⟩ := hf
  refine ⟨max N M, fun n hn d hd => ?_⟩
  exact (bind_done (hN n (by omega) d (by omega))).trans (hM n (by omega) d (by omega))

/-- A deterministic first step of a run. -/
theorem Runs.bind_eq {x : Comp σ ε α} {f : ℕ → ℕ → α → Comp σ ε β} {s s₁ s₂ : σ}
    {a : α} {b : β} (hx : x.run s = (.done a, s₁)) (hf : Runs (fun n d => f n d a) s₁ b s₂) :
    Runs (fun n d => x >>= f n d) s b s₂ := (Runs.of_eq hx).bind hf

/-- A nested call: `y` under a call bound of `d + 1` is `x` under `d`. -/
theorem Runs.call {x y : ℕ → ℕ → Comp σ ε α} {s s' : σ} {a : α}
    (hxy : ∀ n d, y n (d + 1) = x n d) (hx : Runs x s a s') : Runs y s a s' := by
  obtain ⟨N, hN⟩ := hx
  refine ⟨N + 1, fun n hn d hd => ?_⟩
  obtain ⟨e, rfl⟩ : ∃ e, d = e + 1 := ⟨d - 1, by omega⟩
  rw [hxy]
  exact hN n (by omega) e (by omega)

/-- A nested call from one state: `y` there is `x` from where it takes over. -/
theorem Runs.enter {x y : ℕ → ℕ → Comp σ ε α} {s s₁ s' : σ} {a : α}
    (hxy : ∀ n d, (y n (d + 1)).run s = (x n d).run s₁) (hx : Runs x s₁ a s') : Runs y s a s' := by
  obtain ⟨N, hN⟩ := hx
  refine ⟨N + 1, fun n hn d hd => ?_⟩
  obtain ⟨e, rfl⟩ : ∃ e, d = e + 1 := ⟨d - 1, by omega⟩
  rw [hxy]
  exact hN n (by omega) e (by omega)

theorem Runs.congr {x y : ℕ → ℕ → Comp σ ε α} {s s' : σ} {a : α}
    (hxy : ∀ n d, (y n d).run s = (x n d).run s) (hx : Runs x s a s') : Runs y s a s' := by
  obtain ⟨N, hN⟩ := hx
  exact ⟨N, fun n hn d hd => (hxy n d).trans (hN n hn d hd)⟩

/-- A program has one run. -/
theorem Runs.unique {x : ℕ → ℕ → Comp σ ε α} {s s₁ s₂ : σ} {a b : α} (h : Runs x s a s₁)
    (h' : Runs x s b s₂) : a = b ∧ s₁ = s₂ := by
  obtain ⟨N, hN⟩ := h
  obtain ⟨M, hM⟩ := h'
  have heq := (hN (max N M) (by omega) (max N M) (by omega)).symm.trans
    (hM (max N M) (by omega) (max N M) (by omega))
  cases heq
  exact ⟨rfl, rfl⟩

theorem RunsLoop.exit {body : ℕ → ℕ → β → Comp σ ε (β ⊕ α)} {b : β} {s s' : σ} {a : α}
    (h : Runs (fun n d => body n d b) s (.inr a) s') : RunsLoop body b s a s' := by
  obtain ⟨N, hN⟩ := h
  refine ⟨N + 1, fun n hn d hd k hk => ?_⟩
  obtain ⟨k, rfl⟩ : ∃ j, k = j + 1 := ⟨k - 1, by omega⟩
  rw [loop_succ, bind_done (hN n (by omega) d (by omega))]
  rfl

theorem RunsLoop.step {body : ℕ → ℕ → β → Comp σ ε (β ⊕ α)} {b b' : β} {s s₁ s₂ : σ} {a : α}
    (h : Runs (fun n d => body n d b) s (.inl b') s₁) (hl : RunsLoop body b' s₁ a s₂) :
    RunsLoop body b s a s₂ := by
  obtain ⟨N, hN⟩ := h
  obtain ⟨M, hM⟩ := hl
  refine ⟨max N M + 1, fun n hn d hd k hk => ?_⟩
  obtain ⟨k, rfl⟩ : ∃ j, k = j + 1 := ⟨k - 1, by omega⟩
  rw [loop_succ, bind_done (hN n (by omega) d (by omega))]
  exact hM n (by omega) d (by omega) k (by omega)

theorem RunsLoop.runs {body : ℕ → ℕ → β → Comp σ ε (β ⊕ α)} {b : β} {s s' : σ} {a : α}
    (h : RunsLoop body b s a s') : Runs (fun n d => loop (body n d) n b) s a s' := by
  obtain ⟨N, hN⟩ := h
  exact ⟨N, fun n hn d hd => hN n hn d hd n hn⟩

/-! ## Postconditions of every ending -/

/-- `Q` holds of how `x` ends from `s`, and of the state it leaves. -/
def Ensures (x : Comp σ ε α) (s : σ) (Q : Outcome ε α → σ → Prop) : Prop :=
  Q (x.run s).1 (x.run s).2

/-- The postcondition of the first part of a sequence: a value goes on with `f`, any other
ending is already the ending of the whole. -/
def AndThen (f : α → Comp σ ε β) (Q : Outcome ε β → σ → Prop) : Outcome ε α → σ → Prop
  | .done a, s => Ensures (f a) s Q
  | .stop e, s => Q (.stop e) s
  | .deep, s => Q .deep s
  | .spent, s => Q .spent s

theorem ensures_bind {x : Comp σ ε α} {f : α → Comp σ ε β} {s : σ}
    {Q : Outcome ε β → σ → Prop} :
    Ensures (x >>= f) s Q ↔ Ensures x s (AndThen f Q) := by
  simp only [Ensures, bind_run]
  rcases x.run s with ⟨_ | _ | _ | _, s'⟩ <;> rfl

@[simp] theorem ensures_pure {a : α} {s : σ} {Q : Outcome ε α → σ → Prop} :
    Ensures (pure a : Comp σ ε α) s Q ↔ Q (.done a) s := Iff.rfl

@[simp] theorem ensures_fail {e : ε} {s : σ} {Q : Outcome ε α → σ → Prop} :
    Ensures (fail e : Comp σ ε α) s Q ↔ Q (.stop e) s := Iff.rfl

@[simp] theorem ensures_deep {s : σ} {Q : Outcome ε α → σ → Prop} :
    Ensures (deep : Comp σ ε α) s Q ↔ Q .deep s := Iff.rfl

theorem Ensures.mono {x : Comp σ ε α} {s : σ} {Q Q' : Outcome ε α → σ → Prop}
    (h : Ensures x s Q) (hQ : ∀ o s', Q o s' → Q' o s') : Ensures x s Q' := hQ _ _ h

/-- A postcondition that only speaks of the value returned carries through a sequence. -/
theorem Ensures.bind {x : Comp σ ε α} {f : α → Comp σ ε β} {s : σ}
    {P : Outcome ε α → σ → Prop} {Q : Outcome ε β → σ → Prop}
    (hx : Ensures x s P) (hf : ∀ o s', P o s' → AndThen f Q o s') :
    Ensures (x >>= f) s Q := ensures_bind.2 (hx.mono hf)

/-- The invariant rule for loops. `I` holds at the head of each iteration and may mention
how many iterations the bound still allows. -/
theorem ensures_loop {body : β → Comp σ ε (β ⊕ α)} {Q : Outcome ε α → σ → Prop}
    (I : ℕ → β → σ → Prop) (hspent : ∀ b s, I 0 b s → Q .spent s)
    (hbody : ∀ k b s, I (k + 1) b s → Ensures (body b) s fun o s' =>
      match o with
      | .done (.inl b') => I k b' s'
      | .done (.inr a) => Q (.done a) s'
      | .stop e => Q (.stop e) s'
      | .deep => Q .deep s'
      | .spent => Q .spent s') :
    ∀ (k : ℕ) (b : β) (s : σ), I k b s → Ensures (loop body k b) s Q := by
  intro k
  induction k with
  | zero => exact fun b s h => hspent b s h
  | succ k ih =>
    intro b s h
    rw [loop_succ]
    refine (hbody k b s h).bind fun o s' ho => ?_
    match o, ho with
    | .done (.inl b'), ho => exact ih b' s' ho
    | .done (.inr a), ho => exact ho
    | .stop e, ho => exact ho
    | .deep, ho => exact ho
    | .spent, ho => exact ho

/-! ## Preorders that a computation climbs -/

/-- Every run of `x` ends in a state `R`-above the one it started in. -/
def Keeps (R : σ → σ → Prop) (x : Comp σ ε α) : Prop := ∀ s, R s (x.run s).2

section Keeps

variable {R : σ → σ → Prop} [IsPreorder σ R]

theorem Keeps.pure (a : α) : Keeps R (pure a : Comp σ ε α) := fun s => refl_of R s

theorem Keeps.bind {x : Comp σ ε α} {f : α → Comp σ ε β} (hx : Keeps R x)
    (hf : ∀ a, Keeps R (f a)) : Keeps R (x >>= f) := by
  intro s
  have h := hx s
  rw [bind_run]
  rcases hxs : x.run s with ⟨_ | _ | _ | _, s'⟩ <;> rw [hxs] at h
  · exact trans_of R h (hf _ s')
  all_goals exact h

end Keeps

end Comp

end Base
