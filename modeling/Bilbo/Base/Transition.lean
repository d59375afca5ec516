import Mathlib.Logic.Relation
import Bilbo.Base.Comp

/-!
# Transition systems that follow a computation

A transition system takes small steps where a computation is one function. It follows the computation
from some configuration when it gets to one that shows the value, if the computation returns, and to
a fault, if it stops. A computation that uses up a bound has no end to get to; then the system makes
as many steps as are asked for.

`Follows.bind` and `Follows.loop` are the rules for the two ways to build a computation. As the
system is a function, where it gets to is also all that can become of it: `Follows.halts` turns the
simulation round.
-/

namespace Base

/-- A transition system: its steps, and what it means for it to fail with an `ε`. -/
structure System (C ε : Type) where
  step : C → Option C
  fault : ε → C → Prop

namespace System

variable {C ε σ α β : Type} (T : System C ε)

/-- A run of any length. -/
abbrev Steps : C → C → Prop := Relation.ReflTransGen fun c c' => T.step c = some c'

/-- There are `n` more steps. -/
def Lasts : ℕ → C → Prop
  | 0, _ => True
  | n + 1, c => ∃ c', T.step c = some c' ∧ Lasts n c'

/-- What the system does from `c` is what the computation came to: it gets to a configuration that
shows the value, it gets to a fault, or there are `N` more steps. -/
def Follows (N : ℕ) (c : C) (r : Outcome ε α × σ) (Q : α → σ → C → Prop) : Prop :=
  match r with
  | (.done a, s) => ∃ c', T.Steps c c' ∧ Q a s c'
  | (.stop e, _) => ∃ c', T.Steps c c' ∧ T.fault e c'
  | (.deep, _) => T.Lasts N c
  | (.spent, _) => T.Lasts N c

variable {T} {N : ℕ} {c c' : C}

/-! ## Steps -/

theorem Lasts.of_succ {n : ℕ} (h : T.Lasts (n + 1) c) : T.Lasts n c := by
  induction n generalizing c with
  | zero => trivial
  | succ n ih =>
    obtain ⟨c', hstep, h'⟩ := h
    exact ⟨c', hstep, ih h'⟩

theorem Lasts.mono {n m : ℕ} (h : T.Lasts m c) (hle : n ≤ m) : T.Lasts n c := by
  induction hle with
  | refl => exact h
  | step _ ih => exact ih h.of_succ

theorem Lasts.of_steps {n : ℕ} (hrun : T.Steps c c') (h : T.Lasts n c') : T.Lasts n c := by
  induction hrun using Relation.ReflTransGen.head_induction_on with
  | refl => exact h
  | head hstep _ ih => exact Lasts.of_succ ⟨_, hstep, ih⟩

/-- A run without a next step is the longest one. -/
theorem Steps.length_of_stuck (hrun : T.Steps c c') (hend : T.step c' = none) :
    ∃ k, ¬ T.Lasts k c := by
  induction hrun using Relation.ReflTransGen.head_induction_on with
  | refl =>
    refine ⟨1, fun h => ?_⟩
    obtain ⟨c₁, hstep, -⟩ := h
    rw [hend] at hstep
    cases hstep
  | head hstep _ ih =>
    obtain ⟨k, hk⟩ := ih
    refine ⟨k + 1, fun h => ?_⟩
    obtain ⟨c₁, hstep', h'⟩ := h
    rw [hstep] at hstep'
    cases hstep'
    exact hk h'

/-- Two runs to configurations without a next step are the same. -/
theorem Steps.end_unique {d : C} (hrun : T.Steps c c') (hrun' : T.Steps c d)
    (hc : T.step c' = none) (hd : T.step d = none) : c' = d := by
  induction hrun using Relation.ReflTransGen.head_induction_on with
  | refl =>
    rcases Relation.ReflTransGen.cases_head hrun' with h | ⟨c₁, hstep, -⟩
    · exact h
    · rw [hc] at hstep
      cases hstep
  | head hstep _ ih =>
    rcases Relation.ReflTransGen.cases_head hrun' with rfl | ⟨c₁, hstep', hrest⟩
    · rw [hd] at hstep
      cases hstep
    · rw [hstep] at hstep'
      cases hstep'
      exact ih hrest

/-! ## Following a computation -/

variable {r : Outcome ε α × σ} {Q Q' : α → σ → C → Prop}

theorem Follows.done {a : α} {s : σ} (h : Q a s c) : T.Follows N c (.done a, s) Q :=
  ⟨c, .refl, h⟩

theorem Follows.stop {e : ε} {s : σ} (h : T.fault e c) :
    T.Follows N c ((.stop e, s) : Outcome ε α × σ) Q := ⟨c, .refl, h⟩

/-- Steps come before. -/
theorem Follows.after (hrun : T.Steps c c') (h : T.Follows N c' r Q) : T.Follows N c r Q := by
  match r, h with
  | (.done _, _), ⟨d, hd, h⟩ => exact ⟨d, hrun.trans hd, h⟩
  | (.stop _, _), ⟨d, hd, h⟩ => exact ⟨d, hrun.trans hd, h⟩
  | (.deep, _), h => exact h.of_steps hrun
  | (.spent, _), h => exact h.of_steps hrun

/-- One step comes before. -/
theorem Follows.of_step (hstep : T.step c = some c') (h : T.Follows N c' r Q) :
    T.Follows N c r Q := h.after (.single hstep)

/-- One step comes before, and counts. -/
theorem Follows.step (hstep : T.step c = some c') (h : T.Follows N c' r Q) :
    T.Follows (N + 1) c r Q := by
  match r, h with
  | (.done _, _), ⟨d, hd, h⟩ => exact ⟨d, .head hstep hd, h⟩
  | (.stop _, _), ⟨d, hd, h⟩ => exact ⟨d, .head hstep hd, h⟩
  | (.deep, _), h => exact ⟨c', hstep, h⟩
  | (.spent, _), h => exact ⟨c', hstep, h⟩

/-- Steps come behind. -/
theorem Follows.further (h : T.Follows N c r Q)
    (hQ : ∀ a s c', Q a s c' → ∃ d, T.Steps c' d ∧ Q' a s d) : T.Follows N c r Q' := by
  match r, h with
  | (.done _, _), ⟨d, hd, h⟩ =>
    obtain ⟨d', hd', h'⟩ := hQ _ _ _ h
    exact ⟨d', hd.trans hd', h'⟩
  | (.stop _, _), h => exact h
  | (.deep, _), h => exact h
  | (.spent, _), h => exact h

theorem Follows.mono (h : T.Follows N c r Q) (hQ : ∀ a s c', Q a s c' → Q' a s c') :
    T.Follows N c r Q' := h.further fun a s c' hq => ⟨c', .refl, hQ a s c' hq⟩

theorem Follows.le {M : ℕ} (h : T.Follows M c r Q) (hle : N ≤ M) : T.Follows N c r Q := by
  match r, h with
  | (.done _, _), h => exact h
  | (.stop _, _), h => exact h
  | (.deep, _), h => exact Lasts.mono h hle
  | (.spent, _), h => exact Lasts.mono h hle

/-- What the system comes to belongs to what the computation came to. -/
theorem Follows.with_result (h : T.Follows N c r Q) :
    T.Follows N c r fun a s c' => Q a s c' ∧ r = (.done a, s) := by
  match r, h with
  | (.done _, _), ⟨d, hd, h⟩ => exact ⟨d, hd, h, rfl⟩
  | (.stop _, _), h => exact h
  | (.deep, _), h => exact h
  | (.spent, _), h => exact h

/-- A sequence is followed part by part. -/
theorem Follows.bind {x : Comp σ ε α} {f : α → Comp σ ε β} {s : σ} {R : β → σ → C → Prop}
    (hx : T.Follows N c (x.run s) Q)
    (hf : ∀ a s' c', Q a s' c' → T.Follows N c' ((f a).run s') R) :
    T.Follows N c ((x >>= f).run s) R := by
  rw [Comp.bind_run]
  rcases hr : x.run s with ⟨_ | _ | _ | _, s'⟩ <;> rw [hr] at hx
  · obtain ⟨c', hrun, h⟩ := hx
    exact (hf _ s' c' h).after hrun
  all_goals exact hx

/-- Where an iteration of a loop ends: a step before the head of the next one, or where the loop is
left. -/
def Round (T : System C ε) (I : β → σ → C → Prop) (Q : α → σ → C → Prop) : β ⊕ α → σ → C → Prop
  | .inl b, s, c => ∃ c', T.step c = some c' ∧ I b s c'
  | .inr a, s, c => Q a s c

theorem Round.mono {I I' : β → σ → C → Prop} {Q : α → σ → C → Prop} {x : β ⊕ α} {s : σ}
    (h : T.Round I Q x s c) (hI : ∀ b s c, I b s c → I' b s c) : T.Round I' Q x s c := by
  cases x with
  | inl b =>
    obtain ⟨c', hstep, hI'⟩ := h
    exact ⟨c', hstep, hI b s c' hI'⟩
  | inr a => exact h

/-- The rule for loops. `I` holds at the head of each iteration and may mention how many iterations
the bound still allows; the way back to the head takes a step, so a loop that uses up its bound
makes as many. -/
theorem Follows.loop {body : β → Comp σ ε (β ⊕ α)} (I : ℕ → β → σ → C → Prop)
    (hbody : ∀ k b s c, I (k + 1) b s c → T.Follows N c ((body b).run s) (T.Round (I k) Q))
    {n : ℕ} (hn : N ≤ n) {b : β} {s : σ} (h : I n b s c) :
    T.Follows N c ((Comp.loop body n b).run s) Q := by
  suffices hmin : T.Follows (min n N) c ((Comp.loop body n b).run s) Q by
    rwa [Nat.min_eq_right hn] at hmin
  clear hn
  induction n generalizing b s c with
  | zero =>
    rw [Nat.zero_min]
    trivial
  | succ n ih =>
    rw [Comp.loop_succ]
    refine ((hbody n b s c h).le (Nat.min_le_right _ N)).bind fun x s' c' hx => ?_
    match x, hx with
    | .inl b', ⟨c₁, hstep, hx⟩ => exact (Follows.step hstep (ih hx)).le (by omega)
    | .inr a, hx => exact Follows.done hx

/-! ## The way back -/

/-- Where the system ends, the computation has ended: with a value that shows there, unless there
was a fault on the way. -/
theorem Follows.halts {d : C} (h : T.Follows N c r Q) (hrun : T.Steps c d)
    (hend : T.step d = none) (hN : ¬ T.Lasts N c)
    (hQ : ∀ a s c', Q a s c' → T.step c' = none) :
    (∃ a s, r = (.done a, s) ∧ Q a s d) ∨
      ∃ e s c', r = (.stop e, s) ∧ T.Steps c c' ∧ T.fault e c' := by
  match r, h with
  | (.done a, s), ⟨c', hrun', h⟩ =>
    rw [hrun.end_unique hrun' hend (hQ _ _ _ h)]
    exact .inl ⟨a, s, rfl, h⟩
  | (.stop e, s), ⟨c', hrun', h⟩ => exact .inr ⟨e, s, c', rfl, hrun', h⟩
  | (.deep, _), h => exact absurd h hN
  | (.spent, _), h => exact absurd h hN

end System

end Base
