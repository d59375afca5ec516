import Bilbo.Base.Comp

/-!
# Runs that return

What the runs of a computation that return have in common: an invariant of the state that they keep,
with a condition on the value (`Maintains`), and values that agree between two runs, whatever states the
two start in (`Matches`). Nothing is said of runs that stop or use up a bound.
-/

namespace Base

namespace Comp

variable {σ ε α β γ δ : Type} {J : σ → Prop} {V V' : α → Prop} {W : β → Prop}

/-! ## An invariant of one run -/

/-- A run from a state with `J` that returns leaves a state with `J`, and a value with `V`. -/
def Maintains (J : σ → Prop) (x : Comp σ ε α) (V : α → Prop) : Prop :=
  ∀ s, J s → ∀ a s', x.run s = (.done a, s') → J s' ∧ V a

namespace Maintains

variable {x : Comp σ ε α} {f : α → Comp σ ε β}

theorem pure {a : α} (h : V a) : Maintains J (pure a : Comp σ ε α) V := by
  intro s hs b s' hrun
  cases hrun
  exact ⟨hs, h⟩

theorem fail (e : ε) : Maintains J (fail e : Comp σ ε α) V := nofun

theorem deep : Maintains J (deep : Comp σ ε α) V := nofun

theorem get : Maintains J (get : Comp σ ε σ) J := by
  intro s hs b s' hrun
  cases hrun
  exact ⟨hs, hs⟩

theorem modify {f : σ → σ} (h : ∀ s, J s → J (f s)) :
    Maintains J (modify f : Comp σ ε Unit) fun _ => True := by
  intro s hs b s' hrun
  cases hrun
  exact ⟨h s hs, trivial⟩

theorem weaken (h : Maintains J x V) (hV : ∀ a, V a → V' a) : Maintains J x V' :=
  fun s hs a s' hrun => ⟨(h s hs a s' hrun).1, hV a (h s hs a s' hrun).2⟩

theorem bind (hx : Maintains J x V) (hf : ∀ a, V a → Maintains J (f a) W) :
    Maintains J (x >>= f) W := by
  intro s hs b s' hrun
  obtain ⟨a, s₁, hrun₁, hrun₂⟩ := bind_eq_done hrun
  obtain ⟨hs₁, ha⟩ := hx s hs a s₁ hrun₁
  exact hf a ha s₁ hs₁ b s' hrun₂

theorem ite {p : Prop} [Decidable p] {y : Comp σ ε α} (hx : p → Maintains J x V)
    (hy : ¬ p → Maintains J y V) : Maintains J (if p then x else y) V := by
  split
  · exact hx (by assumption)
  · exact hy (by assumption)

/-- An invariant of the loop's own state is kept together with `J`. -/
theorem loop {body : β → Comp σ ε (β ⊕ α)} (I : β → Prop)
    (h : ∀ b, I b → Maintains J (body b) (Sum.elim I V)) (n : ℕ) {b : β} (hb : I b) :
    Maintains J (loop body n b) V := by
  induction n generalizing b with
  | zero => exact nofun
  | succ n ih =>
    rw [loop_succ]
    refine (h b hb).bind fun r hr => ?_
    cases r with
    | inl b' => exact ih hr
    | inr a => exact Maintains.pure hr

theorem forM {l : List δ} {g : δ → Comp σ ε PUnit} (h : ∀ d ∈ l, Maintains J (g d) fun _ => True) :
    Maintains J (l.forM g) fun _ => True := by
  induction l with
  | nil => exact Maintains.pure trivial
  | cons d l ih =>
    exact (h d List.mem_cons_self).bind fun _ _ => ih fun e he => h e (List.mem_cons_of_mem _ he)

end Maintains

/-! ## The values of two runs -/

/-- The values of two runs that return are related, whatever states they start in. -/
def Matches (R : α → β → Prop) (x : Comp σ ε α) (y : Comp σ ε β) : Prop :=
  ∀ s t a b s' t', x.run s = (.done a, s') → y.run t = (.done b, t') → R a b

namespace Matches

variable {R : α → β → Prop} {S : γ → δ → Prop} {x : Comp σ ε α} {y : Comp σ ε β}

theorem pure {a : α} {b : β} (h : R a b) :
    Matches R (pure a : Comp σ ε α) (pure b : Comp σ ε β) := by
  intro s t _ _ s' t' hx hy
  cases hx
  cases hy
  exact h

theorem fail (e : ε) : Matches R (fail e : Comp σ ε α) y := nofun

theorem deep : Matches R (deep : Comp σ ε α) y := nofun

/-- Of values about which nothing is said. -/
theorem any (x : Comp σ ε α) (y : Comp σ ε β) : Matches (fun _ _ => True) x y :=
  fun _ _ _ _ _ _ _ _ => trivial

theorem bind {f : α → Comp σ ε γ} {g : β → Comp σ ε δ} (hx : Matches R x y)
    (hf : ∀ a b, R a b → Matches S (f a) (g b)) : Matches S (x >>= f) (y >>= g) := by
  intro s t c d s' t' hrun hrun'
  obtain ⟨a, s₁, hrun₁, hrun₂⟩ := bind_eq_done hrun
  obtain ⟨b, t₁, hrun₁', hrun₂'⟩ := bind_eq_done hrun'
  exact hf a b (hx s t a b s₁ t₁ hrun₁ hrun₁') s₁ t₁ c d s' t' hrun₂ hrun₂'

theorem ite {p : Prop} [Decidable p] {x' : Comp σ ε α} {y' : Comp σ ε β} (h : p → Matches R x y)
    (h' : ¬ p → Matches R x' y') : Matches R (if p then x else x') (if p then y else y') := by
  split
  · exact h (by assumption)
  · exact h' (by assumption)

/-- Loops whose iterations go on and leave alike. -/
theorem loop {κ : Type} {I : κ → κ → Prop} {body body' : κ → Comp σ ε (κ ⊕ α)} {R : α → α → Prop}
    (h : ∀ b b', I b b' → Matches (Sum.LiftRel I R) (body b) (body' b')) (n : ℕ) {b b' : κ}
    (hb : I b b') : Matches R (loop body n b) (loop body' n b') := by
  induction n generalizing b b' with
  | zero => exact nofun
  | succ n ih =>
    rw [loop_succ, loop_succ]
    refine (h b b' hb).bind fun r r' hr => ?_
    cases hr with
    | inl hr => exact ih hr
    | inr hr => exact Matches.pure hr

end Matches

end Comp

end Base
