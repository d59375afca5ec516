import Bilbo.Base.Comp

/-!
# What becomes of a computation

Under all large enough bounds a computation returns, stops, or goes on: it uses up one of its
bounds, however large they are. `Fated` says which of the three it is. Where `Runs` follows a
computation that returns, `Fated` follows it to an abrupt end.
-/

namespace Base

/-- What becomes of a computation. -/
inductive Fate where
  | returns
  | stops
  | goesOn
deriving DecidableEq

/-- The fate that an outcome shows. -/
def Outcome.fate {ε α : Type} : Outcome ε α → Fate
  | .done _ => .returns
  | .stop _ => .stops
  | .deep => .goesOn
  | .spent => .goesOn

namespace Comp

variable {σ ε α β : Type} {s s₁ s' : σ} {f : Fate}

/-- Under all large enough bounds `x` has this fate. -/
def Fated (x : ℕ → ℕ → Comp σ ε α) (s : σ) (f : Fate) : Prop :=
  ∃ N, ∀ n ≥ N, ∀ d ≥ N, ((x n d).run s).1.fate = f

/-- `Fated` for a loop, whose own bound varies apart from the bounds of its body. -/
def FatedLoop (body : ℕ → ℕ → β → Comp σ ε (β ⊕ α)) (b : β) (s : σ) (f : Fate) : Prop :=
  ∃ N, ∀ n ≥ N, ∀ d ≥ N, ∀ k ≥ N, ((loop (body n d) k b).run s).1.fate = f

theorem Fated.of_eq {x : Comp σ ε α} (h : (x.run s).1.fate = f) : Fated (fun _ _ => x) s f :=
  ⟨0, fun _ _ _ _ => h⟩

/-- What comes to the same end under all bounds. -/
theorem Fated.of_end {x : ℕ → ℕ → Comp σ ε α} (h : ∀ {n d}, ((x n d).run s).1.fate = f) :
    Fated x s f := ⟨0, fun _ _ _ _ => h⟩

theorem Runs.fated {x : ℕ → ℕ → Comp σ ε α} {a : α} (h : Runs x s a s') : Fated x s .returns := by
  obtain ⟨N, hN⟩ := h
  exact ⟨N, fun n hn d hd => by rw [hN n hn d hd]; rfl⟩

/-- An abrupt end is the end of the whole sequence. -/
theorem bind_fate {x : Comp σ ε α} (g : α → Comp σ ε β) (h : (x.run s).1.fate = f)
    (hf : f ≠ .returns) : ((x >>= g).run s).1.fate = f := by
  rw [bind_run]
  rcases hx : x.run s with ⟨_ | _ | _ | _, s'⟩ <;> rw [hx] at h
  · exact absurd h.symm hf
  all_goals exact h

theorem Fated.bind {x : ℕ → ℕ → Comp σ ε α} (g : ℕ → ℕ → α → Comp σ ε β) (h : Fated x s f)
    (hf : f ≠ .returns) : Fated (fun n d => x n d >>= g n d) s f := by
  obtain ⟨N, hN⟩ := h
  exact ⟨N, fun n hn d hd => bind_fate _ (hN n hn d hd) hf⟩

/-- After a part that returns, the rest decides. -/
theorem Runs.bind_fated {x : ℕ → ℕ → Comp σ ε α} {g : ℕ → ℕ → α → Comp σ ε β} {a : α}
    (hx : Runs x s a s₁) (hg : Fated (fun n d => g n d a) s₁ f) :
    Fated (fun n d => x n d >>= g n d) s f := by
  obtain ⟨N, hN⟩ := hx
  obtain ⟨M, hM⟩ := hg
  refine ⟨max N M, fun n hn d hd => ?_⟩
  rw [bind_done (hN n (by omega) d (by omega))]
  exact hM n (by omega) d (by omega)

/-- A deterministic first step. -/
theorem Fated.bind_eq {x : Comp σ ε α} {g : ℕ → ℕ → α → Comp σ ε β} {a : α}
    (hx : x.run s = (.done a, s₁)) (hg : Fated (fun n d => g n d a) s₁ f) :
    Fated (fun n d => x >>= g n d) s f := (Runs.of_eq hx).bind_fated hg

/-- Under all large enough iteration bounds `y` started in `s` does what `x` does in `s'`. -/
def Follows (y x : ℕ → ℕ → Comp σ ε α) (s s' : σ) : Prop :=
  ∃ N, ∀ n ≥ N, ∀ d, (y n d).run s = (x n d).run s'

theorem Follows.runs {x y : ℕ → ℕ → Comp σ ε α} {a : α} (h : Follows y x s s')
    (hx : Runs x s' a s₁) : Runs y s a s₁ := by
  obtain ⟨N, hN⟩ := h
  obtain ⟨M, hM⟩ := hx
  exact ⟨max N M, fun n hn d hd => (hN n (by omega) d).trans (hM n (by omega) d (by omega))⟩

theorem Follows.fated {x y : ℕ → ℕ → Comp σ ε α} (h : Follows y x s s') (hx : Fated x s' f) :
    Fated y s f := by
  obtain ⟨N, hN⟩ := h
  obtain ⟨M, hM⟩ := hx
  refine ⟨max N M, fun n hn d hd => ?_⟩
  rw [hN n (by omega) d]
  exact hM n (by omega) d (by omega)

/-- A nested call. -/
theorem Fated.call {x y : ℕ → ℕ → Comp σ ε α} (hxy : ∀ n d, y n (d + 1) = x n d)
    (hx : Fated x s f) : Fated y s f := by
  obtain ⟨N, hN⟩ := hx
  refine ⟨N + 1, fun n hn d hd => ?_⟩
  obtain ⟨e, rfl⟩ : ∃ e, d = e + 1 := ⟨d - 1, by omega⟩
  rw [hxy]
  exact hN n (by omega) e (by omega)

theorem FatedLoop.here {body : ℕ → ℕ → β → Comp σ ε (β ⊕ α)} {b : β}
    (h : Fated (fun n d => body n d b) s f) (hf : f ≠ .returns) : FatedLoop body b s f := by
  obtain ⟨N, hN⟩ := h
  refine ⟨N + 1, fun n hn d hd k hk => ?_⟩
  obtain ⟨k, rfl⟩ : ∃ j, k = j + 1 := ⟨k - 1, by omega⟩
  rw [loop_succ]
  exact bind_fate _ (hN n (by omega) d (by omega)) hf

theorem FatedLoop.step {body : ℕ → ℕ → β → Comp σ ε (β ⊕ α)} {b b' : β}
    (h : Runs (fun n d => body n d b) s (.inl b') s₁) (hl : FatedLoop body b' s₁ f) :
    FatedLoop body b s f := by
  obtain ⟨N, hN⟩ := h
  obtain ⟨M, hM⟩ := hl
  refine ⟨max N M + 1, fun n hn d hd k hk => ?_⟩
  obtain ⟨k, rfl⟩ : ∃ j, k = j + 1 := ⟨k - 1, by omega⟩
  rw [loop_succ, bind_done (hN n (by omega) d (by omega))]
  exact hM n (by omega) d (by omega) k (by omega)

/-- A loop goes on when an invariant holds that makes every iteration go on and that it keeps. -/
theorem FatedLoop.round {body : ℕ → ℕ → β → Comp σ ε (β ⊕ α)} (P : β → σ → Prop) {b : β}
    (hb : P b s) {N : ℕ} (h : ∀ n ≥ N, ∀ d ≥ N, ∀ b s, P b s →
      ∃ b' s', P b' s' ∧ (body n d b).run s = (.done (.inl b'), s')) :
    FatedLoop body b s .goesOn := by
  refine ⟨N, fun n hn d hd k hk => ?_⟩
  clear hk
  induction k generalizing b s with
  | zero => rfl
  | succ k ih =>
    obtain ⟨b', s', hb', hrun⟩ := h n hn d hd b s hb
    rw [loop_succ, bind_done hrun]
    exact ih hb'

theorem FatedLoop.fated {body : ℕ → ℕ → β → Comp σ ε (β ⊕ α)} {b : β} (h : FatedLoop body b s f) :
    Fated (fun n d => loop (body n d) n b) s f := by
  obtain ⟨N, hN⟩ := h
  exact ⟨N, fun n hn d hd => hN n hn d hd n hn⟩

end Comp

end Base
