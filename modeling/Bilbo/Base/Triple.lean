import Bilbo.Base.Comp

/-!
# Triples

A Hoare triple for `Comp` that also says what a computation does to the state however it
ends, and that it does not end because one of the two bounds ran out. What is to hold in
these two respects is a `Logic`: a preorder that every run climbs, and a bound that is not
exceeded in the runs whose last state satisfies a guard. The guard is inherited by earlier
states, so it can collect a condition on every step of the run.
-/

namespace Base

/-- The two bounds of a computation. -/
inductive Bound where
  | calls
  | iterations

/-- The ending says that the bound was used up. -/
def Outcome.Exceeds {ε α : Type} : Outcome ε α → Bound → Prop
  | .deep, .calls => True
  | .spent, .iterations => True
  | _, _ => False

namespace Comp

/-- What every run climbs, and when it stays within a bound. -/
structure Logic (σ : Type) where
  rel : σ → σ → Prop
  refl : ∀ s, rel s s
  trans : ∀ {a b c}, rel a b → rel b c → rel a c
  guard : σ → Prop
  anti : ∀ {a b}, rel a b → guard b → guard a
  bound : Bound

variable {σ ε α β γ : Type} {L : Logic σ} {P P' : σ → Prop}

/-- From a state with `P`: the run climbs, a value it returns satisfies `V` with the last
state, and under the guard the bound is not exceeded. -/
def Triple (L : Logic σ) (P : σ → Prop) (x : Comp σ ε α) (V : α → σ → Prop) : Prop :=
  ∀ s, P s → L.rel s (x.run s).2 ∧ (∀ a, (x.run s).1 = .done a → V a (x.run s).2) ∧
    (L.guard (x.run s).2 → ¬ (x.run s).1.Exceeds L.bound)

/-- The postcondition of a loop body: `J` when it goes on, `V` when it leaves. -/
def Iterates (J : β → σ → Prop) (V : α → σ → Prop) : β ⊕ α → σ → Prop
  | .inl b, s => J b s
  | .inr a, s => V a s

namespace Triple

variable {x : Comp σ ε α} {V W : α → σ → Prop}

theorem conseq (h : Triple L P x V) (hP : ∀ s, P' s → P s) (hV : ∀ a s, V a s → W a s) :
    Triple L P' x W := fun s hs =>
  ⟨(h s (hP s hs)).1, fun a ha => hV a _ ((h s (hP s hs)).2.1 a ha), (h s (hP s hs)).2.2⟩

theorem post (h : Triple L P x V) (hV : ∀ a s, V a s → W a s) : Triple L P x W :=
  h.conseq (fun _ hs => hs) hV

/-- A part of the precondition that does not depend on the state. -/
theorem assume {p : Prop} (h : p → Triple L P x V) : Triple L (fun s => p ∧ P s) x V :=
  fun s hs => h hs.1 s hs.2

/-- The same, when it is the whole precondition. -/
theorem assume' {p : Prop} (h : p → Triple L (fun _ => True) x V) : Triple L (fun _ => p) x V :=
  fun s hs => h hs s trivial

/-- A postcondition known from another logic. -/
theorem and {L' : Logic σ} (h : Triple L P x V) (h' : Triple L' P x W) :
    Triple L P x fun a s => V a s ∧ W a s := fun s hs =>
  ⟨(h s hs).1, fun a ha => ⟨(h s hs).2.1 a ha, (h' s hs).2.1 a ha⟩, (h s hs).2.2⟩

theorem pure {a : α} (h : ∀ s, P s → V a s) : Triple L P (pure a : Comp σ ε α) V := by
  intro s hs
  refine ⟨L.refl s, fun b hb => ?_, fun _ hb => hb.elim⟩
  cases hb
  exact h s hs

theorem fail (e : ε) : Triple L P (fail e : Comp σ ε α) V :=
  fun s _ => ⟨L.refl s, nofun, fun _ hb => hb.elim⟩

theorem deep (hL : L.bound = .iterations) : Triple L P (deep : Comp σ ε α) V := by
  refine fun s _ => ⟨L.refl s, nofun, fun _ hb => ?_⟩
  rw [hL] at hb
  exact hb

theorem get : Triple L P (get : Comp σ ε σ) fun a s => a = s ∧ P s := by
  intro s hs
  refine ⟨L.refl s, fun b hb => ?_, fun _ hb => hb.elim⟩
  cases hb
  exact ⟨rfl, hs⟩

theorem modify {f : σ → σ} {V : Unit → σ → Prop} (hrel : ∀ s, P s → L.rel s (f s))
    (hV : ∀ s, P s → V () (f s)) : Triple L P (modify f : Comp σ ε Unit) V := by
  refine fun s hs => ⟨hrel s hs, fun b hb => ?_, fun _ hb => hb.elim⟩
  exact hV s hs

theorem bind {f : α → Comp σ ε β} {U : β → σ → Prop} (hx : Triple L P x V)
    (hf : ∀ a, Triple L (V a) (f a) U) : Triple L P (x >>= f) U := by
  intro s hs
  obtain ⟨hrel, hval, hend⟩ := hx s hs
  rw [bind_run]
  rcases hr : x.run s with ⟨o, s'⟩
  rw [hr] at hrel hval hend
  cases o with
  | done a =>
    obtain ⟨hrel', hval', hend'⟩ := hf a s' (hval a rfl)
    exact ⟨L.trans hrel hrel', hval', hend'⟩
  | stop e => exact ⟨hrel, nofun, fun _ hb => hb.elim⟩
  | deep =>
    refine ⟨hrel, nofun, fun hg hb => hend hg ?_⟩
    cases hL : L.bound <;> rw [hL] at hb <;> exact hb
  | spent =>
    refine ⟨hrel, nofun, fun hg hb => hend hg ?_⟩
    cases hL : L.bound <;> rw [hL] at hb <;> exact hb

/-- The loop rule when the iterations are bounded: an iteration that goes on decreases a
measure, and the measure starts below the bound. -/
theorem loop {body : β → Comp σ ε (β ⊕ α)} (I : β → σ → Prop) (m : β → ℕ)
    (hbody : ∀ b, Triple L (I b) (body b)
      (Iterates (fun b' s => I b' s ∧ (L.guard s → m b' < m b)) V)) (n : ℕ) (b : β) :
    Triple L (fun s => I b s ∧ (L.guard s → m b < n)) (loop body n b) V := by
  induction n generalizing b with
  | zero => exact fun s hs => ⟨L.refl s, nofun,
      fun hg => absurd (hs.2 hg) (Nat.not_lt_zero _)⟩
  | succ n ih =>
    rw [loop_succ]
    intro s hs
    -- the bound on the measure comes from the guard of the last state
    have hb : Triple L (fun s' => s' = s) (body b)
        (Iterates (fun b' s' => I b' s' ∧ (L.guard s' → m b' < n)) V) := by
      intro s₀ hs₀
      subst hs₀
      obtain ⟨hrel, hval, hend⟩ := hbody b s₀ hs.1
      refine ⟨hrel, fun r hr => ?_, hend⟩
      have hv := hval r hr
      cases r with
      | inl b' => exact ⟨hv.1, fun hg => by
          have h1 := hv.2 hg
          have h2 := hs.2 (L.anti hrel hg)
          omega⟩
      | inr a => exact hv
    refine Triple.bind hb (fun r => ?_) s rfl
    cases r with
    | inl b' => exact ih b'
    | inr a => exact Triple.pure fun _ h => h

/-- The loop rule when the nested calls are bounded. -/
theorem loop_calls (hL : L.bound = .calls) {body : β → Comp σ ε (β ⊕ α)} (I : β → σ → Prop)
    (hbody : ∀ b, Triple L (I b) (body b) (Iterates I V)) (n : ℕ) (b : β) : Triple L (I b) (Comp.loop body n b) V := by
  induction n generalizing b with
  | zero =>
    refine fun s hs => ⟨L.refl s, nofun, fun _ hb => ?_⟩
    rw [hL] at hb
    exact hb
  | succ n ih =>
    rw [loop_succ]
    refine (hbody b).bind fun r => ?_
    cases r with
    | inl b' => exact ih b'
    | inr a => exact Triple.pure fun _ h => h

end Triple

end Comp

end Base
