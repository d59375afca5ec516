import Mathlib.Data.Finset.Card
import Mathlib.Logic.Relation

/-!
# Depth-first search with a set of nodes already seen

`Visits succ roots l l'` is the search from some roots, one after the other: a node that is in the
list `l` of nodes seen is passed over, any other is put at its end and then searched from. There is
no bound in it; a search exists wherever the nodes that can be reached are finitely many, and what
it adds is each node that can be reached, once.
-/

namespace Base

variable {α : Type} {succ : α → List α}

/-- The search from some roots takes the nodes seen from `l` to `l'`. -/
inductive Visits (succ : α → List α) : List α → List α → List α → Prop
  | nil {l : List α} : Visits succ [] l l
  | seen {a : α} {roots l l' : List α} :
      a ∈ l → Visits succ roots l l' → Visits succ (a :: roots) l l'
  | new {a : α} {roots l l₁ l' : List α} :
      a ∉ l → Visits succ (succ a) (l ++ [a]) l₁ → Visits succ roots l₁ l' →
      Visits succ (a :: roots) l l'

/-- A node that is reached from a root. -/
def ReachedFrom (succ : α → List α) (roots : List α) (a : α) : Prop :=
  ∃ r ∈ roots, Relation.ReflTransGen (fun x y => y ∈ succ x) r a

namespace Visits

variable {roots l l' : List α}

/-- What is seen stays seen. -/
theorem keeps (h : Visits succ roots l l') : ∀ a ∈ l, a ∈ l' := by
  induction h with
  | nil => exact fun a ha => ha
  | seen _ _ ih => exact ih
  | new _ _ _ ihsub ih =>
    intro b hb
    exact ih b (ihsub b (List.mem_append_left _ hb))

/-- No node is seen twice. -/
theorem nodup (h : Visits succ roots l l') (hl : l.Nodup) : l'.Nodup := by
  induction h with
  | nil => exact hl
  | seen _ _ ih => exact ih hl
  | @new a _ l _ _ ha _ _ ihsub ih =>
    apply ih
    apply ihsub
    exact List.nodup_append.2 ⟨hl, List.nodup_singleton a, fun x hx y hy hxy =>
      ha (List.mem_singleton.1 hy ▸ hxy ▸ hx)⟩

theorem roots_mem (h : Visits succ roots l l') : ∀ a ∈ roots, a ∈ l' := by
  induction h with
  | nil => exact fun a ha => absurd ha List.not_mem_nil
  | seen ha hrest ih =>
    intro b hb
    rcases List.mem_cons.1 hb with rfl | hb
    · exact hrest.keeps _ ha
    · exact ih b hb
  | new _ hsub hrest _ ih =>
    intro b hb
    rcases List.mem_cons.1 hb with rfl | hb
    · exact hrest.keeps _ (hsub.keeps _ (List.mem_append_right _ List.mem_cons_self))
    · exact ih b hb

/-- Whatever the search adds, it has searched from. -/
theorem closed (h : Visits succ roots l l') : ∀ a ∈ l', a ∈ l ∨ ∀ b ∈ succ a, b ∈ l' := by
  induction h with
  | nil => exact fun a ha => .inl ha
  | seen _ _ ih => exact ih
  | @new a _ l l₁ l' _ hsub hrest ihsub ih =>
    intro b hb
    rcases ih b hb with hb₁ | hb'
    · rcases ihsub b hb₁ with hbl | hb'
      · rcases List.mem_append.1 hbl with hbl | hba
        · exact .inl hbl
        · -- the node itself: its successors are the roots of the inner search
          obtain rfl := List.mem_singleton.1 hba
          exact .inr fun c hc => hrest.keeps c (hsub.roots_mem c hc)
      · exact .inr fun c hc => hrest.keeps c (hb' c hc)
    · exact .inr hb'

theorem sound (h : Visits succ roots l l') : ∀ a ∈ l', a ∈ l ∨ ReachedFrom succ roots a := by
  induction h with
  | nil => exact fun a ha => .inl ha
  | seen _ _ ih =>
    intro b hb
    rcases ih b hb with hbl | ⟨r, hr, hreach⟩
    · exact .inl hbl
    · exact .inr ⟨r, List.mem_cons_of_mem _ hr, hreach⟩
  | @new a _ _ _ _ _ _ _ ihsub ih =>
    intro b hb
    rcases ih b hb with hb₁ | ⟨r, hr, hreach⟩
    · rcases ihsub b hb₁ with hbl | ⟨r, hr, hreach⟩
      · rcases List.mem_append.1 hbl with hbl | hba
        · exact .inl hbl
        · obtain rfl := List.mem_singleton.1 hba
          exact .inr ⟨b, List.mem_cons_self, .refl⟩
      · exact .inr ⟨a, List.mem_cons_self, .head hr hreach⟩
    · exact .inr ⟨r, List.mem_cons_of_mem _ hr, hreach⟩

/-- From nothing seen, the search finds what can be reached. -/
theorem mem_iff (h : Visits succ roots [] l') {a : α} : a ∈ l' ↔ ReachedFrom succ roots a := by
  constructor
  · intro ha
    exact (h.sound a ha).resolve_left List.not_mem_nil
  · rintro ⟨r, hr, hreach⟩
    induction hreach with
    | refl => exact h.roots_mem r hr
    | tail _ hstep ih => exact (h.closed _ ih).resolve_left List.not_mem_nil _ hstep

/-- Within finitely many nodes the search comes to an end. -/
theorem exists_of_finite [DecidableEq α] (V : Finset α) (hV : ∀ a ∈ V, ∀ b ∈ succ a, b ∈ V)
    (hroots : ∀ a ∈ roots, a ∈ V) : ∃ l', Visits succ roots l l' := by
  -- on the number of nodes not yet seen, and then on the roots
  induction hn : (V \ l.toFinset).card using Nat.strong_induction_on generalizing roots l with
  | _ n ih =>
    subst hn
    induction roots generalizing l with
    | nil => exact ⟨l, .nil⟩
    | cons a roots ihroots =>
      have hrest : ∀ b ∈ roots, b ∈ V := fun b hb => hroots b (List.mem_cons_of_mem _ hb)
      by_cases ha : a ∈ l
      · obtain ⟨l', hl'⟩ := ihroots hrest ih
        exact ⟨l', .seen ha hl'⟩
      · have haV := hroots a List.mem_cons_self
        have hless : (V \ (l ++ [a]).toFinset).card < (V \ l.toFinset).card := by
          apply Finset.card_lt_card
          rw [Finset.ssubset_iff_of_subset]
          · exact ⟨a, by simp [haV, ha], by simp⟩
          · intro x hx
            simp only [Finset.mem_sdiff, List.mem_toFinset, List.mem_append, not_or] at hx ⊢
            exact ⟨hx.1, hx.2.1⟩
        obtain ⟨l₁, hsub⟩ := ih _ hless (hV a haV) rfl
        have hfewer : (V \ l₁.toFinset).card < (V \ l.toFinset).card := by
          apply Nat.lt_of_le_of_lt _ hless
          apply Finset.card_le_card
          intro x hx
          simp only [Finset.mem_sdiff, List.mem_toFinset] at hx ⊢
          exact ⟨hx.1, fun hmem => hx.2 (hsub.keeps x hmem)⟩
        obtain ⟨l', hl'⟩ := ih _ hfewer hrest rfl
        exact ⟨l', .new ha hsub hl'⟩

end Visits

end Base
