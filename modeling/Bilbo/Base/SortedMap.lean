import Mathlib.Tactic.Common
import Mathlib.Data.List.Basic
import Mathlib.Data.List.Forall2
import Mathlib.Order.Lattice

/-!
# Association lists kept in key order

What an ordered map is on the outside: its entries in key order. `insert` replaces the
value of a key that is present, as ordered maps of programming languages do.
-/

namespace Base

namespace SortedMap

variable {κ α β : Type} [LT κ] [DecidableLT κ] [DecidableEq κ]

/-- Insert an entry, replacing the value of an equal key. -/
def insert (k : κ) (v : α) : List (κ × α) → List (κ × α)
  | [] => [(k, v)]
  | (k', v') :: l =>
    if k < k' then (k, v) :: (k', v') :: l
    else if k = k' then (k', v) :: l
    else (k', v') :: insert k v l

/-- The map of a list of entries, later ones winning. -/
def ofList (l : List (κ × α)) : List (κ × α) := l.foldl (fun m e => insert e.1 e.2 m) []

/-- Append to the list of a key; a key that is absent gets a list. -/
def push (k : κ) (v : α) : List (κ × List α) → List (κ × List α)
  | [] => [(k, [v])]
  | (k', vs) :: l =>
    if k < k' then (k, [v]) :: (k', vs) :: l
    else if k = k' then (k', vs ++ [v]) :: l
    else (k', vs) :: push k v l

omit [LT κ] [DecidableLT κ] [DecidableEq κ] in
/-- Related maps have the same keys. -/
theorem keys_eq {R : κ × α → κ × β → Prop} (hkey : ∀ a b, R a b → a.1 = b.1)
    {l : List (κ × α)} {m : List (κ × β)} (h : List.Forall₂ R l m) :
    m.map Prod.fst = l.map Prod.fst := by
  induction h with
  | nil => rfl
  | cons hab _ ih => rw [List.map_cons, List.map_cons, ih, hkey _ _ hab]

/-- Two maps over the same keys stay related when related values are inserted. -/
theorem insert_forall₂ {R : κ × α → κ × β → Prop} {k : κ} {v : α} {w : β}
    (hkey : ∀ a b, R a b → a.1 = b.1)
    (hnew : R (k, v) (k, w)) {l : List (κ × α)} {m : List (κ × β)}
    (h : List.Forall₂ R l m) : List.Forall₂ R (insert k v l) (insert k w m) := by
  induction h with
  | nil => exact List.Forall₂.cons hnew List.Forall₂.nil
  | @cons a b l m hab hlm ih =>
    obtain ⟨ka, va⟩ := a
    obtain ⟨kb, vb⟩ := b
    obtain rfl : ka = kb := hkey _ _ hab
    rw [insert, insert]
    split
    · exact List.Forall₂.cons hnew (List.Forall₂.cons hab hlm)
    · split
      · next heq =>
        subst heq
        exact List.Forall₂.cons hnew hlm
      · exact List.Forall₂.cons hab ih

/-! ## Groups -/

/-- The elements of a list by their keys, each group in the order of the list. -/
def group (key : α → κ) (xs : List α) : List (κ × List α) :=
  xs.foldl (fun m x => push (key x) x m) []

section Groups

variable {κ α : Type} [LinearOrder κ] {m : List (κ × List α)}

/-- The keys are in order. -/
def Ordered (m : List (κ × List α)) : Prop := m.Pairwise fun e e' => e.1 < e'.1

theorem lookup_eq_none {k : κ} (h : ∀ e ∈ m, k < e.1) : m.lookup k = none := by
  rw [List.lookup_eq_none_iff]
  intro e he
  exact bne_iff_ne.2 (ne_of_lt (h e he))

theorem mem_push {k : κ} {v : α} {e : κ × List α} (h : e ∈ push k v m) :
    e.1 = k ∨ ∃ e' ∈ m, e'.1 = e.1 := by
  induction m with
  | nil => exact .inl (List.mem_singleton.1 h ▸ rfl)
  | cons e₀ m ih =>
    obtain ⟨k₀, vs⟩ := e₀
    rw [push] at h
    split_ifs at h with hlt heq
    · rcases List.mem_cons.1 h with rfl | h
      · exact .inl rfl
      · exact .inr ⟨e, h, rfl⟩
    · rcases List.mem_cons.1 h with rfl | h
      · exact .inl heq.symm
      · exact .inr ⟨e, List.mem_cons_of_mem _ h, rfl⟩
    · rcases List.mem_cons.1 h with rfl | h
      · exact .inr ⟨(k₀, vs), List.mem_cons_self, rfl⟩
      · rcases ih h with h | ⟨e', he', heq'⟩
        · exact .inl h
        · exact .inr ⟨e', List.mem_cons_of_mem _ he', heq'⟩

theorem Ordered.push (h : Ordered m) (k : κ) (v : α) : Ordered (push k v m) := by
  induction m with
  | nil => exact List.pairwise_singleton _ _
  | cons e₀ m ih =>
    obtain ⟨k₀, vs⟩ := e₀
    obtain ⟨hhead, htail⟩ := List.pairwise_cons.1 h
    rw [SortedMap.push]
    split_ifs with hlt heq
    · refine List.pairwise_cons.2 ⟨fun e he => ?_, h⟩
      rcases List.mem_cons.1 he with rfl | he
      · exact hlt
      · exact lt_trans hlt (hhead e he)
    · exact List.pairwise_cons.2 ⟨hhead, htail⟩
    · refine List.pairwise_cons.2 ⟨fun e he => ?_, ih htail⟩
      rcases mem_push he with hk | ⟨e', he', heq'⟩
      · rw [hk]
        exact lt_of_le_of_ne (not_lt.1 hlt) (Ne.symm heq)
      · rw [← heq']
        exact hhead e' he'

theorem lookup_cons_ite (k k' : κ) (vs : List α) :
    ((k, vs) :: m).lookup k' = if k' = k then some vs else m.lookup k' := by
  rw [List.lookup_cons]
  by_cases h : k' = k
  · rw [if_pos h, beq_iff_eq.2 h]
  · rw [if_neg h, beq_false_of_ne h]

theorem lookup_push (h : Ordered m) (k k' : κ) (v : α) : (push k v m).lookup k' =
    if k' = k then some ((m.lookup k).getD [] ++ [v]) else m.lookup k' := by
  induction m with
  | nil => exact lookup_cons_ite k k' [v]
  | cons e₀ m ih =>
    obtain ⟨k₀, vs⟩ := e₀
    obtain ⟨hhead, htail⟩ := List.pairwise_cons.1 h
    rw [SortedMap.push]
    rcases lt_trichotomy k k₀ with hlt | rfl | hgt
    · -- a new smallest key
      have hnone : ((k₀, vs) :: m).lookup k = none := by
        refine lookup_eq_none fun e he => ?_
        rcases List.mem_cons.1 he with rfl | he
        · exact hlt
        · exact lt_trans hlt (hhead e he)
      rw [if_pos hlt, lookup_cons_ite, hnone]
      rfl
    · rw [if_neg (lt_irrefl k), if_pos rfl, lookup_cons_ite, lookup_cons_ite, lookup_cons_ite, if_pos rfl]
      split <;> rfl
    · have hne : k ≠ k₀ := ne_of_gt hgt
      rw [if_neg (lt_asymm hgt), if_neg hne, lookup_cons_ite, ih htail, lookup_cons_ite, lookup_cons_ite,
        if_neg hne]
      by_cases hk : k' = k
      · rw [if_pos hk, if_pos hk, if_neg (hk.trans_ne hne)]
      · rw [if_neg hk, if_neg hk]

/-- The values of a group are values that were put in. -/
theorem mem_push_values {k : κ} {v x : α} {e : κ × List α} (he : e ∈ push k v m) (hx : x ∈ e.2) :
    x = v ∨ ∃ e' ∈ m, x ∈ e'.2 := by
  induction m with
  | nil =>
    rw [push, List.mem_singleton] at he
    subst he
    exact .inl (List.mem_singleton.1 hx)
  | cons e₀ m ih =>
    obtain ⟨k₀, vs⟩ := e₀
    rw [push] at he
    split_ifs at he
    · rcases List.mem_cons.1 he with rfl | he
      · exact .inl (List.mem_singleton.1 hx)
      · exact .inr ⟨e, he, hx⟩
    · rcases List.mem_cons.1 he with rfl | he
      · rcases List.mem_append.1 hx with hx | hx
        · exact .inr ⟨(k₀, vs), List.mem_cons_self, hx⟩
        · exact .inl (List.mem_singleton.1 hx)
      · exact .inr ⟨e, List.mem_cons_of_mem _ he, hx⟩
    · rcases List.mem_cons.1 he with rfl | he
      · exact .inr ⟨(k₀, vs), List.mem_cons_self, hx⟩
      · rcases ih he with h | ⟨e', he', hx'⟩
        · exact .inl h
        · exact .inr ⟨e', List.mem_cons_of_mem _ he', hx'⟩

theorem mem_foldl_push (key : α → κ) (xs : List α) {x : α} {e : κ × List α}
    (he : e ∈ xs.foldl (fun m x => push (key x) x m) m) (hx : x ∈ e.2) :
    x ∈ xs ∨ ∃ e' ∈ m, x ∈ e'.2 := by
  induction xs generalizing m with
  | nil => exact .inr ⟨e, he, hx⟩
  | cons y xs ih =>
    rcases ih he with h | ⟨e', he', hx'⟩
    · exact .inl (List.mem_cons_of_mem _ h)
    · rcases mem_push_values he' hx' with rfl | h
      · exact .inl List.mem_cons_self
      · exact .inr h

theorem mem_group {key : α → κ} {xs : List α} {x : α} {e : κ × List α} (he : e ∈ group key xs)
    (hx : x ∈ e.2) : x ∈ xs := by
  rcases mem_foldl_push key xs he hx with h | ⟨e', he', -⟩
  · exact h
  · exact absurd he' List.not_mem_nil

theorem lookup_foldl_push (key : α → κ) (xs : List α) (h : Ordered m) (k : κ) :
    ((xs.foldl (fun m x => push (key x) x m) m).lookup k).getD [] =
      (m.lookup k).getD [] ++ xs.filter fun x => key x == k := by
  induction xs generalizing m with
  | nil => exact (List.append_nil _).symm
  | cons x xs ih =>
    rw [List.foldl_cons, ih (h.push _ _), lookup_push h, List.filter_cons]
    by_cases hk : k = key x
    · rw [if_pos hk, if_pos (beq_iff_eq.2 hk.symm), hk, Option.getD_some, List.append_assoc]
      rfl
    · rw [if_neg hk, if_neg fun he => hk (beq_iff_eq.1 he).symm]

/-- The group of a key. -/
theorem lookup_group (key : α → κ) (xs : List α) (k : κ) :
    ((group key xs).lookup k).getD [] = xs.filter fun x => key x == k :=
  lookup_foldl_push key xs List.Pairwise.nil k

end Groups

end SortedMap

end Base
