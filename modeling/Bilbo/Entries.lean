import Mathlib.Data.List.Nodup
import Bilbo.Dwarf

/-!
# The entries of a unit

Entries refer to each other by offset. A child of an entry that is found is found as well, and
where the offsets of a unit are distinct, what is found is the child.
-/

namespace Bilbo

variable {st : Store} {u : CompUnit} {ui : ℕ} {o c : Off} {d t : Die}

mutual

/-- The children of an entry of a tree are entries of the tree. -/
theorem kid_mem_preorder (t : Die) {k j : ℕ} {c d : Die} (hd : (j, d) ∈ t.preorder k)
    (hc : c ∈ d.kids) : (j + 1, c) ∈ t.preorder k := by
  obtain ⟨e, ks⟩ := t
  rw [Die.preorder, List.mem_cons] at hd ⊢
  right
  rcases hd with heq | hd
  · obtain ⟨rfl, rfl⟩ := Prod.mk.inj heq
    exact mem_preorderAll_of_mem ks hc
  · exact kid_mem_preorderAll ks hd hc

theorem kid_mem_preorderAll (ks : List Die) {k j : ℕ} {c d : Die}
    (hd : (j, d) ∈ Die.preorderAll k ks) (hc : c ∈ d.kids) :
    (j + 1, c) ∈ Die.preorderAll k ks := by
  cases ks with
  | nil => exact absurd hd List.not_mem_nil
  | cons t ks =>
    rw [Die.preorderAll, List.mem_append] at hd ⊢
    rcases hd with hd | hd
    · exact .inl (kid_mem_preorder t hd hc)
    · exact .inr (kid_mem_preorderAll ks hd hc)

/-- Each of the trees is an entry. -/
theorem mem_preorderAll_of_mem (ks : List Die) {k : ℕ} {c : Die} (hc : c ∈ ks) :
    (k, c) ∈ Die.preorderAll k ks := by
  cases ks with
  | nil => exact absurd hc List.not_mem_nil
  | cons t ks =>
    rw [Die.preorderAll, List.mem_append]
    rcases List.mem_cons.1 hc with rfl | hc
    · obtain ⟨e, ks'⟩ := c
      left
      rw [Die.preorder]
      exact List.mem_cons_self
    · exact .inr (mem_preorderAll_of_mem ks hc)

end

theorem kid_mem_dies (hd : d ∈ u.dies) (hc : t ∈ d.kids) : t ∈ u.dies := by
  obtain ⟨⟨j, d'⟩, hmem, rfl⟩ := List.mem_map.1 hd
  exact List.mem_map.2 ⟨(j + 1, t), kid_mem_preorder u.root hmem hc, rfl⟩

theorem dieAt_eq_some (h : dieAt st (ui, o) = some d) :
    ∃ u, st.units[ui]? = some u ∧ d ∈ u.dies ∧ d.entry.offset = o := by
  obtain ⟨u, hu, hfind⟩ := Option.bind_eq_some_iff.1 h
  exact ⟨u, hu, List.mem_of_find?_eq_some hfind, by simpa using List.find?_some hfind⟩

/-- Something is found at the offset of an entry. -/
theorem exists_dieAt (hu : st.units[ui]? = some u) (hd : d ∈ u.dies) :
    ∃ d', dieAt st (ui, d.entry.offset) = some d' := by
  have hfind : ((u.dies.find? fun x => x.entry.offset == d.entry.offset)).isSome := by
    rw [List.find?_isSome]
    exact ⟨d, hd, beq_self_eq_true _⟩
  obtain ⟨d', hd'⟩ := Option.isSome_iff_exists.1 hfind
  refine ⟨d', ?_⟩
  unfold dieAt
  rw [hu]
  exact hd'

theorem mem_childOffsets (h : c ∈ childOffsets st (ui, o)) :
    ∃ d t, dieAt st (ui, o) = some d ∧ t ∈ d.kids ∧ t.entry.offset = c := by
  unfold childOffsets at h
  cases hd : dieAt st (ui, o) with
  | none =>
    rw [hd] at h
    exact absurd h List.not_mem_nil
  | some d =>
    rw [hd] at h
    obtain ⟨t, ht, rfl⟩ := List.mem_map.1 h
    exact ⟨d, t, rfl, ht, rfl⟩

/-- Every child that is listed is found. -/
theorem exists_tagAt (h : c ∈ childOffsets st (ui, o)) : ∃ tag, tagAt st (ui, c) = some tag := by
  obtain ⟨d, t, hd, ht, rfl⟩ := mem_childOffsets h
  obtain ⟨u, hu, hmem, -⟩ := dieAt_eq_some hd
  obtain ⟨t', ht'⟩ := exists_dieAt hu (kid_mem_dies hmem ht)
  refine ⟨t'.entry.tag, ?_⟩
  rw [tagAt, entryAt, ht']
  rfl

/-- The offsets of every unit are distinct. -/
def Store.Distinct (st : Store) : Prop :=
  ∀ u ∈ st.units, (u.dies.map fun d => d.entry.offset).Nodup

/-- Then an entry is what is found at its offset. -/
theorem Store.Distinct.dieAt_eq (h : st.Distinct) (hu : st.units[ui]? = some u)
    (hd : d ∈ u.dies) : dieAt st (ui, d.entry.offset) = some d := by
  obtain ⟨d', hd'⟩ := exists_dieAt hu hd
  obtain ⟨u', hu', hmem, hoff⟩ := dieAt_eq_some hd'
  obtain rfl : u = u' := Option.some.inj (hu.symm.trans hu')
  have hnodup := h u (List.mem_of_getElem? hu)
  rw [hd', List.inj_on_of_nodup_map hnodup hmem hd hoff]

end Bilbo
