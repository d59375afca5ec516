import Bilbo.DefIndex
import Bilbo.Entries

/-!
# The index holds the complete definitions

The stack of `def_index` and the child lists of `is_stub` agree on what is complete: an entry that
the index maps a name to is no stub. So a redirect ends at a complete definition, wherever there is
one of the name, and redirecting again changes nothing.
-/

namespace Bilbo

open Base

/-- A struct or union of this name that is no declaration and has a member or a variant part among
its children. -/
structure Die.Completes (d : Die) (n : String) : Prop where
  aggregate : d.entry.tag.isAggregate = true
  decl : d.entry.isDecl = false
  name : d.entry.ownName = some n
  content : ∃ k ∈ d.kids, k.isContent = true

/-- There is a complete definition of the name at a site. -/
def DefinedAt (st : Store) (n : String) (s : Site) : Prop :=
  ∃ u d, st.units[s.1]? = some u ∧ d ∈ u.dies ∧ d.entry.offset = s.2 ∧ d.Completes n

/-! ## The definitions of a tree -/

variable {st : Store} {ui : ℕ} {n : String} {s : Site}

theorem mem_ownDef {e : Entry} {ks : List Die} :
    (n, s) ∈ Die.ownDef ui (.mk e ks) ↔ s = (ui, e.offset) ∧ (Die.mk e ks).Completes n := by
  rw [Die.ownDef]
  constructor
  · intro h
    split_ifs at h with hc
    · obtain ⟨hagg, hany, hdecl⟩ := hc
      rw [Option.mem_toList, Option.map_eq_some_iff] at h
      obtain ⟨n', hname, heq⟩ := h
      obtain ⟨rfl, rfl⟩ := Prod.mk.inj heq
      exact ⟨rfl, hagg, Bool.eq_false_of_not_eq_true hdecl, hname, List.any_eq_true.1 hany⟩
    · exact absurd h List.not_mem_nil
  · rintro ⟨rfl, hagg, hdecl, hname, hcontent⟩
    have hno : ¬ e.isDecl = true := by
      rw [show e.isDecl = false from hdecl]
      exact Bool.false_ne_true
    rw [if_pos ⟨hagg, List.any_eq_true.2 hcontent, hno⟩, Option.mem_toList,
      Option.map_eq_some_iff]
    exact ⟨n, hname, rfl⟩

mutual

/-- The definitions of a tree are its complete entries. -/
theorem mem_defs (t : Die) (k : ℕ) :
    (n, s) ∈ t.defs ui ↔ ∃ x ∈ t.preorder k, s = (ui, x.2.entry.offset) ∧ x.2.Completes n := by
  obtain ⟨e, ks⟩ := t
  rw [Die.defs, Die.preorder, List.mem_append, mem_ownDef, mem_defsAll ks (k + 1)]
  constructor
  · rintro (⟨x, hx, h⟩ | h)
    · exact ⟨x, List.mem_cons_of_mem _ hx, h⟩
    · exact ⟨_, List.mem_cons_self, h⟩
  · rintro ⟨x, hx, h⟩
    rcases List.mem_cons.1 hx with rfl | hx
    · exact .inr h
    · exact .inl ⟨x, hx, h⟩

theorem mem_defsAll (ks : List Die) (k : ℕ) :
    (n, s) ∈ Die.defsAll ui ks ↔
      ∃ x ∈ Die.preorderAll k ks, s = (ui, x.2.entry.offset) ∧ x.2.Completes n := by
  cases ks with
  | nil =>
    rw [Die.defsAll, Die.preorderAll]
    constructor
    · intro h
      exact absurd h List.not_mem_nil
    · rintro ⟨x, hx, -⟩
      exact absurd hx List.not_mem_nil
  | cons t ks =>
    rw [Die.defsAll, Die.preorderAll, List.mem_append, mem_defs t k, mem_defsAll ks k]
    constructor
    · rintro (⟨x, hx, h⟩ | ⟨x, hx, h⟩)
      · exact ⟨x, List.mem_append_left _ hx, h⟩
      · exact ⟨x, List.mem_append_right _ hx, h⟩
    · rintro ⟨x, hx, h⟩
      rcases List.mem_append.1 hx with hx | hx
      · exact .inl ⟨x, hx, h⟩
      · exact .inr ⟨x, hx, h⟩

end

theorem mem_definitions : (n, s) ∈ definitions st ↔ DefinedAt st n s := by
  unfold definitions
  rw [List.mem_flatMap]
  constructor
  · rintro ⟨⟨u, i⟩, hu, hmem⟩
    obtain ⟨⟨j, d⟩, hd, rfl, hcomplete⟩ := (mem_defs u.root 0).1 hmem
    exact ⟨u, d, List.mem_zipIdx_iff_getElem?.1 hu, List.mem_map.2 ⟨_, hd, rfl⟩, rfl, hcomplete⟩
  · rintro ⟨u, d, hu, hd, hoff, hcomplete⟩
    obtain ⟨x, hx, rfl⟩ := List.mem_map.1 hd
    refine ⟨(u, s.1), List.mem_zipIdx_iff_getElem?.2 hu, ?_⟩
    exact (mem_defs u.root 0).2 ⟨x, hx, Prod.ext rfl hoff.symm, hcomplete⟩

/-! ## The index -/

theorem exists_lookup_iff {m : DefMap} : (∃ s, m.lookup n = some s) ↔ ∃ s, (n, s) ∈ m := by
  constructor
  · rintro ⟨s, hs⟩
    exact ⟨s, mem_of_lookup hs⟩
  · rintro ⟨s, hs⟩
    rw [← Option.isSome_iff_exists, ← Option.ne_none_iff_isSome]
    intro hnone
    have hne := List.lookup_eq_none_iff.1 hnone (n, s) hs
    simp at hne

/-- Where the index points there is a complete definition. -/
theorem definedAt_of_lookup (h : (defIndex st).lookup n = some s) : DefinedAt st n s := by
  rw [lookup_defIndex] at h
  exact mem_definitions.1 (mem_of_lookup h)

/-- A complete definition is no stub. -/
theorem DefinedAt.isStub (hst : st.Distinct) (h : DefinedAt st n s) : isStub st s = false := by
  obtain ⟨ui, o⟩ := s
  obtain ⟨u, d, hu, hd, rfl, hagg, hdecl, -, k, hk, hcontent⟩ := h
  have hdie := hst.dieAt_eq hu hd
  have hentry : entryAt st (ui, d.entry.offset) = some d.entry := by
    rw [entryAt, hdie]
    rfl
  -- the member that the walk has noted is found in the child list
  have hkid : k.entry.offset ∈ childOffsets st (ui, d.entry.offset) := by
    rw [childOffsets, hdie]
    exact List.mem_map_of_mem hk
  have htag : ((tagAt st (ui, k.entry.offset)).map DwTag.isContent).getD false = true := by
    rw [tagAt, entryAt, hst.dieAt_eq hu (kid_mem_dies hd hk)]
    exact hcontent
  have hany : ((childOffsets st (ui, d.entry.offset)).any fun c =>
      ((tagAt st (ui, c)).map DwTag.isContent).getD false) = true :=
    List.any_eq_true.2 ⟨_, hkid, htag⟩
  unfold Bilbo.isStub
  rw [hentry]
  show (d.entry.tag.isAggregate && (d.entry.isDecl || (_ != 0 && !_))) = false
  rw [hdecl, hany, Bool.not_true, Bool.and_false, Bool.or_false, Bool.and_false]

/-! ## Redirects -/

/-- What a redirect leads to is no stub, unless there is no complete definition of the name. -/
theorem defSite_cases (hst : st.Distinct) (s : Site) :
    isStub st (defSite st s) = false ∨
      defSite st s = s ∧ ∀ n ∈ dieName st s, ∀ t, ¬ DefinedAt st n t := by
  unfold defSite
  cases hs : isStub st s with
  | false => exact .inl hs
  | true =>
    rw [if_pos rfl]
    cases hname : dieName st s with
    | none => exact .inr ⟨rfl, fun n h => absurd h (Option.not_mem_none n)⟩
    | some n =>
      show isStub st (((defIndex st).lookup n).getD s) = false ∨ _
      cases hl : (defIndex st).lookup n with
      | some t => exact .inl ((definedAt_of_lookup hl).isStub hst)
      | none =>
        right
        refine ⟨by rw [Option.bind_some, hl]; rfl, ?_⟩
        intro n' hn' t ht
        obtain rfl := Option.some.inj hn'
        obtain ⟨t', ht'⟩ := exists_lookup_iff.2 ⟨t, mem_definitions.2 ht⟩
        rw [← lookup_defIndex, hl] at ht'
        cases ht'

/-- The index is exactly the complete definitions, and redirects go no further than them. -/
theorem defIndex_exact (st : Store) (hst : st.Distinct) :
    (∀ n, (∃ s, (defIndex st).lookup n = some s) ↔ ∃ s, DefinedAt st n s) ∧
    (∀ n s, (defIndex st).lookup n = some s → DefinedAt st n s ∧ isStub st s = false) ∧
    (∀ s, isStub st (defSite st s) = true →
      ∀ n ∈ dieName st s, ∀ t, ¬ DefinedAt st n t) ∧
    ∀ s, defSite st (defSite st s) = defSite st s := by
  refine ⟨fun n => ?_, fun n s h => ?_, fun s hstub => ?_, fun s => ?_⟩
  · simp only [lookup_defIndex, exists_lookup_iff, mem_definitions]
  · have hdef := definedAt_of_lookup h
    exact ⟨hdef, hdef.isStub hst⟩
  · rcases defSite_cases hst s with hno | ⟨-, hnone⟩
    · rw [hno] at hstub
      cases hstub
    · exact hnone
  · rcases defSite_cases hst s with hno | ⟨heq, -⟩
    · rw [defSite, if_neg (by rw [hno]; exact Bool.false_ne_true)]
    · rw [heq, heq]

theorem defIndex_exact_twoConfigs :
    (∀ n, (∃ s, (defIndex twoConfigs).lookup n = some s) ↔ ∃ s, DefinedAt twoConfigs n s) ∧
    (∀ n s, (defIndex twoConfigs).lookup n = some s →
      DefinedAt twoConfigs n s ∧ isStub twoConfigs s = false) ∧
    (∀ s, isStub twoConfigs (defSite twoConfigs s) = true →
      ∀ n ∈ dieName twoConfigs s, ∀ t, ¬ DefinedAt twoConfigs n t) ∧
    ∀ s, defSite twoConfigs (defSite twoConfigs s) = defSite twoConfigs s :=
  defIndex_exact twoConfigs (List.forall_mem_singleton.2 (by decide))

end Bilbo
