import Mathlib.Order.WellFoundedSet
import Bilbo.Unfold

/-!
# `classify` terminates

A call goes down through finitely many wrappers, because no chain of wrappers comes back to
itself, and then into a body with one more entry in flight. Entries in flight are distinct
and the store has finitely many.
-/

namespace Bilbo

open Base Calls Comp

variable {st : Store}

/-! ## Wrappers -/

/-- One wrapper: an alias that `strip` looks through, or a layout-transparent type around
its parameter. -/
inductive Wraps (st : Store) : Site → Site → Prop
  | alias {s : Site} {t : DwTag} {o : Off} : tagAt st s = some t → t.isAlias = true →
      typeRef st s = some o → Wraps st s (s.1, o)
  | transparent {s : Site} {o : Off} : strip st s = ret s →
      isTransparent ((dieName st (defSite st s)).getD "") = true →
      templateParam st (defSite st s) = some o → Wraps st s ((defSite st s).1, o)

theorem tag_eq_ret {s : Site} {t : DwTag} (h : tag st s = ret t) : tagAt st s = some t := by
  rw [tag] at h
  split at h
  · cases h
    assumption
  · cases h

theorem stripAlong_alias {n : ℕ} {s : Site} {t : DwTag} {inner : Off} (ht : tag st s = ret t)
    (ha : t.isAlias = true) (hi : typeRefM st s = ret (some inner)) :
    stripAlong st (n + 1) s = stripAlong st n (s.1, inner) := by
  simp only [stripAlong, ht, ret_bind, ha, if_true, hi]

theorem stripAlong_last {n : ℕ} {s : Site} {t : DwTag} (ht : tag st s = ret t)
    (hlast : t.isAlias = false ∨ typeRefM st s = ret none) :
    stripAlong st (n + 1) s = ret s := by
  rcases hlast with ha | hi
  · simp only [stripAlong, ht, ret_bind, ha, Bool.false_eq_true, if_false]
    rfl
  · simp only [stripAlong, ht, ret_bind, hi, ite_self]
    rfl

theorem strip_spec {n : ℕ} {s p : Site} (h : stripAlong st n s = ret p) :
    Relation.ReflTransGen (Wraps st) s p ∧ tagAt st s ≠ none ∧ tagAt st p ≠ none ∧
      strip st p = ret p := by
  induction n generalizing s with
  | zero => cases h
  | succ n ih =>
    obtain ⟨t, ht, h⟩ := bind_eq_ret h
    have htag := tag_eq_ret ht
    have hne : tagAt st s ≠ none := by
      rw [htag]
      nofun
    split at h
    · rename_i ha
      obtain ⟨hread, h⟩ := (gives_typeRefM st s).bind_eq_ret h
      split at h
      · rename_i inner hi
        obtain ⟨h₁, h₂, h₃, h₄⟩ := ih h
        exact ⟨.head (.alias htag ha hi) h₁, hne, h₃, h₄⟩
      · rename_i hi
        cases h
        rw [hi] at hread
        exact ⟨.refl, hne, hne, stripAlong_last ht (.inr hread)⟩
    · rename_i ha
      cases h
      exact ⟨.refl, hne, hne, stripAlong_last ht (.inl (Bool.eq_false_iff.2 ha))⟩

/-- A step of `classify` through a transparent type is a chain of wrappers. -/
theorem wraps_of_resolveSite {s inner : Site} (h : resolveSite st s = ret (.wraps inner)) :
    Relation.TransGen (Wraps st) s inner ∧ tagAt st s ≠ none := by
  obtain ⟨p, o, hp, htr, ho, rfl⟩ := resolveSite_wraps st h
  obtain ⟨h₁, h₂, -, h₄⟩ := strip_spec hp
  exact ⟨.tail' h₁ (.transparent h₄ htr ho), h₂⟩

theorem tagAt_of_resolveSite {s key : Site} {t : DwTag} {name : String}
    (h : resolveSite st s = ret (.entry key t name)) : tagAt st key = some t := by
  obtain ⟨p, -, -, ht, -⟩ := resolveSite_entry st h
  exact tag_eq_ret ht

/-! ## The entries of a store -/

/-- The sites of all entries of a unit. -/
def CompUnit.sites (ui : ℕ) (u : CompUnit) : List Site :=
  u.dies.map fun d => (ui, d.entry.offset)

theorem mem_sites_of_tagAt {s : Site} (h : tagAt st s ≠ none) :
    ∃ u, st.units[s.1]? = some u ∧ s ∈ u.sites s.1 := by
  obtain ⟨t, ht⟩ := Option.ne_none_iff_exists'.1 h
  obtain ⟨e, he, -⟩ := Option.map_eq_some_iff.1 ht
  obtain ⟨d, hd, -⟩ := Option.map_eq_some_iff.1 he
  obtain ⟨u, hu, hd⟩ := Option.bind_eq_some_iff.1 hd
  have hmem := List.mem_of_find?_eq_some hd
  have hoff := List.find?_some hd
  refine ⟨u, hu, List.mem_map.2 ⟨d, hmem, ?_⟩⟩
  rw [eq_of_beq hoff]

/-- The sites of all entries. -/
def Store.sites (st : Store) : List Site :=
  st.units.zipIdx.flatMap fun x => x.1.sites x.2

theorem mem_store_sites {s : Site} (h : tagAt st s ≠ none) : s ∈ st.sites := by
  obtain ⟨u, hu, hs⟩ := mem_sites_of_tagAt h
  refine List.mem_flatMap.2 ⟨(u, s.1), ?_, hs⟩
  rw [List.mem_zipIdx_iff_getElem?]
  exact hu

/-! ## Chains end -/

/-- The origin of an entry. -/
def Origin (st : Store) (s s' : Site) : Prop := ∃ o, origin st s = some o ∧ s' = (s.1, o)

section Chains

variable {r : Site → Site → Prop}

theorem nodup_of_chain (hac : ∀ s, ¬ Relation.TransGen r s s) {l : List Site}
    (h : l.IsChain r) : l.Nodup := by
  have htrans : l.IsChain (Relation.TransGen r) := h.imp fun _ _ => .single
  refine (List.isChain_iff_pairwise.1 htrans).imp fun {a b} hab => ?_
  rintro rfl
  exact hac a hab

/-- Entries of one unit, each linked to the next, the first at `s`. -/
structure LinksFrom (st : Store) (r : Site → Site → Prop) (s : Site) (l : List Site) :
    Prop where
  chain : l.IsChain r
  entries : ∀ x ∈ l, x.1 = s.1 ∧ tagAt st x ≠ none
  head : ∀ x ∈ l.head?, x = s

theorem LinksFrom.nil {s : Site} : LinksFrom st r s [] := ⟨.nil, nofun, nofun⟩

theorem LinksFrom.cons {s : Site} {o : Off} {l : List Site} (hs : tagAt st s ≠ none)
    (hr : r s (s.1, o)) (h : LinksFrom st r (s.1, o) l) : LinksFrom st r s (s :: l) := by
  refine ⟨List.isChain_cons.2 ⟨fun y hy => ?_, h.chain⟩, fun x hx => ?_,
    fun x hx => (Option.some.inj hx).symm⟩
  · rw [h.head y hy]
    exact hr
  · rcases List.mem_cons.1 hx with rfl | hx
    · exact ⟨rfl, hs⟩
    · exact h.entries x hx

/-- A chain longer than its unit would repeat an entry. -/
theorem LinksFrom.length_le (hac : ∀ s, ¬ Relation.TransGen r s s) {s : Site} {l : List Site}
    (h : LinksFrom st r s l) : l.length ≤ unitSize st s.1 := by
  have hnodup := nodup_of_chain hac h.chain
  rcases hu : st.units[s.1]? with _ | u
  · cases l with
    | nil => exact Nat.zero_le _
    | cons x l =>
      obtain ⟨hx1, htag⟩ := h.entries x List.mem_cons_self
      obtain ⟨u, hu', -⟩ := mem_sites_of_tagAt htag
      rw [hx1, hu] at hu'
      cases hu'
  · have hsub : l ⊆ u.sites s.1 := by
      intro x hxl
      obtain ⟨hx1, htag⟩ := h.entries x hxl
      obtain ⟨u', hu', hmem⟩ := mem_sites_of_tagAt htag
      rw [hx1, hu] at hu'
      cases hu'
      rwa [hx1] at hmem
    have hle := (hnodup.subperm hsub).length_le
    rw [CompUnit.sites, List.length_map] at hle
    rw [unitSize, hu]
    exact hle

end Chains

/-- An entry with an origin exists. -/
theorem tagAt_of_origin {s : Site} {o : Off} (h : origin st s = some o) : tagAt st s ≠ none := by
  intro htag
  have hentry : entryAt st s = none := Option.map_eq_none_iff.1 htag
  rw [origin, attrAt, attrAt, hentry] at h
  cases h

theorem links_of_alongOrigins {α : Type} {look : Site → Option (Option α)} {n : ℕ} {s : Site}
    (h : alongOrigins st look n s = none) :
    ∃ l : List Site, l.length = n ∧ LinksFrom st (Origin st) s l := by
  induction n generalizing s with
  | zero => exact ⟨[], rfl, .nil⟩
  | succ n ih =>
    rw [alongOrigins] at h
    split at h
    · cases h
    · split at h
      · rename_i o ho
        obtain ⟨l, hlen, hl⟩ := ih h
        exact ⟨s :: l, congrArg (· + 1) hlen, hl.cons (tagAt_of_origin ho) ⟨o, ho, rfl⟩⟩
      · cases h

section Acyclic

variable (horig : ∀ s, ¬ Relation.TransGen (Origin st) s s)
include horig

/-- Where no chain of origins comes back to itself, every search along origins ends. -/
theorem alongOrigins_ends {α : Type} (look : Site → Option (Option α)) (s : Site) :
    alongOrigins st look (unitSize st s.1 + 1) s ≠ none := by
  intro h
  obtain ⟨l, hlen, hl⟩ := links_of_alongOrigins h
  have hle := hl.length_le horig
  omega

theorem typeRefM_eq_ret (s : Site) : typeRefM st s = ret (typeRef st s) := by
  obtain ⟨t, ht⟩ := Option.ne_none_iff_exists'.1 (alongOrigins_ends horig (ownType st) s)
  have hread : typeRefRead st s = some t := ht
  rw [typeRefM, typeRef, hread]
  rfl

theorem links_of_hang {n : ℕ} {s : Site} (h : stripAlong st n s = hang) :
    ∃ l : List Site, l.length = n ∧ LinksFrom st (Wraps st) s l := by
  induction n generalizing s with
  | zero => exact ⟨[], rfl, .nil⟩
  | succ n ih =>
    rcases htag : tagAt st s with _ | t
    · rw [stripAlong, tag, htag] at h
      cases h
    have ht : tag st s = ret t := by
      rw [tag, htag]
      rfl
    -- only an alias with a type goes on
    by_cases ha : t.isAlias = true
    · have hread := typeRefM_eq_ret horig s
      rcases hi : typeRef st s with _ | inner
      · rw [hi] at hread
        rw [stripAlong_last ht (.inr hread)] at h
        cases h
      · rw [hi] at hread
        rw [stripAlong_alias ht ha hread] at h
        obtain ⟨l, hlen, hl⟩ := ih h
        refine ⟨s :: l, congrArg (· + 1) hlen, hl.cons ?_ (.alias htag ha hi)⟩
        rw [htag]
        exact Option.some_ne_none t
    · rw [stripAlong_last ht (.inl (Bool.eq_false_iff.2 ha))] at h
      cases h

variable (hac : ∀ s, ¬ Relation.TransGen (Wraps st) s s)
include hac

/-- Without cycles of wrappers and of origins every lookup ends. -/
theorem not_loops : ¬ Loops st := by
  rintro (⟨s, hs⟩ | ⟨s, hs⟩ | ⟨s, hs⟩)
  · obtain ⟨l, hlen, hl⟩ := links_of_hang horig hs
    have hle := hl.length_le hac
    omega
  · exact alongOrigins_ends horig _ s hs
  · exact alongOrigins_ends horig _ s hs

omit horig

/-- Induction along the transparent wrappers of a site. -/
theorem wraps_induction {Q : Site → Prop}
    (step : ∀ s, (∀ inner, resolveSite st s = ret (.wraps inner) → Q inner) → Q s) (s : Site) :
    Q s := by
  have hstrict : IsStrictOrder Site fun a b => Relation.TransGen (Wraps st) b a :=
    { irrefl := hac, trans := fun _ _ _ hab hbc => hbc.trans hab }
  have hwf := (List.finite_toSet st.sites).wellFoundedOn
    (r := fun a b => Relation.TransGen (Wraps st) b a)
  have hout (s : Site) (hs : s ∉ st.sites) : Q s :=
    step s fun inner hi => absurd (mem_store_sites (wraps_of_resolveSite hi).2) hs
  by_cases hs : s ∈ st.sites
  · refine hwf.induction hs fun y _ ih => step y fun inner hi => ?_
    by_cases hin : inner ∈ st.sites
    · exact ih inner hin (wraps_of_resolveSite hi).1
    · exact hout inner hin
  · exact hout s hs

end Acyclic

/-! ## Calls end -/

/-- Under all large enough bounds the call ends in one way: it returns or panics. -/
def Ends {σ α : Type} (x : ℕ → Comp σ String α) (s : σ) : Prop :=
  ∃ o s', ((∃ a, o = .done a) ∨ ∃ e, o = .stop e) ∧ ∃ D, ∀ d ≥ D, (x d).run s = (o, s')

theorem Ends.of_succ {x y : ℕ → Comp Heap String Ty} {h : Heap} (hx : Ends x h)
    (hxy : ∀ d, (y (d + 1)).run h = (x d).run h) : Ends y h := by
  obtain ⟨o, h', ho, D, hD⟩ := hx
  refine ⟨o, h', ho, D + 1, fun d hd => ?_⟩
  obtain ⟨d, rfl⟩ : ∃ k, d = k + 1 := ⟨d - 1, by omega⟩
  exact (hxy d).trans (hD d (by omega))

/-- A body ends when the calls it makes end; the memo they see is always the same. -/
theorem exec_ends {memo : List (Site × RecCell)} {L : Prop} (hL : ¬ L) {W V : Ty → ℕ} {n : ℕ}
    {x : Body Ty} (hx : Uses L W V n x)
    (hrec : ∀ k h, h.memo = memo → Ends (fun d => classify st d k) h) {h : Heap}
    (hm : h.memo = memo) : Ends (fun d => x.exec (classify st d) dropTy) h := by
  induction hx generalizing h with
  | ret _ => exact ⟨_, h, .inl ⟨_, rfl⟩, 0, fun _ _ => rfl⟩
  | stop e => exact ⟨_, h, .inr ⟨e, rfl⟩, 0, fun _ _ => rfl⟩
  | hang hl => exact absurd hl hL
  | @call n k f _ ih =>
    obtain ⟨o, h₁, ho, D₁, hD₁⟩ := hrec k h hm
    rcases ho with ⟨t, rfl⟩ | ⟨e, rfl⟩
    · have hm₁ : h₁.memo = memo := by
        have hmemo : ((classify st D₁ k).run h).2.memo = h.memo := memo_classify D₁ k h
        rw [hD₁ D₁ (Nat.le_refl _)] at hmemo
        exact hmemo.trans hm
      obtain ⟨o, h₂, ho, D₂, hD₂⟩ := ih t hm₁
      refine ⟨o, h₂, ho, max D₁ D₂, fun d hd => ?_⟩
      exact (bind_done (hD₁ d (by omega))).trans (hD₂ d (by omega))
    · refine ⟨.stop e, h₁, .inr ⟨e, rfl⟩, D₁, fun d hd => ?_⟩
      change (classify st d k >>= _).run h = _
      rw [bind_run, hD₁ d hd]
  | @discard n t x _ ih =>
    obtain ⟨o, h₁, ho, D, hD⟩ := ih ((memo_releaseAll _ _ h).trans hm)
    exact ⟨o, h₁, ho, D, fun d hd => hD d hd⟩

/-- How many entries of the store are not in flight. -/
def Store.free (st : Store) (memo : List (Site × RecCell)) : ℕ :=
  (st.sites.toFinset.filter fun key => memo.lookup key = none).card

theorem free_lt {memo : List (Site × RecCell)} {key : Site} (hkey : key ∈ st.sites)
    (hnew : memo.lookup key = none) (c : RecCell) : st.free ((key, c) :: memo) < st.free memo := by
  refine Finset.card_lt_card ((Finset.ssubset_iff_of_subset fun k hk => ?_).2 ⟨key, ?_, ?_⟩)
  · rw [Finset.mem_filter] at hk ⊢
    refine ⟨hk.1, ?_⟩
    rw [List.lookup_cons] at hk
    by_cases hkk : k = key
    · exact hkk ▸ hnew
    · simpa [beq_eq_false_iff_ne.2 hkk] using hk.2
  · exact Finset.mem_filter.2 ⟨List.mem_toFinset.2 hkey, hnew⟩
  · rw [Finset.mem_filter, List.lookup_cons_self]
    nofun

/-- Without cycles of wrappers and of origins every call ends, whatever is in flight. -/
theorem classify_ends (horig : ∀ s, ¬ Relation.TransGen (Origin st) s s)
    (hac : ∀ s, ¬ Relation.TransGen (Wraps st) s s) (s : Site) (h : Heap) :
    Ends (fun d => classify st d s) h := by
  induction hn : st.free h.memo using Nat.strong_induction_on generalizing s h with
  | _ n ih =>
    revert s
    refine wraps_induction hac fun s hinner => ?_
    rcases silent_resolveSite st s with ⟨⟨inner⟩ | ⟨key, t, name⟩, hr⟩ | ⟨e, hr⟩ | ⟨hl, hr⟩
    · exact (hinner inner hr).of_succ fun d => classify_wraps hr h
    · rcases hc : h.memo.lookup key with _ | c
      · have hkey : key ∈ st.sites := mem_store_sites (by rw [tagAt_of_resolveSite hr]; nofun)
        -- with the key in flight there are fewer sites left to enter
        have hlt := free_lt hkey hc h.fresh
        obtain ⟨o, h₁, ho, D, hD⟩ := exec_ends (not_loops horig hac) (uses_entryBody 0 key)
          (fun k h' (hm : h'.memo = (h.launch key).memo) => ih _ (by rw [hm, ← hn]; exact hlt) k h' rfl)
          (rfl : (h.launch key).memo = _)
        rcases ho with ⟨body, rfl⟩ | ⟨e, rfl⟩
        · refine ⟨.done body, h₁.finish key h.fresh body, .inl ⟨body, rfl⟩, D + 1, fun d hd => ?_⟩
          obtain ⟨d, rfl⟩ : ∃ k, d = k + 1 := ⟨d - 1, by omega⟩
          rw [classify_new hr hc, hD d (by omega)]
        · refine ⟨.stop e, h₁.leave key, .inr ⟨e, rfl⟩, D + 1, fun d hd => ?_⟩
          obtain ⟨d, rfl⟩ : ∃ k, d = k + 1 := ⟨d - 1, by omega⟩
          rw [classify_new hr hc, hD d (by omega)]
      · refine ⟨.done (.ref c), h.clone c, .inl ⟨_, rfl⟩, 1, fun d hd => ?_⟩
        obtain ⟨d, rfl⟩ : ∃ k, d = k + 1 := ⟨d - 1, by omega⟩
        exact classify_inFlight hr hc
    · refine ⟨.stop e, h, .inr ⟨e, rfl⟩, 1, fun d hd => ?_⟩
      obtain ⟨d, rfl⟩ : ∃ k, d = k + 1 := ⟨d - 1, by omega⟩
      exact classify_stop hr h
    · exact absurd hl (not_loops horig hac)

/-! ## Larger bounds -/

theorem exec_mono {rec rec' : Site → Comp Heap String Ty}
    (hrec : ∀ k h, ((rec k).run h).1 ≠ .deep → (rec' k).run h = (rec k).run h) {α : Type}
    (x : Body α) {h : Heap} (hx : ((x.exec rec dropTy).run h).1 ≠ .deep) :
    (x.exec rec' dropTy).run h = (x.exec rec dropTy).run h := by
  induction x generalizing h with
  | ret a => rfl
  | stop e => rfl
  | hang => rfl
  | call k f ih =>
    have hk : ((rec k).run h).1 ≠ .deep := by
      intro hdeep
      refine hx ?_
      rw [exec, bind_run]
      rcases hr : (rec k).run h with ⟨_ | _ | _ | _, h₁⟩ <;> rw [hr] at hdeep <;>
        first | rfl | cases hdeep
    rw [exec, bind_run] at hx ⊢
    rw [exec, bind_run, hrec k h hk]
    rcases hr : (rec k).run h with ⟨_ | _ | _ | _, h₁⟩ <;> rw [hr] at hx
    exact ih _ hx
  | discard t x ih => exact ih (h := h.release t.refs) hx

/-- A call that did not reach the bound runs in the same way under a larger one. -/
theorem classify_mono {d d' : ℕ} (hd : d ≤ d') (s : Site) (h : Heap)
    (hx : ((classify st d s).run h).1 ≠ .deep) :
    (classify st d' s).run h = (classify st d s).run h := by
  induction d generalizing d' s h with
  | zero => exact absurd rfl hx
  | succ d ih =>
    obtain ⟨d', rfl⟩ : ∃ k, d' = k + 1 := ⟨d' - 1, by omega⟩
    rcases silent_resolveSite st s with ⟨⟨inner⟩ | ⟨key, t, name⟩, hr⟩ | ⟨e, hr⟩ | ⟨-, hr⟩
    · rw [classify_wraps hr] at hx ⊢
      rw [classify_wraps hr]
      exact ih (by omega) inner h hx
    · rcases hc : h.memo.lookup key with _ | c
      · rw [classify_new hr hc] at hx ⊢
        rw [classify_new hr hc]
        rw [exec_mono (fun k h' hk => ih (by omega) k h' hk)]
        intro hdeep
        refine hx ?_
        rcases hrun : ((entryBody st key).exec (classify st d) dropTy).run (h.launch key) with
          ⟨_ | _ | _ | _, h₁⟩ <;> rw [hrun] at hdeep <;> first | rfl | cases hdeep
      · rw [classify_inFlight hr hc, classify_inFlight hr hc]
    · rw [classify_stop hr, classify_stop hr]
    · rw [classify_hang hr, classify_hang hr]

/-- One run that returns rules out a panic under any bound. -/
theorem not_panics_of_done {d : ℕ} {s : Site} {h : Heap}
    (hdone : ∃ ty, ((classify st d s).run h).1 = .done ty) (d' : ℕ) (e : String) :
    ((classify st d' s).run h).1 ≠ .stop e := by
  intro hstop
  obtain ⟨ty, hty⟩ := hdone
  have h₁ : (classify st (max d d') s).run h = (classify st d s).run h :=
    classify_mono (Nat.le_max_left d d') s h (by rw [hty]; nofun)
  have h₂ : (classify st (max d d') s).run h = (classify st d' s).run h :=
    classify_mono (Nat.le_max_right d d') s h (by rw [hstop]; nofun)
  rw [h₁] at h₂
  rw [h₂, hstop] at hty
  cases hty

/-! ## The knot -/

/-- `classify` ties the knot faithfully. Where no chain of origins and no chain of wrappers comes
back to itself, a call that hits no panic returns; no call changes the memo; all cells that the
result reaches are set; and the result unfolds to the tree that classifying without a memo gives,
at every depth. -/
theorem classify_faithful (st : Store) (horig : ∀ s, ¬ Relation.TransGen (Origin st) s s)
    (hac : ∀ s, ¬ Relation.TransGen (Wraps st) s s)
    {kept : List (Site × Ty)} {h : Heap} (hr : Reachable st kept h) (s : Site)
    (hpanic : ∀ d e, ((classify st d s).run h).1 ≠ .stop e) :
    (∀ d k h₀, ((classify st d k).run h₀).2.memo = h₀.memo) ∧
    ∃ ty h', (∃ D, ∀ d ≥ D, (classify st d s).run h = (.done ty, h')) ∧
      (∀ c, Reaches h'.cells ty c → ∃ body, h'.cells c = some body) ∧
      ∀ n, ∃ tree, (∃ D, ∀ d ≥ D, (classifyTree st d n s).run () = (.done tree, ())) ∧
        ty.unfold h'.cells n = tree.trim n := by
  refine ⟨memo_classify, ?_⟩
  obtain ⟨o, h', ho, D, hD⟩ := classify_ends horig hac s h
  have hrun := hD D (Nat.le_refl D)
  rcases ho with ⟨ty, rfl⟩ | ⟨e, rfl⟩
  · obtain ⟨own, full, hcalm⟩ := (hr.call hrun).calm
    refine ⟨ty, h', ⟨D, hD⟩, fun c hc => ?_, fun n => hcalm.unfold List.mem_cons_self n⟩
    exact Option.ne_none_iff_exists'.1 (hcalm.reaches_set List.mem_cons_self hc)
  · exact absurd (congrArg Prod.fst hrun) (hpanic D e)

/-! ## A linked list -/

/-- An entry without address ranges. -/
def Die.plain (o : Off) (t : DwTag) (attrs : List (DwAt × AttributeValue)) (kids : List Die) :
    Die := .mk ⟨o, t, attrs, []⟩ kids

/-- The entry of `u64`. -/
def u64Die (o : Off) : Die :=
  .plain o .baseType [(.name, .string "u64"), (.byteSize, .udata 8),
    (.encoding, .encoding .unsigned)] []

/-- `struct Node { val: u64, next: Option<Box<Node>> }`; the option is entry 4. -/
def nodeStore : Store :=
  ⟨[⟨.plain 0 (.other 0x11) [] [
    .plain 1 .structureType [(.name, .string "Node"), (.byteSize, .udata 16)] [
      .plain 2 .member [(.name, .string "val"), (.type, .unitRef 20),
        (.dataMemberLocation, .udata 0)] [],
      .plain 3 .member [(.name, .string "next"), (.type, .unitRef 4),
        (.dataMemberLocation, .udata 8)] []],
    .plain 4 .structureType [(.name, .string "Option<Box<Node>>"), (.byteSize, .udata 8)] [
      .plain 5 .variantPart [(.discr, .unitRef 6)] [
        .plain 6 .member [(.type, .unitRef 20), (.dataMemberLocation, .udata 0)] [],
        .plain 7 .variant [(.discrValue, .udata 0)] [
          .plain 8 .member [(.name, .string "None"), (.type, .unitRef 9),
            (.dataMemberLocation, .udata 0)] []],
        .plain 10 .variant [] [
          .plain 11 .member [(.name, .string "Some"), (.type, .unitRef 12),
            (.dataMemberLocation, .udata 0)] []]],
      .plain 9 .structureType [(.name, .string "None"), (.byteSize, .udata 8)] [],
      .plain 12 .structureType [(.name, .string "Some"), (.byteSize, .udata 8)] [
        .plain 13 .member [(.name, .string "__0"), (.type, .unitRef 14),
          (.dataMemberLocation, .udata 0)] []]],
    .plain 14 .pointerType [(.name, .string "Box<Node>"), (.type, .unitRef 1)] [],
    u64Die 20]⟩], 0⟩

/-- A store without aliases and type parameters has no wrappers. -/
theorem not_wraps (h : ∀ u ∈ st.units, ∀ d ∈ u.dies,
    d.entry.tag.isAlias = false ∧ d.entry.tag ≠ .templateTypeParameter) (s s' : Site) :
    ¬ Wraps st s s' := by
  have htag {s : Site} {t : DwTag} (ht : tagAt st s = some t) :
      t.isAlias = false ∧ t ≠ .templateTypeParameter := by
    obtain ⟨e, he, rfl⟩ := Option.map_eq_some_iff.1 ht
    obtain ⟨d, hd, rfl⟩ := Option.map_eq_some_iff.1 he
    obtain ⟨u, hu, hd⟩ := Option.bind_eq_some_iff.1 hd
    exact h u (List.mem_of_getElem? hu) d (List.mem_of_find?_eq_some hd)
  rintro (⟨ht, ha, -⟩ | ⟨-, -, hp⟩)
  · rw [(htag ht).1] at ha
    cases ha
  · obtain ⟨c, hc, -⟩ := Option.bind_eq_some_iff.1 hp
    have hmem := List.mem_of_mem_head? hc
    rw [childrenWithTag, List.mem_filter] at hmem
    exact (htag (eq_of_beq hmem.2)).2 rfl

theorem nodeStore_acyclic (s : Site) : ¬ Relation.TransGen (Wraps nodeStore) s s := by
  intro h
  obtain ⟨s', hs, -⟩ := Relation.TransGen.head'_iff.1 h
  exact not_wraps (by decide) s s' hs

/-- A store without origins has no chain of them. -/
theorem not_origin (h : ∀ u ∈ st.units, ∀ d ∈ u.dies,
    d.entry.attrValue .abstractOrigin = none ∧ d.entry.attrValue .specification = none)
    (s s' : Site) : ¬ Origin st s s' := by
  rintro ⟨o, ho, -⟩
  obtain ⟨e, he⟩ : ∃ e, entryAt st s = some e := by
    obtain ⟨t, ht⟩ := Option.ne_none_iff_exists'.1 (tagAt_of_origin ho)
    obtain ⟨e, he, -⟩ := Option.map_eq_some_iff.1 ht
    exact ⟨e, he⟩
  obtain ⟨d, hd, rfl⟩ := Option.map_eq_some_iff.1 he
  obtain ⟨u, hu, hd⟩ := Option.bind_eq_some_iff.1 hd
  obtain ⟨ha, hs⟩ := h u (List.mem_of_getElem? hu) d (List.mem_of_find?_eq_some hd)
  rw [origin, attrAt, attrAt, he, Option.bind_some, Option.bind_some, ha, hs] at ho
  cases ho

theorem nodeStore_originFree (s : Site) : ¬ Relation.TransGen (Origin nodeStore) s s := by
  intro h
  obtain ⟨s', hs, -⟩ := Relation.TransGen.head'_iff.1 h
  exact not_origin (by decide) s s' hs

/-- Whether a computation has returned. -/
def Outcome.isDone {ε α : Type} : Outcome ε α → Bool
  | .done _ => true
  | _ => false

theorem exists_of_isDone {ε α : Type} {o : Outcome ε α} (h : Outcome.isDone o = true) :
    ∃ a, o = .done a := by
  cases o with
  | done a => exact ⟨a, rfl⟩
  | _ => cases h

theorem classify_faithful_node :
    (∀ d k h₀, ((classify nodeStore d k).run h₀).2.memo = h₀.memo) ∧
    ∃ ty h', (∃ D, ∀ d ≥ D, (classify nodeStore d (0, 4)).run Heap.initial = (.done ty, h')) ∧
      (∀ c, Reaches h'.cells ty c → ∃ body, h'.cells c = some body) ∧
      ∀ n, ∃ tree,
        (∃ D, ∀ d ≥ D, (classifyTree nodeStore d n (0, 4)).run () = (.done tree, ())) ∧
        ty.unfold h'.cells n = tree.trim n :=
  classify_faithful nodeStore nodeStore_originFree nodeStore_acyclic .initial (0, 4)
    (not_panics_of_done (exists_of_isDone
      (by decide : Outcome.isDone ((classify nodeStore 8 (0, 4)).run Heap.initial).1 = true)))

/-! ## A struct that is its own specification -/

/-- A struct without a name whose specification is the struct itself. -/
def selfStore : Store :=
  ⟨[⟨.plain 0 (.other 0x11) [] [
    .plain 1 .structureType [(.specification, .unitRef 1)] []]⟩], 0⟩

/-- There is no cycle of wrappers, and no lookup panics, but `die_name` follows the specification
for ever: under no bound does the call return. -/
theorem classify_selfStore :
    (∀ s, ¬ Relation.TransGen (Wraps selfStore) s s) ∧
      (∀ d e, ((classify selfStore d (0, 1)).run Heap.initial).1 ≠ .stop e) ∧
      ∀ d ty, ((classify selfStore d (0, 1)).run Heap.initial).1 ≠ .done ty := by
  have hloop (d : ℕ) : ((classify selfStore d (0, 1)).run Heap.initial).1 = .deep ∨
      ((classify selfStore d (0, 1)).run Heap.initial).1 = .spent := by
    cases d with
    | zero => exact .inl rfl
    | succ d =>
      have hr : resolveSite selfStore (0, 1) = hang := rfl
      rw [classify_hang hr]
      exact .inr rfl
  refine ⟨fun s hs => ?_, fun d e h => ?_, fun d ty h => ?_⟩
  · obtain ⟨s', hs, -⟩ := Relation.TransGen.head'_iff.1 hs
    exact not_wraps (by decide) s s' hs
  · rcases hloop d with hd | hd <;> rw [hd] at h <;> cases h
  · rcases hloop d with hd | hd <;> rw [hd] at h <;> cases h

end Bilbo
