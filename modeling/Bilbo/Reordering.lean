import Mathlib.Data.Option.Basic
import Bilbo.Entries
import Bilbo.DefIndex
import Bilbo.Words

/-!
# Reordered members

Rust promises nothing about the order in which the fields of a struct appear. Reordering the member
entries of a tree, at any level, keeps what is found at each offset up to the order of its members,
so it keeps names, types, redirects and the words of every type.
-/

namespace Bilbo

open Base Calls

/-! ## Reorderings -/

/-- A member with no entries below it. -/
def Die.isPlainMember (d : Die) : Bool := d.entry.tag == .member && d.kids.isEmpty

/-- Some members of an entry, and of the entries below it, stand in another order; the other
children keep theirs. -/
inductive Die.Reorders : Die → Die → Prop
  | mk {e : Entry} {ks ks' ks'' : List Die} :
      List.Forall₂ Die.Reorders ks ks' → ks'.Perm ks'' →
      ks'.filter (fun d => ¬ d.isPlainMember) = ks''.filter (fun d => ¬ d.isPlainMember) →
      Die.Reorders (.mk e ks) (.mk e ks'')

/-- The trees of a store with members reordered. -/
def Store.Reorders (st st' : Store) : Prop :=
  List.Forall₂ (fun u u' => u.root.Reorders u'.root) st.units st'.units

theorem Die.Reorders.entry_eq {t t' : Die} (h : t.Reorders t') : t'.entry = t.entry := by
  cases h
  rfl

theorem offsets_eq {ks ks' : List Die} (h : List.Forall₂ Die.Reorders ks ks') :
    (ks.map fun d => d.entry.offset) = ks'.map fun d => d.entry.offset := by
  induction h with
  | nil => rfl
  | cons hd _ ih => rw [List.map_cons, List.map_cons, ih, hd.entry_eq]

theorem preorderAll_eq_flatMap (k : ℕ) (ks : List Die) :
    Die.preorderAll k ks = ks.flatMap (Die.preorder k) := by
  induction ks with
  | nil => rfl
  | cons t ks ih => rw [Die.preorderAll, ih, List.flatMap_cons]

theorem defsAll_eq_flatMap (ui : ℕ) (ks : List Die) :
    Die.defsAll ui ks = ks.flatMap (Die.defs ui) := by
  induction ks with
  | nil => rfl
  | cons t ks ih => rw [Die.defsAll, ih, List.flatMap_cons]

/-! ### Entries -/

/-- Entries at one depth, one a reordering of the other. -/
def SameDepth (x y : ℕ × Die) : Prop := x.1 = y.1 ∧ x.2.Reorders y.2

mutual

/-- The entries of a reordered tree are those of the tree, reordered and in some order. -/
theorem Die.Reorders.preorder (t : Die) {t' : Die} (h : t.Reorders t') (k : ℕ) :
    ∃ l, List.Forall₂ SameDepth (t.preorder k) l ∧ l.Perm (t'.preorder k) := by
  obtain ⟨e, ks⟩ := t
  cases h with
  | @mk _ _ ks' ks'' hall hperm hrest =>
    obtain ⟨l, hl, hlp⟩ := Die.Reorders.preorderAll ks hall (k + 1)
    refine ⟨(k, .mk e ks'') :: l, .cons ⟨rfl, .mk hall hperm hrest⟩ hl, ?_⟩
    rw [Die.preorder]
    refine .cons _ (hlp.trans ?_)
    rw [preorderAll_eq_flatMap, preorderAll_eq_flatMap]
    exact hperm.flatMap_right _

theorem Die.Reorders.preorderAll (ks : List Die) {ks' : List Die}
    (h : List.Forall₂ Die.Reorders ks ks') (k : ℕ) :
    ∃ l, List.Forall₂ SameDepth (Die.preorderAll k ks) l ∧ l.Perm (Die.preorderAll k ks') := by
  cases h with
  | nil => exact ⟨[], .nil, .refl _⟩
  | @cons t t' ks ks' ht hks =>
    obtain ⟨l, hl, hlp⟩ := Die.Reorders.preorder t ht k
    obtain ⟨l', hl', hlp'⟩ := Die.Reorders.preorderAll ks hks k
    rw [Die.preorderAll, Die.preorderAll]
    exact ⟨l ++ l', List.rel_append hl hl', hlp.append hlp'⟩

end

/-! ### Definitions -/

theorem flatMap_filter_of_nil {α β : Type} {p : α → Bool} {f : α → List β}
    (h : ∀ a, p a = false → f a = []) (l : List α) : (l.filter p).flatMap f = l.flatMap f := by
  induction l with
  | nil => rfl
  | cons a l ih =>
    rw [List.flatMap_cons, ← ih]
    cases hp : p a with
    | true => rw [List.filter_cons_of_pos hp, List.flatMap_cons]
    | false => rw [List.filter_cons_of_neg (by rw [hp]; exact Bool.false_ne_true), h a hp,
        List.nil_append]

/-- A plain member defines nothing. -/
theorem Die.isPlainMember.defs {d : Die} (h : d.isPlainMember = true) (ui : ℕ) :
    d.defs ui = [] := by
  obtain ⟨e, ks⟩ := d
  obtain ⟨htag, hks⟩ := Bool.and_eq_true_iff.1 h
  obtain rfl : ks = [] := List.isEmpty_iff.1 hks
  have htag' : e.tag = .member := beq_iff_eq.1 htag
  rw [Die.defs, Die.ownDef, htag']
  rfl

mutual

/-- A reordered tree has the same definitions, in the same order. -/
theorem Die.Reorders.defs (t : Die) {t' : Die} (h : t.Reorders t') (ui : ℕ) :
    t'.defs ui = t.defs ui := by
  obtain ⟨e, ks⟩ := t
  cases h with
  | @mk _ _ ks' ks'' hall hperm hrest =>
    obtain ⟨hdefs, hany⟩ := Die.Reorders.defsAll ks hall ui
    have hmoved : Die.defsAll ui ks'' = Die.defsAll ui ks' := by
      have hplain (d : Die) (hd : (decide ¬ d.isPlainMember = true) = false) : d.defs ui = [] :=
        Die.isPlainMember.defs (by simpa using hd) ui
      rw [defsAll_eq_flatMap, defsAll_eq_flatMap, ← flatMap_filter_of_nil hplain, ← hrest,
        flatMap_filter_of_nil hplain]
    have hown : ks''.any Die.isContent = ks.any Die.isContent := by
      rw [← hany]
      exact hperm.symm.any_eq
    rw [Die.defs, Die.defs, Die.ownDef, Die.ownDef, hmoved, hdefs, hown]

theorem Die.Reorders.defsAll (ks : List Die) {ks' : List Die}
    (h : List.Forall₂ Die.Reorders ks ks') (ui : ℕ) :
    Die.defsAll ui ks' = Die.defsAll ui ks ∧ ks'.any Die.isContent = ks.any Die.isContent := by
  cases h with
  | nil => exact ⟨rfl, rfl⟩
  | @cons t t' ks ks' ht hks =>
    obtain ⟨hdefs, hany⟩ := Die.Reorders.defsAll ks hks ui
    refine ⟨?_, ?_⟩
    · rw [Die.defsAll, Die.defsAll, Die.Reorders.defs t ht ui, hdefs]
    · rw [List.any_cons, List.any_cons, hany, Die.isContent, Die.isContent, ht.entry_eq]

end

/-! ## What is found by offset -/

variable {st st' : Store}

theorem Store.Reorders.getElem? (h : st.Reorders st') (ui : ℕ) :
    Option.Rel (fun u u' => u.root.Reorders u'.root) st.units[ui]? st'.units[ui]? := by
  unfold Store.Reorders at h
  generalize st.units = us at h ⊢
  generalize st'.units = us' at h ⊢
  induction h generalizing ui with
  | nil => exact .none
  | cons hu _ ih =>
    cases ui with
    | zero => exact .some hu
    | succ ui => exact ih ui

section

variable {u u' : CompUnit}

/-- The entries of a reordered unit. -/
theorem dies_reorders (h : u.root.Reorders u'.root) :
    ∃ l, List.Forall₂ Die.Reorders u.dies l ∧ l.Perm u'.dies := by
  obtain ⟨l, hl, hperm⟩ := Die.Reorders.preorder u.root h 0
  refine ⟨l.map (·.2), ?_, hperm.map _⟩
  rw [CompUnit.dies, List.forall₂_map_left_iff, List.forall₂_map_right_iff]
  exact hl.imp fun _ _ hxy => hxy.2

theorem offsets_reorders (h : u.root.Reorders u'.root) :
    (u.dies.map fun d => d.entry.offset).Perm (u'.dies.map fun d => d.entry.offset) := by
  obtain ⟨l, hl, hperm⟩ := dies_reorders h
  rw [offsets_eq hl]
  exact hperm.map _

theorem exists_reordered (h : u.root.Reorders u'.root) {d : Die} (hd : d ∈ u.dies) :
    ∃ d' ∈ u'.dies, d.Reorders d' := by
  obtain ⟨l, hl, hperm⟩ := dies_reorders h
  obtain ⟨i, hi, rfl⟩ := List.getElem_of_mem hd
  have hi' : i < l.length := hl.length_eq ▸ hi
  exact ⟨l[i], hperm.mem_iff.1 (List.getElem_mem hi'), hl.get hi hi'⟩

end

theorem Store.Reorders.distinct (h : st.Reorders st') (hst : st.Distinct) : st'.Distinct := by
  intro u' hu'
  obtain ⟨ui, hui⟩ := List.getElem?_of_mem hu'
  have hrel := h.getElem? ui
  rw [hui] at hrel
  generalize hu : st.units[ui]? = o at hrel
  cases hrel with
  | some hr => exact (offsets_reorders hr).nodup_iff.1 (hst _ (List.mem_of_getElem? hu))

/-- At each offset a reordering of the same entry is found. -/
theorem Store.Reorders.dieAt (h : st.Reorders st') (hst : st.Distinct) (s : Site) :
    Option.Rel Die.Reorders (dieAt st s) (dieAt st' s) := by
  obtain ⟨ui, o⟩ := s
  have hrel := h.getElem? ui
  cases hd : Bilbo.dieAt st (ui, o) with
  | some d =>
    obtain ⟨u, hu, hmem, rfl⟩ := dieAt_eq_some hd
    rw [hu] at hrel
    generalize hu' : st'.units[ui]? = o' at hrel
    cases hrel with
    | @some _ u' hr =>
      obtain ⟨d', hmem', hdd'⟩ := exists_reordered hr hmem
      rw [← hdd'.entry_eq, (h.distinct hst).dieAt_eq hu' hmem']
      exact .some hdd'
  | none =>
    cases hd' : Bilbo.dieAt st' (ui, o) with
    | none => exact .none
    | some d' =>
      -- the reordered unit has no offset that the unit does not have
      obtain ⟨u', hu', hmem', rfl⟩ := dieAt_eq_some hd'
      rw [hu'] at hrel
      generalize hu : st.units[ui]? = o at hrel
      cases hrel with
      | @some u _ hr =>
        have hoff := (offsets_reorders hr).mem_iff.2 (List.mem_map_of_mem hmem')
        obtain ⟨d, hmem, heq⟩ := List.mem_map.1 hoff
        obtain ⟨d₀, hd₀⟩ := exists_dieAt hu hmem
        rw [heq, hd] at hd₀
        cases hd₀

/-- Two stores with the same entries and definitions, where each entry has the same children in
some order. -/
structure Store.SameEntries (st st' : Store) : Prop where
  entry : entryAt st' = entryAt st
  kids : ∀ s, (childOffsets st s).Perm (childOffsets st' s)
  size : unitSize st' = unitSize st
  defs : definitions st' = definitions st

theorem Store.Reorders.entryAt_eq (h : st.Reorders st') (hst : st.Distinct) (s : Site) :
    entryAt st' s = entryAt st s := by
  rw [entryAt, entryAt]
  have hrel := h.dieAt hst s
  generalize Bilbo.dieAt st s = o at hrel ⊢
  generalize Bilbo.dieAt st' s = o' at hrel ⊢
  cases hrel with
  | none => rfl
  | some hd => exact congrArg some hd.entry_eq

theorem Store.Reorders.childOffsets_perm (h : st.Reorders st') (hst : st.Distinct) (s : Site) :
    (childOffsets st s).Perm (childOffsets st' s) := by
  rw [childOffsets, childOffsets]
  have hrel := h.dieAt hst s
  generalize Bilbo.dieAt st s = o at hrel ⊢
  generalize Bilbo.dieAt st' s = o' at hrel ⊢
  cases hrel with
  | none => exact .refl _
  | some hd =>
    cases hd with
    | @mk e ks ks' ks'' hall hperm hrest =>
      -- each child keeps its offset, and then they are permuted
      show (ks.map _).Perm (ks''.map _)
      rw [offsets_eq hall]
      exact hperm.map _

theorem Store.Reorders.unitSize_eq (h : st.Reorders st') (ui : ℕ) :
    unitSize st' ui = unitSize st ui := by
  rw [unitSize, unitSize]
  have hrel := h.getElem? ui
  generalize st.units[ui]? = o at hrel ⊢
  generalize st'.units[ui]? = o' at hrel ⊢
  cases hrel with
  | none => rfl
  | some hu =>
    have hlen := (offsets_reorders hu).length_eq
    rw [List.length_map, List.length_map] at hlen
    exact hlen.symm

theorem Store.Reorders.definitions_eq (h : st.Reorders st') :
    definitions st' = definitions st := by
  unfold definitions
  unfold Store.Reorders at h
  generalize st.units = us at h ⊢
  generalize st'.units = us' at h ⊢
  -- the units are numbered from any index
  generalize 0 = i
  induction h generalizing i with
  | nil => rfl
  | @cons u u' us us' hu _ ih =>
    rw [List.zipIdx_cons, List.zipIdx_cons, List.flatMap_cons, List.flatMap_cons, ih,
      Die.Reorders.defs u.root hu i]

theorem Store.Reorders.sameEntries (h : st.Reorders st') (hst : st.Distinct) :
    st.SameEntries st' where
  entry := funext (h.entryAt_eq hst)
  kids := h.childOffsets_perm hst
  size := funext h.unitSize_eq
  defs := h.definitions_eq

/-! ## What the walk reads -/

/-- Collecting from a list in another order collects the same in another order. -/
theorem mapM_perm {α β : Type} {f : α → Option (List β)} {l l' : List α} (h : l.Perm l')
    {r : List (List β)} (hr : l.mapM f = some r) :
    ∃ r', l'.mapM f = some r' ∧ r.flatten.Perm r'.flatten := by
  induction h generalizing r with
  | nil => exact ⟨r, hr, .refl _⟩
  | cons a _ ih =>
    rw [List.mapM_cons] at hr
    obtain ⟨b, hb, hr⟩ := Option.bind_eq_some_iff.1 hr
    obtain ⟨r₀, hr₀, heq⟩ := Option.bind_eq_some_iff.1 hr
    obtain rfl := Option.some.inj heq
    obtain ⟨r', hr', hperm⟩ := ih hr₀
    refine ⟨b :: r', ?_, ?_⟩
    · rw [List.mapM_cons, hb, hr']
      rfl
    · rw [List.flatten_cons, List.flatten_cons]
      exact hperm.append_left b
  -- both are there, and what they give changes places
  | swap a a' l =>
    rw [List.mapM_cons, List.mapM_cons] at hr
    obtain ⟨b', hb', hr⟩ := Option.bind_eq_some_iff.1 hr
    obtain ⟨r₁, hr₁, heq₁⟩ := Option.bind_eq_some_iff.1 hr
    obtain ⟨b, hb, hr₁⟩ := Option.bind_eq_some_iff.1 hr₁
    obtain ⟨r₀, hr₀, heq₀⟩ := Option.bind_eq_some_iff.1 hr₁
    obtain rfl := Option.some.inj heq₀
    obtain rfl := Option.some.inj heq₁
    refine ⟨b :: b' :: r₀, ?_, ?_⟩
    · rw [List.mapM_cons, List.mapM_cons, hb, hb', hr₀]
      rfl
    · simp only [List.flatten_cons, ← List.append_assoc]
      exact List.perm_append_comm.append_right _
  | trans _ _ ih ih' =>
    obtain ⟨r', hr', hperm⟩ := ih hr
    obtain ⟨r'', hr'', hperm'⟩ := ih' hr'
    exact ⟨r'', hr'', hperm.trans hperm'⟩

/-- Collecting with a function that gives the same in another order. -/
theorem mapM_rel {α β : Type} {f g : α → Option (List β)}
    (hfg : ∀ a b, f a = some b → ∃ b', g a = some b' ∧ b.Perm b') {l : List α}
    {r : List (List β)} (hr : l.mapM f = some r) :
    ∃ r', l.mapM g = some r' ∧ r.flatten.Perm r'.flatten := by
  induction l generalizing r with
  | nil =>
    obtain rfl : [] = r := Option.some.inj hr
    exact ⟨[], rfl, .refl _⟩
  | cons a l ih =>
    rw [List.mapM_cons] at hr
    obtain ⟨b, hb, hr⟩ := Option.bind_eq_some_iff.1 hr
    obtain ⟨r₀, hr₀, heq⟩ := Option.bind_eq_some_iff.1 hr
    obtain rfl := Option.some.inj heq
    obtain ⟨b', hb', hpb⟩ := hfg a b hb
    obtain ⟨r', hr', hperm⟩ := ih hr₀
    refine ⟨b' :: r', ?_, ?_⟩
    · rw [List.mapM_cons, hb', hr']
      rfl
    · rw [List.flatten_cons, List.flatten_cons]
      exact hpb.append hperm

namespace Store.SameEntries

variable (h : st.SameEntries st')

include h

theorem attrAt_eq : attrAt st' = attrAt st := by
  funext s a
  rw [attrAt, attrAt, h.entry]

theorem origin_eq : origin st' = origin st := by
  funext s
  rw [origin, origin, h.attrAt_eq]

theorem tagAt_eq : tagAt st' = tagAt st := by
  funext s
  rw [tagAt, tagAt, h.entry]

theorem udata_eq : udata st' = udata st := by
  funext s a
  rw [udata, udata, h.attrAt_eq]

theorem dieNameRead_eq : dieNameRead st' = dieNameRead st := by
  funext s
  have hown : ownName st' = ownName st := by
    funext s
    rw [ownName, ownName, h.attrAt_eq]
  rw [dieNameRead, dieNameRead, hown, h.size, alongOrigins_congr h.origin_eq]

theorem typeRefRead_eq : typeRefRead st' = typeRefRead st := by
  funext s
  have hown : ownType st' = ownType st := by
    funext s
    rw [ownType, ownType, h.attrAt_eq]
  rw [typeRefRead, typeRefRead, hown, h.size, alongOrigins_congr h.origin_eq]

theorem stripped_eq : stripped st' = stripped st := by
  have hgen (n : ℕ) : stripAlong st' n = stripAlong st n := by
    induction n with
    | zero => rfl
    | succ n ih =>
      funext s
      simp only [stripAlong, tag, typeRefM, h.tagAt_eq, h.typeRefRead_eq, ih]
  funext s
  rw [stripped, stripped, strip, strip, h.size, hgen]

theorem isStub_eq : isStub st' = isStub st := by
  funext s
  have hany := (h.kids s).any_eq (f := fun c =>
    ((tagAt st (s.1, c)).map DwTag.isContent).getD false)
  rw [isStub, isStub, h.entry, h.udata_eq, h.tagAt_eq, hany]

theorem defSiteM_eq : defSiteM st' = defSiteM st := by
  funext s
  simp only [defSiteM, dieNameM, h.isStub_eq, h.dieNameRead_eq, lookup_defIndex, h.defs]

theorem childrenWithTag_perm (s : Site) (t : DwTag) :
    (childrenWithTag st s t).Perm (childrenWithTag st' s t) := by
  rw [childrenWithTag, childrenWithTag, h.tagAt_eq]
  exact (h.kids s).filter _

theorem memberWords_perm {below below' : Site → Option (List Word)}
    (ih : ∀ s ws, below s = some ws → ∃ ws', below' s = some ws' ∧ ws.Perm ws') {ui : ℕ} {m : Off}
    {ws : List Word} (hws : memberWords st below ui m = some ws) :
    ∃ ws', memberWords st' below' ui m = some ws' ∧ ws.Perm ws' := by
  obtain ⟨name, hname, hws⟩ := Option.bind_eq_some_iff.1 hws
  obtain ⟨inType, hin, rfl⟩ := Option.map_eq_some_iff.1 hws
  rw [memberWords, h.dieNameRead_eq, h.typeRefRead_eq, offsetOf, h.udata_eq, hname]
  simp only [Option.bind_eq_bind, Option.bind_some]
  -- a word of its own, no type, or the words of its type
  cases hslot : slotOf (name.getD "") with
  | some k =>
    rw [hslot] at hin
    obtain rfl := Option.some.inj hin
    exact ⟨_, rfl, .refl _⟩
  | none =>
    rw [hslot] at hin
    obtain ⟨mt, hmt, hin⟩ := Option.bind_eq_some_iff.1 hin
    rw [hmt]
    cases mt with
    | none =>
      obtain rfl := Option.some.inj hin
      exact ⟨_, rfl, .refl _⟩
    | some mt =>
      obtain ⟨inType', hin', hperm⟩ := ih _ _ hin
      refine ⟨_, ?_, hperm.map _⟩
      dsimp only [Option.bind_some]
      rw [hin']
      rfl

/-- The words of a type are the same, in some order. -/
theorem words_perm {n : ℕ} {s : Site} {ws : List Word} (hws : words st n s = some ws) :
    ∃ ws', words st' n s = some ws' ∧ ws.Perm ws' := by
  induction n generalizing s ws with
  | zero => cases hws
  | succ n ih =>
    rw [words] at hws ⊢
    obtain ⟨p, hs, hws⟩ := Option.bind_eq_some_iff.1 hws
    obtain ⟨q, hq, hws⟩ := Option.bind_eq_some_iff.1 hws
    obtain ⟨t, ht, hws⟩ := Option.bind_eq_some_iff.1 hws
    rw [h.stripped_eq, hs, h.defSiteM_eq, h.tagAt_eq]
    simp only [Option.bind_eq_bind, Option.bind_some, hq, ht]
    by_cases hptr : t = .pointerType
    · rw [if_pos hptr] at hws ⊢
      exact ⟨ws, hws, .refl _⟩
    rw [if_neg hptr] at hws ⊢
    by_cases hagg : t.isAggregate = true
    · rw [if_pos hagg] at hws ⊢
      obtain ⟨wss, hms, heq⟩ := Option.bind_eq_some_iff.1 hws
      obtain rfl := Option.some.inj heq
      -- the members give the same words each, and stand in another order
      obtain ⟨wss', hms', hperm⟩ :=
        mapM_rel (fun _ _ hw => h.memberWords_perm (fun _ _ => ih) hw) hms
      obtain ⟨wss'', hms'', hperm'⟩ := mapM_perm (h.childrenWithTag_perm _ _) hms'
      rw [hms'']
      exact ⟨_, rfl, hperm.trans hperm'⟩
    · rw [if_neg hagg] at hws ⊢
      exact ⟨ws, hws, .refl _⟩

end Store.SameEntries

/-! ## The layout of reordered stores -/

mutual

/-- Leaving every member where it is. -/
theorem Die.Reorders.refl (t : Die) : t.Reorders t := by
  obtain ⟨e, ks⟩ := t
  exact .mk (Die.Reorders.refl_all ks) (.refl ks) rfl

theorem Die.Reorders.refl_all (ks : List Die) : List.Forall₂ Die.Reorders ks ks := by
  cases ks with
  | nil => exact .nil
  | cons t ks => exact .cons (Die.Reorders.refl t) (Die.Reorders.refl_all ks)

end

/-- Where a type has one pointer, one capacity and one length, at most 16 levels down, `seq_layout`
returns the sums of the offsets on the way to them, before and after members are reordered. -/
theorem seqLayout_reordered (st : Store) (s : Site) (ws : List Word) (sl : SeqLayout)
    (hws : words st 17 s = some ws) (hloc : Located ws sl) (hmax : ∀ k, sl.get k < usizeMax) :
    seqLayout st s = ret sl ∧
      ∀ st' : Store, st.Distinct → st.Reorders st' → seqLayout st' s = ret sl := by
  have hne (k : Slot) : sl.get k ≠ usizeMax := Nat.ne_of_lt (hmax k)
  refine ⟨seqLayout_located hws hloc hne, fun st' hst hr => ?_⟩
  obtain ⟨ws', hws', hperm⟩ := (hr.sameEntries hst).words_perm hws
  exact seqLayout_located hws' (hloc.perm hperm) hne

/-- A `String` whose `RawVec` is a declaration, completed elsewhere in the unit; the members of
`Vec` and `RawVec` are given. -/
def stringWith (vec raw : List Die) : Store :=
  ⟨[⟨.plain 0 (.other 0x11) [] [
    .plain 1 .structureType [(.name, .string "String")] [
      .plain 2 .member [(.name, .string "vec"), (.type, .unitRef 3)] []],
    .plain 3 .structureType [(.name, .string "Vec")] vec,
    .plain 6 .structureType [(.name, .string "RawVec"), (.declaration, .flag true)] [],
    .plain 7 .structureType [(.name, .string "RawVec")] raw,
    .plain 10 .pointerType [] []]⟩], 0⟩

/-- `buf: RawVec` -/
def bufMember : Die :=
  .plain 4 .member [(.name, .string "buf"), (.type, .unitRef 6), (.dataMemberLocation, .udata 0)] []

/-- `len: usize` -/
def lenMember : Die := .plain 5 .member [(.name, .string "len"), (.dataMemberLocation, .udata 16)] []

/-- `cap: usize` -/
def capMember : Die := .plain 8 .member [(.name, .string "cap"), (.dataMemberLocation, .udata 0)] []

/-- `ptr: *const u8`, at some offset -/
def ptrMember (off : ℕ) : Die :=
  .plain 9 .member [(.name, .string "ptr"), (.type, .unitRef 10), (.dataMemberLocation, .udata off)]
    []

theorem seqLayout_reordered_string :
    seqLayout (stringWith [bufMember, lenMember] [capMember, ptrMember 8]) (0, 1) =
        ret ⟨8, 0, 16⟩ ∧
      seqLayout (stringWith [lenMember, bufMember] [ptrMember 8, capMember]) (0, 1) =
        ret ⟨8, 0, 16⟩ := by
  have h := seqLayout_reordered (stringWith [bufMember, lenMember] [capMember, ptrMember 8]) (0, 1)
    [(.cap, [0, 0, 0]), (.ptr, [0, 0, 8]), (.len, [0, 16])] ⟨8, 0, 16⟩ (by decide)
    (by
      intro k
      cases k with
      | ptr => exact ⟨[0, 0, 8], by decide, rfl⟩
      | cap => exact ⟨[0, 0, 0], by decide, rfl⟩
      | len => exact ⟨[0, 16], by decide, rfl⟩)
    (by
      intro k
      cases k <;> decide)
  refine ⟨h.1, h.2 _ (List.forall_mem_singleton.2 (by decide)) (.cons ?_ .nil)⟩
  -- two members change places
  have hswap (a b : Die) (ha : a.isPlainMember = true) (hb : b.isPlainMember = true) (e : Entry) :
      (Die.mk e [a, b]).Reorders (.mk e [b, a]) := by
    refine .mk (Die.Reorders.refl_all _) (.swap b a []) ?_
    rw [List.filter_eq_nil_iff.2, List.filter_eq_nil_iff.2] <;> simp [ha, hb]
  refine .mk (.cons (.refl _) (.cons ?_ (.cons (.refl _) (.cons ?_ (.cons (.refl _) .nil)))))
    (.refl _) rfl
  · exact hswap _ _ rfl rfl _
  · exact hswap _ _ rfl rfl _

/-- The offset that stands for an empty slot is not found. -/
theorem seqLayout_usizeMax :
    words (stringWith [bufMember, lenMember] [capMember, ptrMember usizeMax]) 17 (0, 1) =
        some [(.cap, [0, 0, 0]), (.ptr, [0, 0, usizeMax]), (.len, [0, 16])] ∧
      Located [(.cap, [0, 0, 0]), (.ptr, [0, 0, usizeMax]), (.len, [0, 16])] ⟨usizeMax, 0, 16⟩ ∧
      seqLayout (stringWith [bufMember, lenMember] [capMember, ptrMember usizeMax]) (0, 1) =
        stop "could not locate ptr/cap/len in DWARF" := by
  refine ⟨by decide, ?_, rfl⟩
  intro k
  cases k with
  | ptr => exact ⟨[0, 0, usizeMax], by decide, rfl⟩
  | cap => exact ⟨[0, 0, 0], by decide, rfl⟩
  | len => exact ⟨[0, 16], by decide, rfl⟩

end Bilbo
