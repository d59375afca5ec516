import Bilbo.Halting

/-!
# The index of definitions, and what a stub is redirected to

`def_index` walks each unit with a stack of open structs and unions and closes a frame when
the walk has left its subtree. What it computes is a list without a stack: the complete
definitions of all units, an inner one before the one around it, and of each name the first.
The name is all that `def_site` looks at, so a stub goes to the first complete definition
with its name, wherever that lies.
-/

namespace Bilbo

open Base

/-! ## Complete definitions -/

/-- Whether an entry is a member or a variant part. -/
def Die.isContent (t : Die) : Bool := t.entry.tag.isContent

/-- The name an entry states itself. -/
def Entry.ownName (e : Entry) : Option String :=
  match e.attrValue .name with
  | some (.string n) => some n
  | _ => none

/-- The definition that an entry gives, if it is complete and has a name. -/
def Die.ownDef (ui : ℕ) : Die → DefMap
  | .mk e ks =>
    if e.tag.isAggregate ∧ ks.any Die.isContent ∧ ¬ e.isDecl then
      (e.ownName.map fun n => (n, (ui, e.offset))).toList
    else []

mutual

/-- The complete definitions of a tree, inner ones first. -/
def Die.defs (ui : ℕ) : Die → DefMap
  | .mk e ks => Die.defsAll ui ks ++ Die.ownDef ui (.mk e ks)

/-- The complete definitions of some trees. -/
def Die.defsAll (ui : ℕ) : List Die → DefMap
  | [] => []
  | k :: ks => k.defs ui ++ Die.defsAll ui ks

end

/-- The complete definitions of all units. -/
def definitions (st : Store) : DefMap := st.units.zipIdx.flatMap fun x => x.1.root.defs x.2

/-! ## First definition wins -/

/-- `entry(n).or_insert(site)` -/
def orInsert (m : DefMap) (x : String × Site) : DefMap :=
  if m.lookup x.1 = none then m ++ [x] else m

theorem lookup_orInsert (m : DefMap) (x : String × Site) (n : String) :
    (orInsert m x).lookup n = (m.lookup n).or (List.lookup n [x]) := by
  unfold orInsert
  split_ifs with h
  · rw [List.lookup_append]
  · -- the name is taken: a lookup finds the old entry or looks for another name
    by_cases hn : n = x.1
    · subst hn
      obtain ⟨s, hs⟩ := Option.ne_none_iff_exists'.1 h
      rw [hs]
      rfl
    · have hne : (n == x.1) = false := beq_eq_false_iff_ne.2 hn
      rw [List.lookup_cons, hne]
      exact (Option.or_none).symm

theorem lookup_foldl_orInsert (l m : DefMap) (n : String) :
    (l.foldl orInsert m).lookup n = (m.lookup n).or (l.lookup n) := by
  induction l generalizing m with
  | nil => exact (Option.or_none).symm
  | cons x l ih =>
    have hx : (x :: l).lookup n = (List.lookup n [x]).or (l.lookup n) := by
      rw [← List.singleton_append, List.lookup_append]
    rw [List.foldl_cons, ih, lookup_orInsert, Option.or_assoc, hx]

/-! ## The stack -/

variable {ui : ℕ}

theorem idxClose_eq (ui : ℕ) (f : IdxFrame) (m : DefMap) :
    idxClose ui f m =
      (if f.hasChild ∧ ¬ f.decl then (f.name.map fun n => (n, (ui, f.off))).toList
        else []).foldl orInsert m := by
  unfold idxClose
  rcases f.name with _ | n
  · split_ifs <;> rfl
  · dsimp only
    by_cases h : f.hasChild = true ∧ ¬ f.decl = true
    · rw [if_pos h]
      show _ = orInsert m (n, (ui, f.off))
      unfold orInsert
      by_cases hl : m.lookup n = none
      · rw [if_pos ⟨h.1, h.2, hl⟩, if_pos hl]
      · rw [if_neg fun hc => hl hc.2.2, if_neg hl]
    · rw [if_neg h, if_neg fun hc => h ⟨hc.1, hc.2.1⟩]
      rfl

/-- After closing, the open frames are above the depth. -/
theorem head_idxPop (ui k : ℕ) (fs : List IdxFrame) (m : DefMap) :
    ∀ f ∈ (idxPop ui k fs m).1.head?, f.depth < k := by
  induction fs generalizing m with
  | nil => exact fun f hf => absurd hf (Option.not_mem_none f)
  | cons f fs ih =>
    unfold idxPop
    split_ifs with h
    · exact ih _
    · intro g hg
      obtain rfl : f = g := Option.some.inj hg
      omega

/-- Nothing is closed when the innermost frame is above the depth. -/
theorem idxPop_idle {k : ℕ} {fs : List IdxFrame} (h : ∀ f ∈ fs.head?, f.depth < k)
    (m : DefMap) : idxPop ui k fs m = (fs, m) := by
  cases fs with
  | nil => rfl
  | cons f fs =>
    have hf := h f rfl
    unfold idxPop
    rw [if_neg (by omega)]

/-- Closing for a depth and then for a smaller one is closing for the smaller one. -/
theorem idxPop_idxPop {j k : ℕ} (hjk : j ≤ k) (fs : List IdxFrame) (m : DefMap) :
    idxPop ui j (idxPop ui k fs m).1 (idxPop ui k fs m).2 = idxPop ui j fs m := by
  induction fs generalizing m with
  | nil => rfl
  | cons f fs ih =>
    by_cases h : k ≤ f.depth
    · have hk : idxPop ui k (f :: fs) m = idxPop ui k fs (idxClose ui f m) := by
        rw [idxPop, if_pos h]
      have hj : idxPop ui j (f :: fs) m = idxPop ui j fs (idxClose ui f m) := by
        rw [idxPop, if_pos (by omega)]
      rw [hk, hj]
      exact ih _
    · have hidle : idxPop ui k (f :: fs) m = (f :: fs, m) := by
        apply idxPop_idle
        intro g hg
        obtain rfl := Option.some.inj hg
        omega
      rw [hidle]

/-- At depth 0 every frame is closed. -/
theorem idxPop_zero (fs : List IdxFrame) (m : DefMap) :
    idxPop ui 0 fs m = ([], fs.foldl (fun map f => idxClose ui f map) m) := by
  induction fs generalizing m with
  | nil => rfl
  | cons f fs ih =>
    rw [idxPop, if_pos (Nat.zero_le _)]
    exact ih _

/-- The innermost frame notes a member at depth `k`. -/
def noteChild (content : Bool) (k : ℕ) : List IdxFrame → List IdxFrame
  | [] => []
  | top :: fs =>
    if content ∧ k = top.depth + 1 then { top with hasChild := true } :: fs else top :: fs

theorem noteChild_cons (content : Bool) (k : ℕ) (f : IdxFrame) (fs : List IdxFrame) :
    noteChild content k (f :: fs) =
      if content ∧ k = f.depth + 1 then { f with hasChild := true } :: fs else f :: fs := rfl

theorem noteChild_false (k : ℕ) (fs : List IdxFrame) : noteChild false k fs = fs := by
  cases fs with
  | nil => rfl
  | cons f fs => rw [noteChild_cons, if_neg fun h => Bool.false_ne_true h.1]

theorem head_noteChild {j : ℕ} {fs : List IdxFrame} (h : ∀ f ∈ fs.head?, f.depth < j)
    (content : Bool) (k : ℕ) : ∀ f ∈ (noteChild content k fs).head?, f.depth < j := by
  cases fs with
  | nil => exact h
  | cons f fs =>
    intro g hg
    rw [noteChild_cons] at hg
    split_ifs at hg
    · obtain rfl := Option.some.inj hg
      exact h f rfl
    · exact h g hg

theorem noteChild_noteChild (a b : Bool) (k : ℕ) (fs : List IdxFrame) :
    noteChild b k (noteChild a k fs) = noteChild (a || b) k fs := by
  cases fs with
  | nil => rfl
  | cons f fs =>
    cases a with
    | false => rw [noteChild_false, Bool.false_or]
    | true =>
      rw [Bool.true_or]
      by_cases hk : k = f.depth + 1
      · rw [noteChild_cons, if_pos ⟨rfl, hk⟩, noteChild_cons]
        split_ifs <;> rfl
      · rw [noteChild_cons, if_neg fun h => hk h.2, noteChild_cons, if_neg fun h => hk h.2]

/-- A frame above the parent's depth notes nothing. -/
theorem noteChild_above {k : ℕ} {fs : List IdxFrame} (h : ∀ f ∈ fs.head?, f.depth < k)
    (content : Bool) : noteChild content (k + 1) fs = fs := by
  cases fs with
  | nil => rfl
  | cons f fs =>
    have hf := h f rfl
    rw [noteChild_cons, if_neg fun hc => by omega]

/-- The frame of an aggregate notes its members. -/
theorem noteChild_own (content : Bool) (f : IdxFrame) (fs : List IdxFrame)
    (hf : f.hasChild = false) :
    noteChild content (f.depth + 1) (f :: fs) = { f with hasChild := content } :: fs := by
  cases content with
  | false => rw [noteChild_false, ← hf]
  | true => rw [noteChild_cons, if_pos ⟨rfl, rfl⟩]

/-! ## The walk -/

theorem idxStep_aggregate {k : ℕ} {S base : List IdxFrame} {M m : DefMap} {e : Entry}
    {ks : List Die} (hpop : idxPop ui k S M = (base, m)) (ha : e.tag.isAggregate = true) :
    idxStep ui (S, M) (k, .mk e ks) =
      (⟨k, e.offset, e.isDecl, e.ownName, false⟩ :: base, m) := by
  simp only [idxStep, hpop, Die.entry, ha, if_true]
  rfl

theorem idxStep_other {k : ℕ} {S base : List IdxFrame} {M m : DefMap} {e : Entry}
    {ks : List Die} (hpop : idxPop ui k S M = (base, m)) (ha : e.tag.isAggregate = false) :
    idxStep ui (S, M) (k, .mk e ks) = (noteChild e.tag.isContent k base, m) := by
  simp only [idxStep, hpop, Die.entry, ha, Bool.false_eq_true, if_false]
  cases base with
  | nil => rfl
  | cons f fs =>
    rw [noteChild_cons]
    dsimp only
    split_ifs <;> rfl

theorem isContent_of_isAggregate {t : DwTag} (h : t.isAggregate = true) :
    t.isContent = false := by
  cases t <;> first | rfl | cases h

mutual

/-- Walking a tree, with everything to its left closed, adds its definitions, and the frame
around it notes whether it is a member. -/
theorem idxPop_foldl_preorder (t : Die) {k : ℕ} {S base : List IdxFrame} {M m : DefMap}
    (hpop : idxPop ui k S M = (base, m)) :
    idxPop ui k ((t.preorder k).foldl (idxStep ui) (S, M)).1
        ((t.preorder k).foldl (idxStep ui) (S, M)).2 =
      (noteChild t.isContent k base, (t.defs ui).foldl orInsert m) := by
  obtain ⟨e, ks⟩ := t
  have hbase : ∀ f ∈ base.head?, f.depth < k := by
    have hhead := head_idxPop ui k S M
    rw [hpop] at hhead
    exact hhead
  rw [Die.preorder, List.foldl_cons, Die.defs, List.foldl_append]
  cases ha : e.tag.isAggregate with
  | true =>
    -- the frame of this entry is open during the walk below it
    rw [idxStep_aggregate hpop ha]
    have hopen : idxPop ui (k + 1)
        (⟨k, e.offset, e.isDecl, e.ownName, false⟩ :: base) m =
        (⟨k, e.offset, e.isDecl, e.ownName, false⟩ :: base, m) :=
      idxPop_idle (fun f hf => by obtain rfl := Option.some.inj hf; exact Nat.lt_succ_self k) m
    have hkids := idxPop_foldl_preorderAll ks hopen
    rw [noteChild_own _ ⟨k, e.offset, e.isDecl, e.ownName, false⟩ base rfl] at hkids
    rw [← idxPop_idxPop (Nat.le_succ k), hkids]
    have hcontent : (Die.mk e ks).isContent = false := isContent_of_isAggregate ha
    rw [hcontent, noteChild_false, idxPop, if_pos (Nat.le_refl k), idxClose_eq]
    dsimp only
    rw [idxPop_idle hbase, Die.ownDef, ha]
    congr 2
    by_cases hc : ks.any Die.isContent = true ∧ ¬ e.isDecl = true
    · rw [if_pos hc, if_pos ⟨rfl, hc.1, hc.2⟩]
    · rw [if_neg hc, if_neg fun h => hc ⟨h.2.1, h.2.2⟩]
  | false =>
    rw [idxStep_other hpop ha]
    have hnote := head_noteChild hbase e.tag.isContent k
    have hopen : idxPop ui (k + 1) (noteChild e.tag.isContent k base) m =
        (noteChild e.tag.isContent k base, m) :=
      idxPop_idle (fun f hf => Nat.lt_succ_of_lt (hnote f hf)) m
    have hkids := idxPop_foldl_preorderAll ks hopen
    rw [noteChild_above hnote] at hkids
    rw [← idxPop_idxPop (Nat.le_succ k), hkids, idxPop_idle hnote, Die.ownDef, ha,
      if_neg fun h => Bool.false_ne_true h.1]
    rfl

/-- Walking some trees, one after the other. -/
theorem idxPop_foldl_preorderAll (ks : List Die) {k : ℕ} {S base : List IdxFrame}
    {M m : DefMap} (hpop : idxPop ui k S M = (base, m)) :
    idxPop ui k ((Die.preorderAll k ks).foldl (idxStep ui) (S, M)).1
        ((Die.preorderAll k ks).foldl (idxStep ui) (S, M)).2 =
      (noteChild (ks.any Die.isContent) k base, (Die.defsAll ui ks).foldl orInsert m) := by
  cases ks with
  | nil =>
    rw [List.any_nil, noteChild_false]
    exact hpop
  | cons t ks =>
    have ht := idxPop_foldl_preorder t hpop
    have hks := idxPop_foldl_preorderAll ks ht
    rw [Die.preorderAll, List.foldl_append, Die.defsAll, List.foldl_append, List.any_cons,
      ← noteChild_noteChild]
    exact hks

end

theorem idxUnit_eq (ui : ℕ) (u : CompUnit) (m : DefMap) :
    idxUnit ui u m = (u.root.defs ui).foldl orInsert m := by
  have hopen : idxPop ui 0 [] m = ([], m) := rfl
  have hwalk := idxPop_foldl_preorder u.root hopen
  rw [idxPop_zero] at hwalk
  exact congrArg Prod.snd hwalk

/-- The index maps a name to the first complete definition with that name. -/
theorem lookup_defIndex (st : Store) (n : String) :
    (defIndex st).lookup n = (definitions st).lookup n := by
  have hfold (us : List (CompUnit × ℕ)) (m : DefMap) :
      us.foldl (fun map x => idxUnit x.2 x.1 map) m =
        (us.flatMap fun x => x.1.root.defs x.2).foldl orInsert m := by
    induction us generalizing m with
    | nil => rfl
    | cons x us ih =>
      rw [List.foldl_cons, ih, idxUnit_eq, List.flatMap_cons, List.foldl_append]
  show (st.units.zipIdx.foldl (fun map x => idxUnit x.2 x.1 map) []).lookup n = _
  rw [hfold, lookup_foldl_orInsert]
  rfl

/-! ## Types of one name -/

/-- `DW_TAG_namespace` -/
def DwTag.isNamespace (t : DwTag) : Bool := t == .other 0x39

mutual

/-- The namespaces around each entry of a tree, outermost first. -/
def Die.scopes (path : List (Option String)) : Die → List (Off × List (Option String))
  | .mk e ks =>
    (e.offset, path) ::
      Die.scopesAll (if e.tag.isNamespace then path ++ [e.ownName] else path) ks

/-- The namespaces around each entry of some trees. -/
def Die.scopesAll (path : List (Option String)) :
    List Die → List (Off × List (Option String))
  | [] => []
  | k :: ks => k.scopes path ++ Die.scopesAll path ks

end

/-- The namespaces around an entry. -/
def namespaces (st : Store) (s : Site) : Option (List (Option String)) :=
  (st.units[s.1]?).bind fun u => (u.root.scopes []).lookup s.2

/-- Entries of one type: the same name in the same namespaces. -/
def SameType (st : Store) (s t : Site) : Prop :=
  namespaces st s = namespaces st t ∧ dieName st s = dieName st t

instance (st : Store) (s t : Site) : Decidable (SameType st s t) :=
  inferInstanceAs (Decidable (_ ∧ _))

theorem mem_of_lookup {m : DefMap} {n : String} {s : Site} (h : m.lookup n = some s) :
    (n, s) ∈ m := by
  obtain ⟨l₁, l₂, rfl, -⟩ := List.lookup_eq_some_iff.1 h
  exact List.mem_append_right _ List.mem_cons_self

/-- A stub is redirected to the first complete definition with its name. -/
theorem defSite_of_stub {st : Store} {s : Site} (hs : isStub st s = true) :
    defSite st s = ((dieName st s).bind fun n => (definitions st).lookup n).getD s := by
  unfold defSite
  rw [if_pos hs]
  congr 2
  funext n
  exact lookup_defIndex st n

/-- A stub stays itself or goes to a complete definition of its type exactly when the first
complete definition with its name, if there is one, is of its type. -/
theorem defSite_sameType_iff (st : Store) (s : Site) (hs : isStub st s = true) :
    (defSite st s = s ∨
      (∃ n, (n, defSite st s) ∈ definitions st) ∧ SameType st (defSite st s) s) ↔
      ∀ n ∈ dieName st s, ∀ d ∈ (definitions st).lookup n, SameType st d s := by
  rw [defSite_of_stub hs]
  rcases hn : dieName st s with _ | n
  · exact iff_of_true (.inl rfl) fun n h => absurd h (Option.not_mem_none n)
  rcases hd : (definitions st).lookup n with _ | d
  · refine iff_of_true (.inl ?_) ?_
    · show ((definitions st).lookup n).getD s = s
      rw [hd]
      rfl
    · intro n' hn' d hd'
      obtain rfl := Option.some.inj hn'
      rw [hd] at hd'
      exact absurd hd' (Option.not_mem_none d)
  · have hsite : ((some n).bind fun n => (definitions st).lookup n).getD s = d := by
      show ((definitions st).lookup n).getD s = d
      rw [hd]
      rfl
    rw [hsite]
    -- a definition is found, so it is the one that must be of the same type
    constructor
    · intro h n' hn' d' hd'
      obtain rfl := Option.some.inj hn'
      obtain rfl : d = d' := Option.some.inj (hd.symm.trans hd')
      rcases h with rfl | h
      · exact ⟨rfl, rfl⟩
      · exact h.2
    · intro h
      exact .inr ⟨⟨n, mem_of_lookup hd⟩, h n rfl d hd⟩

/-- `a::Config { port: u64 }` in full, and a declaration of `b::Config`. -/
def twoConfigs : Store :=
  ⟨[⟨.plain 0 (.other 0x11) [] [
    .plain 1 (.other 0x39) [(.name, .string "a")] [
      .plain 2 .structureType [(.name, .string "Config"), (.byteSize, .udata 8)] [
        .plain 3 .member [(.name, .string "port"), (.type, .unitRef 20),
          (.dataMemberLocation, .udata 0)] []]],
    .plain 4 (.other 0x39) [(.name, .string "b")] [
      .plain 5 .structureType [(.name, .string "Config"), (.declaration, .flag true)] []],
    .plain 6 (.other 0x39) [(.name, .string "a")] [
      .plain 7 .structureType [(.name, .string "Config"), (.declaration, .flag true)] []],
    u64Die 20]⟩], 0⟩

theorem defSite_sameType_iff_config :
    (defSite twoConfigs (0, 7) = (0, 7) ∨
      (∃ n, (n, defSite twoConfigs (0, 7)) ∈ definitions twoConfigs) ∧
        SameType twoConfigs (defSite twoConfigs (0, 7)) (0, 7)) ↔
      ∀ n ∈ dieName twoConfigs (0, 7), ∀ d ∈ (definitions twoConfigs).lookup n,
        SameType twoConfigs d (0, 7) :=
  defSite_sameType_iff twoConfigs (0, 7) (by decide)

/-- The declaration of `b::Config` is redirected to `a::Config`. -/
theorem defSite_twoConfigs :
    isStub twoConfigs (0, 5) = true ∧ defSite twoConfigs (0, 5) = (0, 2) ∧
      ¬ SameType twoConfigs (0, 2) (0, 5) := by
  decide

end Bilbo
