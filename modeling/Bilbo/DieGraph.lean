import Bilbo.Halting

/-!
# The graph of type entries

Which entries the type of an entry contains: what its body asks for and keeps. The types
inside a classified type, read through the cells, are the bodies of the entries that can be
reached in this graph.
-/

namespace Bilbo

open Base Calls

/-- The sites whose types the body of an entry keeps. -/
def keptSites (st : Store) (key : Site) : List Site :=
  match (entryBody st key).trial Ty.ref [] with
  | some (b, qs) => b.kids.filterMap fun
    | .ref i => qs[i]?
    | _ => none
  | none => []

/-- The entries that the type of a site contains. -/
inductive Within (st : Store) (s : Site) : Site → Prop
  | entry {key : Site} : Resolves st s key → Within st s key
  | kept {key s' key' : Site} : Within st s key → s' ∈ keptSites st key → Resolves st s' key' →
      Within st s key'

/-- The sites that the type of a site is made from: itself, what its transparent wrappers wrap,
and the sites of the parts. -/
inductive Visits (st : Store) (s : Site) : Site → Prop
  | here : Visits st s s
  | inner {x inner : Site} : Visits st s x → resolveSite st x = ret (.wraps inner) →
      Visits st s inner
  | part {key s' : Site} : Within st s key → s' ∈ keptSites st key → Visits st s s'

theorem Resolves.tagAt_ne {st : Store} {s key : Site} (h : Resolves st s key) :
    tagAt st key ≠ none := by
  induction h with
  | entry h =>
    rw [tagAt_of_resolveSite h]
    nofun
  | wraps _ _ ih => exact ih

theorem Within.tagAt_ne {st : Store} {s key : Site} (h : Within st s key) :
    tagAt st key ≠ none := by
  cases h with
  | entry hkey => exact hkey.tagAt_ne
  | kept _ _ hkey => exact hkey.tagAt_ne

/-- The entry of a site that the type is made from is one that it contains. -/
theorem Visits.within {st : Store} {s x key : Site} (hx : Visits st s x)
    (hkey : Resolves st x key) : Within st s key := by
  induction hx with
  | here => exact .entry hkey
  | inner _ hr ih => exact ih (.wraps hr hkey)
  | part hw hs => exact .kept hw hs hkey

/-- The types inside a type, itself included, read through the cells. -/
inductive Inside (cells : Cells) (ty : Ty) : Ty → Prop
  | root {b : Ty} : ty.deref cells = some b → Inside cells ty b
  | kid {node k b : Ty} : Inside cells ty node → k ∈ node.kids → k.deref cells = some b →
      Inside cells ty b

variable {st : Store} {own : RecCell → Option Site} {full : RecCell → Option Ty} {h : Heap}
  {X : List RecCell} {kept : List (Site × Ty)}

theorem kids_below {S : Ty → Ty → Prop} {b b' : Ty} (h : Below S b b') :
    b = b' ∧ b.kids = [] ∨ List.Forall₂ S b.kids b'.kids := by
  have hfields {fs fs' : List FieldTy} (hfs : List.Forall₂ (FieldRel S) fs fs') :
      List.Forall₂ S (fs.map FieldOf.ty) (fs'.map FieldOf.ty) := by
    induction hfs with
    | nil => exact .nil
    | cons hf _ ih => exact .cons hf.ty ih
  cases h with
  | leaf hb => exact .inl ⟨rfl, hb⟩
  | struct hfs => exact .inr (hfields hfs)
  | tuple hfs => exact .inr (hfields hfs)
  | vec he => exact .inr (.cons he .nil)
  | boxed hi => exact .inr (.cons hi .nil)
  | opt hi => exact .inr (.cons hi .nil)
  | map hk hv => exact .inr (.cons hk (.cons hv .nil))

/-- An answer of a trial run: the site asked for as the `i`-th stands as cell `i`. -/
def Asked (Q : List Site) (k : Site) (t : Ty) : Prop := ∃ i, t = .ref i ∧ Q[i]? = some k

/-- A part of a body beside the same part of its trial run: the answer for one site, or the
placeholder of a member without a type. -/
def SamePart (R : Site → Ty → Prop) (Q : List Site) (t t' : Ty) : Prop :=
  (∃ s, Asked Q s t' ∧ R s t) ∨ t = .unknown "?" ∧ t' = .unknown "?"

/-- A body beside its trial run: they have the same top, and their parts belong to the same
sites. -/
theorem exists_trial {R : Site → Ty → Prop} {key : Site} {b : Ty}
    (hy : Yields R (entryBody st key) b) :
    ∃ b' Q, (entryBody st key).trial Ty.ref [] = some (b', Q) ∧
      Yields (Asked Q) (entryBody st key) b' ∧ Below (SamePart R Q) b b' := by
  obtain ⟨⟨b', Q⟩, htrial⟩ : ∃ r, (entryBody st key).trial Ty.ref [] = some r :=
    (natural_entryBody (S := fun _ _ => True) trivial key).trial_isSome hy []
  have hbelow : Below (SamePart R Q) b b' :=
    (natural_entryBody (S := SamePart R Q) (.inr ⟨rfl, rfl⟩) key).trial
      (fun i k _ t hk hi ht => .inl ⟨k, ⟨i, rfl, hk ▸ hi⟩, ht⟩) hy htrial
  exact ⟨b', Q, htrial, yields_of_trial htrial, hbelow⟩

/-- The types directly below a body are the types for the kept sites, and a placeholder for
each member without a type. -/
theorem kids_kept {R : Site → Ty → Prop} {key : Site} {b : Ty}
    (hy : Yields R (entryBody st key) b) :
    (∀ k ∈ b.kids, (∃ s ∈ keptSites st key, R s k) ∨ k = .unknown "?") ∧
      ∀ s ∈ keptSites st key, ∃ k ∈ b.kids, R s k := by
  obtain ⟨b', Q, htrial, -, hbelow⟩ := exists_trial hy
  have hkept : keptSites st key = b'.kids.filterMap fun
      | .ref i => Q[i]?
      | _ => none := by
    rw [keptSites, htrial]
  rw [hkept]
  rcases kids_below hbelow with ⟨rfl, hnil⟩ | hkids
  · rw [hnil]
    exact ⟨nofun, nofun⟩
  -- part by part: an answer to a question of the trial, or the placeholder
  · clear hbelow htrial hkept hy
    generalize b.kids = l, b'.kids = l' at hkids ⊢
    induction hkids with
    | nil => exact ⟨nofun, nofun⟩
    | @cons t t' l l' ht _ ih =>
      rcases ht with ⟨s, ⟨i, rfl, hi⟩, hR⟩ | ⟨rfl, rfl⟩
      · have hfm : (Ty.ref i :: l').filterMap (fun
            | .ref i => Q[i]?
            | _ => none) = s :: l'.filterMap fun
            | .ref i => Q[i]?
            | _ => none := List.filterMap_cons_some hi
        rw [hfm]
        refine ⟨fun k hk => ?_, fun s' hs' => ?_⟩
        · rcases List.mem_cons.1 hk with rfl | hk
          · exact .inl ⟨s, List.mem_cons_self, hR⟩
          · refine (ih.1 k hk).imp_left ?_
            rintro ⟨s', hs', hRs⟩
            exact ⟨s', List.mem_cons_of_mem s hs', hRs⟩
        · rcases List.mem_cons.1 hs' with rfl | hs'
          · exact ⟨t, List.mem_cons_self, hR⟩
          · obtain ⟨k, hk, hRk⟩ := ih.2 s' hs'
            exact ⟨k, List.mem_cons_of_mem t hk, hRk⟩
      · refine ⟨fun k hk => ?_, fun s' hs' => ?_⟩
        · rcases List.mem_cons.1 hk with rfl | hk
          · exact .inr rfl
          · exact ih.1 k hk
        · obtain ⟨k, hk, hRk⟩ := ih.2 s' hs'
          exact ⟨k, List.mem_cons_of_mem _ hk, hRk⟩

/-- What a reference's cell holds, or the type itself, is a body of its site's entry. -/
theorem Tied.body_of_deref {d : ℕ} {s : Site} {ty b : Ty} (ht : Tied st own full h)
    (hty : Typed st own d s ty) (hb : ty.deref h.cells = some b) :
    ∃ key n, Resolves st s key ∧ Yields (Typed st own n) (entryBody st key) b := by
  cases d with
  | zero => exact hty.elim
  | succ d =>
    obtain ⟨key, hkey, ⟨c, rfl, hc⟩ | hy⟩ := hty
    · obtain ⟨key', n, hkey', hy⟩ := ht.full_body c b (ht.cells_full c b hb)
      rw [hc] at hkey'
      cases hkey'
      exact ⟨key, n, hkey, hy⟩
    · obtain ⟨t, -, hy'⟩ := yields_bind.1 hy
      rw [deref_typeBody h.cells hy'] at hb
      cases hb
      exact ⟨key, d, hkey, hy⟩

/-- The references inside a type can be reached from it. -/
theorem Inside.reaches {cells : Cells} {ty node : Ty} (hin : Inside cells ty node)
    {c : RecCell} (hc : c ∈ node.refs) : Reaches cells ty c := by
  have hderef {k b : Ty} (hk : ∀ c ∈ k.refs, Reaches cells ty c)
      (hb : k.deref cells = some b) {c : RecCell} (hc : c ∈ b.refs) : Reaches cells ty c := by
    cases k with
    | ref x => exact .through (hk x List.mem_cons_self) hb hc
    | _ =>
      cases hb
      exact hk c hc
  induction hin generalizing c with
  | root hb => exact hderef (fun _ h => .here h) hb hc
  | kid _ hk hb ih => exact hderef (fun _ h => ih (refs_kids hk h)) hb hc

/-- Every type inside a type that is held is the body of an entry, or the placeholder of a
member without a type. -/
theorem Calm.entry_of_inside (hc : Calm st kept own full h) {s : Site} {ty : Ty}
    (hmem : (s, ty) ∈ kept) {node : Ty} (hin : Inside h.cells ty node) :
    node = .unknown "?" ∨
      ∃ key n, Within st s key ∧ Yields (Typed st own n) (entryBody st key) node := by
  induction hin with
  | root hb =>
    obtain ⟨d, hty⟩ := hc.typed _ hmem
    obtain ⟨key, n, hkey, hy⟩ := hc.tied.body_of_deref hty hb
    exact .inr ⟨key, n, .entry hkey, hy⟩
  | @kid node k b _ hk hb ih =>
    rcases ih with rfl | ⟨key, n, hw, hy⟩
    · cases hk
    · rcases (kids_kept hy).1 k hk with ⟨s', hs', hty⟩ | rfl
      · obtain ⟨key', m, hkey', hy'⟩ := hc.tied.body_of_deref hty hb
        exact .inr ⟨key', m, .kept hw hs' hkey', hy'⟩
      · cases hb
        exact .inl rfl

/-- A type whose references can be reached from a type that is held can be read. -/
theorem Calm.deref_isSome (hc : Calm st kept own full h) {s : Site} {ty k : Ty}
    (hmem : (s, ty) ∈ kept) (hk : ∀ c ∈ k.refs, Reaches h.cells ty c) :
    ∃ b, k.deref h.cells = some b := by
  cases k with
  | ref c => exact Option.ne_none_iff_exists'.1 (hc.reaches_set hmem (hk c List.mem_cons_self))
  | _ => exact ⟨_, rfl⟩

/-- The body of every entry that the type of a site contains is inside the type. -/
theorem Calm.inside_of_entry (hc : Calm st kept own full h) {s : Site} {ty : Ty}
    (hmem : (s, ty) ∈ kept) {key : Site} (hw : Within st s key) :
    ∃ node n, Inside h.cells ty node ∧ Yields (Typed st own n) (entryBody st key) node := by
  induction hw with
  | entry hkey =>
    obtain ⟨d, hty⟩ := hc.typed _ hmem
    obtain ⟨b, hb⟩ := hc.deref_isSome hmem fun _ h => Reaches.here h
    obtain ⟨key', n, hkey', hy⟩ := hc.tied.body_of_deref hty hb
    rw [hkey.unique hkey'] at hy
    exact ⟨b, n, .root hb, hy⟩
  | @kept key s' key' _ hs' hkey' ih =>
    obtain ⟨node, n, hin, hy⟩ := ih
    obtain ⟨k, hk, hty⟩ := (kids_kept hy).2 s' hs'
    obtain ⟨b, hb⟩ := hc.deref_isSome hmem fun _ h => hin.reaches (refs_kids hk h)
    obtain ⟨key'', m, hkey'', hy'⟩ := hc.tied.body_of_deref hty hb
    rw [hkey'.unique hkey''] at hy'
    exact ⟨b, m, .kid hin hk hb, hy'⟩

end Bilbo
