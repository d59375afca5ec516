import Bilbo.Complete
import Bilbo.Unfold

/-!
# References to a stub for references to its definition

Some references to a complete definition are replaced by references to a stub that is redirected to
it. The two stores are alike: aliases end at the stub where they ended at the definition, and the
redirect makes up for it.
-/

namespace Bilbo

open Base Calls

/-! ## Replacing references -/

/-- The entry with its references to `o` replaced. -/
def Entry.redirect (o o' : Off) (e : Entry) : Entry :=
  { e with attrs := e.attrs.map fun x => if x = (.type, .unitRef o) then (.type, .unitRef o') else x }

mutual

/-- Change the entries of a tree. -/
def Die.mapEntries (f : Entry → Entry) : Die → Die
  | .mk e ks => .mk (f e) (Die.mapEntriesAll f ks)

/-- Change the entries of some trees. -/
def Die.mapEntriesAll (f : Entry → Entry) : List Die → List Die
  | [] => []
  | k :: ks => k.mapEntries f :: Die.mapEntriesAll f ks

end

/-- The entry of a unit, with its references to `d` replaced by references to `s` if it is at one of
the `places`. A reference names an entry of its own unit, so there are none to replace if `s` or `d`
lies in another unit. -/
def Entry.redirectAt (s d : Site) (places : Site → Bool) (ui : ℕ) (e : Entry) : Entry :=
  if ui = s.1 ∧ ui = d.1 ∧ places (ui, e.offset) then e.redirect d.2 s.2 else e

/-- The store with the references to `d` in the entries at `places` replaced. -/
def Store.redirect (st : Store) (s d : Site) (places : Site → Bool) : Store :=
  { st with units := st.units.mapIdx fun i u => ⟨u.root.mapEntries (Entry.redirectAt s d places i)⟩ }

/-- The change leaves the offset, the tag and every attribute but the type alone. -/
structure KeepsEntry (f : Entry → Entry) : Prop where
  offset : ∀ e, (f e).offset = e.offset
  tag : ∀ e, (f e).tag = e.tag
  attr : ∀ e a, a ≠ .type → (f e).attrValue a = e.attrValue a

section Trees

variable {f : Entry → Entry}

theorem mapEntries_entry (t : Die) : (t.mapEntries f).entry = f t.entry := by
  cases t
  rfl

theorem mapEntriesAll_eq (ks : List Die) : Die.mapEntriesAll f ks = ks.map (Die.mapEntries f) := by
  induction ks with
  | nil => rfl
  | cons k ks ih => rw [Die.mapEntriesAll, ih, List.map_cons]

mutual

theorem preorder_mapEntries (t : Die) (k : ℕ) :
    (t.mapEntries f).preorder k = (t.preorder k).map fun x => (x.1, x.2.mapEntries f) := by
  obtain ⟨e, ks⟩ := t
  rw [Die.mapEntries, Die.preorder, Die.preorder, preorderAll_mapEntries ks (k + 1), List.map_cons,
    Die.mapEntries]

theorem preorderAll_mapEntries (ks : List Die) (k : ℕ) :
    Die.preorderAll k (Die.mapEntriesAll f ks) =
      (Die.preorderAll k ks).map fun x => (x.1, x.2.mapEntries f) := by
  cases ks with
  | nil => rfl
  | cons t ks =>
    rw [Die.mapEntriesAll, Die.preorderAll, Die.preorderAll, preorder_mapEntries t k,
      preorderAll_mapEntries ks k, List.map_append]

end

theorem any_isContent_mapEntries (hf : KeepsEntry f) (ks : List Die) :
    (Die.mapEntriesAll f ks).any Die.isContent = ks.any Die.isContent := by
  rw [mapEntriesAll_eq, List.any_map]
  congr 1
  funext t
  show Die.isContent (t.mapEntries f) = t.isContent
  rw [Die.isContent, Die.isContent, mapEntries_entry, hf.tag]

theorem ownDef_mapEntries (hf : KeepsEntry f) (t : Die) (ui : ℕ) :
    (t.mapEntries f).ownDef ui = t.ownDef ui := by
  obtain ⟨e, ks⟩ := t
  rw [Die.mapEntries, Die.ownDef, Die.ownDef, any_isContent_mapEntries hf, hf.tag, hf.offset,
    Entry.isDecl, Entry.isDecl, Entry.ownName, Entry.ownName, hf.attr _ _ (by decide),
    hf.attr _ _ (by decide)]

mutual

theorem defs_mapEntries (hf : KeepsEntry f) (t : Die) (ui : ℕ) :
    (t.mapEntries f).defs ui = t.defs ui := by
  obtain ⟨e, ks⟩ := t
  have hown := ownDef_mapEntries hf (.mk e ks) ui
  rw [Die.mapEntries] at hown
  rw [Die.mapEntries, Die.defs, Die.defs, defsAll_mapEntries hf ks ui, hown]

theorem defsAll_mapEntries (hf : KeepsEntry f) (ks : List Die) (ui : ℕ) :
    Die.defsAll ui (Die.mapEntriesAll f ks) = Die.defsAll ui ks := by
  cases ks with
  | nil => rfl
  | cons t ks =>
    rw [Die.mapEntriesAll, Die.defsAll, Die.defsAll, defs_mapEntries hf t ui, defsAll_mapEntries hf ks ui]

end

end Trees

/-! ## The store with references replaced -/

section Redirect

variable (st : Store) (s d : Site) (places : Site → Bool)

end Redirect

/-! ## Alike -/

section Alike

variable {st : Store} {s d : Site} {n : String}

/-- The name of a definition in the index. -/
theorem DefinedAt.dieNameRead (hst : st.Distinct) (h : DefinedAt st n d) :
    dieNameRead st d = some (some n) := by
  obtain ⟨ui, o⟩ := d
  obtain ⟨u, t, hu, ht, rfl, -, -, hname, -⟩ := h
  have hattr : attrAt st (ui, t.entry.offset) .name = some (.string n) := by
    rw [attrAt, entryAt, hst.dieAt_eq hu ht]
    unfold Entry.ownName at hname
    split at hname
    · rename_i x hx
      cases hname
      exact hx
    · cases hname
  rw [Bilbo.dieNameRead, alongOrigins, ownName, hattr]

theorem DefinedAt.tagAt (hst : st.Distinct) (h : DefinedAt st n d) :
    ∃ t, tagAt st d = some t ∧ t.isAggregate = true := by
  obtain ⟨ui, o⟩ := d
  obtain ⟨u, t, hu, ht, rfl, hagg, -⟩ := h
  refine ⟨t.entry.tag, ?_, hagg⟩
  rw [Bilbo.tagAt, entryAt, hst.dieAt_eq hu ht]
  rfl

end Alike

end Bilbo
