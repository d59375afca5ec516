import Bilbo.Knot
import Bilbo.Natural
import Bilbo.Results

/-!
# Unfolding a type through its cells

Between two calls nothing is in flight, so every cell that can be reached is set, and
reading a type through its cells is the same as classifying without a memo.
-/

namespace Bilbo

open Base Calls Comp

variable {st : Store} {own : RecCell → Option Site} {full : RecCell → Option Ty} {h : Heap}
  {X : List RecCell}

/-! ## The types directly below a type -/

theorem mem_fieldsRefs {c : RecCell} {fs : List FieldTy} :
    c ∈ Ty.fieldsRefs fs ↔ ∃ f ∈ fs, c ∈ f.ty.refs := by
  induction fs with
  | nil => simp [Ty.fieldsRefs]
  | cons f fs ih =>
    obtain ⟨name, offset, ty⟩ := f
    simp only [Ty.fieldsRefs, Ty.fieldRefs, List.mem_append, ih, List.mem_cons,
      exists_eq_or_imp]

/-- Functions that agree on the types below a type agree there. -/
theorem mapKids_congr {f g : Ty → Ty} {ty : Ty} (hfg : ∀ k ∈ ty.kids, f k = g k) :
    ty.mapKids f = ty.mapKids g := by
  cases ty with
  | struct name fs =>
    refine congrArg _ (List.map_congr_left fun x hx => ?_)
    rw [hfg x.ty (List.mem_map_of_mem hx)]
  | tuple fs =>
    refine congrArg _ (List.map_congr_left fun x hx => ?_)
    rw [hfg x.ty (List.mem_map_of_mem hx)]
  | vec elem esz eal seq => rw [Ty.mapKids, Ty.mapKids, hfg elem List.mem_cons_self]
  | boxed inner size align => rw [Ty.mapKids, Ty.mapKids, hfg inner List.mem_cons_self]
  | opt d ds nd sd po size inner => rw [Ty.mapKids, Ty.mapKids, hfg inner List.mem_cons_self]
  | map key ks val vs na ins =>
    rw [Ty.mapKids, Ty.mapKids, hfg key List.mem_cons_self,
      hfg val (List.mem_cons_of_mem _ List.mem_cons_self)]
  | _ => rfl

theorem refs_kids {ty k : Ty} (hk : k ∈ ty.kids) {c : RecCell} (hc : c ∈ k.refs) :
    c ∈ ty.refs := by
  cases ty with
  | struct name fs =>
    obtain ⟨f, hf, rfl⟩ := List.mem_map.1 hk
    exact mem_fieldsRefs.2 ⟨f, hf, hc⟩
  | tuple fs =>
    obtain ⟨f, hf, rfl⟩ := List.mem_map.1 hk
    exact mem_fieldsRefs.2 ⟨f, hf, hc⟩
  | vec elem esz eal seq => exact List.mem_singleton.1 hk ▸ hc
  | boxed inner size align => exact List.mem_singleton.1 hk ▸ hc
  | opt d ds nd sd po size inner => exact List.mem_singleton.1 hk ▸ hc
  | map key ks val vs na ins =>
    rcases List.mem_cons.1 hk with rfl | hk
    · exact List.mem_append_left _ hc
    · exact List.mem_append_right _ (List.mem_singleton.1 hk ▸ hc)
  | _ => cases hk

/-- Two types with the same top that `u` and `v` take to the same types below it. -/
theorem mapKids_below {u v : Ty → Ty} {b b' : Ty}
    (h : Below (fun t t' => u t = v t') b b') : b.mapKids u = b'.mapKids v := by
  have hfields {fs fs' : List FieldTy}
      (hfs : List.Forall₂ (FieldRel fun t t' => u t = v t') fs fs') :
      (fs.map fun x => ({ x with ty := u x.ty } : FieldTy)) =
        fs'.map fun x => { x with ty := v x.ty } := by
    induction hfs with
    | nil => rfl
    | cons hf _ ih => rw [List.map_cons, List.map_cons, ih, hf.name, hf.offset, hf.ty]
  cases h with
  | leaf hb => exact mapKids_congr (by rw [hb]; nofun)
  | struct hfs => exact congrArg (Ty.struct _) (hfields hfs)
  | tuple hfs => exact congrArg Ty.tuple (hfields hfs)
  | vec he => rw [Ty.mapKids, Ty.mapKids, he]
  | boxed hi => rw [Ty.mapKids, Ty.mapKids, hi]
  | opt hi => rw [Ty.mapKids, Ty.mapKids, hi]
  | map hk hv => rw [Ty.mapKids, Ty.mapKids, hk, hv]

/-! ## Unfolding through all bodies -/

theorem unfold_unknown (cells : Cells) (w : String) (n : ℕ) :
    (Ty.unknown w).unfold cells n = (Ty.unknown w).trim n := by
  cases n <;> rfl

theorem unfold_succ {cells : Cells} {ty b : Ty} (hb : ty.deref cells = some b) (n : ℕ) :
    ty.unfold cells (n + 1) = b.mapKids (Ty.unfold cells n) := by
  rw [Ty.unfold, hb]

/-- Without anything in flight, what a type stands for has a body. -/
theorem Tied.deref {d : ℕ} {s : Site} {ty : Ty} (ht : Tied st own full h) (hm : h.memo = [])
    (hty : Typed st own d s ty) :
    ∃ key b n, Resolves st s key ∧ ty.deref full = some b ∧
      Yields (Typed st own n) (entryBody st key) b := by
  cases d with
  | zero => exact hty.elim
  | succ d =>
    obtain ⟨key, hkey, ⟨c, rfl, hc⟩ | hy⟩ := hty
    · rcases ht.own_full c key hc with hmem | ⟨b, hb⟩
      · rw [hm] at hmem
        exact absurd hmem List.not_mem_nil
      · obtain ⟨key', n, hkey', hy⟩ := ht.full_body c b hb
        rw [hc] at hkey'
        cases hkey'
        exact ⟨key, b, n, hkey, hb, hy⟩
    · refine ⟨key, ty, d, hkey, ?_, hy⟩
      obtain ⟨t, -, hy⟩ := yields_bind.1 hy
      exact deref_typeBody full hy

/-- The bodies of an entry in two stores, where what they read behind references is the same. -/
theorem rel_entryBody {st' : Store} {K : Site → Site → Prop} (ha : st.Alike st' K)
    {S : Ty → Ty → Prop} (hS : S (.unknown "?") (.unknown "?")) (key : Site) (hk : K key key)
    (hr : ∀ t ∈ tagAt st key, ReadsAlike st st' K key t ((dieName st key).getD "")) :
    Rel K S (Below S) (entryBody st key) (entryBody st' key) := by
  have hname : dieName st' key = dieName st key := by rw [dieName, dieName, ha.name]
  rw [entryBody, entryBody, ha.tag_eq, hname]
  unfold tag
  cases ht : tagAt st key with
  | none => exact .stop _
  | some t => exact rel_typeBody ha hS key hk t _ (hr t ht)

theorem natural_entryBody {S : Ty → Ty → Prop} (hS : S (.unknown "?") (.unknown "?"))
    (key : Site) : Rel Eq S (Below S) (entryBody st key) (entryBody st key) :=
  rel_entryBody (alike_self st) hS key rfl fun t _ => readsAlike_self st key t _

/-- `classifyTree` goes through transparent wrappers to the body of the entry. -/
theorem classifyTree_resolves {s key : Site} (hs : Resolves st s key) {n D : ℕ} {tree : Ty}
    (hD : ∀ d ≥ D, ((entryBody st key).exec (classifyTree st d n) fun _ => pure ()).run () =
      (.done tree, ())) :
    ∃ D, ∀ d ≥ D, (classifyTree st d (n + 1) s).run () = (.done tree, ()) := by
  induction hs with
  | entry hr =>
    refine ⟨D + 1, fun d hd => ?_⟩
    obtain ⟨d, rfl⟩ : ∃ k, d = k + 1 := ⟨d - 1, by omega⟩
    rw [classifyTree, hr]
    rw [entryBody_of_entry hr] at hD
    exact hD d (by omega)
  | wraps hr _ ih =>
    obtain ⟨D', hD'⟩ := ih hD
    refine ⟨D' + 1, fun d hd => ?_⟩
    obtain ⟨d, rfl⟩ : ∃ k, d = k + 1 := ⟨d - 1, by omega⟩
    rw [classifyTree, hr]
    exact hD' d (by omega)

/-- Read through the bodies of all cells, a type is the tree of its site. -/
theorem Tied.unfold_full (ht : Tied st own full h) (hm : h.memo = []) (n : ℕ) :
    ∀ {d : ℕ} {s : Site} {ty : Ty}, Typed st own d s ty →
      ∃ tree, (∃ D, ∀ k ≥ D, (classifyTree st k n s).run () = (.done tree, ())) ∧
        ty.unfold full n = tree.trim n := by
  induction n with
  | zero =>
    intro d s ty _
    refine ⟨cut, ⟨1, fun k hk => ?_⟩, rfl⟩
    obtain ⟨k, rfl⟩ : ∃ j, k = j + 1 := ⟨k - 1, by omega⟩
    rfl
  | succ n ih =>
    intro d s ty hty
    obtain ⟨key, b, m, hkey, hb, hy⟩ := ht.deref hm hty
    have hu : Ty.unfold full n (.unknown "?") = Ty.trim n (.unknown "?") := unfold_unknown _ _ _
    have hrec (k k' : Site) (t : Ty) (hk : k = k') (ht : Typed st own m k t) :
        ∃ tree, t.unfold full n = tree.trim n ∧
          ∃ D, ∀ d ≥ D, (classifyTree st d n k').run () = (.done tree, ()) := by
      obtain ⟨tree, hrun, htree⟩ := ih ht
      exact ⟨tree, htree, hk ▸ hrun⟩
    obtain ⟨tree, hV, D, hD⟩ :=
      (natural_entryBody (S := fun t t' => t.unfold full n = t'.trim n) hu key).runs hrec hy
    refine ⟨tree, classifyTree_resolves hkey hD, ?_⟩
    rw [unfold_succ hb]
    exact mapKids_below hV

/-! ## Unfolding through the cells that are set -/

/-- A cell held by anybody is set, to its body, and its content is held. -/
theorem Flight.held_set (ht : Tied st own full h) (hf : Flight h X) (hm : h.memo = [])
    {c : RecCell} (hc : 0 < h.inside c ∨ c ∈ X) :
    ∃ b, h.cells c = some b ∧ full c = some b ∧ ∀ x ∈ b.refs, 0 < h.inside x := by
  rcases hf.closed c hc with hmem | hset
  · rw [hm] at hmem
    exact absurd hmem List.not_mem_nil
  · obtain ⟨b, hb⟩ := Option.ne_none_iff_exists'.1 hset
    have halive : 0 < h.count c := by
      rcases hc with hc | hc
      · exact hc.trans_le ((Nat.le_add_right _ _).trans (hf.accounts.covered c))
      · exact hf.accounts.alive hc
    refine ⟨b, hb, ht.cells_full c b hb, fun x hx => ?_⟩
    have howes : 0 < h.owes x c := by
      rw [Heap.owes, if_pos halive, Heap.content, hb]
      exact List.count_pos_iff.2 hx
    exact howes.trans_le (Finset.single_le_sum (f := h.owes x) (fun _ _ => Nat.zero_le _)
      (Finset.mem_range.2 (hf.accounts.lt_fresh halive)))

theorem unfold_cells (ht : Tied st own full h) (hf : Flight h X) (hm : h.memo = []) (n : ℕ) :
    ∀ {ty : Ty}, (∀ c ∈ ty.refs, 0 < h.inside c ∨ c ∈ X) →
      ty.unfold h.cells n = ty.unfold full n := by
  induction n with
  | zero => exact fun _ => rfl
  | succ n ih =>
    intro ty hheld
    have hkids {b : Ty} (hb : ∀ c ∈ b.refs, 0 < h.inside c ∨ c ∈ X) :
        b.mapKids (Ty.unfold h.cells n) = b.mapKids (Ty.unfold full n) :=
      mapKids_congr fun k hk => ih fun c hc => hb c (refs_kids hk hc)
    cases ty with
    | ref c =>
      obtain ⟨b, hb, hfull, hrefs⟩ := hf.held_set ht hm (hheld c List.mem_cons_self)
      have hb' : (Ty.ref c).deref h.cells = some b := hb
      have hfull' : (Ty.ref c).deref full = some b := hfull
      rw [unfold_succ hb', unfold_succ hfull']
      exact hkids fun x hx => .inl (hrefs x hx)
    | _ => exact hkids hheld

/-- The cells that can be reached from a type, through the contents of cells as well. -/
inductive Reaches (cells : Cells) (ty : Ty) : RecCell → Prop
  | here {c : RecCell} : c ∈ ty.refs → Reaches cells ty c
  | through {c c' : RecCell} {b : Ty} : Reaches cells ty c → cells c = some b → c' ∈ b.refs →
      Reaches cells ty c'

theorem Flight.reaches_set (ht : Tied st own full h) (hf : Flight h X) (hm : h.memo = [])
    {ty : Ty} (hty : ∀ c ∈ ty.refs, c ∈ X) {c : RecCell} (hc : Reaches h.cells ty c) :
    h.cells c ≠ none := by
  have hheld : 0 < h.inside c ∨ c ∈ X := by
    induction hc with
    | here hc => exact .inr (hty _ hc)
    | through _ hb hc' ih =>
      obtain ⟨b', hb', -, hrefs⟩ := hf.held_set ht hm ih
      rw [hb] at hb'
      cases hb'
      exact .inl (hrefs _ hc')
  obtain ⟨b, hb, -⟩ := hf.held_set ht hm hheld
  rw [hb]
  nofun

/-! ## Between two calls -/

/-- The heaps between two calls of `classify`, with the results that are still held. (After
a panic there are none: the mutex of `L2` is poisoned.) -/
inductive Reachable (st : Store) : List (Site × Ty) → Heap → Prop
  | initial : Reachable st [] Heap.initial
  | call {kept : List (Site × Ty)} {d : ℕ} {s : Site} {ty : Ty} {h h' : Heap} :
      Reachable st kept h → (classify st d s).run h = (.done ty, h') →
      Reachable st ((s, ty) :: kept) h'
  | drop {kept : List (Site × Ty)} {s : Site} {ty : Ty} {h : Heap} :
      Reachable st ((s, ty) :: kept) h → Reachable st kept (h.release ty.refs)

/-- What holds between two calls: nothing is in flight, and what is held is what its site
stands for. -/
structure Calm (st : Store) (kept : List (Site × Ty)) (own : RecCell → Option Site)
    (full : RecCell → Option Ty) (h : Heap) : Prop where
  tied : Tied st own full h
  flight : Flight h (kept.flatMap fun e => e.2.refs)
  memo : h.memo = []
  typed : ∀ e ∈ kept, ∃ d, Typed st own d e.1 e.2

theorem Reachable.calm {kept : List (Site × Ty)} (hr : Reachable st kept h) :
    ∃ own full, Calm st kept own full h := by
  induction hr with
  | initial =>
    refine ⟨fun _ => none, fun _ => none, ⟨nofun, nofun, nofun, nofun, nofun⟩,
      ⟨Heap.initial_accounts, nofun, fun c hc => ?_⟩, rfl, nofun⟩
    rcases hc with hc | hc
    · exact absurd hc (Nat.lt_irrefl 0)
    · exact absurd hc List.not_mem_nil
  -- the type returned is kept with the others
  | @call kept d s ty h h' _ hrun ih =>
    obtain ⟨own, full, hc⟩ := ih
    have hmemo : ∀ e ∈ h.memo, e.2 ∈ kept.flatMap fun e => e.2.refs := by
      rw [hc.memo]
      nofun
    obtain ⟨own', full', ho, ht, hf, hm, hty⟩ :=
      classify_keeps d hc.tied hc.flight hmemo hrun
    refine ⟨own', full', ht, hf, hm.trans hc.memo, fun e he => ?_⟩
    rcases List.mem_cons.1 he with rfl | he
    · exact ⟨d, hty⟩
    · obtain ⟨d', hd'⟩ := hc.typed e he
      exact ⟨d', hd'.mono ho (Nat.le_refl d')⟩
  | @drop kept s ty h _ ih =>
    obtain ⟨own, full, hc⟩ := ih
    have hf : Flight h (ty.refs ++ kept.flatMap fun e => e.2.refs) := hc.flight
    obtain ⟨hf, hs⟩ := hf.release
    exact ⟨own, full, hc.tied.shrinks hs, hf, hs.memo.trans hc.memo,
      fun e he => hc.typed e (List.mem_cons_of_mem _ he)⟩

/-- A type that is held reads as the tree of its site, through cells that are all set. -/
theorem Calm.unfold {kept : List (Site × Ty)} (hc : Calm st kept own full h) {s : Site}
    {ty : Ty} (hmem : (s, ty) ∈ kept) (n : ℕ) :
    ∃ tree, (∃ D, ∀ d ≥ D, (classifyTree st d n s).run () = (.done tree, ())) ∧
      ty.unfold h.cells n = tree.trim n := by
  obtain ⟨d, hd⟩ := hc.typed _ hmem
  obtain ⟨tree, hrun, htree⟩ := hc.tied.unfold_full hc.memo n hd
  refine ⟨tree, hrun, ?_⟩
  rw [unfold_cells hc.tied hc.flight hc.memo n fun c hcr => .inr ?_, htree]
  exact List.mem_flatMap.2 ⟨(s, ty), hmem, hcr⟩

theorem Calm.reaches_set {kept : List (Site × Ty)} (hc : Calm st kept own full h) {s : Site}
    {ty : Ty} (hmem : (s, ty) ∈ kept) {c : RecCell} (hr : Reaches h.cells ty c) :
    h.cells c ≠ none :=
  hc.flight.reaches_set hc.tied hc.memo
    (fun _ hcr => List.mem_flatMap.2 ⟨(s, ty), hmem, hcr⟩) hr

end Bilbo
