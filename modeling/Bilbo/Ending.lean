import Bilbo.Code
import Bilbo.Halting

/-!
# Compilations end

`collect_cells` goes into a cell that it has not seen, so it ends as long as finitely many cells are set.
That is so in every heap: a cell is set after it was made, and the cells are numbered as they are made.
Behind `collect_cells`, `compile_parser` goes through a list.
-/

namespace Bilbo

open Base Comp Calls

/-! ## The cells that are set -/

namespace Heap

/-- Only cells that were made are set. -/
def Finite (h : Heap) : Prop := ∀ c, h.cells c ≠ none → c < h.fresh

/-- No cell is unmade, and only cells that were made get set. -/
structure Adds (h h' : Heap) : Prop where
  fresh : h.fresh ≤ h'.fresh
  finite : h.Finite → h'.Finite

variable {h h' h'' : Heap}

theorem Adds.of_eq (hcells : h'.cells = h.cells) (hfresh : h'.fresh = h.fresh) : h.Adds h' :=
  ⟨hfresh.ge, fun hfin c hc => by rw [hfresh]; exact hfin c (hcells ▸ hc)⟩

theorem Adds.refl (h : Heap) : h.Adds h := .of_eq rfl rfl

theorem Adds.trans (ha : h.Adds h') (hb : h'.Adds h'') : h.Adds h'' :=
  ⟨ha.fresh.trans hb.fresh, fun hfin => hb.finite (ha.finite hfin)⟩

theorem adds_releaseAll (n : ℕ) (cs : List RecCell) (h : Heap) : h.Adds (releaseAll n cs h) := by
  induction n generalizing cs h with
  | zero => cases cs <;> exact .refl h
  | succ n ih =>
    cases cs with
    | nil => exact .refl h
    | cons c cs =>
      have hdrop : h.Adds { h with count := fun x => if x = c then h.count x - 1 else h.count x } :=
        .of_eq rfl rfl
      rw [releaseAll]
      split
      · exact hdrop.trans (ih _ _)
      · exact hdrop.trans (ih _ _)

theorem adds_cloneTy (ty : Ty) (h : Heap) : h.Adds (h.cloneTy ty) := by
  rw [cloneTy]
  induction ty.refs generalizing h with
  | nil => exact .refl h
  | cons c cs ih =>
    have hc : h.Adds (h.clone c) := .of_eq rfl rfl
    exact hc.trans (ih (h.clone c))

theorem adds_tieKnot {c : RecCell} (hc : c < h.fresh) (body : Ty) : h.Adds (h.tieKnot c body) := by
  have hclone := adds_cloneTy body h
  rw [tieKnot]
  split
  · refine ⟨hclone.fresh, fun hfin x hx => ?_⟩
    have hset : x = c ∨ h.cells x ≠ none := by
      by_cases hxc : x = c
      · exact .inl hxc
      · exact .inr fun hnone => hx ((if_neg hxc).trans hnone)
    rcases hset with rfl | hset
    · exact hc.trans_le hclone.fresh
    · exact (hfin x hset).trans_le hclone.fresh
  · exact .refl h

theorem adds_launch (key : Site) (h : Heap) : h.Adds (h.launch key) :=
  ⟨Nat.le_succ _, fun hfin c hc => (hfin c hc).trans (Nat.lt_succ_self _)⟩

theorem adds_leave (key : Site) (h : Heap) : h.Adds (h.leave key) := by
  have hmemo : h.Adds { h with memo := h.memo.filter fun e => e.1 != key } := .of_eq rfl rfl
  exact hmemo.trans (adds_releaseAll _ _ _)

theorem adds_finish {c : RecCell} (hc : c < h.fresh) (key : Site) (body : Ty) :
    h.Adds (h.finish key c body) :=
  ((adds_tieKnot hc body).trans (adds_leave key _)).trans (adds_releaseAll _ _ _)

theorem finite_initial : Heap.initial.Finite := fun _ hc => absurd rfl hc

end Heap

section

variable {st : Store}

theorem adds_exec {rec : Site → Comp Heap String Ty} {α : Type}
    (hrec : ∀ k (h : Heap), h.Adds ((rec k).run h).2) (x : Body α) (h : Heap) : h.Adds ((x.exec rec dropTy).run h).2 := by
  induction x generalizing h with
  | ret a => exact .refl h
  | stop e => exact .refl h
  | hang => exact .refl h
  | call k f ih =>
    have hk := hrec k h
    rw [exec, bind_run]
    rcases hr : (rec k).run h with ⟨_ | _ | _ | _, h₁⟩ <;> rw [hr] at hk
    · exact hk.trans (ih _ h₁)
    all_goals exact hk
  | discard t x ih => exact (Heap.adds_releaseAll _ _ h).trans (ih (h.release t.refs))

/-- However a call of `classify` ends, only cells that were made have been set. -/
theorem adds_classify (d : ℕ) (s : Site) (h : Heap) : h.Adds ((classify st d s).run h).2 := by
  induction d generalizing s h with
  | zero => exact .refl h
  | succ d ih =>
    rcases silent_resolveSite st s with ⟨⟨inner⟩ | ⟨key, t, name⟩, hr⟩ | ⟨e, hr⟩ | ⟨-, hr⟩
    · rw [classify_wraps hr]
      exact ih inner h
    · rcases hc : h.memo.lookup key with _ | c
      · have hlaunch := Heap.adds_launch key h
        have hbody := adds_exec ih (entryBody st key) (h.launch key)
        rw [classify_new hr hc]
        rcases hx : ((entryBody st key).exec (classify st d) dropTy).run (h.launch key) with
          ⟨body | _ | _ | _, h₁⟩ <;> rw [hx] at hbody
        · -- the cell of the entry was made at the launch
          have hmade : h.fresh < h₁.fresh := hbody.fresh
          exact (hlaunch.trans hbody).trans (Heap.adds_finish hmade key body)
        all_goals exact (hlaunch.trans hbody).trans (Heap.adds_leave key h₁)
      · rw [classify_inFlight hr hc]
        exact .of_eq rfl rfl
    · rw [classify_stop hr]
      exact .refl h
    · rw [classify_hang hr]
      exact .refl h

theorem finite_classify {d : ℕ} {s : Site} {h h' : Heap} {o : Outcome String Ty}
    (hrun : (classify st d s).run h = (o, h')) (hfin : h.Finite) : h'.Finite := by
  have hadds := @adds_classify st d s h
  rw [hrun] at hadds
  exact hadds.finite hfin

end

/-! ## Collecting ends -/

/-- Under all large enough bounds a search returns or panics, and it forgets no cell. -/
def Searches (x : ℕ → Comp Collected String Unit) (s : Collected) : Prop :=
  ∃ o s', ((∃ a, o = .done a) ∨ ∃ e, o = .stop e) ∧ s.seen ⊆ s'.seen ∧
    ∃ D, ∀ d ≥ D, (x d).run s = (o, s')

section

variable {x y : ℕ → Comp Collected String Unit} {s : Collected} {cells : Cells} {n : ℕ}

theorem Searches.pure (s : Collected) : Searches (fun _ => Pure.pure ()) s :=
  ⟨_, s, .inl ⟨(), rfl⟩, Finset.Subset.refl _, 0, fun _ _ => rfl⟩

theorem Searches.of_succ (hx : Searches x s) (hxy : ∀ d, (y (d + 1)).run s = (x d).run s) :
    Searches y s := by
  obtain ⟨o, s', ho, hseen, D, hD⟩ := hx
  refine ⟨o, s', ho, hseen, D + 1, fun d hd => ?_⟩
  obtain ⟨d, rfl⟩ : ∃ k, d = k + 1 := ⟨d - 1, by omega⟩
  exact (hxy d).trans (hD d (by omega))

theorem Searches.bind (hx : Searches x s) (hy : ∀ s₁, s.seen ⊆ s₁.seen → Searches y s₁) :
    Searches (fun d => x d >>= fun _ => y d) s := by
  obtain ⟨o, s₁, ho, hseen, D₁, hD₁⟩ := hx
  rcases ho with ⟨⟨⟩, rfl⟩ | ⟨e, rfl⟩
  · obtain ⟨o, s₂, ho, hseen', D₂, hD₂⟩ := hy s₁ hseen
    refine ⟨o, s₂, ho, hseen.trans hseen', max D₁ D₂, fun d hd => ?_⟩
    exact (bind_done (hD₁ d (by omega))).trans (hD₂ d (by omega))
  · refine ⟨.stop e, s₁, .inr ⟨e, rfl⟩, hseen, D₁, fun d hd => ?_⟩
    rw [bind_run, hD₁ d hd]

theorem Searches.forM {α : Type} {f : ℕ → α → Comp Collected String Unit} {l : List α}
    (h : ∀ a ∈ l, ∀ s₁, s.seen ⊆ s₁.seen → Searches (fun d => f d a) s₁) :
    Searches (fun d => l.forM (f d)) s := by
  induction l generalizing s with
  | nil => exact Searches.pure s
  | cons a l ih =>
    refine (h a List.mem_cons_self s (Finset.Subset.refl _)).bind fun s₁ hs₁ => ?_
    exact ih fun b hb s₂ hs₂ => h b (List.mem_cons_of_mem _ hb) s₂ (hs₁.trans hs₂)

/-- As long as finitely many cells are set, `collect_cells` returns, or panics at one that is not. -/
theorem collectCells_searches (hn : ∀ c, cells c ≠ none → c < n) (ty : Ty) (s : Collected) :
    Searches (fun d => collectCells cells d ty) s := by
  -- by induction on how many cells have not been seen, and for each number on the type
  have hbounded : ∀ k ty s, (Finset.range n \ s.seen).card ≤ k →
      Searches (fun d => collectCells cells d ty) s := by
    intro k
    induction k using Nat.strong_induction_on with
    | _ k ihk =>
      intro ty
      have hlater : ∀ {s s₁ : Collected}, s.seen ⊆ s₁.seen → (Finset.range n \ s.seen).card ≤ k →
          (Finset.range n \ s₁.seen).card ≤ k :=
        fun hseen hk =>
          (Finset.card_le_card (Finset.sdiff_subset_sdiff (Finset.Subset.refl _) hseen)).trans hk
      induction ty using Ty.induct with
      | struct name fields ih =>
        intro s hk
        refine Searches.of_succ ?_ fun d => rfl
        exact Searches.forM fun f hf s₁ hs₁ => ih f hf s₁ (hlater hs₁ hk)
      | tuple fields ih =>
        intro s hk
        refine Searches.of_succ ?_ fun d => rfl
        exact Searches.forM fun f hf s₁ hs₁ => ih f hf s₁ (hlater hs₁ hk)
      | vec elem esz eal seq ih => exact fun s hk => (ih s hk).of_succ fun d => rfl
      | boxed inner size align ih => exact fun s hk => (ih s hk).of_succ fun d => rfl
      | opt d ds nd sd po size inner ih => exact fun s hk => (ih s hk).of_succ fun d => rfl
      | map key ks val vs na ins ihk ihv =>
        intro s hk
        refine Searches.of_succ ?_ fun d => rfl
        exact (ihk s hk).bind fun s₁ hs₁ => ihv s₁ (hlater hs₁ hk)
      | ref c =>
        intro s hk
        by_cases hc : c ∈ s.seen
        · exact (Searches.pure s).of_succ (collectRef_seen hc)
        have hsub : s.seen ⊆ insert c s.seen := Finset.subset_insert c s.seen
        cases hbody : cells c with
        | none =>
          refine ⟨.stop "recursive Ty cell not set", ⟨insert c s.seen, s.out ++ [c]⟩, .inr ⟨_, rfl⟩,
            hsub, 1, fun d hd => ?_⟩
          obtain ⟨d, rfl⟩ : ∃ k, d = k + 1 := ⟨d - 1, by omega⟩
          show (collectCells cells (d + 1) (.ref c)).run s = _
          rw [collectCells, get_bind_run, if_neg hc, modify_bind_run, hbody]
          rfl
        | some body =>
          have hmem : c ∈ Finset.range n \ s.seen := by
            refine Finset.mem_sdiff.2 ⟨Finset.mem_range.2 (hn c ?_), hc⟩
            rw [hbody]
            exact Option.some_ne_none body
          have hless : (Finset.range n \ insert c s.seen).card < (Finset.range n \ s.seen).card := by
            refine Finset.card_lt_card ((Finset.ssubset_iff_of_subset ?_).2 ⟨c, hmem, ?_⟩)
            · exact Finset.sdiff_subset_sdiff (Finset.Subset.refl _) hsub
            · exact fun h => (Finset.mem_sdiff.1 h).2 (Finset.mem_insert_self c _)
          obtain ⟨o, s', ho, hseen, hD⟩ :=
            ihk _ (hless.trans_le hk) body ⟨insert c s.seen, s.out ++ [c]⟩ (Nat.le_refl _)
          have hrest : Searches (fun d => ⟨fun _ => (collectCells cells d body).run
              ⟨insert c s.seen, s.out ++ [c]⟩⟩) s := ⟨o, s', ho, hsub.trans hseen, hD⟩
          exact hrest.of_succ (collectRef_new hc hbody)
      | _ => exact fun s _ => (Searches.pure s).of_succ fun d => rfl
  exact hbounded _ ty s (Nat.le_refl _)

end

/-! ## The rest of a compilation -/

/-- A computation that returns or panics. -/
def Settles {τ α : Type} (x : Comp τ String α) : Prop :=
  ∀ s, (∃ a s', x.run s = (.done a, s')) ∨ ∃ e s', x.run s = (.stop e, s')

theorem Settles.pure {τ α : Type} (a : α) : Settles (Pure.pure a : Comp τ String α) :=
  fun s => .inl ⟨a, s, rfl⟩

theorem Settles.fail {τ α : Type} (e : String) : Settles (Comp.fail e : Comp τ String α) :=
  fun s => .inr ⟨e, s, rfl⟩

theorem Settles.bind {τ α β : Type} {x : Comp τ String α} {f : α → Comp τ String β} (hx : Settles x)
    (hf : ∀ a, Settles (f a)) : Settles (x >>= f) := by
  intro s
  rcases hx s with ⟨a, s₁, hrun⟩ | ⟨e, s₁, hrun⟩
  · rw [bind_done hrun]
    exact hf a s₁
  · refine .inr ⟨e, s₁, ?_⟩
    rw [bind_run, hrun]

/-- The functions of a module return or panic. -/
structure JITModule.Total {σ : Type} (m : JITModule σ) : Prop where
  declare : ∀ name, Settles (m.declareFunction name)
  define : ∀ fid calls, Settles (m.defineFunction fid calls)

section

variable {σ : Type} {m : JITModule σ}

theorem settles_onModule {α : Type} {x : Comp σ String α} (hx : Settles x) : Settles (onModule x) := by
  intro j
  simp only [onModule]
  rcases hx j.module with ⟨a, s', hrun⟩ | ⟨e, s', hrun⟩
  · exact .inl ⟨a, { j with module := s' }, by rw [hrun]⟩
  · exact .inr ⟨e, { j with module := s' }, by rw [hrun]⟩

theorem settles_declareNext (hm : m.Total) (name : ℕ → String) : Settles (declareNext m name) := by
  intro j
  rw [declareNext, modify_bind_run, get_bind_run]
  exact settles_onModule (hm.declare _) _

theorem settles_declareNodes (hm : m.Total) (out : List RecCell) : Settles (declareNodes m out) := by
  induction out with
  | nil => exact .pure []
  | cons c out ih => exact (settles_declareNext hm nodeName).bind fun fid => ih.bind fun recFns => .pure _

theorem settles_defineOne (hm : m.Total) (recs : List (RecCell × FuncId)) (fid : FuncId) (body : Ty) :
    Settles (defineOne m recs fid body) := by
  rw [defineOne]
  split
  · exact .fail _
  · exact settles_onModule (hm.define fid _)

theorem settles_defineNodes (hm : m.Total) (cells : Cells) (recs recFns : List (RecCell × FuncId)) :
    Settles (defineNodes m cells recs recFns) := by
  induction recFns with
  | nil => exact .pure ()
  | cons y recFns ih =>
    obtain ⟨cell, fid⟩ := y
    rw [defineNodes]
    split
    · exact .fail _
    · exact (settles_defineOne hm recs fid _).bind fun _ => ih

/-- As long as finitely many cells are set, `compile_parser` returns or panics. -/
theorem compileParser_ends (hm : m.Total) {cells : Cells} {n : ℕ} (hn : ∀ c, cells c ≠ none → c < n)
    (ty : Ty) (j : Jit σ) : Ends (fun d => compileParser m cells d ty) j := by
  obtain ⟨o, s, ho, -, D, hD⟩ := collectCells_searches hn ty ⟨∅, []⟩
  rcases ho with ⟨⟨⟩, rfl⟩ | ⟨e, rfl⟩
  · have hout : ∀ d ≥ D, (collected cells d ty).run j = (.done s.out, j) := by
      intro d hd
      simp only [collected]
      rw [hD d hd]
    have hrest : Settles (declareNodes m s.out >>= fun recFns =>
        defineNodes m cells recFns.reverse recFns >>= fun _ => declareNext m topName >>= fun fid =>
          defineOne m recFns.reverse fid ty >>= fun _ => pure fid) :=
      (settles_declareNodes hm _).bind fun recFns => (settles_defineNodes hm _ _ _).bind fun _ =>
        (settles_declareNext hm _).bind fun fid => (settles_defineOne hm _ _ _).bind fun _ => .pure fid
    rcases hrest j with ⟨fid, j', hrun⟩ | ⟨e, j', hrun⟩
    · exact ⟨_, j', .inl ⟨fid, rfl⟩, D, fun d hd => (bind_done (hout d hd)).trans hrun⟩
    · exact ⟨_, j', .inr ⟨e, rfl⟩, D, fun d hd => (bind_done (hout d hd)).trans hrun⟩
  · refine ⟨.stop e, j, .inr ⟨e, rfl⟩, D, fun d hd => ?_⟩
    show (compileParser m cells d ty).run j = _
    rw [compileParser, bind_run]
    simp only [collected]
    rw [hD d hd]

theorem listModule_total : listModule.Total := by
  constructor
  · intro name s
    simp only [listModule]
    cases s.1.idxOf? name with
    | some fid => exact .inl ⟨_, _, rfl⟩
    | none => exact .inl ⟨_, _, rfl⟩
  · intro fid calls s
    simp only [listModule]
    split
    · exact .inr ⟨_, _, rfl⟩
    · exact .inl ⟨_, _, rfl⟩

end

end Bilbo
