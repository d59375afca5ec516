import Bilbo.Counts

/-!
# Tying the knot

What `classify` keeps true while types are in flight. Two ghosts go along with a run: for
each cell the entry it was minted for (`own`), and the body that entry got (`full`), set
or not. `Tied` says that the cells agree with them; `Flight` says that whoever can be
reached is in flight or set, because the strong counts cover it.
-/

namespace Bilbo

open Base Calls Comp

variable (st : Store)

/-! ## Which entry a site stands for -/

/-- `classify` goes from a site through transparent wrappers to an entry. -/
inductive Resolves : Site → Site → Prop
  | entry {s key : Site} {t : DwTag} {name : String} :
      resolveSite st s = ret (.entry key t name) → Resolves s key
  | wraps {s inner key : Site} : resolveSite st s = ret (.wraps inner) → Resolves inner key →
      Resolves s key

/-- The body of an entry. -/
def entryBody (key : Site) : Body Ty := do
  let t ← tag st key
  typeBody st key t ((dieName st key).getD "")

variable {st}

theorem entryBody_of_entry {s key : Site} {t : DwTag} {name : String}
    (h : resolveSite st s = ret (.entry key t name)) :
    entryBody st key = typeBody st key t name := by
  obtain ⟨p, -, -, ht, rfl⟩ := resolveSite_entry st h
  rw [entryBody, ht]
  rfl

theorem Resolves.unique {s key key' : Site} (h : Resolves st s key) (h' : Resolves st s key') :
    key' = key := by
  induction h with
  | entry h =>
    cases h' with
    | entry h' =>
      rw [h] at h'
      cases h'
      rfl
    | wraps h' _ =>
      rw [h] at h'
      cases h'
  | wraps h _ ih =>
    cases h' with
    | entry h' =>
      rw [h] at h'
      cases h'
    | wraps h' hr =>
      rw [h] at h'
      cases h'
      exact ih hr

/-! ## What a type stands for -/

/-- `ty` is what `classify` may return for a site, when `own` says which entry each cell
stands for: a reference to a cell of the entry, or the body of the entry over types for the
sites it asks for. -/
def Typed (st : Store) (own : RecCell → Option Site) : ℕ → Site → Ty → Prop
  | 0, _, _ => False
  | n + 1, s, ty => ∃ key, Resolves st s key ∧
      ((∃ c, ty = .ref c ∧ own c = some key) ∨ Yields (Typed st own n) (entryBody st key) ty)

/-- Every cell keeps the entry it was minted for. -/
def Extends (own own' : RecCell → Option Site) : Prop :=
  ∀ c key, own c = some key → own' c = some key

theorem Extends.refl (own : RecCell → Option Site) : Extends own own := fun _ _ h => h

theorem Extends.trans {own₁ own₂ own₃ : RecCell → Option Site} (h₁₂ : Extends own₁ own₂)
    (h₂₃ : Extends own₂ own₃) : Extends own₁ own₃ := fun c key h => h₂₃ c key (h₁₂ c key h)

theorem Typed.mono {own own' : RecCell → Option Site} (ho : Extends own own') {n m : ℕ}
    (hnm : n ≤ m) {s : Site} {ty : Ty} (h : Typed st own n s ty) : Typed st own' m s ty := by
  induction n generalizing m s ty with
  | zero => exact h.elim
  | succ n ih =>
    obtain ⟨m, rfl⟩ : ∃ k, m = k + 1 := ⟨m - 1, by omega⟩
    obtain ⟨key, hkey, ⟨c, rfl, hc⟩ | hy⟩ := h
    · exact ⟨key, hkey, .inl ⟨c, rfl, ho c key hc⟩⟩
    · exact ⟨key, hkey, .inr (hy.mono fun k t ht => ih (by omega) ht)⟩

/-! ## The two invariants -/

/-- The cells agree with the ghosts `own` and `full`. -/
structure Tied (st : Store) (own : RecCell → Option Site) (full : RecCell → Option Ty)
    (h : Heap) : Prop where
  memo_own : ∀ e ∈ h.memo, own e.2 = some e.1
  own_lt : ∀ c key, own c = some key → c < h.fresh
  own_full : ∀ c key, own c = some key → c ∈ h.memo.map (·.2) ∨ ∃ b, full c = some b
  full_body : ∀ c b, full c = some b →
    ∃ key n, own c = some key ∧ Yields (Typed st own n) (entryBody st key) b
  cells_full : ∀ c b, h.cells c = some b → full c = some b

/-- With `X` held outside the cells, a cell that anybody holds is in flight or set. -/
structure Flight (h : Heap) (X : List RecCell) : Prop where
  accounts : h.Accounts X
  memo_unset : ∀ e ∈ h.memo, h.cells e.2 = none
  closed : ∀ c, 0 < h.inside c ∨ c ∈ X → c ∈ h.memo.map (·.2) ∨ h.cells c ≠ none

variable {own : RecCell → Option Site} {full : RecCell → Option Ty} {h h' : Heap}
  {X Y : List RecCell}

theorem Tied.shrinks (ht : Tied st own full h) (hs : h.Shrinks h') : Tied st own full h' := by
  obtain ⟨-, -, hm, hc, hf⟩ := hs
  exact ⟨by rw [hm]; exact ht.memo_own, by rw [hf]; exact ht.own_lt,
    by rw [hm]; exact ht.own_full, ht.full_body, by rw [hc]; exact ht.cells_full⟩

theorem Flight.weaken (hf : Flight h Y) (hXY : ∀ c, X.count c ≤ Y.count c) : Flight h X := by
  refine ⟨hf.accounts.weaken hXY, hf.memo_unset, fun c hc => hf.closed c ?_⟩
  refine hc.imp_right fun hc => ?_
  rw [← List.count_pos_iff] at hc ⊢
  exact hc.trans_le (hXY c)

theorem Flight.release {cs : List RecCell} (hf : Flight h (cs ++ X)) :
    Flight (h.release cs) X ∧ h.Shrinks (h.release cs) := by
  obtain ⟨ha, hs⟩ := Heap.release_spec cs hf.accounts
  refine ⟨⟨ha, ?_, fun c hc => ?_⟩, hs⟩
  · rw [hs.memo, hs.cells]
    exact hf.memo_unset
  · rw [hs.memo, hs.cells]
    exact hf.closed c (hc.imp (fun h => h.trans_le (hs.inside c)) (List.mem_append_right cs))

theorem Flight.clone {c : RecCell} (hf : Flight h X) (hc : c ∈ X) :
    Flight (h.clone c) (c :: X) := by
  have halive := hf.accounts.alive hc
  refine ⟨hf.accounts.clone halive, hf.memo_unset, fun x hx => hf.closed x ?_⟩
  rw [Heap.inside_clone halive] at hx
  refine hx.imp_right fun hx => ?_
  rcases List.mem_cons.1 hx with rfl | hx
  · exact hc
  · exact hx

/-! ## A new cell -/

theorem Flight.launch (key : Site) (hf : Flight h X) :
    Flight (h.launch key) (h.fresh :: h.fresh :: X) := by
  refine ⟨hf.accounts.launch key, fun e he => ?_, fun c hc => ?_⟩
  · rcases List.mem_cons.1 he with rfl | he
    · exact (hf.accounts.unborn h.fresh (Nat.le_refl _)).2
    · exact hf.memo_unset e he
  · rw [Heap.inside_launch key hf.accounts] at hc
    by_cases hfresh : c = h.fresh
    · exact .inl (List.mem_cons.2 (.inl hfresh))
    · have hX : 0 < h.inside c ∨ c ∈ X := hc.imp_right fun hc => by
        simpa only [List.mem_cons, hfresh, false_or] using hc
      exact (hf.closed c hX).imp_left (List.mem_cons_of_mem _)

/-- The ghost `own` once a new cell is in flight. -/
def ownAt (own : RecCell → Option Site) (c : RecCell) (key : Site) : RecCell → Option Site :=
  fun x => if x = c then some key else own x

theorem Tied.extends_launch (ht : Tied st own full h) (key : Site) :
    Extends own (ownAt own h.fresh key) := by
  intro c k hc
  rw [ownAt, if_neg (Nat.ne_of_lt (ht.own_lt c k hc))]
  exact hc

theorem Tied.launch (ht : Tied st own full h) (key : Site) :
    Tied st (ownAt own h.fresh key) full (h.launch key) := by
  have hext := ht.extends_launch key
  refine ⟨fun e he => ?_, fun c k hc => ?_, fun c k hc => ?_, fun c b hb => ?_, ht.cells_full⟩
  · rcases List.mem_cons.1 he with rfl | he
    · exact if_pos rfl
    · exact hext _ _ (ht.memo_own e he)
  · rw [ownAt] at hc
    split at hc
    · rename_i hcf
      exact hcf ▸ Nat.lt_succ_self _
    · exact Nat.lt_succ_of_lt (ht.own_lt c k hc)
  · rw [ownAt] at hc
    split at hc
    · rename_i hcf
      exact .inl (List.mem_cons.2 (.inl hcf))
    · exact (ht.own_full c k hc).imp_left (List.mem_cons_of_mem _)
  · obtain ⟨k, n, hk, hy⟩ := ht.full_body c b hb
    exact ⟨k, n, hext c k hk, hy.mono fun _ _ hty => hty.mono hext (Nat.le_refl n)⟩

/-! ## A finished body -/

/-- The heap after the body of `key` is there: the knot is tied, `MEMO` and the local let
go of the cell. -/
def Heap.finish (key : Site) (c : RecCell) (body : Ty) (h : Heap) : Heap :=
  ((h.tieKnot c body).leave key).release [c]

theorem leave_eq {key : Site} {c : RecCell} {memo : List (Site × RecCell)}
    (hm : h.memo = (key, c) :: memo) (hnew : memo.lookup key = none) :
    h.leave key = ({ h with memo := memo } : Heap).release [c] := by
  have hfilter : memo.filter (fun e => e.1 != key) = memo := by
    rw [List.filter_eq_self]
    intro e he
    have := List.lookup_eq_none_iff.1 hnew e he
    rw [bne_iff_ne]
    exact fun hek => by simp [hek] at this
  rw [Heap.leave, hm, List.filter_cons_of_neg (by simp), hfilter, List.lookup_cons_self]
  rfl

theorem cells_tieKnot_of_ne {c x : RecCell} (body : Ty) (hx : x ≠ c) :
    (h.tieKnot c body).cells x = h.cells x := by
  rw [Heap.tieKnot]
  split
  · exact if_neg hx
  · rfl

theorem cells_tieKnot_of_lt {c : RecCell} (body : Ty) (hc : 2 < h.count c) :
    (h.tieKnot c body).cells c = some body := by
  rw [Heap.tieKnot, if_pos hc]
  exact if_pos rfl

theorem cells_tieKnot_self {c : RecCell} {body b : Ty} (hnone : h.cells c = none)
    (hb : (h.tieKnot c body).cells c = some b) : b = body := by
  rw [Heap.tieKnot] at hb
  split at hb
  · simp only [if_true, Option.some.injEq] at hb
    exact hb.symm
  · rw [hnone] at hb
    cases hb

section Finish

variable {key : Site} {c : RecCell} {memo : List (Site × RecCell)} {body : Ty}

/-- The last owner beside `MEMO` and the local is visible in the count, so a cell that is
not set at the end is held by nobody. -/
theorem Flight.finish (hf : Flight h (body.refs ++ c :: c :: X))
    (hm : h.memo = (key, c) :: memo) (hnew : memo.lookup key = none)
    (hmemo : ∀ e ∈ memo, e.2 ≠ c) :
    Flight (h.finish key c body) (body.refs ++ X) ∧
      (h.finish key c body).memo = memo ∧
      (h.finish key c body).cells = (h.tieKnot c body).cells ∧
      (h.finish key c body).fresh = h.fresh := by
  have hnone : h.cells c = none := hf.memo_unset (key, c) (by rw [hm]; exact List.mem_cons_self)
  have halive (x : RecCell) (hx : x ∈ body.refs ++ c :: c :: X) : 0 < h.count x :=
    hf.accounts.alive hx
  obtain ⟨ha, hin, -, hmk, hfk⟩ := Heap.tieKnot_spec hf.accounts hnone
    (fun x hx => halive x (List.mem_append_left _ hx)) (halive c (by simp))
  have ha' : (({ h.tieKnot c body with memo := memo } : Heap)).Accounts
      ([c] ++ ([c] ++ (body.refs ++ X))) := by
    refine Heap.Accounts.weaken (Y := body.refs ++ c :: c :: X) ⟨ha.covered, ha.unborn⟩ ?_
    intro x
    simp only [List.count_append, List.count_cons, List.count_nil]
    omega
  have hleave := leave_eq (h := h.tieKnot c body) (hmk.trans hm) hnew
  obtain ⟨ha₁, hs₁⟩ := Heap.release_spec [c] ha'
  obtain ⟨ha₂, hs₂⟩ := Heap.release_spec [c] ha₁
  have hs := hs₁.trans hs₂
  rw [Heap.finish, hleave]
  refine ⟨⟨ha₂, fun e he => ?_, fun x hx => ?_⟩, hs.memo, hs.cells, hs.fresh.trans hfk⟩
  · rw [hs.memo] at he
    rw [hs.cells]
    have hne := hmemo e he
    refine (cells_tieKnot_of_ne body hne).trans (hf.memo_unset e ?_)
    rw [hm]
    exact List.mem_cons_of_mem _ he
  · rw [hs.memo, hs.cells]
    have hheld : 0 < h.inside x ∨ x ∈ body.refs ++ X := by
      rcases hx with hx | hx
      · have hle : 0 < h.inside x + body.occ x := hx.trans_le ((hs.inside x).trans (hin x))
        by_cases hocc : 0 < body.occ x
        · exact .inr (List.mem_append_left _ (List.count_pos_iff.1 hocc))
        · exact .inl (by omega)
      · exact .inr hx
    by_cases hxc : x = c
    · -- somebody beside the two owners holds the cell
      have hcount : 2 < h.count c := by
        have hcov := hf.accounts.covered c
        simp only [List.count_append, List.count_cons_self] at hcov
        rcases hheld with hh | hh
        · rw [hxc] at hh
          omega
        · have hpos := List.count_pos_iff.2 (hxc ▸ hh)
          rw [List.count_append] at hpos
          omega
      refine .inr ?_
      rw [hxc]
      change (h.tieKnot c body).cells c ≠ none
      rw [cells_tieKnot_of_lt body hcount]
      nofun
    · have hX : 0 < h.inside x ∨ x ∈ body.refs ++ c :: c :: X := by
        refine hheld.imp_right fun hh => ?_
        rcases List.mem_append.1 hh with hh | hh
        · exact List.mem_append_left _ hh
        · exact List.mem_append_right _ (List.mem_cons_of_mem c (List.mem_cons_of_mem c hh))
      rcases hf.closed x hX with hmem | hset
      · rw [hm, List.map_cons, List.mem_cons] at hmem
        exact .inl (hmem.resolve_left hxc)
      · refine .inr ?_
        change (h.tieKnot c body).cells x ≠ none
        rwa [cells_tieKnot_of_ne body hxc]

/-- The ghost `full` once a body is there. -/
def fullAt (full : RecCell → Option Ty) (c : RecCell) (body : Ty) : RecCell → Option Ty :=
  fun x => if x = c then some body else full x

theorem Tied.finish {n : ℕ} (ht : Tied st own full h) (hm : h.memo = (key, c) :: memo)
    (hnone : h.cells c = none) (hy : Yields (Typed st own n) (entryBody st key) body)
    (hm' : h'.memo = memo) (hcells : h'.cells = (h.tieKnot c body).cells)
    (hfresh : h'.fresh = h.fresh) : Tied st own (fullAt full c body) h' := by
  refine ⟨fun e he => ?_, fun x k hx => ?_, fun x k hx => ?_, fun x b hb => ?_,
    fun x b hb => ?_⟩
  · refine ht.memo_own e ?_
    rw [hm]
    exact List.mem_cons_of_mem _ (hm' ▸ he)
  · rw [hfresh]
    exact ht.own_lt x k hx
  -- the cell of the key is full now, the others are as they were
  · by_cases hxc : x = c
    · exact .inr ⟨body, if_pos hxc⟩
    · rw [fullAt, if_neg hxc, hm']
      refine (ht.own_full x k hx).imp_left fun hmem => ?_
      rw [hm, List.map_cons, List.mem_cons] at hmem
      exact hmem.resolve_left hxc
  · rw [fullAt] at hb
    split at hb
    · rename_i hxc
      cases hb
      refine ⟨key, n, ?_, hy⟩
      rw [hxc]
      exact ht.memo_own (key, c) (by rw [hm]; exact List.mem_cons_self)
    · exact ht.full_body x b hb
  · rw [hcells] at hb
    by_cases hxc : x = c
    · rw [hxc] at hb ⊢
      rw [fullAt, if_pos rfl, cells_tieKnot_self hnone hb]
    · rw [cells_tieKnot_of_ne body hxc] at hb
      rw [fullAt, if_neg hxc]
      exact ht.cells_full x b hb

end Finish

/-! ## Runs of `classify` -/

section Runs

variable {d : ℕ} {s key inner : Site} {t : DwTag} {name : String}

theorem classify_wraps (hr : resolveSite st s = ret (.wraps inner)) (h : Heap) :
    (classify st (d + 1) s).run h = (classify st d inner).run h := by
  rw [classify, hr]
  rfl

theorem classify_stop {e : String} (hr : resolveSite st s = stop e) (h : Heap) :
    (classify st (d + 1) s).run h = (.stop e, h) := by
  rw [classify, hr]
  rfl

theorem classify_hang (hr : resolveSite st s = hang) (h : Heap) :
    (classify st (d + 1) s).run h = (.spent, h) := by
  rw [classify, hr]
  rfl

theorem classify_inFlight {c : RecCell} (hr : resolveSite st s = ret (.entry key t name))
    (hc : h.memo.lookup key = some c) :
    (classify st (d + 1) s).run h = (.done (.ref c), h.clone c) := by
  simp only [classify, hr, exec, pure_bind_run, get_bind_run, hc, modify_bind_run, pure_run]

theorem classify_new (hr : resolveSite st s = ret (.entry key t name))
    (hnew : h.memo.lookup key = none) :
    (classify st (d + 1) s).run h =
      match ((entryBody st key).exec (classify st d) dropTy).run (h.launch key) with
      | (.done body, h₁) => (.done body, h₁.finish key h.fresh body)
      | (.stop e, h₁) => (.stop e, h₁.leave key)
      | (.deep, h₁) => (.deep, h₁.leave key)
      | (.spent, h₁) => (.spent, h₁.leave key) := by
  simp only [classify, hr, entryBody_of_entry hr, exec, pure_bind_run, get_bind_run, hnew]
  simp only [bind_run, onExit_run, modify_run]
  rw [Heap.launch]
  rcases ((typeBody st key t name).exec (classify st d) dropTy).run
      (h.newCell.enter key h.fresh) with ⟨_ | _ | _ | _, h₁⟩ <;> rfl

/-! ## The memo after a run -/

theorem memo_releaseAll (n : ℕ) (cs : List RecCell) (h : Heap) :
    (Heap.releaseAll n cs h).memo = h.memo := by
  induction n generalizing cs h with
  | zero => cases cs <;> rfl
  | succ n ih =>
    cases cs with
    | nil => rfl
    | cons c cs =>
      rw [Heap.releaseAll]
      split <;> exact ih _ _

theorem memo_tieKnot (c : RecCell) (body : Ty) (h : Heap) : (h.tieKnot c body).memo = h.memo := by
  have hclone (cs : List RecCell) (h : Heap) : (h.cloneAll cs).memo = h.memo := by
    induction cs generalizing h with
    | nil => rfl
    | cons c cs ih => exact ih (h.clone c)
  rw [Heap.tieKnot]
  split
  · exact hclone _ _
  · rfl

theorem memo_leave (key : Site) (h : Heap) :
    (h.leave key).memo = h.memo.filter fun e => e.1 != key := memo_releaseAll _ _ _

theorem memo_exec {rec : Site → Comp Heap String Ty} {α : Type}
    (hrec : ∀ k h, ((rec k).run h).2.memo = h.memo) (x : Body α) (h : Heap) :
    ((x.exec rec dropTy).run h).2.memo = h.memo := by
  induction x generalizing h with
  | ret a => rfl
  | stop e => rfl
  | hang => rfl
  | call k f ih =>
    have hk := hrec k h
    rw [exec, bind_run]
    rcases hr : (rec k).run h with ⟨_ | _ | _ | _, h₁⟩ <;> rw [hr] at hk
    · exact (ih _ h₁).trans hk
    all_goals exact hk
  | discard t x ih => exact (ih (h.release t.refs)).trans (memo_releaseAll _ _ _)

/-- However a call of `classify` ends, the memo is as it was. -/
theorem memo_classify (d : ℕ) (s : Site) (h : Heap) :
    ((classify st d s).run h).2.memo = h.memo := by
  induction d generalizing s h with
  | zero => rfl
  | succ d ih =>
    rcases silent_resolveSite st s with ⟨⟨inner⟩ | ⟨key, t, name⟩, hr⟩ | ⟨e, hr⟩ | ⟨-, hr⟩
    · rw [classify_wraps hr]
      exact ih inner h
    · rcases hc : h.memo.lookup key with _ | c
      -- the new entry of the memo is the only one for its key, so leaving takes it out
      · have hleave (h₁ : Heap) (hm : h₁.memo = (h.launch key).memo) :
            (h₁.leave key).memo = h.memo := by
          rw [memo_leave, hm]
          change ((key, h.fresh) :: h.memo).filter _ = _
          rw [List.filter_cons_of_neg (by simp), List.filter_eq_self]
          intro e he
          have := List.lookup_eq_none_iff.1 hc e he
          rw [bne_iff_ne]
          exact fun hek => by simp [hek] at this
        have hm := memo_exec ih (entryBody st key) (h.launch key)
        rw [classify_new hr hc]
        rcases hx : ((entryBody st key).exec (classify st d) dropTy).run (h.launch key) with
          ⟨body | _ | _ | _, h₁⟩ <;> rw [hx] at hm
        · refine (memo_releaseAll _ _ _).trans (hleave _ ?_)
          rw [memo_tieKnot]
          exact hm
        all_goals exact hleave h₁ hm
      · rw [classify_inFlight hr hc]
        rfl
    · rw [classify_stop hr]
    · rw [classify_hang hr]

end Runs

/-! ## The invariants of a run -/

/-- What a run from `h` that returns `ty` to a caller holding `X` leaves: the invariants,
with `ty` among what is held, for an `own` that has only grown and satisfies `P`. -/
def After (st : Store) (own : RecCell → Option Site) (h : Heap) (X : List RecCell)
    (P : (RecCell → Option Site) → Prop) (ty : Ty) (h' : Heap) : Prop :=
  ∃ own' full', Extends own own' ∧ Tied st own' full' h' ∧ Flight h' (ty.refs ++ X) ∧
    h'.memo = h.memo ∧ P own'

/-- The specification of `classify` under a bound `d`. -/
def Keeps (st : Store) (d : ℕ) : Prop :=
  ∀ ⦃own full h X s ty h'⦄, Tied st own full h → Flight h X → (∀ e ∈ h.memo, e.2 ∈ X) →
    (classify st d s).run h = (.done ty, h') →
    After st own h X (fun own' => Typed st own' d s ty) ty h'

theorem exec_keeps {d : ℕ} {L : Prop} (hrec : Keeps st d) (x : Body Ty) (held : List RecCell)
    (hx : ∀ c, Uses L (Ty.occ c) (Ty.occ c) (held.count c) x) {ty : Ty}
    (ht : Tied st own full h) (hf : Flight h (held ++ X)) (hm : ∀ e ∈ h.memo, e.2 ∈ X)
    (hrun : (x.exec (classify st d) dropTy).run h = (.done ty, h')) :
    After st own h X (fun own' => Yields (Typed st own' d) x ty) ty h' := by
  induction x generalizing held own full h with
  | ret a =>
    cases hrun
    refine ⟨own, full, .refl own, ht, hf.weaken fun c => ?_, rfl, .ret _⟩
    have := uses_ret.1 (hx c)
    rw [List.count_append, List.count_append]
    exact Nat.add_le_add_right this _
  | stop e => cases hrun
  | hang => cases hrun
  | call k f ih =>
    obtain ⟨t, h₁, hk, hrun⟩ := bind_eq_done hrun
    -- what the call returned is held while the rest runs
    obtain ⟨own₁, full₁, ho₁, ht₁, hf₁, hm₁, hty⟩ :=
      hrec ht hf (fun e he => List.mem_append_right _ (hm e he)) hk
    have huses (c : RecCell) : Uses L (Ty.occ c) (Ty.occ c) ((t.refs ++ held).count c) (f t) := by
      rw [List.count_append, Nat.add_comm]
      exact uses_call.1 (hx c) t
    rw [← List.append_assoc] at hf₁
    rw [← hm₁] at hm
    obtain ⟨own₂, full₂, ho₂, ht₂, hf₂, hm₂, hy⟩ := ih t _ huses ht₁ hf₁ hm hrun
    exact ⟨own₂, full₂, ho₁.trans ho₂, ht₂, hf₂, hm₂.trans hm₁,
      .call (hty.mono ho₂ (Nat.le_refl d)) hy⟩
  | discard t x ih =>
    have huses (c : RecCell) := uses_discard.1 (hx c)
    -- what is dropped was held
    have hf' : Flight h (t.refs ++ (held.diff t.refs ++ X)) := by
      refine hf.weaken fun c => ?_
      have hle : t.refs.count c ≤ held.count c := (huses c).1
      rw [List.count_append, List.count_append, List.count_append, List.count_diff]
      omega
    obtain ⟨hf₁, hs⟩ := hf'.release
    have hm' : ∀ e ∈ (h.release t.refs).memo, e.2 ∈ X := by rwa [hs.memo]
    obtain ⟨own₂, full₂, ho₂, ht₂, hf₂, hm₂, hy⟩ :=
      ih (held.diff t.refs) (fun c => List.count_diff c _ _ ▸ (huses c).2) (ht.shrinks hs) hf₁ hm'
        hrun
    exact ⟨own₂, full₂, ho₂, ht₂, hf₂, hm₂.trans hs.memo, .discard hy⟩

theorem uses_entryBody (c : RecCell) (key : Site) :
    Uses (Loops st) (Ty.occ c) (Ty.occ c) 0 (entryBody st key) :=
  (silent_tag st key).uses_bind fun t => uses_typeBody st c key t _

/-- `classify` keeps the invariants and returns a type for its site. -/
theorem classify_keeps (d : ℕ) : Keeps st d := by
  induction d with
  | zero =>
    intro own full h X s ty h' _ _ _ hrun
    cases hrun
  | succ d ih =>
    intro own full h X s ty h' ht hf hm hrun
    rcases silent_resolveSite st s with ⟨⟨inner⟩ | ⟨key, t, name⟩, hr⟩ | ⟨e, hr⟩ | ⟨-, hr⟩
    · rw [classify_wraps hr] at hrun
      obtain ⟨own₁, full₁, ho, ht₁, hf₁, hm₁, hty⟩ := ih ht hf hm hrun
      refine ⟨own₁, full₁, ho, ht₁, hf₁, hm₁, ?_⟩
      obtain ⟨key, hkey, h'⟩ := hty.mono (.refl own₁) (Nat.le_succ d)
      exact ⟨key, .wraps hr hkey, h'⟩
    · rcases hc : h.memo.lookup key with _ | c
      · rw [classify_new hr hc] at hrun
        rcases hx : ((entryBody st key).exec (classify st d) dropTy).run (h.launch key) with
          ⟨body | _ | _ | _, h₁⟩ <;> rw [hx] at hrun
        case done =>
          cases hrun
          -- the body is run with nothing held yet
          have huses (c : RecCell) : Uses (Loops st) (Ty.occ c) (Ty.occ c)
              (([] : List RecCell).count c) (entryBody st key) := uses_entryBody c key
          have hml : ∀ e ∈ (h.launch key).memo, e.2 ∈ h.fresh :: h.fresh :: X := by
            intro e he
            rcases List.mem_cons.1 he with rfl | he
            · exact List.mem_cons_self
            · exact List.mem_cons_of_mem _ (List.mem_cons_of_mem _ (hm e he))
          obtain ⟨own₁, full₁, ho₁, ht₁, hf₁, hm₁, hy⟩ :=
            exec_keeps ih (entryBody st key) [] huses (ht.launch key) (hf.launch key) hml hx
          -- the cell is fresh, and unset when the body returns
          have hne : ∀ e ∈ h.memo, e.2 ≠ h.fresh := by
            intro e he hfr
            exact hf.accounts.fresh_unheld (hfr ▸ hm e he)
          have hnone : h₁.cells h.fresh = none :=
            hf₁.memo_unset (key, h.fresh) (by rw [hm₁]; exact List.mem_cons_self)
          obtain ⟨hf₂, hm₂, hcells, hfresh⟩ := hf₁.finish hm₁ hc hne
          exact ⟨own₁, fullAt full₁ h.fresh ty, (ht.extends_launch key).trans ho₁,
            ht₁.finish hm₁ hnone hy hm₂ hcells hfresh, hf₂, hm₂, key, .entry hr, .inr hy⟩
        all_goals cases hrun
      · rw [classify_inFlight hr hc] at hrun
        cases hrun
        -- a key in flight gives a reference to its cell
        have hmem : (key, c) ∈ h.memo := by
          obtain ⟨l₁, l₂, heq, -⟩ := List.lookup_eq_some_iff.1 hc
          rw [heq]
          exact List.mem_append_right l₁ List.mem_cons_self
        have hown := ht.memo_own _ hmem
        exact ⟨own, full, .refl own, ⟨ht.memo_own, ht.own_lt, ht.own_full, ht.full_body,
          ht.cells_full⟩, hf.clone (hm _ hmem), rfl, key, .entry hr, .inl ⟨c, rfl, hown⟩⟩
    · rw [classify_stop hr] at hrun
      cases hrun
    · rw [classify_hang hr] at hrun
      cases hrun

end Bilbo
