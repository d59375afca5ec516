import Mathlib.Algebra.BigOperators.Group.Finset.Basic
import Mathlib.Algebra.Order.BigOperators.Group.Finset
import Bilbo.TypeBody

/-!
# Who holds the cells

Every `Arc` of a cell sits in the content of a living cell, or outside the cells: in
`MEMO`, in a local variable of `classify`, in a type somebody holds. `Accounts X` says that
the strong counts cover the first kind together with the list `X` of the second. Each
operation of the heap keeps the accounts with the `X` one expects of it.
-/

namespace Bilbo

namespace Heap

/-- What the content of a cell refers to. -/
def content (h : Heap) (c : RecCell) : List RecCell := (h.cells c).elim [] Ty.refs

/-- How often the content of `y`, if it is alive, refers to `x`. -/
def owes (h : Heap) (x y : RecCell) : ℕ := if 0 < h.count y then (h.content y).count x else 0

/-- How often the contents of all living cells refer to `x`. -/
def inside (h : Heap) (x : RecCell) : ℕ := ∑ y ∈ Finset.range h.fresh, h.owes x y

/-- The counts cover what living cells hold and the list `X` of what is held outside. -/
structure Accounts (h : Heap) (X : List RecCell) : Prop where
  covered : ∀ c, h.inside c + X.count c ≤ h.count c
  unborn : ∀ c, h.fresh ≤ c → h.count c = 0 ∧ h.cells c = none

variable {h h' : Heap} {X Y : List RecCell} {c : RecCell}

theorem Accounts.weaken (ha : h.Accounts Y) (hXY : ∀ c, X.count c ≤ Y.count c) :
    h.Accounts X :=
  ⟨fun c => (Nat.add_le_add_left (hXY c) _).trans (ha.covered c), ha.unborn⟩

theorem Accounts.alive (ha : h.Accounts X) (hc : c ∈ X) : 0 < h.count c := by
  have hpos := List.count_pos_iff.2 hc
  have := ha.covered c
  omega

theorem Accounts.lt_fresh (ha : h.Accounts X) (hc : 0 < h.count c) : c < h.fresh := by
  by_contra hge
  have := (ha.unborn c (Nat.le_of_not_lt hge)).1
  omega

theorem Accounts.fresh_unheld (ha : h.Accounts X) : h.fresh ∉ X := by
  intro hX
  exact absurd (ha.lt_fresh (ha.alive hX)) (Nat.lt_irrefl _)

theorem initial_accounts : initial.Accounts [] :=
  ⟨fun _ => Nat.le_refl 0, fun _ _ => ⟨rfl, rfl⟩⟩

/-! ## Sums that differ in one place -/

theorem inside_congr (h h' : Heap) (hf : h'.fresh = h.fresh) {x : RecCell}
    (hy : ∀ y, h'.owes x y = h.owes x y) : h'.inside x = h.inside x := by
  rw [inside, inside, hf]
  exact Finset.sum_congr rfl fun y _ => hy y

theorem inside_update (h h' : Heap) (hf : h'.fresh = h.fresh) (hc : c < h.fresh) {x : RecCell}
    (hy : ∀ y, y ≠ c → h'.owes x y = h.owes x y) :
    h'.inside x + h.owes x c = h.inside x + h'.owes x c := by
  have hmem : c ∈ Finset.range h.fresh := Finset.mem_range.2 hc
  have hrest : ∑ y ∈ (Finset.range h.fresh).erase c, h'.owes x y =
      ∑ y ∈ (Finset.range h.fresh).erase c, h.owes x y :=
    Finset.sum_congr rfl fun y hyc => hy y (Finset.ne_of_mem_erase hyc)
  have hsplit (g : Heap) : g.owes x c + ∑ y ∈ (Finset.range h.fresh).erase c, g.owes x y =
      ∑ y ∈ Finset.range h.fresh, g.owes x y := Finset.add_sum_erase _ (g.owes x) hmem
  rw [inside, inside, hf, ← hsplit h', ← hsplit h, hrest]
  omega

/-! ## Cloning -/

theorem owes_clone (hc : 0 < h.count c) (x y : RecCell) :
    (h.clone c).owes x y = h.owes x y := by
  have : 0 < (h.clone c).count y ↔ 0 < h.count y := by
    simp only [clone]
    split
    · rename_i hyc
      rw [hyc]
      omega
    · rfl
  simp only [owes, this]
  rfl

theorem inside_clone (hc : 0 < h.count c) (x : RecCell) : (h.clone c).inside x = h.inside x :=
  inside_congr h (h.clone c) rfl (owes_clone hc x)

theorem Accounts.clone (ha : h.Accounts X) (hc : 0 < h.count c) :
    (h.clone c).Accounts (c :: X) := by
  refine ⟨fun x => ?_, fun x hx => ⟨?_, (ha.unborn x hx).2⟩⟩
  · rw [inside_clone hc, List.count_cons]
    have := ha.covered x
    simp only [Heap.clone, beq_iff_eq]
    by_cases hxc : x = c
    · rw [if_pos hxc.symm, if_pos hxc]
      omega
    · rw [if_neg (Ne.symm hxc), if_neg hxc]
      omega
  · have hne : x ≠ c := by
      rintro rfl
      exact absurd (ha.lt_fresh hc) (Nat.not_lt.2 hx)
    simp only [Heap.clone, if_neg hne]
    exact (ha.unborn x hx).1

/-- Clone the `Arc`s in a list. -/
def cloneAll (cs : List RecCell) (h : Heap) : Heap := cs.foldl (fun h c => h.clone c) h

theorem cloneAll_spec (cs : List RecCell) (ha : h.Accounts X) (hcs : ∀ c ∈ cs, 0 < h.count c) :
    (h.cloneAll cs).Accounts (cs ++ X) ∧ (∀ x, (h.cloneAll cs).inside x = h.inside x) ∧
      (∀ x, h.count x ≤ (h.cloneAll cs).count x) ∧ (h.cloneAll cs).memo = h.memo ∧
      (h.cloneAll cs).cells = h.cells ∧ (h.cloneAll cs).fresh = h.fresh := by
  induction cs generalizing h X with
  | nil => exact ⟨ha, fun _ => rfl, fun _ => Nat.le_refl _, rfl, rfl, rfl⟩
  | cons c cs ih =>
    have hc := hcs c List.mem_cons_self
    have hle (x : RecCell) : h.count x ≤ (h.clone c).count x := by
      simp only [Heap.clone]
      split <;> omega
    obtain ⟨h₁, h₂, h₃, h₄, h₅, h₆⟩ := ih (ha.clone hc)
      fun x hx => (hcs x (List.mem_cons_of_mem c hx)).trans_le (hle x)
    refine ⟨h₁.weaken fun x => ?_, fun x => (h₂ x).trans (inside_clone hc x),
      fun x => (hle x).trans (h₃ x), h₄, h₅, h₆⟩
    simp only [List.cons_append, List.count_cons, List.count_append]
    omega

/-! ## Releasing -/

/-- What a release leaves: nothing is owed that was not owed before, and only counts have
changed. -/
structure Shrinks (h h' : Heap) : Prop where
  inside : ∀ x, h'.inside x ≤ h.inside x
  count : ∀ x, h'.count x ≤ h.count x
  memo : h'.memo = h.memo
  cells : h'.cells = h.cells
  fresh : h'.fresh = h.fresh

theorem Shrinks.refl (h : Heap) : Shrinks h h :=
  ⟨fun _ => Nat.le_refl _, fun _ => Nat.le_refl _, rfl, rfl, rfl⟩

theorem Shrinks.trans {h₁ h₂ h₃ : Heap} (h₁₂ : Shrinks h₁ h₂) (h₂₃ : Shrinks h₂ h₃) :
    Shrinks h₁ h₃ :=
  ⟨fun x => (h₂₃.inside x).trans (h₁₂.inside x), fun x => (h₂₃.count x).trans (h₁₂.count x),
    h₂₃.memo.trans h₁₂.memo, h₂₃.cells.trans h₁₂.cells, h₂₃.fresh.trans h₁₂.fresh⟩

/-- One `Arc` less. -/
def decr (c : RecCell) (h : Heap) : Heap :=
  { h with count := fun x => if x = c then h.count x - 1 else h.count x }

theorem owes_decr_of_ne {y : RecCell} (hy : y ≠ c) (x : RecCell) :
    (h.decr c).owes x y = h.owes x y := by
  simp only [owes, decr, if_neg hy]
  rfl

/-- An `Arc` that was not the last one leaves the contents alive; the last one takes the
content of its cell with it. -/
theorem inside_decr (hc : 0 < h.count c) (hlt : c < h.fresh) (x : RecCell) :
    (h.decr c).inside x + (if h.count c = 1 then (h.content c).count x else 0) =
      h.inside x := by
  have hsum : (h.decr c).inside x + h.owes x c = h.inside x + (h.decr c).owes x c :=
    inside_update h (h.decr c) rfl hlt fun y hy => owes_decr_of_ne hy x
  have hold : h.owes x c = (h.content c).count x := if_pos hc
  have hnew : (h.decr c).owes x c = if h.count c = 1 then 0 else (h.content c).count x := by
    simp only [owes, decr, if_true]
    by_cases h1 : h.count c = 1
    · rw [if_pos h1, if_neg (by omega)]
    · rw [if_neg h1, if_pos (by omega)]
      rfl
  rw [hold, hnew] at hsum
  by_cases h1 : h.count c = 1
  · rw [if_pos h1] at hsum ⊢
    omega
  · rw [if_neg h1] at hsum ⊢
    omega

theorem Accounts.decr (ha : h.Accounts (c :: X)) :
    (h.decr c).Accounts ((if h.count c = 1 then h.content c else []) ++ X) := by
  have hc := ha.alive List.mem_cons_self
  refine ⟨fun x => ?_, fun x hx => ⟨?_, (ha.unborn x hx).2⟩⟩
  · have hin := inside_decr hc (ha.lt_fresh hc) x
    have hcov := ha.covered x
    have hcount : ((if h.count c = 1 then h.content c else []) ++ X).count x =
        (if h.count c = 1 then (h.content c).count x else 0) + X.count x := by
      rw [List.count_append]
      split <;> rfl
    rw [List.count_cons] at hcov
    rw [hcount]
    simp only [Heap.decr, beq_iff_eq] at hcov hin ⊢
    by_cases hxc : x = c
    · rw [if_pos hxc.symm] at hcov
      rw [if_pos hxc]
      omega
    · rw [if_neg (Ne.symm hxc)] at hcov
      rw [if_neg hxc]
      omega
  · have := (ha.unborn x hx).1
    simp only [Heap.decr]
    split <;> omega

theorem shrinks_decr (ha : h.Accounts (c :: X)) : Shrinks h (h.decr c) := by
  have hc := ha.alive List.mem_cons_self
  refine ⟨fun x => ?_, fun x => ?_, rfl, rfl, rfl⟩
  · have := inside_decr hc (ha.lt_fresh hc) x
    omega
  · simp only [decr]
    split <;> omega

theorem releaseAll_spec (n : ℕ) (cs : List RecCell) (ha : h.Accounts (cs ++ X)) :
    (releaseAll n cs h).Accounts X ∧ Shrinks h (releaseAll n cs h) := by
  induction n generalizing h cs with
  | zero =>
    have hX : h.Accounts X := ha.weaken fun x => by
      rw [List.count_append]
      omega
    cases cs with
    | nil => exact ⟨hX, Shrinks.refl h⟩
    | cons c cs => exact ⟨hX, Shrinks.refl h⟩
  | succ n ih =>
    cases cs with
    | nil => exact ⟨ha, Shrinks.refl h⟩
    | cons c cs =>
      have hd := ha.decr
      have hs := shrinks_decr ha
      rw [releaseAll]
      by_cases h1 : h.count c = 1
      · rw [if_pos h1] at hd ⊢
        obtain ⟨h₁, h₂⟩ := ih (h.content c ++ cs) (by rwa [List.append_assoc])
        exact ⟨h₁, hs.trans h₂⟩
      · rw [if_neg h1] at hd ⊢
        obtain ⟨h₁, h₂⟩ := ih _ hd
        exact ⟨h₁, hs.trans h₂⟩

theorem release_spec (cs : List RecCell) (ha : h.Accounts (cs ++ X)) :
    (h.release cs).Accounts X ∧ Shrinks h (h.release cs) := releaseAll_spec _ cs ha

/-! ## A new cell in flight -/

/-- The heap once a new cell for `key` is in flight: `MEMO` and the local own it. -/
def launch (key : Site) (h : Heap) : Heap := (h.newCell).enter key h.fresh

theorem inside_launch (key : Site) (ha : h.Accounts X) (x : RecCell) :
    (h.launch key).inside x = h.inside x := by
  have howes (y : RecCell) (hy : y < h.fresh) : (h.launch key).owes x y = h.owes x y := by
    have : y ≠ h.fresh := Nat.ne_of_lt hy
    simp only [owes, launch, enter, Heap.clone, newCell, content, if_neg this]
  have hnew : (h.launch key).owes x h.fresh = 0 := by
    have hnone := (ha.unborn h.fresh (Nat.le_refl _)).2
    have : (h.launch key).content h.fresh = [] := by
      change (h.cells h.fresh).elim [] Ty.refs = []
      rw [hnone]
      rfl
    rw [owes, this]
    exact ite_self 0
  change ∑ y ∈ Finset.range (h.fresh + 1), (h.launch key).owes x y = _
  rw [Finset.sum_range_succ, hnew, Nat.add_zero, inside]
  exact Finset.sum_congr rfl fun y hy => howes y (Finset.mem_range.1 hy)

theorem Accounts.launch (key : Site) (ha : h.Accounts X) :
    (h.launch key).Accounts (h.fresh :: h.fresh :: X) := by
  refine ⟨fun x => ?_, fun x hx => ?_⟩
  · rw [inside_launch key ha, List.count_cons, List.count_cons]
    have := ha.covered x
    simp only [Heap.launch, enter, Heap.clone, newCell, beq_iff_eq]
    by_cases hx : x = h.fresh
    · have hzero := (ha.unborn x (Nat.le_of_eq hx.symm)).1
      rw [if_pos hx.symm, if_pos hx, if_pos hx]
      omega
    · rw [if_neg (Ne.symm hx), if_neg hx, if_neg hx]
      omega
  · have hx : h.fresh + 1 ≤ x := hx
    have hne : x ≠ h.fresh := Nat.ne_of_gt hx
    have := ha.unborn x (Nat.le_of_succ_le hx)
    simp only [Heap.launch, enter, Heap.clone, newCell, if_neg hne]
    exact this

/-! ## Tying the knot -/

/-- Set a cell that is alive and not set, and clone what the content refers to. -/
theorem tieKnot_spec {body : Ty} (ha : h.Accounts X) (hnone : h.cells c = none)
    (hbody : ∀ x ∈ body.refs, 0 < h.count x) (hc : 0 < h.count c) :
    (h.tieKnot c body).Accounts X ∧
      (∀ x, (h.tieKnot c body).inside x ≤ h.inside x + body.occ x) ∧
      (∀ x, h.count x ≤ (h.tieKnot c body).count x) ∧
      (h.tieKnot c body).memo = h.memo ∧ (h.tieKnot c body).fresh = h.fresh := by
  rw [tieKnot]
  split
  · obtain ⟨h₁, h₂, h₃, h₄, h₅, h₆⟩ := cloneAll_spec body.refs ha hbody
    have hcount : 0 < (h.cloneAll body.refs).count c := hc.trans_le (h₃ c)
    set g := h.cloneAll body.refs
    have hgc : h.cloneTy body = g := rfl
    rw [hgc]
    set g' : Heap := { g with cells := fun x => if x = c then some body else h.cells x } with hg'
    -- the cell owned nothing before and owns what the body refers to now
    have hin (x : RecCell) : g'.inside x = h.inside x + body.occ x := by
      have hsum : g'.inside x + g.owes x c = g.inside x + g'.owes x c :=
        inside_update g g' rfl (h₁.lt_fresh hcount) fun y hy => by
          simp only [owes, content, hg', if_neg hy, h₅]
      have hold : g.owes x c = 0 := by
        simp only [owes, content, h₅, hnone]
        exact ite_self 0
      have hnew : g'.owes x c = body.occ x := by
        simp only [owes, content, hg', if_true, if_pos hcount]
        rfl
      rw [hold, hnew, Nat.add_zero, h₂] at hsum
      exact hsum
    refine ⟨⟨fun x => ?_, fun x hx => ?_⟩, fun x => (hin x).le, h₃, h₄, h₆⟩
    · have := h₁.covered x
      rw [List.count_append, h₂] at this
      rw [hin, Ty.occ, Nat.add_assoc]
      exact this
    · have hx' := h₁.unborn x hx
      refine ⟨hx'.1, ?_⟩
      have hne : x ≠ c := by
        rintro rfl
        exact absurd (h₁.lt_fresh hcount) (Nat.not_lt.2 hx)
      simp only [hg', if_neg hne]
      exact h₅ ▸ hx'.2
  · exact ⟨ha, fun x => Nat.le_add_right _ _, fun _ => Nat.le_refl _, rfl, rfl⟩

end Heap

end Bilbo
