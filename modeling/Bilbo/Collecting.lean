import Bilbo.Base.Search
import Bilbo.Unfold

/-!
# The cells of a type

`collect_cells` goes through a type and, at a cell that it has not seen, through what the cell
holds. It is a depth-first search over cells, where the successors of a cell are the references of
its body: wherever the cells that can be reached are finitely many and set, it comes to an end with
each of them once.
-/

namespace Bilbo

open Base Comp

/-- The `HashSet` and the `Vec` that `collect_cells` fills. -/
structure Collected where
  seen : Finset RecCell
  out : List RecCell

/-- `collect_cells` -/
def collectCells (cells : Cells) : ℕ → Ty → Comp Collected String Unit
  | 0, _ => deep
  | d + 1, ty =>
    match ty with
    | .ref cell => do
      let s ← get
      if cell ∈ s.seen then pure ()
      else do
        modify fun s => ⟨insert cell s.seen, s.out ++ [cell]⟩
        match cells cell with
        | none => fail "recursive Ty cell not set"
        | some body => collectCells cells d body
    | .struct _ fields => fields.forM fun f => collectCells cells d f.ty
    | .tuple fields => fields.forM fun f => collectCells cells d f.ty
    | .vec elem _ _ _ => collectCells cells d elem
    | .boxed inner _ _ => collectCells cells d inner
    | .opt _ _ _ _ _ _ inner => collectCells cells d inner
    | .map key _ val _ _ _ => do
      collectCells cells d key
      collectCells cells d val
    | _ => pure ()

/-- The cells that the body of a cell refers to. -/
def bodyRefs (cells : Cells) (c : RecCell) : List RecCell := (cells c).elim [] Ty.refs

/-- The set and the vector that hold some cells. -/
def Collected.of (l : List RecCell) : Collected := ⟨l.toFinset, l⟩

/-! ## A type is collected like its references -/

variable {cells : Cells}

/-- Collecting some references, one after the other. -/
inductive CollectsAll (cells : Cells) : List RecCell → Collected → Collected → Prop
  | nil {s : Collected} : CollectsAll cells [] s s
  | cons {c : RecCell} {cs : List RecCell} {s s₁ s' : Collected} :
      Runs (fun _ d => collectCells cells d (.ref c)) s () s₁ → CollectsAll cells cs s₁ s' →
      CollectsAll cells (c :: cs) s s'

theorem CollectsAll.split {cs cs' : List RecCell} {s s' : Collected}
    (h : CollectsAll cells (cs ++ cs') s s') :
    ∃ s₁, CollectsAll cells cs s s₁ ∧ CollectsAll cells cs' s₁ s' := by
  induction cs generalizing s with
  | nil => exact ⟨s, .nil, h⟩
  | cons c cs ih =>
    cases h with
    | cons hc h =>
      obtain ⟨s₁, hcs, hcs'⟩ := ih h
      exact ⟨s₁, .cons hc hcs, hcs'⟩

theorem collectFields_runs {fields : List FieldTy}
    (ih : ∀ f ∈ fields, ∀ s s', CollectsAll cells f.ty.refs s s' →
      Runs (fun _ d => collectCells cells d f.ty) s () s') {s s' : Collected}
    (h : CollectsAll cells (Ty.fieldsRefs fields) s s') :
    Runs (fun _ d => fields.forM fun f => collectCells cells d f.ty) s () s' := by
  induction fields generalizing s with
  | nil =>
    cases h
    exact Runs.pure () _
  | cons f fs ihfs =>
    obtain ⟨name, off, ty⟩ := f
    rw [Ty.fieldsRefs, Ty.fieldRefs] at h
    obtain ⟨s₁, hf, hfs⟩ := h.split
    show Runs (fun _ d => collectCells cells d ty >>= fun _ =>
      fs.forM fun f => collectCells cells d f.ty) s () s'
    exact (ih _ List.mem_cons_self _ _ hf).bind
      (ihfs (fun g hg => ih g (List.mem_cons_of_mem _ hg)) hfs)

/-- Whatever constructor a type has, its references are collected, in order. -/
theorem collectCells_runs {ty : Ty} {s s' : Collected} (h : CollectsAll cells ty.refs s s') :
    Runs (fun _ d => collectCells cells d ty) s () s' := by
  induction ty using Ty.induct generalizing s s' with
  | struct name fields ih =>
    exact Runs.call (fun _ _ => rfl) (collectFields_runs (fun f hf _ _ => ih f hf) h)
  | tuple fields ih =>
    exact Runs.call (fun _ _ => rfl) (collectFields_runs (fun f hf _ _ => ih f hf) h)
  | vec elem esz eal seq ih => exact Runs.call (fun _ _ => rfl) (ih h)
  | boxed inner size align ih => exact Runs.call (fun _ _ => rfl) (ih h)
  | opt d ds nd sd po size inner ih => exact Runs.call (fun _ _ => rfl) (ih h)
  | map key ks val vs na ins ihk ihv =>
    obtain ⟨s₁, hk, hv⟩ := h.split
    exact Runs.call (fun _ _ => rfl) ((ihk hk).bind (ihv hv))
  | ref c =>
    cases h with
    | cons hc hnil =>
      cases hnil
      exact hc
  | _ =>
    cases h
    exact Runs.call (fun _ _ => rfl) (Runs.pure () _)

/-! ## References are collected as a depth-first search -/

theorem collectRef_seen {c : RecCell} {s : Collected} (hc : c ∈ s.seen) (d : ℕ) :
    (collectCells cells (d + 1) (.ref c)).run s = (.done (), s) := by
  rw [collectCells, get_bind_run, if_pos hc]
  rfl

theorem collectRef_new {c : RecCell} {body : Ty} {s : Collected} (hc : c ∉ s.seen)
    (hbody : cells c = some body) (d : ℕ) :
    (collectCells cells (d + 1) (.ref c)).run s =
      (collectCells cells d body).run ⟨insert c s.seen, s.out ++ [c]⟩ := by
  rw [collectCells, get_bind_run, if_neg hc, modify_bind_run, hbody]

/-- A search through cells that are set is a run of `collect_cells`. -/
theorem collectsAll_of_visits {cs l l' : List RecCell} (h : Visits (bodyRefs cells) cs l l')
    (hset : ∀ c ∈ l', cells c ≠ none) :
    CollectsAll cells cs (Collected.of l) (Collected.of l') := by
  induction h with
  | nil => exact .nil
  | @seen c _ l _ hc _ ih =>
    refine .cons ?_ (ih hset)
    exact Runs.enter (fun _ d => collectRef_seen (List.mem_toFinset.2 hc) d) (Runs.pure () _)
  | @new c _ l l₁ l' hc hsub hrest ihsub ih =>
    -- the body of the cell is collected before the references behind the cell
    have hset₁ : ∀ x ∈ l₁, cells x ≠ none := fun x hx => hset x (hrest.keeps x hx)
    refine .cons ?_ (ih hset)
    have hmem : c ∈ l₁ := hsub.keeps c (List.mem_append_right _ List.mem_cons_self)
    obtain ⟨body, hbody⟩ := Option.ne_none_iff_exists'.1 (hset₁ c hmem)
    have hseen : c ∉ (Collected.of l).seen := fun hc' => hc (List.mem_toFinset.1 hc')
    have hinsert : (⟨insert c (Collected.of l).seen, (Collected.of l).out ++ [c]⟩ : Collected) =
        Collected.of (l ++ [c]) := by
      unfold Collected.of
      rw [List.toFinset_append, Finset.union_comm]
      rfl
    have hinner := ihsub hset₁
    rw [bodyRefs, hbody] at hinner
    refine Runs.enter (fun _ d => ?_) (collectCells_runs hinner)
    rw [collectRef_new hseen hbody, hinsert]

/-! ## What is collected -/

theorem reaches_iff {ty : Ty} {c : RecCell} :
    Reaches cells ty c ↔ ReachedFrom (bodyRefs cells) ty.refs c := by
  constructor
  · intro h
    induction h with
    | here hc => exact ⟨_, hc, .refl⟩
    | through _ hb hc ih =>
      obtain ⟨r, hr, hreach⟩ := ih
      refine ⟨r, hr, hreach.tail ?_⟩
      rw [bodyRefs, hb]
      exact hc
  · rintro ⟨r, hr, hreach⟩
    induction hreach with
    | refl => exact .here hr
    | @tail b c _ hstep ih =>
      cases hb : cells b with
      | none =>
        rw [bodyRefs, hb] at hstep
        exact absurd hstep List.not_mem_nil
      | some body =>
        rw [bodyRefs, hb] at hstep
        exact .through ih hb hstep

/-- Finitely many cells, each set, that refer to no others. -/
def Enclosed (cells : Cells) (V : Finset RecCell) : Prop :=
  ∀ c ∈ V, ∃ body, cells c = some body ∧ ∀ c' ∈ body.refs, c' ∈ V

theorem Enclosed.of_reaches {V : Finset RecCell} (hV : Enclosed cells V) {ty : Ty}
    (hty : ∀ c ∈ ty.refs, c ∈ V) {c : RecCell} (hc : Reaches cells ty c) : c ∈ V := by
  induction hc with
  | here hc => exact hty _ hc
  | through _ hb hc' ih =>
    obtain ⟨body, hbody, hrefs⟩ := hV _ ih
    rw [hb] at hbody
    obtain rfl := Option.some.inj hbody
    exact hrefs _ hc'

/-- `collect_cells` comes to an end with each cell that can be reached, once. -/
theorem collectCells_complete {V : Finset RecCell} (hV : Enclosed cells V) {ty : Ty}
    (hty : ∀ c ∈ ty.refs, c ∈ V) :
    ∃ out : List RecCell, out.Nodup ∧ (∀ c, c ∈ out ↔ Reaches cells ty c) ∧
      Runs (fun _ d => collectCells cells d ty) ⟨∅, []⟩ () (Collected.of out) := by
  have hsucc : ∀ c ∈ V, ∀ c' ∈ bodyRefs cells c, c' ∈ V := by
    intro c hc
    obtain ⟨body, hbody, hrefs⟩ := hV c hc
    rw [bodyRefs, hbody]
    exact hrefs
  obtain ⟨out, hvisits⟩ := Visits.exists_of_finite (l := []) V hsucc hty
  have hmem (c : RecCell) : c ∈ out ↔ Reaches cells ty c := by
    rw [hvisits.mem_iff, reaches_iff]
  refine ⟨out, hvisits.nodup List.nodup_nil, hmem, collectCells_runs ?_⟩
  refine collectsAll_of_visits hvisits fun c hc => ?_
  obtain ⟨body, hbody, -⟩ := hV c (hV.of_reaches hty ((hmem c).1 hc))
  rw [hbody]
  exact Option.some_ne_none body

end Bilbo
