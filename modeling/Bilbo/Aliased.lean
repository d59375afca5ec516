import Mathlib.Data.Finset.Card
import Mathlib.Data.Finset.Dedup
import Bilbo.Entries
import Bilbo.Scopes

/-!
# The aliased local

What `local_at_address` returns, said of the locals of a subprogram in depth-first order: the
first `MaybeUninit` at the address, or else the first local there, or else the first `MaybeUninit`
when all of them have one type name. The scan is compared with a scan of that list, which is the
same computation as long as the scopes nest at most 32 deep.
-/

namespace Bilbo

open Base

/-! ## The locals of a subprogram -/

section Definitions

variable (st : Store) (ops : DwarfRegs) (regs : Regs) (pc ptr ui : ℕ)

/-- The scopes below an entry nest at most this deep. -/
def nestsWithin : ℕ → Off → Bool
  | 0, o => (childOffsets st (ui, o)).all fun c => !(tagAt st (ui, c)).any DwTag.isScope
  | k + 1, o => (childOffsets st (ui, o)).all fun c =>
    !(tagAt st (ui, c)).any DwTag.isScope || nestsWithin k c

/-- The locals among some entries and below them, depth first, each with the scopes around it. -/
inductive Flattens : List Off → List Off → List Local → Prop
  | nil (path : List Off) : Flattens path [] []
  | scope {path os : List Off} {o : Off} {vs ws : List Local} :
      (tagAt st (ui, o)).any DwTag.isScope = true →
      Flattens (o :: path) (childOffsets st (ui, o)) vs → Flattens path os ws →
      Flattens path (o :: os) (vs ++ ws)
  | here {path os : List Off} {o : Off} {ws : List Local} :
      (tagAt st (ui, o)).any DwTag.isScope = false → (tagAt st (ui, o)).any DwTag.isLocal = true →
      Flattens path os ws → Flattens path (o :: os) (⟨path, o⟩ :: ws)
  | other {path os : List Off} {o : Off} {ws : List Local} :
      (tagAt st (ui, o)).any DwTag.isScope = false →
      (tagAt st (ui, o)).any DwTag.isLocal = false →
      Flattens path os ws → Flattens path (o :: os) ws

/-- The name of the type of a local. -/
def Local.typeName (v : Local) : String :=
  ((typeRef st (ui, v.off)).bind fun t => dieName st (ui, t)).getD ""

/-- What is returned for the locals of a subprogram. -/
inductive Chosen (vs : List Local) : Option (String × Off) → Prop
  | target {pre post : List Local} {v : Local} : vs = pre ++ v :: post →
      v.isTarget st ops regs pc ptr ui = true →
      (∀ w ∈ pre, w.isTarget st ops regs pc ptr ui = false) → Chosen vs (some (v.found st ui))
  | other {pre post : List Local} {v : Local} :
      (∀ w ∈ vs, w.isTarget st ops regs pc ptr ui = false) → vs = pre ++ v :: post →
      v.isAt st ops regs pc ptr ui = true → (∀ w ∈ pre, w.isAt st ops regs pc ptr ui = false) →
      Chosen vs (some (v.found st ui))
  | sole {pre post : List Local} {v : Local} :
      (∀ w ∈ vs, w.isAt st ops regs pc ptr ui = false) → vs = pre ++ v :: post →
      v.isMu st ui = true → (∀ w ∈ pre, w.isMu st ui = false) →
      (∀ w ∈ vs, w.isMu st ui = true → w.typeName st ui = v.typeName st ui) →
      Chosen vs (some (v.found st ui))
  | nothing : (∀ w ∈ vs, w.isAt st ops regs pc ptr ui = false) →
      ((∀ w ∈ vs, w.isMu st ui = false) ∨ ∃ v ∈ vs, ∃ w ∈ vs, v.isMu st ui = true ∧
        w.isMu st ui = true ∧ v.typeName st ui ≠ w.typeName st ui) → Chosen vs none

/-- No operand is cut off in the locations that are looked at before a target is found. -/
def Legible (vs : List Local) : Prop :=
  ∀ pre v post, vs = pre ++ v :: post → (∀ w ∈ pre, w.isTarget st ops regs pc ptr ui = false) →
    ∃ addr, localAddr st ops regs pc (ui, v.off) = .ok addr

/-- The scan of some locals, without the tree around them. -/
def scanLocals : List Local → Hunt → Scanned
  | [], h => pure (none, h)
  | v :: vs, h => do
    let r ← scanLocal st ops regs pc ptr (ui, v.off) h
    match r with
    | (some hit, h) => pure (some hit, h)
    | (none, h) => scanLocals vs h

end Definitions

variable {st : Store} {ops : DwarfRegs} {regs : Regs} {pc ptr ui : ℕ}

/-! ## The whole tree -/

theorem flattens_flatMap {k : ℕ} {path os : List Off}
    (h : ∀ o ∈ os, (tagAt st (ui, o)).any DwTag.isScope = true →
      Flattens st ui (o :: path) (childOffsets st (ui, o)) (localsUnder st ui k (o :: path) o)) :
    Flattens st ui path os (os.flatMap fun o =>
      if (tagAt st (ui, o)).any DwTag.isScope then localsUnder st ui k (o :: path) o
      else if (tagAt st (ui, o)).any DwTag.isLocal then [⟨path, o⟩]
      else []) := by
  induction os with
  | nil => exact Flattens.nil path
  | cons o os ih =>
    have hrest := ih fun x hx => h x (List.mem_cons_of_mem _ hx)
    rw [List.flatMap_cons]
    cases hscope : (tagAt st (ui, o)).any DwTag.isScope with
    | true => exact .scope hscope (h o List.mem_cons_self hscope) hrest
    | false =>
      cases hlocal : (tagAt st (ui, o)).any DwTag.isLocal with
      | true => exact .here hscope hlocal hrest
      | false => exact .other hscope hlocal hrest

/-- Where the scopes nest `k` deep, `k + 1` levels are the whole tree. -/
theorem flattens_localsUnder {k : ℕ} {path : List Off} {o : Off}
    (h : nestsWithin st ui k o = true) :
    Flattens st ui path (childOffsets st (ui, o)) (localsUnder st ui (k + 1) path o) := by
  induction k generalizing path o with
  | zero =>
    rw [nestsWithin, List.all_eq_true] at h
    apply flattens_flatMap
    intro c hc hscope
    have hno := h c hc
    rw [hscope] at hno
    cases hno
  | succ k ih =>
    rw [nestsWithin, List.all_eq_true] at h
    apply flattens_flatMap
    intro c hc hscope
    have hbelow := h c hc
    rw [hscope, Bool.not_true, Bool.false_or] at hbelow
    exact ih hbelow

/-- A tree has one list of locals. -/
theorem Flattens.unique {path os : List Off} {vs ws : List Local} (h : Flattens st ui path os vs)
    (h' : Flattens st ui path os ws) : vs = ws := by
  induction h generalizing ws with
  | nil => cases h'; rfl
  | scope hs _ _ ih₁ ih₂ =>
    cases h' with
    | scope _ hv hw => rw [ih₁ hv, ih₂ hw]
    | here hno _ _ => rw [hs] at hno; cases hno
    | other hno _ _ => rw [hs] at hno; cases hno
  | here hno hl _ ih =>
    cases h' with
    | scope hs _ _ => rw [hs] at hno; cases hno
    | here _ _ hw => rw [ih hw]
    | other _ hl' _ => rw [hl] at hl'; cases hl'
  | other hno hl _ ih =>
    cases h' with
    | scope hs _ _ => rw [hs] at hno; cases hno
    | here _ hl' _ => rw [hl] at hl'; cases hl'
    | other _ _ hw => exact ih hw

/-! ## The scan is a scan of the list -/

theorem scanLocals_append (vs ws : List Local) (h : Hunt) :
    scanLocals st ops regs pc ptr ui (vs ++ ws) h = (do
      let r ← scanLocals st ops regs pc ptr ui vs h
      match r with
      | (some hit, h) => pure (some hit, h)
      | (none, h) => scanLocals st ops regs pc ptr ui ws h) := by
  induction vs generalizing h with
  | nil => rfl
  | cons v vs ih =>
    rw [List.cons_append, scanLocals, scanLocals]
    rcases scanLocal st ops regs pc ptr (ui, v.off) h with e | ⟨_ | hit, h₁⟩
    · rfl
    · exact ih h₁
    · rfl

theorem scanLocals_singleton (v : Local) (h : Hunt) :
    scanLocals st ops regs pc ptr ui [v] h = scanLocal st ops regs pc ptr (ui, v.off) h := by
  rw [scanLocals]
  rcases scanLocal st ops regs pc ptr (ui, v.off) h with e | ⟨_ | hit, h₁⟩ <;> rfl

theorem scanKids_eq {k : ℕ} {path : List Off} {descend : Off → Hunt → Scanned} {os : List Off}
    (hdescend : ∀ o h, descend o h =
      scanLocals st ops regs pc ptr ui (localsUnder st ui k (o :: path) o) h)
    (htags : ∀ o ∈ os, ∃ tag, tagAt st (ui, o) = some tag) (h : Hunt) :
    scanKids st ui descend (fun o h => scanLocal st ops regs pc ptr (ui, o) h) os h =
      scanLocals st ops regs pc ptr ui (os.flatMap fun o =>
        if (tagAt st (ui, o)).any DwTag.isScope then localsUnder st ui k (o :: path) o
        else if (tagAt st (ui, o)).any DwTag.isLocal then [⟨path, o⟩]
        else []) h := by
  induction os generalizing h with
  | nil => rfl
  | cons o os ih =>
    obtain ⟨tag, htag⟩ := htags o List.mem_cons_self
    have hrest := ih fun x hx => htags x (List.mem_cons_of_mem _ hx)
    rw [List.flatMap_cons, scanLocals_append, htag, Option.any_some, Option.any_some]
    unfold scanKids
    rw [htag]
    -- the child is one computation on both sides, and the rest is the induction hypothesis
    have hchild : (if tag.isScope = true then descend o h
        else if tag.isLocal = true then scanLocal st ops regs pc ptr (ui, o) h
        else pure (none, h)) =
        scanLocals st ops regs pc ptr ui
          (if tag.isScope = true then localsUnder st ui k (o :: path) o
          else if tag.isLocal = true then [⟨path, o⟩] else []) h := by
      split_ifs
      · exact hdescend o h
      · exact (scanLocals_singleton ⟨path, o⟩ h).symm
      · rfl
    rw [← hchild]
    dsimp only
    rw [pure_bind]
    simp only [hrest]
    split_ifs <;> rfl

/-- The scan of a tree is the scan of its locals. -/
theorem scan_eq (k : ℕ) (path : List Off) (parent : Off) (h : Hunt) :
    scan st ops regs pc ptr ui k parent h =
      scanLocals st ops regs pc ptr ui (localsUnder st ui k path parent) h := by
  induction k generalizing path parent h with
  | zero => rfl
  | succ k ih =>
    exact scanKids_eq (fun o h => ih (o :: path) o h) (fun o ho => exists_tagAt ho) h

/-! ## What the scan returns -/

theorem scanLocal_returns {s : Site} {addr : Option ℕ}
    (haddr : localAddr st ops regs pc s = .ok addr) (h : Hunt) :
    ∃ r, scanLocal st ops regs pc ptr s h = .ok r := by
  unfold localAddr at haddr
  unfold scanLocal
  dsimp only
  rcases hloc : varLocation st s pc with - | expr
  all_goals
    rw [hloc] at haddr
    dsimp only at haddr ⊢
    first | rw [haddr] | skip
    rcases typeRef st s with - | t
    · exact ⟨_, rfl⟩
    · simp only [bind, Except.bind, pure, Except.pure]
      split_ifs <;> exact ⟨_, rfl⟩

/-- What the hunt notes of a `MaybeUninit` that is not the target. -/
def Local.noted (st : Store) (ui : ℕ) (v : Local) : String × String × Off :=
  ((v.found st ui).1, v.typeName st ui, (v.found st ui).2)

theorem scanLocal_mu {v : Local} {h h' : Hunt}
    (hrun : scanLocal st ops regs pc ptr (ui, v.off) h = .ok (none, h')) :
    h'.mu = h.mu ++ ([v].filter (·.isMu st ui)).map (·.noted st ui) := by
  obtain ⟨addr, -, hcase⟩ := scanLocal_ok hrun
  rcases hcase with ⟨hty, hr⟩ | ⟨t, hty, hr⟩
  · -- a local without a type has no type name
    have hmu : v.isMu st ui = false := by
      unfold Local.isMu
      rw [hty]
      show startsWith "MaybeUninit<" "" = false
      decide
    obtain ⟨-, rfl⟩ := Prod.mk.inj hr
    rw [List.filter_cons_of_neg (by rw [hmu]; exact Bool.false_ne_true), List.filter_nil,
      List.map_nil, List.append_nil]
  · have hmu : v.isMu st ui = startsWith "MaybeUninit<" ((dieName st (ui, t)).getD "") := by
      unfold Local.isMu
      rw [hty]
      rfl
    have hnoted : v.noted st ui =
        ((dieName st (ui, v.off)).getD "", (dieName st (ui, t)).getD "", t) := by
      unfold Local.noted Local.found Local.typeName
      rw [hty]
      rfl
    rw [← hmu] at hr
    split_ifs at hr with hboth
    · cases hr
    · obtain ⟨-, rfl⟩ := Prod.mk.inj hr
      unfold Hunt.note
      cases hv : v.isMu st ui with
      | true =>
        rw [List.filter_cons_of_pos hv, List.filter_nil, List.map_singleton, hnoted]
        rfl
      | false =>
        rw [List.filter_cons_of_neg (by rw [hv]; exact Bool.false_ne_true), List.filter_nil,
          List.map_nil, List.append_nil]
        rfl

/-- A hunt without a hit has noted every `MaybeUninit`. -/
theorem scanLocals_mu {vs : List Local} {h h' : Hunt}
    (hrun : scanLocals st ops regs pc ptr ui vs h = .ok (none, h')) :
    h'.mu = h.mu ++ (vs.filter (·.isMu st ui)).map (·.noted st ui) := by
  induction vs generalizing h with
  | nil =>
    cases hrun
    exact (List.append_nil _).symm
  | cons v vs ih =>
    rw [scanLocals] at hrun
    obtain ⟨⟨hit, h₁⟩, hone, hrest⟩ := except_bind_eq_ok hrun
    cases hit with
    | some x => cases hrest
    | none =>
      rw [ih hrest, scanLocal_mu hone, List.append_assoc, ← List.map_append, ← List.filter_append]
      rfl

theorem scanLocals_returns {vs : List Local} (hvs : Legible st ops regs pc ptr ui vs) (h : Hunt) :
    ∃ r, scanLocals st ops regs pc ptr ui vs h = .ok r := by
  induction vs generalizing h with
  | nil => exact ⟨_, rfl⟩
  | cons v vs ih =>
    obtain ⟨addr, haddr⟩ := hvs [] v vs rfl fun w hw => absurd hw List.not_mem_nil
    obtain ⟨⟨hit, h₁⟩, hone⟩ : ∃ r, scanLocal st ops regs pc ptr (ui, v.off) h = .ok r :=
      scanLocal_returns haddr h
    rw [scanLocals, hone]
    cases hit with
    | some x => exact ⟨_, rfl⟩
    | none =>
      -- the first local is no target, so the locations behind it are looked at
      have hs : Scans st ops regs pc ptr ui [v] h (none, h₁) := scans_local hone
      have hnot := List.find?_eq_none.1 (Option.map_eq_none_iff.1 hs.hit.symm) v
        List.mem_cons_self
      apply ih
      intro pre w post heq hpre
      apply hvs (v :: pre) w post (by rw [heq]; rfl)
      intro x hx
      rcases List.mem_cons.1 hx with rfl | hx
      · exact Bool.eq_false_of_not_eq_true hnot
      · exact hpre x hx

/-! ## The sole type of `MaybeUninit` -/

theorem length_dedup_eq_one {α : Type} [DecidableEq α] {a : α} {l : List α} :
    (a :: l).dedup.length = 1 ↔ ∀ x ∈ l, x = a := by
  rw [← List.card_toFinset, Finset.card_eq_one]
  constructor
  · rintro ⟨b, hb⟩ x hx
    have ha : a ∈ (a :: l).toFinset := List.mem_toFinset.2 List.mem_cons_self
    have hx : x ∈ (a :: l).toFinset := List.mem_toFinset.2 (List.mem_cons_of_mem _ hx)
    rw [hb, Finset.mem_singleton] at ha hx
    rw [ha, hx]
  · intro h
    refine ⟨a, Finset.ext fun x => ?_⟩
    rw [List.mem_toFinset, Finset.mem_singleton, List.mem_cons]
    constructor
    · rintro (rfl | hx)
      · rfl
      · exact h x hx
    · exact .inl

theorem chosen_sole {vs : List Local} {h : Hunt}
    (hmu : h.mu = (vs.filter (·.isMu st ui)).map (·.noted st ui))
    (hat : ∀ w ∈ vs, w.isAt st ops regs pc ptr ui = false) :
    Chosen st ops regs pc ptr ui vs (soleMaybeUninit h) := by
  unfold soleMaybeUninit
  rw [hmu]
  cases hfilter : vs.filter (·.isMu st ui) with
  | nil =>
    have hnone : ∀ w ∈ vs, w.isMu st ui = false := by
      intro w hw
      exact Bool.eq_false_of_not_eq_true (List.filter_eq_nil_iff.1 hfilter w hw)
    exact Chosen.nothing hat (.inl hnone)
  | cons v rest =>
    have hmem : ∀ w, w ∈ v :: rest ↔ w ∈ vs ∧ w.isMu st ui = true := by
      intro w
      rw [← hfilter, List.mem_filter]
    have hnames : ((v :: rest).map (·.noted st ui)).map (fun x => x.2.1) =
        v.typeName st ui :: rest.map (·.typeName st ui) := by
      rw [List.map_map, List.map_cons]
      rfl
    rw [hnames, List.map_cons, List.head?_cons, Option.map_some]
    split_ifs with hone
    · rw [length_dedup_eq_one] at hone
      -- the first in the list of all is the first in the tree
      have hfirst : vs.find? (·.isMu st ui) = some v := by
        rw [← List.head?_filter, hfilter]
        rfl
      obtain ⟨hv, pre, post, heq, hpre⟩ := List.find?_eq_some_iff_append.1 hfirst
      apply Chosen.sole hat heq hv
      · intro w hw
        simpa using hpre w hw
      · intro w hw hwmu
        rcases List.mem_cons.1 ((hmem w).2 ⟨hw, hwmu⟩) with rfl | hw
        · rfl
        · exact hone _ (List.mem_map_of_mem hw)
    · rw [length_dedup_eq_one] at hone
      push Not at hone
      obtain ⟨n, hn, hne⟩ := hone
      obtain ⟨w, hw, rfl⟩ := List.mem_map.1 hn
      obtain ⟨hvmem, hvmu⟩ := (hmem v).1 List.mem_cons_self
      obtain ⟨hwmem, hwmu⟩ := (hmem w).1 (List.mem_cons_of_mem _ hw)
      exact Chosen.nothing hat (.inr ⟨v, hvmem, w, hwmem, hvmu, hwmu, Ne.symm hne⟩)

/-! ## The choice -/

/-- What the scan, the fallback and the sole type come to. -/
theorem chosen_of_scan {vs : List Local} {hit : Option (String × Off)} {h : Hunt}
    (hrun : scanLocals st ops regs pc ptr ui vs ⟨none, []⟩ = .ok (hit, h))
    (hs : Scans st ops regs pc ptr ui vs ⟨none, []⟩ (hit, h)) :
    Chosen st ops regs pc ptr ui vs ((hit.or h.fallback).or (soleMaybeUninit h)) := by
  have hhit : hit = (vs.find? (·.isTarget st ops regs pc ptr ui)).map (·.found st ui) := hs.hit
  cases htarget : vs.find? (·.isTarget st ops regs pc ptr ui) with
  | some v =>
    rw [htarget] at hhit
    obtain rfl : hit = some (v.found st ui) := hhit
    obtain ⟨hv, pre, post, heq, hpre⟩ := List.find?_eq_some_iff_append.1 htarget
    rw [Option.some_or, Option.some_or]
    apply Chosen.target heq hv
    intro w hw
    simpa using hpre w hw
  | none =>
    rw [htarget] at hhit
    obtain rfl : hit = none := hhit
    -- no local is a target, so the first one at the address is next
    have hnot : ∀ w ∈ vs, w.isTarget st ops regs pc ptr ui = false :=
      fun w hw => Bool.eq_false_of_not_eq_true (List.find?_eq_none.1 htarget w hw)
    have hfallback : h.fallback = (vs.find? (·.isAt st ops regs pc ptr ui)).map (·.found st ui) :=
      (hs.fallback rfl).trans Option.none_or
    rw [Option.none_or, hfallback]
    cases hother : vs.find? (·.isAt st ops regs pc ptr ui) with
    | some v =>
      obtain ⟨hv, pre, post, heq, hpre⟩ := List.find?_eq_some_iff_append.1 hother
      rw [Option.map_some, Option.some_or]
      apply Chosen.other hnot heq hv
      intro w hw
      simpa using hpre w hw
    | none =>
      rw [Option.map_none, Option.none_or]
      apply chosen_sole (scanLocals_mu hrun)
      exact fun w hw => Bool.eq_false_of_not_eq_true (List.find?_eq_none.1 hother w hw)

/-- What `local_at_address` returns, when the frame base has a form that it knows or not. -/
theorem localAtAddress_chosen (st : Store) (ops : DwarfRegs) (sp : Site) (fp csp pc ptr : ℕ)
    (base : Option ℕ) (hbase : frameBase st ops sp fp csp = .ok base)
    (hnest : nestsWithin st sp.1 32 sp.2 = true)
    (hlegible : ∀ fb ∈ base, ∀ vs, Flattens st sp.1 [] (childOffsets st sp) vs →
      Legible st ops ⟨fp, csp, fb⟩ pc ptr sp.1 vs) :
    ∃ r, localAtAddress st ops sp fp csp pc ptr = .ok r ∧ (base = none → r = none) ∧
      ∀ fb ∈ base, ∃ vs, Flattens st sp.1 [] (childOffsets st sp) vs ∧
        Chosen st ops ⟨fp, csp, fb⟩ pc ptr sp.1 vs r := by
  obtain ⟨ui, o⟩ := sp
  unfold localAtAddress
  rw [hbase]
  cases base with
  | none => exact ⟨none, rfl, fun _ => rfl, fun fb h => absurd h (Option.not_mem_none fb)⟩
  | some fb =>
    -- the scan looks at the locals in the order of the list
    have hflat : Flattens st ui [] (childOffsets st (ui, o)) (localsUnder st ui 33 [] o) :=
      flattens_localsUnder hnest
    obtain ⟨⟨hit, h⟩, hrun⟩ := scanLocals_returns (hlegible fb rfl _ hflat) ⟨none, []⟩
    have hscan : scan st ops ⟨fp, csp, fb⟩ pc ptr ui 33 o ⟨none, []⟩ = .ok (hit, h) :=
      (scan_eq 33 [] o _).trans hrun
    refine ⟨(hit.or h.fallback).or (soleMaybeUninit h), ?_, fun h => absurd h (by simp), ?_⟩
    · show (scan st ops ⟨fp, csp, fb⟩ pc ptr ui 33 o ⟨none, []⟩ >>= _ : Except String _) = _
      rw [hscan]
      rfl
    · intro fb' hfb'
      obtain rfl := Option.some.inj hfb'
      exact ⟨_, hflat, chosen_of_scan hrun (scans_scan hscan)⟩

theorem Legible.of_forall {vs : List Local}
    (h : ∀ v ∈ vs, ∃ addr, localAddr st ops regs pc (ui, v.off) = .ok addr) :
    Legible st ops regs pc ptr ui vs := by
  rintro pre v post rfl -
  exact h v (List.mem_append_right _ List.mem_cons_self)

theorem localAtAddress_chosen_twoBlocks :
    ∃ r, localAtAddress twoBlocks .linux (0, 1) 900 1000 105 984 = .ok r ∧
      (some 1000 = none → r = none) ∧
      ∀ fb ∈ some 1000, ∃ vs, Flattens twoBlocks 0 [] (childOffsets twoBlocks (0, 1)) vs ∧
        Chosen twoBlocks .linux ⟨900, 1000, fb⟩ 105 984 0 vs r := by
  apply localAtAddress_chosen twoBlocks .linux (0, 1) 900 1000 105 984 (some 1000) rfl (by decide)
  intro fb hfb vs hvs
  obtain rfl := Option.some.inj hfb
  obtain rfl : vs = [⟨[2], 3⟩, ⟨[4], 5⟩] :=
    hvs.unique (flattens_localsUnder (k := 1) (by decide))
  apply Legible.of_forall
  intro v hv
  rcases List.mem_pair.1 hv with rfl | rfl
  · exact ⟨some 984, rfl⟩
  · exact ⟨some 984, rfl⟩

/-- A subprogram with the attributes and a `MaybeUninit<A>` at the location. -/
def oneLocal (attrs : List (DwAt × AttributeValue)) (location : Bytes) : Store :=
  ⟨[⟨.plain 0 (.other 0x11) [] [
    .plain 1 .subprogram attrs [
      .plain 2 .variable [(.name, .string "a"), (.type, .unitRef 10),
        (.location, .exprloc location)] []],
    .plain 10 .structureType [(.name, .string "MaybeUninit<A>")] []]⟩], 0⟩

/-- A location relative to the frame pointer is evaluated without the frame base. -/
theorem localAddr_oneLocal (fb : ℕ) :
    localAddr (oneLocal [] [0x76, 0x70]) .linux ⟨900, 1000, fb⟩ 105 (0, 2) = .ok (some 884) := by
  have hoffset : sleb128 [0x70] = .ok (-16, 1) := rfl
  have haddr : wrappingAdd 900 (-16) = 884 := by decide
  show (sleb128 [0x70] >>= fun r => pure (if [(0x70 : UInt8)].length = r.2 then
    some (wrappingAdd 900 r.1) else none) : Except String (Option ℕ)) = _
  rw [hoffset, ← haddr]
  rfl

/-- Without a frame base nothing is returned, although the location of the `MaybeUninit` refers to
the frame pointer alone and evaluates to the address; and an operand that is cut off is a panic. -/
theorem localAtAddress_unframed :
    (localAtAddress (oneLocal [] [0x76, 0x70]) .linux (0, 1) 900 1000 105 884 = .ok none ∧
      ∀ fb, (⟨[], 2⟩ : Local).isTarget (oneLocal [] [0x76, 0x70]) .linux ⟨900, 1000, fb⟩ 105 884 0 =
        true) ∧
    localAtAddress (oneLocal [(.frameBase, .exprloc [0x9C])] [0x91]) .linux (0, 1) 900 1000 105
      884 = .error "index out of bounds" := by
  refine ⟨⟨rfl, fun fb => ?_⟩, rfl⟩
  have hmu : (⟨[], 2⟩ : Local).isMu (oneLocal [] [0x76, 0x70]) 0 = true := by decide
  rw [Local.isTarget, Local.isAt, localAddr_oneLocal, hmu]
  rfl

end Bilbo
