import Bilbo.Halting
import Bilbo.Locals

/-!
# Which of the locals at an address is found

`Hunt::scan` is a search in a list: the locals of the subprogram in the order of the debug
info, each with the scopes around it. It takes the first `MaybeUninit` local at the address,
or else the first local there. The program counter decides between the entries of a location
list only; the ranges of the scopes are never looked at, so of the locals that share a stack
slot the first one is found, dead or alive.
-/

namespace Bilbo

open Base

/-- A local, with the scopes between it and its subprogram, innermost first. -/
structure Local where
  scopes : List Off
  off : Off
deriving DecidableEq, Repr

section Definitions

variable (st : Store) (ops : DwarfRegs) (regs : Regs) (pc ptr ui : ℕ)

/-- The locals under an entry in the order of the scan, with `k` levels left. -/
def localsUnder : ℕ → List Off → Off → List Local
  | 0, _, _ => []
  | k + 1, path, parent =>
    (childOffsets st (ui, parent)).flatMap fun o =>
      if (tagAt st (ui, o)).any DwTag.isScope then localsUnder k (o :: path) o
      else if (tagAt st (ui, o)).any DwTag.isLocal then [⟨path, o⟩]
      else []

/-- The address that the location of a local evaluates to. -/
def localAddr (s : Site) : Except String (Option ℕ) :=
  match varLocation st s pc with
  | some expr => evalAddr ops expr regs
  | none => .ok none

/-- Whether a local has a type and a location that evaluates to the address. -/
def Local.isAt (v : Local) : Bool :=
  match localAddr st ops regs pc (ui, v.off) with
  | .ok addr => addr == some ptr && (typeRef st (ui, v.off)).isSome
  | .error _ => false

/-- Whether the type of a local is a `MaybeUninit`. -/
def Local.isMu (v : Local) : Bool :=
  startsWith "MaybeUninit<"
    (((typeRef st (ui, v.off)).bind fun t => dieName st (ui, t)).getD "")

/-- A `MaybeUninit` at the address. -/
def Local.isTarget (v : Local) : Bool := v.isAt st ops regs pc ptr ui && v.isMu st ui

/-- What is returned for a local: its name and its type entry. -/
def Local.found (v : Local) : String × Off :=
  ((dieName st (ui, v.off)).getD "", (typeRef st (ui, v.off)).getD 0)

/-- The program counter lies in every scope around the local. -/
def Local.InScope (v : Local) : Prop :=
  ∀ o ∈ v.scopes, ∃ e, entryAt st (ui, o) = some e ∧ ∃ r ∈ e.ranges, r.1 ≤ pc ∧ pc < r.2

/-- The locals that compete for the address: the `MaybeUninit`s there if there are any, all
locals there otherwise. -/
def candidates (vs : List Local) : List Local :=
  if vs.any (·.isTarget st ops regs pc ptr ui) then
    vs.filter (·.isTarget st ops regs pc ptr ui)
  else vs.filter (·.isAt st ops regs pc ptr ui)

end Definitions

/-! ## The scan is a search -/

variable {st : Store} {ops : DwarfRegs} {regs : Regs} {pc ptr ui : ℕ}

theorem except_bind_eq_ok {α β : Type} {x : Except String α} {f : α → Except String β} {b : β}
    (h : x >>= f = .ok b) : ∃ a, x = .ok a ∧ f a = .ok b := by
  cases x with
  | error e => cases h
  | ok a => exact ⟨a, rfl, h⟩

/-- What a scan over some locals does to the hunt. -/
structure Scans (st : Store) (ops : DwarfRegs) (regs : Regs) (pc ptr ui : ℕ) (vs : List Local)
    (h : Hunt) (r : Option (String × Off) × Hunt) : Prop where
  hit : r.1 =
    (vs.find? (·.isTarget st ops regs pc ptr ui)).map (·.found st ui)
  fallback : r.1 = none → r.2.fallback =
    h.fallback.or ((vs.find? (·.isAt st ops regs pc ptr ui)).map (·.found st ui))

theorem Scans.nil (h : Hunt) : Scans st ops regs pc ptr ui [] h (none, h) :=
  ⟨rfl, fun _ => (Option.or_none).symm⟩

theorem Scans.append {vs ws : List Local} {h h₁ : Hunt} {r : Option (String × Off) × Hunt}
    (hv : Scans st ops regs pc ptr ui vs h (none, h₁))
    (hw : Scans st ops regs pc ptr ui ws h₁ r) : Scans st ops regs pc ptr ui (vs ++ ws) h r := by
  have hnone := Option.map_eq_none_iff.1 hv.hit.symm
  constructor
  · rw [List.find?_append, hnone, Option.none_or]
    exact hw.hit
  · intro hr
    rw [hw.fallback hr, hv.fallback rfl, List.find?_append, Option.or_assoc]
    congr 1
    cases vs.find? (·.isAt st ops regs pc ptr ui) <;> rfl

theorem Scans.append_hit {vs : List Local} {h h₁ : Hunt} {x : String × Off}
    (hv : Scans st ops regs pc ptr ui vs h (some x, h₁)) (ws : List Local) :
    Scans st ops regs pc ptr ui (vs ++ ws) h (some x, h₁) := by
  have hhit := hv.hit
  obtain ⟨v, hfind, -⟩ := Option.map_eq_some_iff.1 hhit.symm
  constructor
  · rw [List.find?_append, hfind]
    rw [hfind] at hhit
    exact hhit
  · intro hr
    cases hr

/-- What is noted of a local that is not the target. -/
def Hunt.note (h : Hunt) (here isMu : Bool) (name tn : String) (t : Off) : Hunt :=
  ⟨if here then h.fallback.or (some (name, t)) else h.fallback,
    if isMu then h.mu ++ [(name, tn, t)] else h.mu⟩

theorem scanLocal_ok {s : Site} {h : Hunt} {r : Option (String × Off) × Hunt}
    (hrun : scanLocal st ops regs pc ptr s h = .ok r) :
    ∃ addr, localAddr st ops regs pc s = .ok addr ∧
      (typeRef st s = none ∧ r = (none, h) ∨
        ∃ t, typeRef st s = some t ∧
          r = if addr = some ptr ∧ startsWith "MaybeUninit<" ((dieName st (s.1, t)).getD "") then
              (some ((dieName st s).getD "", t), h)
            else (none, h.note (addr = some ptr)
              (startsWith "MaybeUninit<" ((dieName st (s.1, t)).getD ""))
              ((dieName st s).getD "") ((dieName st (s.1, t)).getD "") t)) := by
  unfold scanLocal at hrun
  unfold localAddr
  dsimp only at hrun
  have hcase : ∀ {a : Except String (Option ℕ)} {f : Option ℕ → Scanned},
      a >>= f = .ok r → ∃ addr, a = .ok addr ∧ f addr = .ok r := except_bind_eq_ok
  -- with a location or without one, the type is looked at in the same way
  rcases hloc : varLocation st s pc with _ | expr
  all_goals
    rw [hloc] at hrun
    obtain ⟨addr, haddr, hrun⟩ := hcase hrun
    refine ⟨addr, haddr, ?_⟩
    rcases hty : typeRef st s with _ | t
    · rw [hty] at hrun
      cases hrun
      exact .inl ⟨rfl, rfl⟩
    · rw [hty] at hrun
      refine .inr ⟨t, rfl, ?_⟩
      dsimp only [Option.bind_some] at hrun
      split_ifs at hrun ⊢ with h₁ h₂
      all_goals
        cases hrun
        simp [Hunt.note, *]

/-- One local. -/
theorem scans_local {o : Off} {path : List Off} {h : Hunt} {r : Option (String × Off) × Hunt}
    (hrun : scanLocal st ops regs pc ptr (ui, o) h = .ok r) :
    Scans st ops regs pc ptr ui [⟨path, o⟩] h r := by
  obtain ⟨addr, haddr, hcase⟩ := scanLocal_ok hrun
  have hat : (⟨path, o⟩ : Local).isAt st ops regs pc ptr ui =
      (addr == some ptr && (typeRef st (ui, o)).isSome) := by
    unfold Local.isAt
    rw [haddr]
  rcases hcase with ⟨hty, rfl⟩ | ⟨t, hty, rfl⟩
  · -- a local without a type is passed over
    rw [hty, Option.isSome_none, Bool.and_false] at hat
    have hnot : (⟨path, o⟩ : Local).isTarget st ops regs pc ptr ui = false := by
      unfold Local.isTarget
      rw [hat, Bool.false_and]
    constructor
    · rw [List.find?_cons, hnot]
      rfl
    · intro _
      rw [List.find?_cons, hat]
      exact (Option.or_none).symm
  · have hmu : (⟨path, o⟩ : Local).isMu st ui =
        startsWith "MaybeUninit<" ((dieName st (ui, t)).getD "") := by
      unfold Local.isMu
      rw [hty]
      rfl
    have hfound : (⟨path, o⟩ : Local).found st ui = ((dieName st (ui, o)).getD "", t) := by
      unfold Local.found
      rw [hty]
      rfl
    rw [hty, Option.isSome_some, Bool.and_true] at hat
    by_cases hboth : addr = some ptr ∧
        startsWith "MaybeUninit<" ((dieName st (ui, t)).getD "") = true
    · -- a `MaybeUninit` at the address
      rw [if_pos hboth]
      constructor
      · have htarget : (⟨path, o⟩ : Local).isTarget st ops regs pc ptr ui = true := by
          unfold Local.isTarget
          rw [hat, hmu, hboth.1, hboth.2, beq_self_eq_true, Bool.and_self]
        rw [List.find?_cons, htarget, ← hfound]
        rfl
      · intro hr
        cases hr
    · rw [if_neg hboth]
      have hnot : (⟨path, o⟩ : Local).isTarget st ops regs pc ptr ui = false := by
        unfold Local.isTarget
        rw [hat, hmu]
        by_contra hc
        rw [Bool.not_eq_false, Bool.and_eq_true, beq_iff_eq] at hc
        exact hboth hc
      constructor
      · rw [List.find?_cons, hnot]
        rfl
      · intro _
        rw [List.find?_cons, hat]
        by_cases haddr' : addr = some ptr
        · rw [beq_iff_eq.2 haddr', Option.map_some, hfound]
          unfold Hunt.note
          rw [if_pos (decide_eq_true haddr')]
        · rw [beq_eq_false_iff_ne.2 haddr', List.find?_nil, Option.map_none, Option.or_none]
          unfold Hunt.note
          rw [if_neg (by rw [decide_eq_false haddr']; exact Bool.false_ne_true)]

/-- What one child does, and what the rest of the scan is. -/
theorem scanKids_cons_ok {descend here : Off → Hunt → Scanned} {o : Off} {os : List Off}
    {h : Hunt} {r : Option (String × Off) × Hunt}
    (hrun : scanKids st ui descend here (o :: os) h = .ok r) :
    ∃ t r₁, tagAt st (ui, o) = some t ∧
      (if t.isScope then descend o h else if t.isLocal then here o h else .ok (none, h)) =
        .ok r₁ ∧
      ((∃ x, r₁.1 = some x ∧ r = r₁) ∨
        r₁.1 = none ∧ scanKids st ui descend here os r₁.2 = .ok r) := by
  unfold scanKids at hrun
  rcases htag : tagAt st (ui, o) with _ | t
  · rw [htag] at hrun
    cases hrun
  rw [htag] at hrun
  refine ⟨t, ?_⟩
  dsimp only at hrun
  rw [pure_bind] at hrun
  split_ifs at hrun ⊢
  all_goals
    obtain ⟨⟨hit, h₁⟩, hchild, hrun⟩ := except_bind_eq_ok hrun
    refine ⟨(hit, h₁), rfl, hchild, ?_⟩
    -- a hit in the first child ends the loop
    cases hit with
    | none => exact .inr ⟨rfl, hrun⟩
    | some x =>
      cases hrun
      exact .inl ⟨x, rfl, rfl⟩

/-- The children of a scope, when the scan below each inner scope is a search. -/
theorem scans_kids {path : List Off} {k : ℕ} {descend : Off → Hunt → Scanned}
    (hdescend : ∀ {o h r}, descend o h = .ok r →
      Scans st ops regs pc ptr ui (localsUnder st ui k (o :: path) o) h r)
    {os : List Off} {h : Hunt} {r : Option (String × Off) × Hunt}
    (hrun : scanKids st ui descend (fun o h => scanLocal st ops regs pc ptr (ui, o) h) os h =
      .ok r) :
    Scans st ops regs pc ptr ui (os.flatMap fun o =>
      if (tagAt st (ui, o)).any DwTag.isScope then localsUnder st ui k (o :: path) o
      else if (tagAt st (ui, o)).any DwTag.isLocal then [⟨path, o⟩]
      else []) h r := by
  induction os generalizing h with
  | nil =>
    cases hrun
    exact Scans.nil h
  | cons o os ih =>
    rw [List.flatMap_cons]
    obtain ⟨t, ⟨hit, h₁⟩, htag, hchild, hrest⟩ := scanKids_cons_ok hrun
    -- what the first child contributes
    have hone : Scans st ops regs pc ptr ui
        (if (tagAt st (ui, o)).any DwTag.isScope then localsUnder st ui k (o :: path) o
        else if (tagAt st (ui, o)).any DwTag.isLocal then [⟨path, o⟩]
        else []) h (hit, h₁) := by
      rw [htag, Option.any_some, Option.any_some]
      split_ifs at hchild ⊢
      · exact hdescend hchild
      · exact scans_local hchild
      · cases hchild
        exact Scans.nil h
    rcases hrest with ⟨x, hx, rfl⟩ | ⟨hx, hrest⟩
    · obtain rfl : hit = some x := hx
      exact hone.append_hit _
    · obtain rfl : hit = none := hx
      exact hone.append (ih hrest)

/-- `Hunt::scan` searches the locals under an entry. -/
theorem scans_scan {k : ℕ} {path : List Off} {parent : Off} {h : Hunt}
    {r : Option (String × Off) × Hunt} (hrun : scan st ops regs pc ptr ui k parent h = .ok r) :
    Scans st ops regs pc ptr ui (localsUnder st ui k path parent) h r := by
  induction k generalizing path parent h r with
  | zero =>
    cases hrun
    exact Scans.nil h
  | succ k ih => exact scans_kids (fun hrun => ih hrun) hrun

/-! ## The local found -/

/-- The local at the address that a scan finds: a `MaybeUninit` before any other. -/
def matched (st : Store) (ops : DwarfRegs) (regs : Regs) (pc ptr ui : ℕ) (vs : List Local) :
    Option Local :=
  (vs.find? (·.isTarget st ops regs pc ptr ui)).or
    (vs.find? (·.isAt st ops regs pc ptr ui))

/-- It is the first candidate. -/
theorem matched_eq_head (vs : List Local) :
    matched st ops regs pc ptr ui vs = (candidates st ops regs pc ptr ui vs).head? := by
  unfold matched candidates
  rcases hfind : vs.find? (·.isTarget st ops regs pc ptr ui) with _ | v
  · have hany : (vs.any (·.isTarget st ops regs pc ptr ui)) = false := by
      rw [List.any_eq_false]
      exact List.find?_eq_none.1 hfind
    rw [hfind, hany, Option.none_or, if_neg Bool.false_ne_true, List.head?_filter]
  · have hany : (vs.any (·.isTarget st ops regs pc ptr ui)) = true :=
      List.any_eq_true.2 ⟨v, List.mem_of_find?_eq_some hfind, List.find?_some hfind⟩
    rw [hfind, hany, if_pos rfl, List.head?_filter, hfind]
    rfl

/-- The locals of a subprogram. -/
def localsOf (st : Store) (sp : Site) : List Local := localsUnder st sp.1 33 [] sp.2

/-- A call that returns has found the matched local, if there is one; only otherwise does it
fall back on the sole type of `MaybeUninit`. -/
theorem localAtAddress_eq_ok {sp : Site} {fp csp : ℕ} {r : Option (String × Off)}
    (hrun : localAtAddress st ops sp fp csp pc ptr = .ok r) :
    (frameBase st ops sp fp csp = .ok none ∧ r = none) ∨
      ∃ fb h, frameBase st ops sp fp csp = .ok (some fb) ∧
        r = ((matched st ops ⟨fp, csp, fb⟩ pc ptr sp.1 (localsOf st sp)).map
          (·.found st sp.1)).or (soleMaybeUninit h) := by
  unfold localAtAddress at hrun
  obtain ⟨fb, hfb, hrun⟩ := except_bind_eq_ok hrun
  rcases fb with _ | fb
  · cases hrun
    exact .inl ⟨hfb, rfl⟩
  · obtain ⟨⟨hit, h⟩, hscan, hrun⟩ := except_bind_eq_ok hrun
    have hs : Scans st ops ⟨fp, csp, fb⟩ pc ptr sp.1 (localsOf st sp) ⟨none, []⟩ (hit, h) :=
      scans_scan hscan
    refine .inr ⟨fb, h, hfb, ?_⟩
    cases hrun
    congr 1
    unfold matched
    rw [Option.map_or, ← hs.hit]
    cases hit with
    | some x => rfl
    | none =>
      rw [Option.none_or, Option.none_or]
      exact (hs.fallback rfl).trans (Option.none_or)

/-- The call returns this local because its location evaluates to the address. -/
def Returned (st : Store) (ops : DwarfRegs) (sp : Site) (fp csp pc ptr : ℕ) (v : Local) : Prop :=
  localAtAddress st ops sp fp csp pc ptr = .ok (some (v.found st sp.1)) ∧
    ∃ fb, frameBase st ops sp fp csp = .ok (some fb) ∧
      matched st ops ⟨fp, csp, fb⟩ pc ptr sp.1 (localsOf st sp) = some v

theorem returned_of_matched {sp : Site} {fp csp fb : ℕ} {r : Option (String × Off)} {v : Local}
    (hrun : localAtAddress st ops sp fp csp pc ptr = .ok r)
    (hfb : frameBase st ops sp fp csp = .ok (some fb))
    (hm : matched st ops ⟨fp, csp, fb⟩ pc ptr sp.1 (localsOf st sp) = some v) :
    Returned st ops sp fp csp pc ptr v := by
  refine ⟨?_, fb, hfb, hm⟩
  rcases localAtAddress_eq_ok hrun with ⟨hnone, -⟩ | ⟨fb', hunt, hfb', hr⟩
  · rw [hfb] at hnone
    cases hnone
  · rw [hfb] at hfb'
    cases hfb'
    rw [hm] at hr
    rw [hrun, hr]
    rfl

/-- In a call that returns, the local found by its address is in scope exactly when every
candidate that is out of scope comes after one that is in scope. -/
theorem returned_inScope_iff (st : Store) (ops : DwarfRegs) (sp : Site) (fp csp pc ptr : ℕ)
    (r : Option (String × Off)) (hrun : localAtAddress st ops sp fp csp pc ptr = .ok r) :
    (∀ v, Returned st ops sp fp csp pc ptr v → v.InScope st pc sp.1) ↔
      ∀ fb, frameBase st ops sp fp csp = .ok (some fb) →
        ∀ pre v post, candidates st ops ⟨fp, csp, fb⟩ pc ptr sp.1 (localsOf st sp) =
          pre ++ v :: post → ¬ v.InScope st pc sp.1 → ∃ w ∈ pre, w.InScope st pc sp.1 := by
  constructor
  · intro h fb hfb pre v post hc hout
    -- the first candidate is the one returned
    have hhead : ∀ w ws, candidates st ops ⟨fp, csp, fb⟩ pc ptr sp.1 (localsOf st sp) = w :: ws →
        w.InScope st pc sp.1 := by
      intro w ws hw
      apply h w
      apply returned_of_matched hrun hfb
      rw [matched_eq_head, hw]
      rfl
    cases pre with
    | nil => exact absurd (hhead v post hc) hout
    | cons w pre => exact ⟨w, List.mem_cons_self, hhead w _ hc⟩
  · rintro h v ⟨-, fb, hfb, hm⟩
    rw [matched_eq_head, List.head?_eq_some_iff] at hm
    obtain ⟨post, hc⟩ := hm
    by_contra hout
    obtain ⟨w, hw, -⟩ := h fb hfb [] v post hc hout
    exact List.not_mem_nil hw

/-! ## Two blocks that share a stack slot -/

/-- A variable at `fbreg - 16`. -/
def slotDie (o t : Off) (name : String) : Die :=
  .plain o .variable [(.name, .string name), (.type, .unitRef t),
    (.location, .exprloc [0x91, 0x70])] []

/-- A function with a `MaybeUninit<A>` live from 100 to 110 and a `MaybeUninit<B>` live from
110 to 120, in one stack slot. -/
def twoBlocks : Store :=
  ⟨[⟨.plain 0 (.other 0x11) [] [
    .mk ⟨1, .subprogram, [(.name, .string "main"), (.frameBase, .exprloc [0x9C])],
        [(100, 120)]⟩ [
      .mk ⟨2, .lexicalBlock, [], [(100, 110)]⟩ [slotDie 3 10 "a"],
      .mk ⟨4, .lexicalBlock, [], [(110, 120)]⟩ [slotDie 5 11 "b"]],
    .plain 10 .structureType [(.name, .string "MaybeUninit<A>")] [],
    .plain 11 .structureType [(.name, .string "MaybeUninit<B>")] []]⟩], 0⟩

theorem returned_inScope_iff_blocks :
    (∀ v, Returned twoBlocks .linux (0, 1) 900 1000 105 984 v → v.InScope twoBlocks 105 0) ↔
      ∀ fb, frameBase twoBlocks .linux (0, 1) 900 1000 = .ok (some fb) →
        ∀ pre v post,
          candidates twoBlocks .linux ⟨900, 1000, fb⟩ 105 984 0 (localsOf twoBlocks (0, 1)) =
            pre ++ v :: post → ¬ v.InScope twoBlocks 105 0 → ∃ w ∈ pre, w.InScope twoBlocks 105 0 :=
  returned_inScope_iff twoBlocks .linux (0, 1) 900 1000 105 984 (some ("a", 10)) rfl

/-- At 115 the local of the first block is returned, whose scope ended at 110. -/
theorem returned_twoBlocks :
    Returned twoBlocks .linux (0, 1) 900 1000 115 984 ⟨[2], 3⟩ ∧
      ¬ (⟨[2], 3⟩ : Local).InScope twoBlocks 115 0 := by
  refine ⟨⟨rfl, 1000, rfl, by decide⟩, fun h => ?_⟩
  obtain ⟨e, he, r, hr, -, hlt⟩ := h 2 (by decide)
  have hranges : e.ranges = [(100, 110)] := by
    have hentry : (entryAt twoBlocks (0, 2)).map Entry.ranges = some [(100, 110)] := by decide
    rw [he] at hentry
    exact Option.some.inj hentry
  rw [hranges, List.mem_singleton] at hr
  rw [hr] at hlt
  exact absurd hlt (by decide)

end Bilbo
