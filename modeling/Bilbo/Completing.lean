import Bilbo.Ending
import Bilbo.Parsers

/-!
# Every call can end

A thread waits for the guard of `L1`, which only a thread on the hot path holds between two steps, or for
a slot that another thread fills. Neither of those waits for anything that lasts: `L2` is locked for one
step at a time, and a compilation ends. So some call under way can always go on; and since each step
brings its call nearer to the end, all calls under way end unless new ones keep coming.
-/

namespace Bilbo

open Base Comp

/-! ## In `resolved` -/

section

variable {Tid Raw : Type} [DecidableEq Tid] {st : Store} {pf : Platform Raw} {s s' : Threads Tid Raw}
  {t : Tid}

/-- A step moves its thread only. -/
theorem Step.pos (hs : Step st pf t s s') : ∃ p, s'.pos = Function.update s.pos t p := by
  cases hs <;> exact ⟨_, rfl⟩

theorem Step.finite (hs : Step st pf t s s') (h : s.heap.Finite) : s'.heap.Finite := by
  cases hs with
  | classify raw ptr tk d ty h' _ _ _ hrun => exact finite_classify hrun h
  | classifyPanic raw ptr tk d e h' _ _ _ hrun => exact finite_classify hrun h
  | _ => exact h

/-- Between two steps, the guard of `L1` is with a thread that is about to lock `L2`. -/
def Threads.Guarded (s : Threads Tid Raw) : Prop := ∀ u, s.l1Guard = some u → ∃ tk, s.pos u = .hot tk

theorem Threads.Guarded.update (h : s.Guarded) {p : Pos Raw} (hpos : s.pos t = p)
    (hp : ∀ tk, p ≠ .hot tk) (q : Pos Raw) {u : Tid} (hu : s.l1Guard = some u) :
    ∃ tk, Function.update s.pos t q u = .hot tk := by
  obtain ⟨tk, htk⟩ := h u hu
  have hne : u ≠ t := by
    rintro rfl
    exact hp tk (hpos.symm.trans htk)
  exact ⟨tk, (Function.update_of_ne hne _ _).trans htk⟩

theorem Step.guarded (hs : Step st pf t s s') (h : s.Guarded) : s'.Guarded := by
  cases hs with
  | hit raw ptr tk =>
    rintro u hu
    obtain rfl : t = u := Option.some.inj hu
    exact ⟨tk, Function.update_self _ _ _⟩
  | present => exact nofun
  | absent => exact nofun
  | hotPoisoned => exact nofun
  | call raw ptr hpos => exact fun u hu => h.update hpos nofun _ hu
  | miss raw ptr hpos => exact fun u hu => h.update hpos nofun _ hu
  | enteredPoisoned raw ptr hpos => exact fun u hu => h.update hpos nofun _ hu
  | key raw ptr tk hpos => exact fun u hu => h.update hpos nofun _ hu
  | keyPanic raw ptr e hpos => exact fun u hu => h.update hpos nofun _ hu
  | found raw ptr tk r hpos => exact fun u hu => h.update hpos nofun _ hu
  | classify raw ptr tk d ty h' hpos => exact fun u hu => h.update hpos nofun _ hu
  | classifyPanic raw ptr tk d e h' hpos => exact fun u hu => h.update hpos nofun _ hu
  | keyedPoisoned raw ptr tk hpos => exact fun u hu => h.update hpos nofun _ hu
  | insert raw ptr tk r hpos => exact fun u hu => h.update hpos nofun _ hu
  | servedPoisoned raw ptr tk r hpos => exact fun u hu => h.update hpos nofun _ hu

/-- How far a thread is from the end of `resolved`, with room for what comes behind. -/
def Pos.rank : Pos Raw → ℕ
  | .idle => 0
  | .hot _ => 4
  | .served _ _ _ _ => 4
  | .keyed _ _ _ => 5
  | .missed _ _ => 6
  | .entered _ _ => 7

/-- Every step but a new call brings its thread nearer to the end. -/
theorem Step.rank (hs : Step st pf t s s') (h : s'.calls = s.calls) :
    (s'.pos t).rank < (s.pos t).rank := by
  have hmoves : ∀ {p q : Pos Raw}, s.pos t = p → q.rank < p.rank →
      (Function.update s.pos t q t).rank < (s.pos t).rank := by
    intro p q hp hless
    rw [Function.update_self, hp]
    exact hless
  cases hs with
  | call raw ptr => exact absurd h (List.cons_ne_self _ _)
  | hit raw ptr tk hpos => exact hmoves hpos (by simp [Pos.rank])
  | miss raw ptr hpos => exact hmoves hpos (by simp [Pos.rank])
  | enteredPoisoned raw ptr hpos => exact hmoves hpos (by simp [Pos.rank])
  | present tk r hpos => exact hmoves hpos (by simp [Pos.rank])
  | absent tk hpos => exact hmoves hpos (by simp [Pos.rank])
  | hotPoisoned tk hpos => exact hmoves hpos (by simp [Pos.rank])
  | key raw ptr tk hpos => exact hmoves hpos (by simp [Pos.rank])
  | keyPanic raw ptr e hpos => exact hmoves hpos (by simp [Pos.rank])
  | found raw ptr tk r hpos => exact hmoves hpos (by simp [Pos.rank])
  | classify raw ptr tk d ty h' hpos => exact hmoves hpos (by simp [Pos.rank])
  | classifyPanic raw ptr tk d e h' hpos => exact hmoves hpos (by simp [Pos.rank])
  | keyedPoisoned raw ptr tk hpos => exact hmoves hpos (by simp [Pos.rank])
  | insert raw ptr tk r hpos => exact hmoves hpos (by simp [Pos.rank])
  | servedPoisoned raw ptr tk r hpos => exact hmoves hpos (by simp [Pos.rank])

/-- A call that returns was on the hot path, or served. -/
theorem Step.returned (hs : Step st pf t s s') {x : TypeKey × Resolved}
    (h : s'.returns = x :: s.returns) : s'.pos t = .idle ∧ (s.pos t).rank = 4 := by
  cases hs with
  | present tk r hpos => exact ⟨Function.update_self _ _ _, by rw [hpos]; rfl⟩
  | insert raw ptr tk r hpos => exact ⟨Function.update_self _ _ _, by rw [hpos]; rfl⟩
  | _ => exact absurd h.symm (List.cons_ne_self _ _)

/-- A thread on the hot path holds the guard of `L1` and waits for nothing. -/
theorem Threads.hot_goes {tk : TypeKey} (hpos : s.pos t = .hot tk) :
    ∃ s', Step st pf t s s' ∧ s'.calls = s.calls := by
  cases hpoisoned : s.l2Poisoned with
  | true => exact ⟨_, .hotPoisoned tk hpos hpoisoned, rfl⟩
  | false =>
    cases hl : s.l2.lookup tk with
    | none => exact ⟨_, .absent tk hpos hpoisoned hl, rfl⟩
    | some r => exact ⟨_, .present tk r hpos hpoisoned hl, rfl⟩

/-- While a thread is in `resolved`, some thread can go on: the one with the guard of `L1`, or any. -/
theorem Threads.goes (horig : ∀ k, ¬ Relation.TransGen (Origin st) k k)
    (hac : ∀ k, ¬ Relation.TransGen (Wraps st) k k) (h : s.Guarded) (hbusy : s.pos t ≠ .idle) :
    ∃ u s', Step st pf u s s' ∧ s'.calls = s.calls := by
  cases hguard : s.l1Guard with
  | some u =>
    obtain ⟨tk, htk⟩ := h u hguard
    exact ⟨u, hot_goes htk⟩
  | none =>
    refine ⟨t, ?_⟩
    cases hpos : s.pos t with
    | idle => exact absurd hpos hbusy
    | entered raw ptr =>
      cases hpoisoned : s.l1Poisoned with
      | true => exact ⟨_, .enteredPoisoned raw ptr hpos hguard hpoisoned, rfl⟩
      | false =>
        cases hl : s.l1.lookup (pf.callerPc raw) with
        | none => exact ⟨_, .miss raw ptr hpos hguard hpoisoned hl, rfl⟩
        | some tk => exact ⟨_, .hit raw ptr tk hpos hguard hpoisoned hl, rfl⟩
    | hot tk => exact hot_goes hpos
    | missed raw ptr =>
      cases hkey : typeKeyOf st pf raw ptr with
      | ok tk => exact ⟨_, .key raw ptr tk hpos hkey, rfl⟩
      | error e => exact ⟨_, .keyPanic raw ptr e hpos hkey, rfl⟩
    | keyed raw ptr tk =>
      cases hpoisoned : s.l2Poisoned with
      | true => exact ⟨_, .keyedPoisoned raw ptr tk hpos hpoisoned, rfl⟩
      | false =>
        cases hl : s.l2.lookup tk with
        | some r => exact ⟨_, .found raw ptr tk r hpos hpoisoned hl, rfl⟩
        | none =>
          obtain ⟨o, h', ho, D, hD⟩ := classify_ends horig hac tk (s.heapOf t)
          have hrun := hD D (Nat.le_refl D)
          rcases ho with ⟨ty, rfl⟩ | ⟨e, rfl⟩
          · exact ⟨_, .classify raw ptr tk D ty h' hpos hpoisoned hl hrun, rfl⟩
          · exact ⟨_, .classifyPanic raw ptr tk D e h' hpos hpoisoned hl hrun, rfl⟩
    | served raw ptr tk r =>
      cases hpoisoned : s.l1Poisoned with
      | true => exact ⟨_, .servedPoisoned raw ptr tk r hpos hguard hpoisoned, rfl⟩
      | false => exact ⟨_, .insert raw ptr tk r hpos hguard hpoisoned, rfl⟩

end

/-! ## In `from_json_jit_parse` -/

section

variable {Tid Raw σ : Type} [DecidableEq Tid] {st : Store} {pf : Platform Raw} {m : JITModule σ}
  {s s' : Parsers Tid Raw σ} {t u : Tid}

/-- Who waits for whom. -/
structure Parsers.Queued (s : Parsers Tid Raw σ) : Prop where
  guarded : s.threads.Guarded
  finite : s.threads.heap.Finite
  /-- a thread that has its `Resolved` has left `resolved` -/
  rests : ∀ t, s.stage t = .resolving ∨ s.threads.pos t = .idle
  /-- a slot that is being filled has a thread that fills it -/
  fills : ∀ arc t, s.filler arc = some t → ∃ tk r, s.stage t = .filling tk r ∧ r.arc = arc

omit [DecidableEq Tid] in
theorem Parsers.Queued.initial (jit : Tid → Jit σ) : (Parsers.initial jit : Parsers Tid Raw σ).Queued :=
  ⟨nofun, Heap.finite_initial, fun _ => .inl rfl, nofun⟩

/-- A step moves its thread only. -/
theorem ParserStep.frame (hs : ParserStep st pf m t s s') (hu : u ≠ t) :
    s'.threads.pos u = s.threads.pos u ∧ s'.stage u = s.stage u := by
  constructor
  · rcases hs.threads with heq | hstep
    · rw [heq]
    · obtain ⟨p, hp⟩ := hstep.pos
      rw [hp, Function.update_of_ne hu]
  · cases hs with
    | resolve => rfl
    | _ => exact Function.update_of_ne hu _ _

omit [DecidableEq Tid] in
theorem Parsers.Queued.idle (h : s.Queued) {p : Stage} (hstage : s.stage t = p) (hp : p ≠ .resolving) :
    s.threads.pos t = .idle :=
  (h.rests t).resolve_left fun heq => hp (hstage.symm.trans heq)

theorem Parsers.Queued.still (h : s.Queued) {p : Stage} (hstage : s.stage t = p)
    (hp : ∀ tk r, p ≠ .filling tk r) {arc : ℕ} (hu : s.filler arc = some u) (q : Stage) :
    ∃ tk r, Function.update s.stage t q u = .filling tk r ∧ r.arc = arc := by
  obtain ⟨tk, r, hfilling, harc⟩ := h.fills arc u hu
  have hne : u ≠ t := by
    rintro rfl
    exact hp tk r (hstage.symm.trans hfilling)
  exact ⟨tk, r, (Function.update_of_ne hne _ _).trans hfilling, harc⟩

/-- The thread that has filled one slot fills no other. -/
theorem Parsers.Queued.filled (h : s.Queued) {tk : TypeKey} {r : Resolved}
    (hstage : s.stage t = .filling tk r) {arc : ℕ}
    (hu : Function.update s.filler r.arc none arc = some u) (q : Stage) :
    ∃ tk r, Function.update s.stage t q u = .filling tk r ∧ r.arc = arc := by
  have hne : arc ≠ r.arc := by
    rintro rfl
    rw [Function.update_self] at hu
    cases hu
  rw [Function.update_of_ne hne] at hu
  obtain ⟨tk', r', hfilling, rfl⟩ := h.fills arc u hu
  have hne' : u ≠ t := by
    rintro rfl
    cases hstage.symm.trans hfilling
    exact hne rfl
  exact ⟨tk', r', (Function.update_of_ne hne' _ _).trans hfilling, rfl⟩

theorem Parsers.Queued.step (h : s.Queued) (hs : ParserStep st pf m t s s') : s'.Queued := by
  constructor
  · rcases hs.threads with heq | hstep
    · rw [heq]
      exact h.guarded
    · exact hstep.guarded h.guarded
  · rcases hs.threads with heq | hstep
    · rw [heq]
      exact h.finite
    · exact hstep.finite h.finite
  · intro u
    by_cases hu : u = t
    · subst hu
      cases hs with
      | resolve s' hstage => exact .inl hstage
      | resolved s' tk r _ hs hret => exact .inr (hs.returned hret).1
      | found tk r f hstage => exact .inr (h.idle hstage nofun)
      | init tk r hstage => exact .inr (h.idle hstage nofun)
      | compile tk r d f j hstage => exact .inr (h.idle hstage nofun)
      | compilePanic tk r d e j hstage => exact .inr (h.idle hstage nofun)
      | parse tk f hstage => exact .inr (h.idle hstage nofun)
    · obtain ⟨hpos, hstage⟩ := hs.frame hu
      rw [hpos, hstage]
      exact h.rests u
  · intro arc u hu
    cases hs with
    | resolve s' => exact h.fills arc u hu
    | resolved s' tk r hstage => exact h.still hstage nofun hu _
    | found tk r f hstage => exact h.still hstage nofun hu _
    | init tk r hstage =>
      by_cases harc : arc = r.arc
      · subst harc
        have ht : some t = some u := (Function.update_self _ _ s.filler).symm.trans hu
        obtain rfl : t = u := Option.some.inj ht
        exact ⟨tk, r, Function.update_self _ _ _, rfl⟩
      · exact h.still hstage nofun ((Function.update_of_ne harc _ s.filler).symm.trans hu) _
    | compile tk r d f j hstage => exact h.filled hstage hu _
    | compilePanic tk r d e j hstage => exact h.filled hstage hu _
    | parse tk f hstage => exact h.still hstage nofun hu _

theorem Parsers.Queued.run (h : s.Queued) (hrun : ParserRun st pf m s s') : s'.Queued := by
  induction hrun with
  | refl => exact h
  | tail _ hs ih =>
    obtain ⟨t, hs⟩ := hs
    exact ih.step hs

variable (st pf m) in
/-- A step of some thread that is not a new call. -/
def Onward (s s' : Parsers Tid Raw σ) : Prop :=
  ∃ t, ParserStep st pf m t s s' ∧ s'.threads.calls = s.threads.calls

/-- The closure of `get_or_init` comes to its end. -/
theorem Parsers.Queued.compiles (h : s.Queued) (hm : m.Total) {tk : TypeKey} {r : Resolved}
    (hstage : s.stage t = .filling tk r) : ∃ s', Onward st pf m s s' := by
  obtain ⟨o, j, ho, D, hD⟩ := compileParser_ends hm h.finite r.ty (s.jit t)
  have hrun := hD D (Nat.le_refl D)
  rcases ho with ⟨fid, rfl⟩ | ⟨e, rfl⟩
  · obtain ⟨f, hf, -⟩ := compileCode_iff.1 hrun
    exact ⟨_, t, .compile tk r D f j hstage hf, rfl⟩
  · exact ⟨_, t, .compilePanic tk r D e j hstage hrun, rfl⟩

/-- There is no deadlock: while any call is under way, some thread can go on. -/
theorem Parsers.Queued.goes (h : s.Queued)
    (horig : ∀ k, ¬ Relation.TransGen (Origin st) k k)
    (hac : ∀ k, ¬ Relation.TransGen (Wraps st) k k) (hm : m.Total)
    (hbusy : s.stage t ≠ .resolving ∨ s.threads.pos t ≠ .idle) : ∃ s', Onward st pf m s s' := by
  rcases hbusy with hbusy | hbusy
  · cases hstage : s.stage t with
    | resolving => exact absurd hstage hbusy
    | resolved tk r =>
      cases hext : s.ext r.arc with
      | some f => exact ⟨_, t, .found tk r f hstage hext, rfl⟩
      | none =>
        cases hfiller : s.filler r.arc with
        | none => exact ⟨_, t, .init tk r hstage hext hfiller, rfl⟩
        | some u =>
          -- the thread waits for the one that fills its slot
          obtain ⟨tk', r', hfilling, -⟩ := h.fills _ u hfiller
          exact h.compiles hm hfilling
    | filling tk r => exact h.compiles hm hstage
    | parsing tk f => exact ⟨_, t, .parse tk f hstage, rfl⟩
  · have hgoes : ∃ u s', Step st pf u s.threads s' ∧ s'.calls = s.threads.calls :=
      Threads.goes horig hac h.guarded hbusy
    obtain ⟨u, s', hs, hcalls⟩ := hgoes
    have hu : s.stage u = .resolving := by
      refine (h.rests u).resolve_right fun hidle => ?_
      have hless := hs.rank hcalls
      rw [hidle] at hless
      exact Nat.not_lt_zero _ hless
    exact ⟨_, u, .resolve s' hu hs, hcalls⟩

/-! ## How long it takes -/

/-- What is left to do behind `resolved`. -/
def Stage.rank : Stage → ℕ
  | .resolving => 0
  | .parsing _ _ => 1
  | .filling _ _ => 2
  | .resolved _ _ => 3

/-- How many steps the call of a thread may still take. -/
def Parsers.left (s : Parsers Tid Raw σ) (t : Tid) : ℕ := (s.threads.pos t).rank + (s.stage t).rank

theorem ParserStep.left (hs : ParserStep st pf m t s s') (h : s'.threads.calls = s.threads.calls) :
    s'.left t < s.left t := by
  have hmoves : ∀ {p q : Stage}, s.stage t = p → q.rank < p.rank →
      (s.threads.pos t).rank + (Function.update s.stage t q t).rank < s.left t := by
    intro p q hp hless
    rw [Function.update_self, Parsers.left, hp]
    exact Nat.add_lt_add_left hless _
  cases hs with
  | resolve s' _ hs => exact Nat.add_lt_add_right (hs.rank h) _
  | resolved s' tk r hstage hs hret =>
    obtain ⟨hidle, hrank⟩ := hs.returned hret
    show (s'.pos t).rank + (Function.update s.stage t (.resolved tk r) t).rank < s.left t
    rw [Function.update_self, Parsers.left, hidle, hrank, hstage]
    simp [Pos.rank, Stage.rank]
  | found tk r f hstage => exact hmoves hstage (by simp [Stage.rank])
  | init tk r hstage => exact hmoves hstage (by simp [Stage.rank])
  | compile tk r d f j hstage => exact hmoves hstage (by simp [Stage.rank])
  | compilePanic tk r d e j hstage => exact hmoves hstage (by simp [Stage.rank])
  | parse tk f hstage => exact hmoves hstage (by simp [Stage.rank])

omit [DecidableEq Tid] in
theorem Parsers.Queued.left_le (h : s.Queued) (t : Tid) : s.left t ≤ 7 := by
  rcases h.rests t with hstage | hpos
  · rw [Parsers.left, hstage]
    cases s.threads.pos t <;> simp [Pos.rank, Stage.rank]
  · rw [Parsers.left, hpos]
    cases s.stage t <;> simp [Pos.rank, Stage.rank]

variable [Fintype Tid]

theorem Onward.left (hs : Onward st pf m s s') : ∑ t, s'.left t < ∑ t, s.left t := by
  obtain ⟨t, hs, hcalls⟩ := hs
  refine Finset.sum_lt_sum (fun u _ => ?_) ⟨t, Finset.mem_univ t, hs.left hcalls⟩
  by_cases hu : u = t
  · rw [hu]
    exact (hs.left hcalls).le
  · obtain ⟨hpos, hstage⟩ := hs.frame hu
    rw [Parsers.left, Parsers.left, hpos, hstage]

theorem Onward.length_le {run : ℕ → Parsers Tid Raw σ} {n : ℕ}
    (h : ∀ i < n, Onward st pf m (run i) (run (i + 1))) :
    n + ∑ t, (run n).left t ≤ ∑ t, (run 0).left t := by
  induction n with
  | zero => rw [Nat.zero_add]
  | succ n ih =>
    have hlast := (h n (Nat.lt_succ_self n)).left
    have hfirst := ih fun i hi => h i (Nat.lt_succ_of_lt hi)
    omega

/-- No call waits for ever, under any number of threads in any order, where no chain of origins and
no chain of wrappers comes back to itself: while a call is under way, some thread can go on; and
unless new calls come, each thread has at most seven steps to go. -/
theorem parsers_complete (horig : ∀ k, ¬ Relation.TransGen (Origin st) k k)
    (hac : ∀ k, ¬ Relation.TransGen (Wraps st) k k) (hm : m.Total) {jit : Tid → Jit σ}
    (hrun : ParserRun st pf m (.initial jit) s) :
    ((∃ s', Onward st pf m s s') ∨ ∀ t, s.stage t = .resolving ∧ s.threads.pos t = .idle) ∧
      ∀ (run : ℕ → Parsers Tid Raw σ) (n : ℕ), run 0 = s →
        (∀ i < n, Onward st pf m (run i) (run (i + 1))) → n ≤ 7 * Fintype.card Tid := by
  have hqueued : s.Queued := (Parsers.Queued.initial jit).run hrun
  constructor
  · by_cases hidle : ∀ t, s.stage t = .resolving ∧ s.threads.pos t = .idle
    · exact .inr hidle
    · obtain ⟨t, ht⟩ := not_forall.1 hidle
      exact .inl (hqueued.goes horig hac hm (not_and_or.1 ht))
  · rintro run n rfl hrun'
    have hsum : ∑ t, (run 0).left t ≤ ∑ _t : Tid, 7 := Finset.sum_le_sum fun t _ => hqueued.left_le t
    rw [Finset.sum_const_nat fun _ _ => rfl, Finset.card_univ] at hsum
    have hlength := Onward.length_le hrun'
    omega

end

/-! ## A thread that waits for the other -/

/-- A function with a local of type `u64`. -/
def numberStore : Store :=
  ⟨[⟨.plain 0 (.other 0x11) [] [
    .mk ⟨1, .subprogram, [(.frameBase, .exprloc [0x9C])], [(0, 100)]⟩ [
      .plain 2 .variable [(.name, .string "x"), (.type, .unitRef 4),
        (.location, .exprloc [0x91, 8])] []],
    u64Die 4]⟩], 0⟩

theorem numberStore_acyclic (k : Site) : ¬ Relation.TransGen (Wraps numberStore) k k := by
  intro h
  obtain ⟨k', hk, -⟩ := Relation.TransGen.head'_iff.1 h
  exact not_wraps (by decide) k k' hk

theorem numberStore_originFree (k : Site) : ¬ Relation.TransGen (Origin numberStore) k k := by
  intro h
  obtain ⟨k', hk, -⟩ := Relation.TransGen.head'_iff.1 h
  exact not_origin (by decide) k k' hk

/-- One thread fills the slot that the other needs. -/
theorem parserRun_waiting : ∃ (s : Parsers Bool Unit (List String × List (FuncId × List FuncId)))
    (r : Resolved), ParserRun numberStore oneCallSite listModule twoParsers s ∧
      s.stage true = .filling (0, 4) r ∧ s.stage false = .resolved (0, 4) r := by
  have h₁ : ParserRun numberStore oneCallSite listModule twoParsers _ :=
    .single ⟨true, .resolve _ rfl (.call () 8 rfl)⟩
  have h₂ := h₁.tail ⟨true, .resolve _ rfl (.miss () 8 rfl rfl rfl rfl)⟩
  have h₃ := h₂.tail ⟨true, .resolve _ rfl (.key () 8 (0, 4) rfl rfl)⟩
  have h₄ := h₃.tail ⟨true, .resolve _ rfl (.classify () 8 (0, 4) 3 _ _ rfl rfl rfl rfl)⟩
  have h₅ := h₄.tail ⟨true, .resolved _ (0, 4) _ rfl (.insert () 8 (0, 4) _ rfl rfl rfl) rfl⟩
  have h₆ := h₅.tail ⟨true, .init (0, 4) _ rfl rfl rfl⟩
  have h₇ := h₆.tail ⟨false, .resolve _ rfl (.call () 8 rfl)⟩
  have h₈ := h₇.tail ⟨false, .resolve _ rfl (.hit () 8 (0, 4) rfl rfl rfl rfl)⟩
  have h₉ := h₈.tail ⟨false, .resolved _ (0, 4) _ rfl (.present (0, 4) _ rfl rfl rfl) rfl⟩
  exact ⟨_, _, h₉, rfl, rfl⟩

/-- Neither thread is stuck, and both are done within fourteen steps. -/
theorem parsers_complete_waiting :
    ∃ (s : Parsers Bool Unit (List String × List (FuncId × List FuncId))) (r : Resolved),
      s.stage true = .filling (0, 4) r ∧ s.stage false = .resolved (0, 4) r ∧
      ((∃ s', Onward numberStore oneCallSite listModule s s') ∨
        ∀ t, s.stage t = .resolving ∧ s.threads.pos t = .idle) ∧
      ∀ (run : ℕ → Parsers Bool Unit (List String × List (FuncId × List FuncId))) (n : ℕ), run 0 = s →
        (∀ i < n, Onward numberStore oneCallSite listModule (run i) (run (i + 1))) →
          n ≤ 7 * Fintype.card Bool := by
  obtain ⟨s, r, hrun, hfilling, hresolved⟩ := parserRun_waiting
  exact ⟨s, r, hfilling, hresolved, parsers_complete numberStore_originFree numberStore_acyclic listModule_total hrun⟩

end Bilbo
