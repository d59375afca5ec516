import Bilbo.Caches
import Mathlib.Logic.Function.Basic
import Mathlib.Logic.Relation

/-!
# Threads that share the two caches

Every thread that calls `resolved` locks `L1`, and either reads `L2` with the guard of `L1`
in hand or works unlocked, then locks `L2`, then `L1` again. A step is one lock-protected
section of one thread, or its unlocked work; a run takes them in any order. `MEMO` is
thread-local, the cells are shared.

The lists `calls`, `classifies` and `returns` record what has happened so far.
-/

namespace Bilbo

open Base Comp

/-- `Resolved`, without the downstream slot; `arc` tells one allocation from another. -/
structure Resolved where
  arc : ℕ
  ty : Ty

/-- Where a thread stands in `resolved`. -/
inductive Pos (Raw : Type)
  | idle
  /-- about to lock `L1` -/
  | entered (raw : Raw) (ptr : ℕ)
  /-- hit in `L1`, whose guard it still holds; about to lock `L2` -/
  | hot (tk : TypeKey)
  /-- missed in `L1`, no lock held -/
  | missed (raw : Raw) (ptr : ℕ)
  /-- about to lock `L2` for its type entry -/
  | keyed (raw : Raw) (ptr : ℕ) (tk : TypeKey)
  /-- has its `Arc`; about to lock `L1` for the insert -/
  | served (raw : Raw) (ptr : ℕ) (tk : TypeKey) (r : Resolved)

/-- The process with its threads. -/
structure Threads (Tid Raw : Type) where
  l1 : List (ℕ × TypeKey)
  l2 : List (TypeKey × Resolved)
  /-- who holds the guard of `L1` between two steps -/
  l1Guard : Option Tid
  l1Poisoned : Bool
  l2Poisoned : Bool
  /-- the cells; `memo` has each thread's `MEMO` -/
  heap : Heap
  memo : Tid → List (Site × RecCell)
  pos : Tid → Pos Raw
  /-- the arguments of every call so far -/
  calls : List (Raw × ℕ)
  /-- the type entries `classify` has been run on -/
  classifies : List TypeKey
  /-- what every call that returned had resolved to, and what it returned -/
  returns : List (TypeKey × Resolved)
  /-- `expect("L2 present")` has failed -/
  expectFailed : Bool

namespace Threads

variable {Tid Raw : Type}

/-- Before the first call. -/
def initial : Threads Tid Raw :=
  ⟨[], [], none, false, false, Heap.initial, fun _ => [], fun _ => .idle, [], [], [], false⟩

/-- The heap as `classify` sees it in a thread. -/
def heapOf (s : Threads Tid Raw) (t : Tid) : Heap := { s.heap with memo := s.memo t }

variable [DecidableEq Tid]

/-- Move a thread. -/
def goto (s : Threads Tid Raw) (t : Tid) (p : Pos Raw) : Threads Tid Raw :=
  { s with pos := Function.update s.pos t p }

/-- What a run of `classify` in a thread leaves behind. -/
def ran (s : Threads Tid Raw) (t : Tid) (tk : TypeKey) (h : Heap) : Threads Tid Raw :=
  { s with heap := h, memo := Function.update s.memo t h.memo, classifies := tk :: s.classifies }

/-- The end of a call. -/
def finish (s : Threads Tid Raw) (t : Tid) (tk : TypeKey) (r : Resolved) : Threads Tid Raw :=
  { s.goto t .idle with returns := (tk, r) :: s.returns }

end Threads

section

variable {Tid Raw : Type} [DecidableEq Tid] (st : Store) (pf : Platform Raw)

/-- One step of the thread `t`. -/
inductive Step (t : Tid) (s : Threads Tid Raw) : Threads Tid Raw → Prop
  | call (raw : Raw) (ptr : ℕ) : s.pos t = .idle →
      Step t s { s.goto t (.entered raw ptr) with calls := (raw, ptr) :: s.calls }
  /-- `l1.lock().unwrap().get(&pc)`, found: the guard lives on -/
  | hit (raw : Raw) (ptr : ℕ) (tk : TypeKey) : s.pos t = .entered raw ptr →
      s.l1Guard = none → s.l1Poisoned = false → s.l1.lookup (pf.callerPc raw) = some tk →
      Step t s { s.goto t (.hot tk) with l1Guard := some t }
  | miss (raw : Raw) (ptr : ℕ) : s.pos t = .entered raw ptr →
      s.l1Guard = none → s.l1Poisoned = false → s.l1.lookup (pf.callerPc raw) = none →
      Step t s (s.goto t (.missed raw ptr))
  | enteredPoisoned (raw : Raw) (ptr : ℕ) : s.pos t = .entered raw ptr →
      s.l1Guard = none → s.l1Poisoned = true → Step t s (s.goto t .idle)
  /-- `l2.lock().unwrap().get(&tk)` on the hot path, found -/
  | present (tk : TypeKey) (r : Resolved) : s.pos t = .hot tk →
      s.l2Poisoned = false → s.l2.lookup tk = some r →
      Step t s { s.finish t tk r with l1Guard := none }
  /-- `expect("L2 present")` fails under both guards -/
  | absent (tk : TypeKey) : s.pos t = .hot tk →
      s.l2Poisoned = false → s.l2.lookup tk = none →
      Step t s { s.goto t .idle with
        l1Guard := none, l1Poisoned := true, l2Poisoned := true, expectFailed := true }
  | hotPoisoned (tk : TypeKey) : s.pos t = .hot tk → s.l2Poisoned = true →
      Step t s { s.goto t .idle with l1Guard := none, l1Poisoned := true }
  /-- unwind and find the local -/
  | key (raw : Raw) (ptr : ℕ) (tk : TypeKey) : s.pos t = .missed raw ptr →
      typeKeyOf st pf raw ptr = .ok tk → Step t s (s.goto t (.keyed raw ptr tk))
  | keyPanic (raw : Raw) (ptr : ℕ) (e : String) : s.pos t = .missed raw ptr →
      typeKeyOf st pf raw ptr = .error e → Step t s (s.goto t .idle)
  /-- `entry(tk)`, occupied -/
  | found (raw : Raw) (ptr : ℕ) (tk : TypeKey) (r : Resolved) : s.pos t = .keyed raw ptr tk →
      s.l2Poisoned = false → s.l2.lookup tk = some r →
      Step t s (s.goto t (.served raw ptr tk r))
  /-- `or_insert_with`, vacant -/
  | classify (raw : Raw) (ptr : ℕ) (tk : TypeKey) (d : ℕ) (ty : Ty) (h : Heap) :
      s.pos t = .keyed raw ptr tk → s.l2Poisoned = false → s.l2.lookup tk = none →
      (classify st d tk).run (s.heapOf t) = (.done ty, h) →
      Step t s { (s.ran t tk h).goto t (.served raw ptr tk ⟨s.l2.length, ty⟩) with
        l2 := (tk, ⟨s.l2.length, ty⟩) :: s.l2 }
  | classifyPanic (raw : Raw) (ptr : ℕ) (tk : TypeKey) (d : ℕ) (e : String) (h : Heap) :
      s.pos t = .keyed raw ptr tk → s.l2Poisoned = false → s.l2.lookup tk = none →
      (classify st d tk).run (s.heapOf t) = (.stop e, h) →
      Step t s { (s.ran t tk h).goto t .idle with l2Poisoned := true }
  | keyedPoisoned (raw : Raw) (ptr : ℕ) (tk : TypeKey) : s.pos t = .keyed raw ptr tk →
      s.l2Poisoned = true → Step t s (s.goto t .idle)
  /-- `l1.lock().unwrap().insert(pc, tk)` -/
  | insert (raw : Raw) (ptr : ℕ) (tk : TypeKey) (r : Resolved) :
      s.pos t = .served raw ptr tk r → s.l1Guard = none → s.l1Poisoned = false →
      Step t s { s.finish t tk r with l1 := (pf.callerPc raw, tk) :: s.l1 }
  | servedPoisoned (raw : Raw) (ptr : ℕ) (tk : TypeKey) (r : Resolved) :
      s.pos t = .served raw ptr tk r → s.l1Guard = none → s.l1Poisoned = true →
      Step t s (s.goto t .idle)

/-- Any number of steps of any threads in any order. -/
def Run : Threads Tid Raw → Threads Tid Raw → Prop :=
  Relation.ReflTransGen fun s s' => ∃ t, Step st pf t s s'

/-- Among these calls, one call site always resolves to one type entry. -/
def SiteStable (calls : List (Raw × ℕ)) : Prop :=
  ∀ c ∈ calls, ∀ c' ∈ calls, pf.callerPc c.1 = pf.callerPc c'.1 →
    ∀ tk tk', typeKeyOf st pf c.1 c.2 = .ok tk → typeKeyOf st pf c'.1 c'.2 = .ok tk' → tk = tk'

end

/-! ## What a step can do -/

section

variable {Tid Raw : Type} {st : Store} {pf : Platform Raw} {s s' : Threads Tid Raw}

/-- The entries of `L2` and the record of calls only grow. -/
structure Grows (s s' : Threads Tid Raw) : Prop where
  l2 : ∀ tk r, s.l2.lookup tk = some r → s'.l2.lookup tk = some r
  calls : s.calls ⊆ s'.calls

/-- A call that resolves to a type entry, as the slow path finds it. -/
def ResolvesTo (st : Store) (pf : Platform Raw) (s : Threads Tid Raw) (raw : Raw) (ptr : ℕ)
    (tk : TypeKey) : Prop :=
  (raw, ptr) ∈ s.calls ∧ typeKeyOf st pf raw ptr = .ok tk

/-- What a thread may rely on where it stands. -/
def Pos.Ok (st : Store) (pf : Platform Raw) (s : Threads Tid Raw) : Pos Raw → Prop
  | .idle => True
  | .entered raw ptr => (raw, ptr) ∈ s.calls
  | .hot tk => ∃ r, s.l2.lookup tk = some r
  | .missed raw ptr => (raw, ptr) ∈ s.calls
  | .keyed raw ptr tk => ResolvesTo st pf s raw ptr tk
  | .served raw ptr tk r => ResolvesTo st pf s raw ptr tk ∧ s.l2.lookup tk = some r

/-- The invariant of the two caches. -/
structure Threads.Inv (st : Store) (pf : Platform Raw) (s : Threads Tid Raw) : Prop where
  pos : ∀ t, (s.pos t).Ok st pf s
  /-- a type entry in `L1` is in `L2`, and some call at its site resolves to it -/
  l1 : ∀ pc tk, s.l1.lookup pc = some tk → (∃ r, s.l2.lookup tk = some r) ∧
    ∃ raw ptr, pf.callerPc raw = pc ∧ ResolvesTo st pf s raw ptr tk
  returns : ∀ tk r, (tk, r) ∈ s.returns → s.l2.lookup tk = some r
  expect : s.expectFailed = false
  once : s.classifies.Nodup
  kept : s.l2Poisoned = false → ∀ tk ∈ s.classifies, ∃ r, s.l2.lookup tk = some r

theorem Grows.refl (s : Threads Tid Raw) : Grows s s := ⟨fun _ _ h => h, fun _ h => h⟩

theorem Grows.trans {s'' : Threads Tid Raw} (h : Grows s s') (h' : Grows s' s'') : Grows s s'' :=
  ⟨fun tk r hr => h'.l2 tk r (h.l2 tk r hr), fun _ hc => h'.calls (h.calls hc)⟩

theorem ResolvesTo.mono {raw : Raw} {ptr : ℕ} {tk : TypeKey}
    (h : ResolvesTo st pf s raw ptr tk) (hg : Grows s s') : ResolvesTo st pf s' raw ptr tk :=
  ⟨hg.calls h.1, h.2⟩

theorem Pos.Ok.mono {p : Pos Raw} (hp : p.Ok st pf s) (hg : Grows s s') : p.Ok st pf s' := by
  cases p with
  | idle => trivial
  | entered raw ptr => exact hg.calls hp
  | hot tk => exact hp.imp fun r hr => hg.l2 tk r hr
  | missed raw ptr => exact hg.calls hp
  | keyed raw ptr tk => exact ResolvesTo.mono hp hg
  | served raw ptr tk r => exact ⟨hp.1.mono hg, hg.l2 tk r hp.2⟩

theorem Threads.Inv.initial : (Threads.initial : Threads Tid Raw).Inv st pf :=
  ⟨fun _ => trivial, nofun, nofun, rfl, List.nodup_nil, nofun⟩

end

section

variable {Tid Raw : Type} [DecidableEq Tid] {st : Store} {pf : Platform Raw}
  {s s' : Threads Tid Raw} {t : Tid}

theorem Step.grows (hs : Step st pf t s s') : Grows s s' := by
  cases hs with
  | call raw ptr => exact ⟨fun _ _ h => h, List.subset_cons_self _ _⟩
  | classify raw ptr tk d ty h _ _ hvacant =>
    refine ⟨fun tk' r hr => ?_, fun _ hc => hc⟩
    show List.lookup tk' ((tk, _) :: s.l2) = some r
    have hne : tk' ≠ tk := by
      intro heq
      rw [heq, hvacant] at hr
      cases hr
    rw [List.lookup_cons, beq_eq_false_iff_ne.2 hne]
    exact hr
  | _ => exact ⟨fun _ _ h => h, fun _ hc => hc⟩

/-- A new entry of `L1` comes from a thread that was served. -/
theorem Step.l1_lookup (hs : Step st pf t s s') (pc : ℕ) :
    s'.l1.lookup pc = s.l1.lookup pc ∨
      ∃ raw ptr tk r, s.pos t = .served raw ptr tk r ∧ pf.callerPc raw = pc ∧
        s'.l1.lookup pc = some tk := by
  cases hs with
  | insert raw ptr tk r hpos =>
    show List.lookup pc ((pf.callerPc raw, tk) :: s.l1) = s.l1.lookup pc ∨ ∃ _, _
    rw [List.lookup_cons]
    by_cases hpc : pf.callerPc raw = pc
    · right
      refine ⟨raw, ptr, tk, r, hpos, hpc, ?_⟩
      show List.lookup pc ((pf.callerPc raw, tk) :: s.l1) = some tk
      rw [hpc, List.lookup_cons_self]
    · left
      rw [beq_eq_false_iff_ne.2 (Ne.symm hpc)]
  | _ => exact .inl rfl

/-- What a step returns was in `L2`. -/
theorem Step.mem_returns (hs : Step st pf t s s') {tk : TypeKey} {r : Resolved}
    (hr : (tk, r) ∈ s'.returns) :
    (tk, r) ∈ s.returns ∨ s.l2.lookup tk = some r ∨
      ∃ raw ptr, s.pos t = .served raw ptr tk r := by
  cases hs with
  | present tk' r' _ _ hl =>
    apply (List.mem_cons.1 hr).symm.imp_right
    intro heq
    cases heq
    exact .inl hl
  | insert raw ptr tk' r' hpos =>
    apply (List.mem_cons.1 hr).symm.imp_right
    intro heq
    cases heq
    exact .inr ⟨raw, ptr, hpos⟩
  | _ => exact .inl hr

/-- `expect` fails only where `L2` lacks the type entry. -/
theorem Step.expect (hs : Step st pf t s s') :
    s'.expectFailed = s.expectFailed ∨ ∃ tk, s.pos t = .hot tk ∧ s.l2.lookup tk = none := by
  cases hs with
  | absent tk hpos _ hl => exact .inr ⟨tk, hpos, hl⟩
  | _ => exact .inl rfl

/-- `classify` runs only for a type entry that `L2` lacks, and either fills it in or poisons
the mutex. -/
theorem Step.classifies (hs : Step st pf t s s') :
    (s'.classifies = s.classifies ∧ (s'.l2Poisoned = false → s.l2Poisoned = false)) ∨
      ∃ tk, s'.classifies = tk :: s.classifies ∧ s.l2Poisoned = false ∧
        s.l2.lookup tk = none ∧ (s'.l2Poisoned = false → ∃ r, s'.l2.lookup tk = some r) := by
  cases hs with
  | absent => exact .inl ⟨rfl, nofun⟩
  | classify raw ptr tk d ty h _ hp hvacant =>
    exact .inr ⟨tk, rfl, hp, hvacant, fun _ => ⟨_, List.lookup_cons_self⟩⟩
  | classifyPanic raw ptr tk d e h _ hp hvacant =>
    exact .inr ⟨tk, rfl, hp, hvacant, nofun⟩
  | _ => exact .inl ⟨rfl, fun h => h⟩

/-- A step moves one thread, to where it may stand. -/
theorem Step.moves (hs : Step st pf t s s') (hinv : s.Inv st pf) :
    ∃ p, s'.pos = Function.update s.pos t p ∧ p.Ok st pf s' := by
  have hok := hinv.pos t
  cases hs with
  | call raw ptr => exact ⟨_, rfl, List.mem_cons_self⟩
  | hit raw ptr tk _ _ _ hl => exact ⟨_, rfl, (hinv.l1 _ tk hl).1⟩
  | miss raw ptr hpos =>
    rw [hpos] at hok
    exact ⟨_, rfl, hok⟩
  | key raw ptr tk hpos hkey =>
    rw [hpos] at hok
    exact ⟨_, rfl, hok, hkey⟩
  | found raw ptr tk r hpos _ hl =>
    rw [hpos] at hok
    exact ⟨_, rfl, hok, hl⟩
  | classify raw ptr tk d ty h hpos =>
    rw [hpos] at hok
    exact ⟨_, rfl, hok, List.lookup_cons_self⟩
  | _ => exact ⟨.idle, rfl, trivial⟩

/-- Every step keeps the invariant. -/
theorem Threads.Inv.step (hinv : s.Inv st pf) (hs : Step st pf t s s') : s'.Inv st pf := by
  have hg := hs.grows
  constructor
  · -- the thread that moved, and the others
    intro u
    have ⟨p, hpos, hp⟩ := hs.moves hinv
    rw [hpos]
    by_cases hu : u = t
    · rw [hu, Function.update_self]
      exact hp
    · rw [Function.update_of_ne hu]
      exact (hinv.pos u).mono hg
  · intro pc tk htk
    rcases hs.l1_lookup pc with hsame | ⟨raw, ptr, tk', r, hpos, hpc, hnew⟩
    · rw [hsame] at htk
      have ⟨⟨r, hr⟩, raw, ptr, hpc, hres⟩ := hinv.l1 pc tk htk
      exact ⟨⟨r, hg.l2 tk r hr⟩, raw, ptr, hpc, hres.mono hg⟩
    · rw [hnew] at htk
      cases htk
      have hok := hinv.pos t
      rw [hpos] at hok
      exact ⟨⟨r, hg.l2 tk r hok.2⟩, raw, ptr, hpc, hok.1.mono hg⟩
  · intro tk r hr
    apply hg.l2
    rcases hs.mem_returns hr with hold | hl | ⟨raw, ptr, hpos⟩
    · exact hinv.returns tk r hold
    · exact hl
    · have hok := hinv.pos t
      rw [hpos] at hok
      exact hok.2
  · rcases hs.expect with hsame | ⟨tk, hpos, hl⟩
    · rw [hsame]
      exact hinv.expect
    · -- a thread on the hot path finds its entry
      have hok := hinv.pos t
      rw [hpos] at hok
      have ⟨r, hr⟩ := hok
      rw [hl] at hr
      cases hr
  · rcases hs.classifies with ⟨hsame, -⟩ | ⟨tk, hnew, hp, hvacant, -⟩
    · rw [hsame]
      exact hinv.once
    · rw [hnew]
      apply List.Nodup.cons _ hinv.once
      intro hmem
      have ⟨r, hr⟩ := hinv.kept hp tk hmem
      rw [hvacant] at hr
      cases hr
  · intro hpoison tk htk
    rcases hs.classifies with ⟨hsame, hp⟩ | ⟨tk', hnew, hp, -, hfill⟩
    · rw [hsame] at htk
      have ⟨r, hr⟩ := hinv.kept (hp hpoison) tk htk
      exact ⟨r, hg.l2 tk r hr⟩
    · rw [hnew] at htk
      rcases List.mem_cons.1 htk with heq | hmem
      · rw [heq]
        exact hfill hpoison
      · have ⟨r, hr⟩ := hinv.kept hp tk hmem
        exact ⟨r, hg.l2 tk r hr⟩

/-! ## Runs -/

theorem Threads.Inv.run (hinv : s.Inv st pf) (hrun : Run st pf s s') : s'.Inv st pf := by
  induction hrun with
  | refl => exact hinv
  | tail _ hs ih =>
    have ⟨t, hs⟩ := hs
    exact ih.step hs

theorem Run.grows (hrun : Run st pf s s') : Grows s s' := by
  induction hrun with
  | refl => exact Grows.refl s
  | tail _ hs ih =>
    have ⟨t, hs⟩ := hs
    exact ih.trans hs.grows

theorem SiteStable.mono {calls calls' : List (Raw × ℕ)} (h : SiteStable st pf calls')
    (hsub : calls ⊆ calls') : SiteStable st pf calls :=
  fun c hc c' hc' => h c (hsub hc) c' (hsub hc')

/-- As long as every call site keeps to one type entry, no entry of `L1` changes. -/
theorem Run.l1_lookup (hinv : s.Inv st pf) (hrun : Run st pf s s')
    (hsite : SiteStable st pf s'.calls) {pc : ℕ} {tk : TypeKey}
    (hl : s.l1.lookup pc = some tk) : s'.l1.lookup pc = some tk := by
  induction hrun with
  | refl => exact hl
  | tail hrun hs ih =>
    have ⟨t, hs⟩ := hs
    have hold := ih (hsite.mono hs.grows.calls)
    rcases hs.l1_lookup pc with hsame | ⟨raw, ptr, tk', r, hpos, hpc, hnew⟩
    · rw [hsame]
      exact hold
    · -- the thread that inserts has resolved the same site
      have hmid := hinv.run hrun
      have hok := hmid.pos t
      rw [hpos] at hok
      obtain ⟨-, raw₀, ptr₀, hpc₀, hres₀⟩ := hmid.l1 pc tk hold
      have heq : tk' = tk :=
        hsite (raw, ptr) (hs.grows.calls hok.1.1) (raw₀, ptr₀) (hs.grows.calls hres₀.1)
          (hpc.trans hpc₀.symm) tk' tk hok.1.2 hres₀.2
      rw [hnew, heq]

/-- The two caches under any number of threads in any order: what `L1` names is in `L2`, so
`expect` does not fail; no type entry is classified twice; the calls that resolve to one type
entry return one `Resolved`; and no entry changes, in `L1` as long as every call site keeps to
one type entry. -/
theorem caches_shared (hrun : Run st pf Threads.initial s) :
    (∀ pc tk, s.l1.lookup pc = some tk → ∃ r, s.l2.lookup tk = some r) ∧
      s.expectFailed = false ∧ s.classifies.Nodup ∧
      (∀ tk r r', (tk, r) ∈ s.returns → (tk, r') ∈ s.returns → r = r') ∧
      ∀ s', Run st pf s s' →
        (∀ tk r, s.l2.lookup tk = some r → s'.l2.lookup tk = some r) ∧
        (SiteStable st pf s'.calls → ∀ pc tk, s.l1.lookup pc = some tk →
          s'.l1.lookup pc = some tk) := by
  have hinv := Threads.Inv.initial.run hrun
  refine ⟨fun pc tk hl => (hinv.l1 pc tk hl).1, hinv.expect, hinv.once, ?_, ?_⟩
  · intro tk r r' hr hr'
    have hl := hinv.returns tk r hr
    rw [hinv.returns tk r' hr'] at hl
    exact (Option.some.inj hl).symm
  · intro s' hrun'
    exact ⟨hrun'.grows.l2, fun hsite pc tk hl => hrun'.l1_lookup hinv hsite hl⟩

end

/-- Two threads miss at one call site; the first classifies, the second finds its type. -/
theorem run_twoThreads : ∃ (s : Threads Bool Unit) (r : Resolved),
    Run localsStore oneCallSite Threads.initial s ∧ s.returns = [((0, 4), r), ((0, 4), r)] := by
  have h₁ : Run localsStore oneCallSite (Threads.initial : Threads Bool Unit) _ :=
    .single ⟨true, .call () 8 rfl⟩
  have h₂ := h₁.tail ⟨false, .call () 8 rfl⟩
  have h₃ := h₂.tail ⟨true, .miss () 8 rfl rfl rfl rfl⟩
  have h₄ := h₃.tail ⟨false, .miss () 8 rfl rfl rfl rfl⟩
  have h₅ := h₄.tail ⟨true, .key () 8 (0, 4) rfl rfl⟩
  have h₆ := h₅.tail ⟨false, .key () 8 (0, 4) rfl rfl⟩
  have h₇ := h₆.tail ⟨true, .classify () 8 (0, 4) 3 _ _ rfl rfl rfl rfl⟩
  have h₈ := h₇.tail ⟨false, .found () 8 (0, 4) _ rfl rfl rfl⟩
  have h₉ := h₈.tail ⟨false, .insert () 8 (0, 4) _ rfl rfl rfl⟩
  exact ⟨_, _, h₉.tail ⟨true, .insert () 8 (0, 4) _ rfl rfl rfl⟩, rfl⟩

theorem caches_shared_twoThreads : ∃ (s : Threads Bool Unit) (r : Resolved),
    s.returns = [((0, 4), r), ((0, 4), r)] ∧
      (∀ pc tk, s.l1.lookup pc = some tk → ∃ r, s.l2.lookup tk = some r) ∧
      s.expectFailed = false ∧ s.classifies.Nodup ∧
      (∀ tk r r', (tk, r) ∈ s.returns → (tk, r') ∈ s.returns → r = r') ∧
      ∀ s', Run localsStore oneCallSite s s' →
        (∀ tk r, s.l2.lookup tk = some r → s'.l2.lookup tk = some r) ∧
        (SiteStable localsStore oneCallSite s'.calls → ∀ pc tk, s.l1.lookup pc = some tk →
          s'.l1.lookup pc = some tk) := by
  have ⟨s, r, hrun, hret⟩ := run_twoThreads
  exact ⟨s, r, hret, caches_shared hrun⟩

/-! ## One thread alone -/

section

variable {Tid Raw : Type} [DecidableEq Tid] {st : Store} {pf : Platform Raw}

attribute [ext] Proc

/-- The process as one thread sees it. -/
def Threads.view (s : Threads Tid Raw) (t : Tid) : Proc :=
  ⟨s.l1, s.l2.map fun e => (e.1, e.2.ty), s.l1Poisoned, s.l2Poisoned, s.heapOf t⟩

theorem lookup_view (l : List (TypeKey × Resolved)) (tk : TypeKey) :
    (l.map fun e => (e.1, e.2.ty)).lookup tk = (l.lookup tk).map Resolved.ty := by
  induction l with
  | nil => rfl
  | cons e l ih =>
    rw [List.map_cons, List.lookup_cons, List.lookup_cons, ih]
    by_cases htk : tk = e.1
    · rw [htk, beq_self_eq_true]
      rfl
    · rw [beq_eq_false_iff_ne.2 htk]

/-- The end of the slow path, for a thread that was served. -/
theorem Run.inserts {s₀ s : Threads Tid Raw} {t : Tid} {raw : Raw} {ptr : ℕ} {tk : TypeKey}
    {r : Resolved} (hrun : Run st pf s₀ s) (hpos : s.pos t = .served raw ptr tk r)
    (hguard : s.l1Guard = none) (hp : s.l1Poisoned = false) :
    ∃ s', Run st pf s₀ s' ∧ s'.pos t = .idle ∧ s'.l1Guard = none ∧
      s'.view t = { s.view t with l1 := (pf.callerPc raw, tk) :: s.l1 } ∧
      s'.returns = (tk, r) :: s.returns :=
  ⟨_, hrun.tail ⟨t, .insert raw ptr tk r hpos hguard hp⟩, Function.update_self .., hguard,
    rfl, rfl⟩

/-- While the others rest, a call of `resolved` that returns is a run of its thread: it
leaves the same process and returns the same type. -/
theorem resolved_run {s : Threads Tid Raw} {t : Tid} {d : ℕ} {raw : Raw} {ptr : ℕ} {ty : Ty}
    {p' : Proc} (hidle : s.pos t = .idle) (hguard : s.l1Guard = none)
    (h : (resolved st pf d raw ptr).run (s.view t) = (.done ty, p')) :
    ∃ s', Run st pf s s' ∧ s'.pos t = .idle ∧ s'.l1Guard = none ∧ s'.view t = p' ∧
      ∃ tk r, s'.returns = (tk, r) :: s.returns ∧ r.ty = ty := by
  obtain ⟨hp₁, hp₂, hcall⟩ := resolved_done h
  have hentered : Run st pf s { s.goto t (.entered raw ptr) with
      calls := (raw, ptr) :: s.calls } := .single ⟨t, .call raw ptr hidle⟩
  rcases hcall with ⟨tk, hl1, hl2, rfl⟩ | ⟨tk, hl1, hkey, hserved, hl1', hp₁', hp₂'⟩
  · -- the hot path
    rw [Threads.view, lookup_view, Option.map_eq_some_iff] at hl2
    obtain ⟨r, hr, hty⟩ := hl2
    have hhot := hentered.tail
      ⟨t, .hit raw ptr tk (Function.update_self ..) hguard hp₁ hl1⟩
    have hdone := hhot.tail ⟨t, .present tk r (Function.update_self ..) hp₂ hr⟩
    exact ⟨_, hdone, Function.update_self .., rfl, rfl, tk, r, rfl, hty⟩
  have hmissed := hentered.tail ⟨t, .miss raw ptr (Function.update_self ..) hguard hp₁ hl1⟩
  have hkeyed := hmissed.tail ⟨t, .key raw ptr tk (Function.update_self ..) hkey⟩
  rcases hserved with ⟨hl2, hl2', hheap⟩ | ⟨hl2, hclassify, hl2'⟩
  · -- classified before
    rw [Threads.view, lookup_view, Option.map_eq_some_iff] at hl2
    obtain ⟨r, hr, hty⟩ := hl2
    have hfound := hkeyed.tail ⟨t, .found raw ptr tk r (Function.update_self ..) hp₂ hr⟩
    obtain ⟨s', hdone, hpos, hguard', hview, hret⟩ :=
      Run.inserts hfound (Function.update_self ..) hguard hp₁
    refine ⟨s', hdone, hpos, hguard', hview.trans ?_, tk, r, hret, hty⟩
    apply Proc.ext
    · exact hl1'.symm
    · exact hl2'.symm
    · exact hp₁.trans hp₁'.symm
    · exact hp₂.trans hp₂'.symm
    · exact hheap.symm
  · -- classified now
    rw [Threads.view, lookup_view, Option.map_eq_none_iff] at hl2
    have hrun := hkeyed.tail
      ⟨t, .classify raw ptr tk d ty p'.heap (Function.update_self ..) hp₂ hl2 hclassify⟩
    obtain ⟨s', hdone, hpos, hguard', hview, hret⟩ :=
      Run.inserts hrun (Function.update_self ..) hguard hp₁
    refine ⟨s', hdone, hpos, hguard', hview.trans ?_, tk, _, hret, rfl⟩
    apply Proc.ext
    · exact hl1'.symm
    · exact hl2'.symm
    · exact hp₁.trans hp₁'.symm
    · exact hp₂.trans hp₂'.symm
    · show { p'.heap with memo := Function.update s.memo t p'.heap.memo t } = p'.heap
      rw [Function.update_self]

end

end Bilbo
