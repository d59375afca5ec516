import Bilbo.Code
import Bilbo.RunningPrograms
import Bilbo.Threads

/-!
# The parsers of a process

`from_json_jit_parse` resolves its destination, takes the parser out of the slot of the `Resolved`, and
calls it. A slot is filled once: the first thread that finds it empty compiles, with a module of its own,
and the others wait.

The threads are those of `Threads`, with the slots beside them; a step inside `resolved` is a step there.
-/

namespace Bilbo

open Base Base.Cfg Comp

/-! ## Threads that share the slots -/

/-- The call `f(dst, ptr, len)`. -/
def Parser.start (f : Parser) (fl : FloatOps) (inp : Input) (dst : ℕ) (g : Clif.Process) :
    Option (Config Clif.Datum Clif.Scratch Clif.Process) :=
  Emitter.boot fl inp f.program f.fid dst g

/-- Where a thread stands in `from_json_jit_parse`. -/
inductive Stage
  /-- not there, or inside `resolved` -/
  | resolving
  /-- has its `Resolved` -/
  | resolved (tk : TypeKey) (r : Resolved)
  /-- in the closure of `get_or_init` -/
  | filling (tk : TypeKey) (r : Resolved)
  /-- about to call the parser -/
  | parsing (tk : TypeKey) (f : Parser)

/-- The process with its threads, and what they have compiled. -/
structure Parsers (Tid Raw σ : Type) where
  threads : Threads Tid Raw
  /-- the thread-local `JIT` -/
  jit : Tid → Jit σ
  /-- the slot of each `Resolved` -/
  ext : ℕ → Option Parser
  /-- which thread fills a slot -/
  filler : ℕ → Option Tid
  stage : Tid → Stage
  /-- the type entries `compile_parser` has succeeded on -/
  compiles : List TypeKey
  /-- what the calls so far had resolved to, and the parsers they called -/
  calls : List (TypeKey × Parser)

section

variable {Tid Raw σ : Type}

/-- Before the first call. -/
def Parsers.initial (jit : Tid → Jit σ) : Parsers Tid Raw σ :=
  ⟨.initial, jit, fun _ => none, fun _ => none, fun _ => .resolving, [], []⟩

variable [DecidableEq Tid] (st : Store) (pf : Platform Raw) (m : JITModule σ)

/-- Move a thread. -/
def Parsers.goto (s : Parsers Tid Raw σ) (t : Tid) (p : Stage) : Parsers Tid Raw σ :=
  { s with stage := Function.update s.stage t p }

/-- One step of the thread `t`. -/
inductive ParserStep (t : Tid) (s : Parsers Tid Raw σ) : Parsers Tid Raw σ → Prop
  /-- a step inside `resolved`, or its return to `from_json`, which has no use for the slot -/
  | resolve (s' : Threads Tid Raw) : s.stage t = .resolving → Step st pf t s.threads s' →
      ParserStep t s { s with threads := s' }
  /-- `resolved` returns to `from_json_jit_parse` -/
  | resolved (s' : Threads Tid Raw) (tk : TypeKey) (r : Resolved) : s.stage t = .resolving →
      Step st pf t s.threads s' → s'.returns = (tk, r) :: s.threads.returns →
      ParserStep t s { s.goto t (.resolved tk r) with threads := s' }
  /-- `get_or_init`, filled -/
  | found (tk : TypeKey) (r : Resolved) (f : Parser) : s.stage t = .resolved tk r →
      s.ext r.arc = some f → ParserStep t s (s.goto t (.parsing tk f))
  /-- `get_or_init`, empty, and no thread is filling it -/
  | init (tk : TypeKey) (r : Resolved) : s.stage t = .resolved tk r → s.ext r.arc = none →
      s.filler r.arc = none →
      ParserStep t s { s.goto t (.filling tk r) with filler := Function.update s.filler r.arc (some t) }
  /-- `compile_parser` returns -/
  | compile (tk : TypeKey) (r : Resolved) (d : ℕ) (f : Parser) (j : Jit σ) : s.stage t = .filling tk r →
      (compileCode m s.threads.heap.cells d r.ty).run (s.jit t) = (.done f, j) →
      ParserStep t s { s.goto t (.parsing tk f) with
        jit := Function.update s.jit t j
        ext := Function.update s.ext r.arc (some f)
        filler := Function.update s.filler r.arc none
        compiles := tk :: s.compiles }
  /-- `compile_parser` panics: the slot stays empty -/
  | compilePanic (tk : TypeKey) (r : Resolved) (d : ℕ) (e : String) (j : Jit σ) :
      s.stage t = .filling tk r →
      (compileParser m s.threads.heap.cells d r.ty).run (s.jit t) = (.stop e, j) →
      ParserStep t s { s.goto t .resolving with
        jit := Function.update s.jit t j
        filler := Function.update s.filler r.arc none }
  /-- `f(ptr, s.as_ptr(), s.len())` -/
  | parse (tk : TypeKey) (f : Parser) : s.stage t = .parsing tk f →
      ParserStep t s { s.goto t .resolving with calls := (tk, f) :: s.calls }

/-- Any number of steps of any threads in any order. -/
def ParserRun : Parsers Tid Raw σ → Parsers Tid Raw σ → Prop :=
  Relation.ReflTransGen fun s s' => ∃ t, ParserStep st pf m t s s'

end

/-! ## Allocations -/

section

variable {Tid Raw : Type} [DecidableEq Tid] {st : Store} {pf : Platform Raw} {s s' : Threads Tid Raw}
  {t : Tid}

/-- The entries of `L2` are numbered in the order of their allocation. -/
def Threads.Numbered (s : Threads Tid Raw) : Prop :=
  s.l2.map (fun e => e.2.arc) = (List.range s.l2.length).reverse

theorem Step.numbered (hs : Step st pf t s s') (h : s.Numbered) : s'.Numbered := by
  cases hs with
  | classify raw ptr tk d ty heap =>
    show List.map (fun e => e.2.arc) ((tk, _) :: s.l2) = (List.range (s.l2.length + 1)).reverse
    rw [List.map_cons, List.range_succ, List.reverse_append, h]
    rfl
  | _ => exact h

theorem Run.numbered (hrun : Run st pf s s') (h : s.Numbered) : s'.Numbered := by
  induction hrun with
  | refl => exact h
  | tail _ hs ih =>
    obtain ⟨t, hs⟩ := hs
    exact hs.numbered ih

omit [DecidableEq Tid] in
/-- One allocation is one `Resolved`. -/
theorem Threads.Numbered.arc_inj (h : s.Numbered) {tk tk' : TypeKey} {r r' : Resolved}
    (hr : s.l2.lookup tk = some r) (hr' : s.l2.lookup tk' = some r') (harc : r.arc = r'.arc) : r = r' := by
  have hmem : ∀ {k : TypeKey} {x : Resolved}, s.l2.lookup k = some x → (k, x) ∈ s.l2 := by
    intro k x hx
    obtain ⟨l₁, l₂, heq, -⟩ := List.lookup_eq_some_iff.1 hx
    rw [heq]
    exact List.mem_append_right _ List.mem_cons_self
  have hnodup : (s.l2.map fun e => e.2.arc).Nodup := by
    rw [h]
    exact List.nodup_reverse.2 List.nodup_range
  exact congrArg Prod.snd (List.inj_on_of_nodup_map hnodup (hmem hr) (hmem hr') harc)

end

/-! ## What a step can do -/

theorem update_none {α : Type} {f : ℕ → Option α} {a b : ℕ} (h : f b = none) :
    Function.update f a none b = none := by
  by_cases hab : b = a
  · rw [hab, Function.update_self]
  · rw [Function.update_of_ne hab, h]

section

variable {Tid Raw σ : Type} {st : Store} {pf : Platform Raw} {m : JITModule σ}
  {s s' : Parsers Tid Raw σ}

/-- The parser in the slot of a type entry. -/
def Parsers.Serves (s : Parsers Tid Raw σ) (tk : TypeKey) (f : Parser) : Prop :=
  ∃ r, s.threads.l2.lookup tk = some r ∧ s.ext r.arc = some f

/-- What a thread may rely on where it stands. -/
def Stage.Ok (s : Parsers Tid Raw σ) (t : Tid) : Stage → Prop
  | .resolving => True
  | .resolved tk r => s.threads.l2.lookup tk = some r
  | .filling tk r => s.threads.l2.lookup tk = some r ∧ s.filler r.arc = some t
  | .parsing tk f => s.Serves tk f

/-- Entries of `L2` stay, and so do parsers in their slots. -/
structure Parsers.Grows (s s' : Parsers Tid Raw σ) : Prop where
  l2 : ∀ tk r, s.threads.l2.lookup tk = some r → s'.threads.l2.lookup tk = some r
  ext : ∀ arc f, s.ext arc = some f → s'.ext arc = some f

theorem Parsers.Serves.mono {tk : TypeKey} {f : Parser} (h : s.Serves tk f) (hg : s.Grows s') :
    s'.Serves tk f := by
  obtain ⟨r, hr, hf⟩ := h
  exact ⟨r, hg.l2 tk r hr, hg.ext _ f hf⟩

theorem Parsers.Grows.refl (s : Parsers Tid Raw σ) : s.Grows s := ⟨fun _ _ h => h, fun _ _ h => h⟩

theorem Parsers.Grows.trans {s'' : Parsers Tid Raw σ} (h : s.Grows s') (h' : s'.Grows s'') :
    s.Grows s'' :=
  ⟨fun tk r hr => h'.l2 tk r (h.l2 tk r hr), fun arc f hf => h'.ext arc f (h.ext arc f hf)⟩

variable [DecidableEq Tid]

/-- The invariant of the slots. -/
structure Parsers.Inv (st : Store) (pf : Platform Raw) (s : Parsers Tid Raw σ) : Prop where
  threads : Run st pf Threads.initial s.threads
  stage : ∀ t, (s.stage t).Ok s t
  /-- a parser is in the slot of a `Resolved` of its type, and no thread fills that slot -/
  slots : ∀ arc f, s.ext arc = some f → s.filler arc = none ∧
    ∃ tk r, s.threads.l2.lookup tk = some r ∧ r.arc = arc ∧ f.ty = r.ty
  once : s.compiles.Nodup
  kept : ∀ tk ∈ s.compiles, ∃ f, s.Serves tk f
  calls : ∀ tk f, (tk, f) ∈ s.calls → s.Serves tk f

theorem Parsers.Inv.initial (jit : Tid → Jit σ) : (Parsers.initial jit).Inv st pf :=
  ⟨.refl, fun _ => trivial, nofun, List.nodup_nil, nofun, nofun⟩

variable {t : Tid}

/-- Behind the slots, a step is one of `Threads`, or none. -/
theorem ParserStep.threads (hs : ParserStep st pf m t s s') :
    s'.threads = s.threads ∨ Step st pf t s.threads s'.threads := by
  cases hs with
  | resolve s' _ hs => exact .inr hs
  | resolved s' tk r _ hs => exact .inr hs
  | _ => exact .inl rfl

/-- The slot of a thread that fills it is empty. -/
theorem Parsers.Inv.empty {tk : TypeKey} {r : Resolved} (hinv : s.Inv st pf)
    (h : s.stage t = .filling tk r) :
    s.threads.l2.lookup tk = some r ∧ s.filler r.arc = some t ∧ s.ext r.arc = none := by
  have hok := hinv.stage t
  rw [h] at hok
  refine ⟨hok.1, hok.2, ?_⟩
  cases hext : s.ext r.arc with
  | none => rfl
  | some f =>
    have hfree := (hinv.slots _ f hext).1
    rw [hok.2] at hfree
    cases hfree

theorem ParserStep.grows (hs : ParserStep st pf m t s s') (hinv : s.Inv st pf) : s.Grows s' := by
  constructor
  · intro tk r hr
    rcases hs.threads with heq | hstep
    · rw [heq]
      exact hr
    · exact hstep.grows.l2 tk r hr
  · cases hs with
    | compile tk r d f j hstage =>
      intro arc g hg
      have hne : arc ≠ r.arc := by
        rintro rfl
        rw [(hinv.empty hstage).2.2] at hg
        cases hg
      exact (Function.update_of_ne hne _ _).trans hg
    | _ => exact fun _ _ h => h

/-- A step leaves the slots alone that other threads fill. -/
theorem ParserStep.filler (hs : ParserStep st pf m t s s') (hinv : s.Inv st pf) {u : Tid} (hu : u ≠ t)
    {arc : ℕ} (h : s.filler arc = some u) : s'.filler arc = some u := by
  cases hs with
  | init tk r _ _ hfree =>
    have hne : arc ≠ r.arc := by
      rintro rfl
      rw [hfree] at h
      cases h
    exact (Function.update_of_ne hne _ _).trans h
  | compile tk r d f j hstage =>
    have hne : arc ≠ r.arc := by
      rintro rfl
      rw [(hinv.empty hstage).2.1] at h
      exact hu (Option.some.inj h).symm
    exact (Function.update_of_ne hne _ _).trans h
  | compilePanic tk r d e j hstage =>
    have hne : arc ≠ r.arc := by
      rintro rfl
      rw [(hinv.empty hstage).2.1] at h
      exact hu (Option.some.inj h).symm
    exact (Function.update_of_ne hne _ _).trans h
  | _ => exact h

/-- No thread begins to fill a slot that is full. -/
theorem ParserStep.free (hs : ParserStep st pf m t s s') {arc : ℕ} {f : Parser}
    (hf : s.ext arc = some f) (h : s.filler arc = none) : s'.filler arc = none := by
  cases hs with
  | init tk r _ hempty =>
    have hne : arc ≠ r.arc := by
      rintro rfl
      rw [hempty] at hf
      cases hf
    exact (Function.update_of_ne hne _ _).trans h
  | compile tk r => exact update_none h
  | compilePanic tk r => exact update_none h
  | _ => exact h

/-- A slot is filled by the thread that has compiled for it. -/
theorem ParserStep.ext (hs : ParserStep st pf m t s s') {arc : ℕ} {f : Parser} (h : s'.ext arc = some f) :
    s.ext arc = some f ∨ ∃ tk r d j, s.stage t = .filling tk r ∧ r.arc = arc ∧
      (compileCode m s.threads.heap.cells d r.ty).run (s.jit t) = (.done f, j) ∧
      s'.filler arc = none := by
  cases hs with
  | compile tk r d g j hstage hrun =>
    by_cases harc : arc = r.arc
    · subst harc
      have hg : some g = some f := (Function.update_self _ _ s.ext).symm.trans h
      obtain rfl : g = f := Option.some.inj hg
      exact .inr ⟨tk, r, d, j, hstage, rfl, hrun, Function.update_self _ _ _⟩
    · exact .inl ((Function.update_of_ne harc _ s.ext).symm.trans h)
  | _ => exact .inl h

/-- `compile_parser` succeeds for a type entry whose slot was empty, and fills the slot. -/
theorem ParserStep.compiles (hs : ParserStep st pf m t s s') :
    s'.compiles = s.compiles ∨ ∃ tk r f, s'.compiles = tk :: s.compiles ∧
      s.stage t = .filling tk r ∧ s'.ext r.arc = some f := by
  cases hs with
  | compile tk r d f j hstage =>
    exact .inr ⟨tk, r, f, rfl, hstage, Function.update_self _ _ _⟩
  | _ => exact .inl rfl

/-- A parser is called by a thread that has it. -/
theorem ParserStep.calls (hs : ParserStep st pf m t s s') {tk : TypeKey} {f : Parser}
    (h : (tk, f) ∈ s'.calls) : (tk, f) ∈ s.calls ∨ s.stage t = .parsing tk f := by
  cases hs with
  | parse tk' f' hstage =>
    rcases List.mem_cons.1 h with heq | h
    · cases heq
      exact .inr hstage
    · exact .inl h
  | _ => exact .inl h

/-- A step moves one thread, to where it may stand. -/
theorem ParserStep.moves (hs : ParserStep st pf m t s s') (hinv : s.Inv st pf) :
    ∃ p, s'.stage = Function.update s.stage t p ∧ p.Ok s' t := by
  have hok := hinv.stage t
  cases hs with
  | resolve s' hstage =>
    refine ⟨.resolving, ?_, trivial⟩
    rw [← hstage, Function.update_eq_self]
  | resolved s' tk r _ hs hret =>
    refine ⟨_, rfl, ?_⟩
    apply (Threads.Inv.initial.run (hinv.threads.tail ⟨t, hs⟩)).returns tk r
    rw [hret]
    exact List.mem_cons_self
  | found tk r f hstage hf =>
    rw [hstage] at hok
    exact ⟨_, rfl, r, hok, hf⟩
  | init tk r hstage =>
    rw [hstage] at hok
    exact ⟨_, rfl, hok, Function.update_self _ _ _⟩
  | compile tk r d f j hstage =>
    exact ⟨_, rfl, r, (hinv.empty hstage).1, Function.update_self _ _ _⟩
  | _ => exact ⟨.resolving, rfl, trivial⟩

omit [DecidableEq Tid] in
theorem Stage.Ok.mono {p : Stage} {u : Tid} (hp : p.Ok s u) (hg : s.Grows s')
    (hfiller : ∀ arc, s.filler arc = some u → s'.filler arc = some u) : p.Ok s' u := by
  cases p with
  | resolving => trivial
  | resolved tk r => exact hg.l2 tk r hp
  | filling tk r => exact ⟨hg.l2 tk r hp.1, hfiller _ hp.2⟩
  | parsing tk f => exact Parsers.Serves.mono hp hg

/-- Every step keeps the invariant. -/
theorem Parsers.Inv.step (hinv : s.Inv st pf) (hs : ParserStep st pf m t s s') : s'.Inv st pf := by
  have hg := hs.grows hinv
  constructor
  · rcases hs.threads with heq | hstep
    · rw [heq]
      exact hinv.threads
    · exact hinv.threads.tail ⟨t, hstep⟩
  · -- the thread that moved, and the others
    intro u
    obtain ⟨p, hstage, hp⟩ := hs.moves hinv
    rw [hstage]
    by_cases hu : u = t
    · rw [hu, Function.update_self]
      exact hp
    · rw [Function.update_of_ne hu]
      exact (hinv.stage u).mono hg fun _ h => hs.filler hinv hu h
  · intro arc f hf
    rcases hs.ext hf with hold | ⟨tk, r, d, j, hstage, rfl, hrun, hfree⟩
    · obtain ⟨hfree, tk, r, hr, harc, hty⟩ := hinv.slots arc f hold
      exact ⟨hs.free hold hfree, tk, r, hg.l2 tk r hr, harc, hty⟩
    · exact ⟨hfree, tk, r, hg.l2 tk r (hinv.empty hstage).1, rfl, (compileCode_eq_done.1 hrun).2.2.1⟩
  · rcases hs.compiles with heq | ⟨tk, r, f, heq, hstage, -⟩
    · rw [heq]
      exact hinv.once
    · rw [heq]
      refine List.nodup_cons.2 ⟨fun hmem => ?_, hinv.once⟩
      -- a type entry that was compiled has its slot filled
      obtain ⟨hr, -, hempty⟩ := hinv.empty hstage
      obtain ⟨g, r', hr', hg'⟩ := hinv.kept tk hmem
      obtain rfl : r = r' := Option.some.inj (hr.symm.trans hr')
      rw [hempty] at hg'
      cases hg'
  · intro tk htk
    rcases hs.compiles with heq | ⟨tk', r, f, heq, hstage, hf⟩
    · rw [heq] at htk
      exact (hinv.kept tk htk).imp fun f h => h.mono hg
    · rw [heq] at htk
      rcases List.mem_cons.1 htk with rfl | htk
      · exact ⟨f, r, hg.l2 _ r (hinv.empty hstage).1, hf⟩
      · exact (hinv.kept tk htk).imp fun f h => h.mono hg
  · intro tk f hf
    rcases hs.calls hf with hold | hstage
    · exact (hinv.calls tk f hold).mono hg
    · have hok := hinv.stage t
      rw [hstage] at hok
      exact Parsers.Serves.mono hok hg

/-! ## Runs -/

theorem Parsers.Inv.run (hinv : s.Inv st pf) (hrun : ParserRun st pf m s s') : s'.Inv st pf := by
  induction hrun with
  | refl => exact hinv
  | tail _ hs ih =>
    obtain ⟨t, hs⟩ := hs
    exact ih.step hs

theorem ParserRun.grows (hinv : s.Inv st pf) (hrun : ParserRun st pf m s s') : s.Grows s' := by
  induction hrun with
  | refl => exact Parsers.Grows.refl s
  | tail hrun hs ih =>
    obtain ⟨t, hs⟩ := hs
    exact ih.trans (hs.grows (hinv.run hrun))

/-- What is in a slot was compiled by some thread at some point of the run, from the type as it is and
the cells as they were. -/
theorem ParserRun.compiled {jit : Tid → Jit σ} (hrun : ParserRun st pf m (.initial jit) s) {arc : ℕ}
    {f : Parser} (h : s.ext arc = some f) :
    ∃ s₁ t d j, ParserRun st pf m (.initial jit) s₁ ∧ ParserRun st pf m s₁ s ∧
      (compileCode m s₁.threads.heap.cells d f.ty).run (s₁.jit t) = (.done f, j) := by
  induction hrun with
  | refl => cases h
  | tail hrun hs ih =>
    obtain ⟨t, hs⟩ := hs
    rcases hs.ext h with hold | ⟨tk, r, d, j, hstage, -, hcode, -⟩
    · obtain ⟨s₁, u, d, j, hfirst, hrest, hcode⟩ := ih hold
      exact ⟨s₁, u, d, j, hfirst, hrest.tail ⟨t, hs⟩, hcode⟩
    · refine ⟨_, t, d, j, hrun, .single ⟨t, hs⟩, ?_⟩
      rw [(compileCode_eq_done.1 hcode).2.2.1]
      exact hcode

/-- A parser that is served is of the type that `resolved` returns for the type entry. -/
theorem Parsers.Inv.serves_ty (hinv : s.Inv st pf) {tk : TypeKey} {f : Parser} (h : s.Serves tk f) :
    ∃ r, s.threads.l2.lookup tk = some r ∧ f.ty = r.ty := by
  obtain ⟨r, hr, hf⟩ := h
  obtain ⟨-, tk', r', hr', harc, hty⟩ := hinv.slots _ f hf
  have hnumbered : s.threads.Numbered := Run.numbered hinv.threads rfl
  obtain rfl : r' = r := hnumbered.arc_inj hr' hr harc
  exact ⟨r', hr, hty⟩

/-- One parser for each type, under any number of threads in any order: the threads see the two caches as
if there were no slots; `compile_parser` succeeds at most once for a type entry; the calls that resolve to
one type entry call one parser, which is compiled from the type that `resolved` returns for it; and a
parser never leaves its slot. -/
theorem parsers_shared {jit : Tid → Jit σ} (hrun : ParserRun st pf m (.initial jit) s) :
    Run st pf Threads.initial s.threads ∧ s.compiles.Nodup ∧
      (∀ tk f f', (tk, f) ∈ s.calls → (tk, f') ∈ s.calls → f = f') ∧
      (∀ tk f, (tk, f) ∈ s.calls → ∃ r, s.threads.l2.lookup tk = some r ∧ f.ty = r.ty) ∧
      ∀ s', ParserRun st pf m s s' → ∀ arc f, s.ext arc = some f → s'.ext arc = some f := by
  have hinv : s.Inv st pf := (Parsers.Inv.initial jit).run hrun
  refine ⟨hinv.threads, hinv.once, ?_, ?_, ?_⟩
  · intro tk f f' hf hf'
    obtain ⟨r, hr, hext⟩ := hinv.calls tk f hf
    obtain ⟨r', hr', hext'⟩ := hinv.calls tk f' hf'
    obtain rfl : r = r' := Option.some.inj (hr.symm.trans hr')
    exact Option.some.inj (hext.symm.trans hext')
  · exact fun tk f hf => hinv.serves_ty (hinv.calls tk f hf)
  · exact fun s' hrun' => (hrun'.grows hinv).ext

theorem ParserRun.emitted (hm : m.DefinesOnce) {jit : Tid → Jit σ}
    (hrun : ParserRun st pf m (.initial jit) s) {tk : TypeKey} {f : Parser} (h : (tk, f) ∈ s.calls) :
    f.Emitted := by
  obtain ⟨r, -, hext⟩ := ((Parsers.Inv.initial jit).run hrun).calls tk f h
  obtain ⟨s₁, t, d, j, -, -, hcode⟩ := hrun.compiled hext
  exact Parser.emitted_of_run hm hcode

section Call

variable {jit : Tid → Jit σ} {tk : TypeKey} {f : Parser} {env : Env} {n : ℕ}

/-- Every call of `from_json_jit_parse`, by any thread at any time, does what the parser does for the type
that `resolved` has returned, with the cells as they were when the type was compiled. -/
theorem parsers_follow (hm : m.DefinesOnce) (hrun : ParserRun st pf m (.initial jit) s)
    (h : (tk, f) ∈ s.calls) (henv : env.cells = f.cells) (hfl : Emitter.Doubles env.float)
    (hty : Emittable n f.ty)
    (hcells : ∀ c body, Reaches f.cells f.ty c → f.cells c = some body → Emittable n body) (inp : Input)
    {d N : ℕ} (hN : N ≤ n)
    (hd : f.ty.depth + N * Emitter.cellsDepth f.cells (f.recFns.map Prod.fst) ≤ d) (dst : ℕ) (s₀ : State) :
    ∃ r s₁, s.threads.l2.lookup tk = some r ∧ f.ty = r.ty ∧ ParserRun st pf m s₁ s ∧
      f.cells = s₁.threads.heap.cells ∧ ∃ c, f.start env.float inp dst s₀.proc = some c ∧
        (Clif.system env.float inp f.program).Follows N c ((runParser env inp n d f.ty dst).run s₀)
          fun _ s' c' => c' = ⟨[], s'.proc⟩ := by
  have hinv : s.Inv st pf := (Parsers.Inv.initial jit).run hrun
  obtain ⟨r, hr, hext⟩ := hinv.calls tk f h
  obtain ⟨r', hr', hty'⟩ := hinv.serves_ty ⟨r, hr, hext⟩
  obtain ⟨s₁, t, d₁, j, -, hrest, hcode⟩ := hrun.compiled hext
  have hemitted := hrun.emitted hm h
  have hmodule := hemitted.code
  rw [← henv] at hmodule hd
  refine ⟨r', s₁, hr', hty', hrest, (compileCode_eq_done.1 hcode).2.2.2, ?_⟩
  refine Emitter.module_follows hfl hemitted.ids (fun c hc body hbody => ?_) hty hmodule inp hN hd dst s₀
  rw [henv] at hbody
  exact hcells c body (hemitted.cells c hc) hbody

/-- So a call on a text that spells a value of the type leaves the value at its destination. -/
theorem parsers_bind {sz : RecCell → Option ℕ} (hm : m.DefinesOnce)
    (hrun : ParserRun st pf m (.initial jit) s) (h : (tk, f) ∈ s.calls) (henv : env.cells = f.cells)
    (hfl : Emitter.Doubles env.float) (hok : CellsOk env sz) (hty : ∀ n, Emittable n f.ty)
    (hcells : ∀ c body, Reaches f.cells f.ty c → f.cells c = some body → ∀ n, Emittable n body)
    (htyok : Ty.Ok env sz f.ty) {v : Val} {text : Bytes} (hspells : Spells env.cells Quoted f.ty v text)
    (hlen : text.length < 2 ^ 31) (inp : Input) (hinp : inp.text = text) (dst : ℕ) (s₀ : State)
    (hroom : Room s₀ dst (f.ty.span sz)) :
    ∃ c s', f.start env.float inp dst s₀.proc = some c ∧
      (Clif.system env.float inp f.program).Steps c ⟨[], s'.proc⟩ ∧
      Holds env.cells sz s' s₀.brk s'.brk f.ty v dst ∧ Writes s₀ s' dst (f.ty.span sz) := by
  obtain ⟨s', ⟨B, hB⟩, hholds, hwrites⟩ :=
    Emitter.runParser_spells hok htyok hspells hlen inp hinp dst s₀ hroom
  have hemitted := hrun.emitted hm h
  have hmodule := hemitted.code
  rw [← henv] at hmodule
  obtain ⟨c, hstart, hfollows⟩ := Emitter.module_follows (n := B) (d := max B f.ty.depth) (N := 0) hfl
    hemitted.ids (fun c hc body hbody => hcells c body (hemitted.cells c hc) (henv ▸ hbody) B) (hty B)
    hmodule inp (Nat.zero_le B) (by omega) dst s₀
  rw [hB B (Nat.le_refl B) _ (Nat.le_max_left _ _)] at hfollows
  obtain ⟨_, hsteps, rfl⟩ := hfollows
  exact ⟨c, s', hstart, hsteps, hholds, hwrites⟩

end Call

end

/-! ## Two threads -/

theorem listModule_definesOnce : listModule.DefinesOnce := by
  constructor
  · intro s id calls s' h
    simp only [listModule] at h ⊢
    split at h
    · cases h
    · next hnew =>
      cases h
      refine ⟨fun x hx heq => hnew ?_, rfl⟩
      exact List.any_eq_true.2 ⟨x, hx, beq_iff_eq.2 heq⟩
  · intro s name o s' h
    simp only [listModule] at h ⊢
    cases hname : s.1.idxOf? name with
    | some fid =>
      rw [hname] at h
      cases h
      rfl
    | none =>
      rw [hname] at h
      cases h
      rfl

/-- The parsers of two threads, before the first call. -/
def twoParsers : Parsers Bool Unit (List String × List (FuncId × List FuncId)) :=
  .initial fun _ => ⟨(shimNames, []), 0⟩

/-- The first thread compiles, and the second calls what it has compiled. -/
theorem parserRun_twoThreads : ∃ s f, ParserRun localsStore oneCallSite listModule twoParsers s ∧
    s.calls = [((0, 4), f), ((0, 4), f)] ∧ f.ty = .u 8 := by
  have h₁ : ParserRun localsStore oneCallSite listModule twoParsers _ :=
    .single ⟨true, .resolve _ rfl (.call () 8 rfl)⟩
  have h₂ := h₁.tail ⟨true, .resolve _ rfl (.miss () 8 rfl rfl rfl rfl)⟩
  have h₃ := h₂.tail ⟨true, .resolve _ rfl (.key () 8 (0, 4) rfl rfl)⟩
  have h₄ := h₃.tail ⟨true, .resolve _ rfl (.classify () 8 (0, 4) 3 _ _ rfl rfl rfl rfl)⟩
  have h₅ := h₄.tail ⟨true, .resolved _ (0, 4) _ rfl (.insert () 8 (0, 4) _ rfl rfl rfl) rfl⟩
  have h₆ := h₅.tail ⟨true, .init (0, 4) _ rfl rfl rfl⟩
  obtain ⟨f, hf, -⟩ := compileCode_iff.1
    (show (compileParser listModule _ 9 (.u 8)).run ⟨(shimNames, []), 0⟩ = (.done 8, _) from rfl)
  have hty : f.ty = .u 8 := (compileCode_eq_done.1 hf).2.2.1
  have h₇ := h₆.tail ⟨true, .compile (0, 4) _ 9 f _ rfl hf⟩
  have h₈ := h₇.tail ⟨true, .parse (0, 4) f rfl⟩
  have h₉ := h₈.tail ⟨false, .resolve _ rfl (.call () 8 rfl)⟩
  have h₁₀ := h₉.tail ⟨false, .resolve _ rfl (.hit () 8 (0, 4) rfl rfl rfl rfl)⟩
  have h₁₁ := h₁₀.tail ⟨false, .resolved _ (0, 4) _ rfl (.present (0, 4) _ rfl rfl rfl) rfl⟩
  have h₁₂ := h₁₁.tail ⟨false, .found (0, 4) _ f rfl rfl⟩
  exact ⟨_, f, h₁₂.tail ⟨false, .parse (0, 4) f rfl⟩, rfl, hty⟩

theorem parsers_shared_twoThreads : ∃ (s : Parsers Bool Unit (List String × List (FuncId × List FuncId)))
    (f : Parser), s.calls = [((0, 4), f), ((0, 4), f)] ∧
      Run localsStore oneCallSite Threads.initial s.threads ∧ s.compiles.Nodup ∧
      (∀ tk f f', (tk, f) ∈ s.calls → (tk, f') ∈ s.calls → f = f') ∧
      (∀ tk f, (tk, f) ∈ s.calls → ∃ r, s.threads.l2.lookup tk = some r ∧ f.ty = r.ty) ∧
      ∀ s', ParserRun localsStore oneCallSite listModule s s' →
        ∀ arc f, s.ext arc = some f → s'.ext arc = some f := by
  obtain ⟨s, f, hrun, hcalls, -⟩ := parserRun_twoThreads
  exact ⟨s, f, hcalls, parsers_shared hrun⟩

/-- The float routines that accept nothing, with other cells. -/
def Env.bareWith (cells : Cells) : Env := { Env.bare with cells := cells }

theorem not_reaches_u {cells : Cells} {n : ℕ} {c : RecCell} : ¬ Reaches cells (.u n) c := by
  intro h
  induction h with
  | here hc => exact absurd hc List.not_mem_nil
  | through _ _ _ ih => exact ih

/-- `7` -/
def sevenInput : Input := ⟨[0x37], fun _ => 0, by decide⟩

theorem parsers_follow_twoThreads :
    ∃ (s : Parsers Bool Unit (List String × List (FuncId × List FuncId))) (f : Parser), ∃ r s₁,
      s.threads.l2.lookup (0, 4) = some r ∧ f.ty = r.ty ∧
      ParserRun localsStore oneCallSite listModule s₁ s ∧ f.cells = s₁.threads.heap.cells ∧
      ∃ c, f.start Env.bare.float sevenInput 0 (State.initial 8).proc = some c ∧
        (Clif.system Env.bare.float sevenInput f.program).Follows 0 c
          ((runParser (.bareWith f.cells) sevenInput 9 9 f.ty 0).run (State.initial 8))
          fun _ s' c' => c' = ⟨[], s'.proc⟩ := by
  obtain ⟨s, f, hrun, hcalls, hty⟩ := parserRun_twoThreads
  have hmem : ((0, 4), f) ∈ s.calls := hcalls ▸ List.mem_cons_self
  have henv : (Env.bareWith f.cells).cells = f.cells := rfl
  refine ⟨s, f, parsers_follow listModule_definesOnce hrun hmem henv
    Emitter.doubles_bare (hty ▸ .u 8) (fun c body hc => ?_) sevenInput (Nat.zero_le 9) ?_ 0
    (State.initial 8)⟩
  · rw [hty] at hc
    exact absurd hc not_reaches_u
  · rw [hty, Nat.zero_mul]
    decide

theorem parsers_bind_twoThreads :
    ∃ (s : Parsers Bool Unit (List String × List (FuncId × List FuncId))) (f : Parser),
      ((0, 4), f) ∈ s.calls ∧ ∃ c s', f.start Env.bare.float sevenInput 0 (State.initial 8).proc = some c ∧
        (Clif.system Env.bare.float sevenInput f.program).Steps c ⟨[], s'.proc⟩ ∧
        Holds f.cells (fun _ => none) s' (State.initial 8).brk s'.brk f.ty (.int 7) 0 ∧
        Writes (State.initial 8) s' 0 (f.ty.span fun _ => none) := by
  obtain ⟨s, f, hrun, hcalls, hty⟩ := parserRun_twoThreads
  have hmem : ((0, 4), f) ∈ s.calls := hcalls ▸ List.mem_cons_self
  have hspells : Spells f.cells Quoted f.ty (.int 7) [0x37] := by
    have hdigits : Digits [0x37] := Digits.single rfl
    have hlt : decimal [0x37] < 256 ^ 8 := by decide
    rw [hty]
    exact Spells.u (w := []) IsWs.nil hdigits hlt
  have henv : (Env.bareWith f.cells).cells = f.cells := rfl
  refine ⟨s, f, hmem, parsers_bind listModule_definesOnce hrun hmem henv
    Emitter.doubles_bare (fun _ _ h => absurd h (Option.not_mem_none _)) (fun n => hty ▸ .u 8)
    (fun c body hc => ?_) ?_ hspells (by decide) sevenInput rfl 0 (State.initial 8) ?_⟩
  · rw [hty] at hc
    exact absurd hc not_reaches_u
  · rw [hty]
    exact .u (by unfold IntSize; decide)
  · rw [hty]
    exact .inr (by decide)

end Bilbo
