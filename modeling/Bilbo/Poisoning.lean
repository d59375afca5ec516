import Bilbo.Caches

/-!
# What a call that panics leaves behind

A call that panics before it gets to `classify` changes nothing. `classify` itself runs while the
guard of `L2` is held, so a panic in it poisons the mutex for good: from then on every call stops
at a lock, those on the hot path included, whose types are in the caches.
-/

namespace Bilbo

open Base Comp

variable {Raw : Type} {st : Store} {pf : Platform Raw}

/-! ## Histories with their failures -/

/-- A call of `resolved`, with the bound on the nesting of `classify`. -/
structure Resolution (Raw : Type) where
  depth : ℕ
  raw : Raw
  ptr : ℕ

/-- `resolved` -/
def Resolution.run (st : Store) (pf : Platform Raw) (c : Resolution Raw) : Comp Proc String Ty :=
  resolved st pf c.depth c.raw c.ptr

/-- How a call ended. -/
inductive Ending where
  | returned
  | failed
  | failedInside
deriving DecidableEq

/-- The call gets to `classify`, and `classify` panics. -/
structure PanicsInside (st : Store) (pf : Platform Raw) (c : Resolution Raw) (p : Proc) : Prop where
  l1 : p.l1Poisoned = false
  l2 : p.l2Poisoned = false
  miss : p.l1.lookup (pf.callerPc c.raw) = none
  panics : ∃ tk, typeKeyOf st pf c.raw c.ptr = .ok tk ∧ p.l2.lookup tk = none ∧
    ∃ e h, (classify st c.depth tk).run p.heap = (.stop e, h)

/-- Calls, oldest first, each with its ending. -/
abbrev CallLog (Raw : Type) := List (Resolution Raw × Ending)

/-- The calls so far and the process after them. -/
inductive Resolutions (st : Store) (pf : Platform Raw) : CallLog Raw → Proc → Prop
  | initial : Resolutions st pf [] Proc.initial
  | returned {cs : CallLog Raw} {c : Resolution Raw} {ty : Ty} {p p' : Proc} :
      Resolutions st pf cs p → (c.run st pf).run p = (.done ty, p') →
      Resolutions st pf (cs ++ [(c, .returned)]) p'
  | failed {cs : CallLog Raw} {c : Resolution Raw} {e : String} {p p' : Proc} :
      Resolutions st pf cs p → ¬ PanicsInside st pf c p → (c.run st pf).run p = (.stop e, p') →
      Resolutions st pf (cs ++ [(c, .failed)]) p'
  | failedInside {cs : CallLog Raw} {c : Resolution Raw} {e : String} {p p' : Proc} :
      Resolutions st pf cs p → PanicsInside st pf c p → (c.run st pf).run p = (.stop e, p') →
      Resolutions st pf (cs ++ [(c, .failedInside)]) p'

/-- The calls that returned. -/
def successes (cs : CallLog Raw) : CallLog Raw :=
  cs.filter fun c => c.2 = .returned

/-- The call knows its type already, or its own lookup and `classify` succeed. -/
def OwnSuccess (st : Store) (pf : Platform Raw) (c : Resolution Raw) (p : Proc) : Prop :=
  (∃ tk, p.l1.lookup (pf.callerPc c.raw) = some tk) ∨
    ∃ ty h, (uncached st pf c.depth c.raw c.ptr).run p.heap = (.done ty, h)

/-- Every type in `L1` is in `L2`. -/
def Linked (p : Proc) : Prop :=
  ∀ pc tk, p.l1.lookup pc = some tk → ∃ ty, p.l2.lookup tk = some ty

/-! ## One call -/

variable {c : Resolution Raw} {p p' : Proc}

theorem lock_run {poisoned : Proc → Bool} (h : poisoned p = false) :
    (lock poisoned).run p = (.done (), p) := by
  rw [lock, get_bind_run, h]
  rfl

theorem guarded_run {α : Type} {poison : Proc → Proc} {x : Comp Proc String α} {a : α}
    (h : x.run p = (.done a, p')) : (guarded poison x).run p = (.done a, p') := by
  simp only [guarded, h]

theorem guarded_panics {α : Type} {poison : Proc → Proc} {x : Comp Proc String α} {e : String}
    (h : x.run p = (.stop e, p')) : (guarded poison x).run p = (.stop e, poison p') := by
  simp only [guarded, h]

/-- On the hot path nothing changes. -/
theorem present_run {tk : TypeKey} {ty : Ty} (hp : p.l2Poisoned = false)
    (hty : p.l2.lookup tk = some ty) : (present tk).run p = (.done ty, p) := by
  rw [present, bind_done (lock_run hp)]
  apply guarded_run
  rw [get_bind_run, hty]
  rfl

theorem resolved_hot {tk : TypeKey} {ty : Ty} (h₁ : p.l1Poisoned = false)
    (h₂ : p.l2Poisoned = false) (htk : p.l1.lookup (pf.callerPc c.raw) = some tk)
    (hty : p.l2.lookup tk = some ty) : (c.run st pf).run p = (.done ty, p) := by
  rw [Resolution.run, resolved, bind_done (lock_run h₁), get_bind_run]
  dsimp only
  rw [htk]
  exact guarded_run (present_run h₂ hty)

/-- The slow path, from the type entry on. -/
theorem resolved_slow {tk : TypeKey} (h₁ : p.l1Poisoned = false) (h₂ : p.l2Poisoned = false)
    (htk : p.l1.lookup (pf.callerPc c.raw) = none)
    (hkey : typeKeyOf st pf c.raw c.ptr = .ok tk) :
    (c.run st pf).run p = (guarded Proc.poisonL2 (classified st c.depth tk) >>= fun ty => do
      lock Proc.l1Poisoned
      modify fun p => { p with l1 := (pf.callerPc c.raw, tk) :: p.l1 }
      pure ty : Comp Proc String Ty).run p := by
  rw [Resolution.run, resolved, bind_done (lock_run h₁), get_bind_run]
  dsimp only
  have hdone : (ofExcept (typeKeyOf st pf c.raw c.ptr) : Comp Proc String TypeKey).run p =
      (.done tk, p) := by
    rw [hkey]
    rfl
  rw [htk]
  show (ofExcept (typeKeyOf st pf c.raw c.ptr) >>= _ : Comp Proc String Ty).run p = _
  rw [bind_done hdone, bind_done (lock_run h₂)]

theorem ofExcept_done {σ α : Type} {x : Except String α} {s s' : σ} {a : α}
    (h : (ofExcept x : Comp σ String α).run s = (.done a, s')) : x = .ok a ∧ s' = s := by
  cases x with
  | error e => cases h
  | ok b =>
    cases h
    exact ⟨rfl, rfl⟩

/-- `classified` returns what `L2` has, or what `classify` returns. -/
theorem classified_returns {d : ℕ} {tk : TypeKey}
    (h : (∃ ty, p.l2.lookup tk = some ty) ∨
      ∃ ty h, (classify st d tk).run p.heap = (.done ty, h)) :
    ∃ ty p', (classified st d tk).run p = (.done ty, p') := by
  cases hl : p.l2.lookup tk with
  | some ty =>
    refine ⟨ty, p, ?_⟩
    rw [classified, get_bind_run, hl]
    rfl
  | none =>
    rcases h with ⟨ty, hty⟩ | ⟨ty, h, hclass⟩
    · rw [hl] at hty
      cases hty
    · have hheap : (onHeap (classify st d tk)).run p = (.done ty, { p with heap := h }) := by
        simp only [onHeap, hclass]
      refine ⟨ty, { p with heap := h, l2 := (tk, ty) :: p.l2 }, ?_⟩
      rw [classified, get_bind_run, hl]
      show (onHeap (classify st d tk) >>= _ : Comp Proc String Ty).run p = _
      rw [bind_done hheap]
      rfl

theorem classified_stops {d : ℕ} {tk : TypeKey} {e : String}
    (h : (classified st d tk).run p = (.stop e, p')) :
    p.l2.lookup tk = none ∧ (∃ h, (classify st d tk).run p.heap = (.stop e, h)) ∧
      p'.l1 = p.l1 ∧ p'.l2 = p.l2 := by
  rw [classified, get_bind_run] at h
  split at h
  · cases h
  · rename_i hl
    rcases bind_eq_stop h with hclass | ⟨ty, p₁, -, hrest⟩
    · have hend : ((classify st d tk).run p.heap).1 = .stop e := congrArg Prod.fst hclass
      have hheap : p' = { p with heap := ((classify st d tk).run p.heap).2 } :=
        (congrArg Prod.snd hclass).symm
      exact ⟨hl, ⟨_, Prod.ext hend rfl⟩, by rw [hheap], by rw [hheap]⟩
    · cases hrest

/-- A call that has what it needs returns, as long as no mutex is poisoned. -/
theorem resolved_returns (h₁ : p.l1Poisoned = false) (h₂ : p.l2Poisoned = false)
    (hlinked : Linked p) (hown : OwnSuccess st pf c p) :
    ∃ ty p', (c.run st pf).run p = (.done ty, p') := by
  cases htk : p.l1.lookup (pf.callerPc c.raw) with
  | some tk =>
    obtain ⟨ty, hty⟩ := hlinked _ tk htk
    exact ⟨ty, p, resolved_hot h₁ h₂ htk hty⟩
  | none =>
    rcases hown with ⟨tk, hsome⟩ | ⟨ty, h, hun⟩
    · rw [htk] at hsome
      cases hsome
    · obtain ⟨tk, h', hlookup, hclass⟩ := bind_eq_done hun
      obtain ⟨hkey, rfl⟩ := ofExcept_done hlookup
      obtain ⟨ty', p₁, hrun⟩ := classified_returns (.inr ⟨ty, h, hclass⟩)
      obtain ⟨-, -, hp₁, -⟩ := classified_done hrun
      refine ⟨ty', { p₁ with l1 := (pf.callerPc c.raw, tk) :: p₁.l1 }, ?_⟩
      rw [resolved_slow h₁ h₂ htk hkey, bind_done (guarded_run hrun),
        bind_done (lock_run (hp₁.trans h₁))]
      rfl

/-- A panic outside `classify` changes nothing. -/
theorem resolved_failed {e : String} (h₁ : p.l1Poisoned = false) (h₂ : p.l2Poisoned = false)
    (hlinked : Linked p) (hnot : ¬ PanicsInside st pf c p)
    (hrun : (c.run st pf).run p = (.stop e, p')) : p' = p := by
  cases htk : p.l1.lookup (pf.callerPc c.raw) with
  | some tk =>
    obtain ⟨ty, hty⟩ := hlinked _ tk htk
    rw [resolved_hot h₁ h₂ htk hty] at hrun
    cases hrun
  | none =>
    cases hkey : typeKeyOf st pf c.raw c.ptr with
    | error e' =>
      rw [Resolution.run, resolved, bind_done (lock_run h₁), get_bind_run] at hrun
      dsimp only at hrun
      rw [htk, hkey] at hrun
      cases hrun
      rfl
    | ok tk =>
      rw [resolved_slow h₁ h₂ htk hkey] at hrun
      rcases bind_eq_stop hrun with hstop | ⟨ty, p₁, hdone, hrest⟩
      · -- it is `classify` that has stopped
        obtain ⟨p₁, hclass, -⟩ := guarded_stop hstop
        obtain ⟨hl, ⟨h, hpanic⟩, -⟩ := classified_stops hclass
        exact absurd ⟨h₁, h₂, htk, tk, hkey, hl, e, h, hpanic⟩ hnot
      · obtain ⟨-, -, hp₁, -⟩ := classified_done (guarded_done hdone)
        rw [bind_done (lock_run (hp₁.trans h₁))] at hrest
        cases hrest

/-- A call that panics enters nothing into the caches. -/
theorem resolved_maps {e : String} (hrun : (c.run st pf).run p = (.stop e, p')) :
    p'.l1 = p.l1 ∧ p'.l2 = p.l2 := by
  rw [Resolution.run, resolved] at hrun
  rcases bind_eq_stop hrun with hlock | ⟨_, p₁, hlock, hrun₁⟩
  · rw [(lock_stop hlock).2]
    exact ⟨rfl, rfl⟩
  obtain ⟨hl1, rfl⟩ := lock_done hlock
  rw [get_bind_run] at hrun₁
  dsimp only at hrun₁
  split at hrun₁
  · -- the hot path
    obtain ⟨p₂, hrun₂, rfl⟩ := guarded_stop hrun₁
    rcases bind_eq_stop hrun₂ with hlock₂ | ⟨_, p₃, hlock₂, hrun₃⟩
    · rw [(lock_stop hlock₂).2]
      exact ⟨rfl, rfl⟩
    · obtain ⟨-, rfl⟩ := lock_done hlock₂
      obtain ⟨p₄, hrun₄, rfl⟩ := guarded_stop hrun₃
      rw [get_bind_run] at hrun₄
      split at hrun₄
      · cases hrun₄
      · cases hrun₄
        exact ⟨rfl, rfl⟩
  · -- the slow path
    rcases bind_eq_stop hrun₁ with hkey | ⟨tk, p₂, hkey, hrun₂⟩
    · cases hk : typeKeyOf st pf c.raw c.ptr with
      | error e' =>
        rw [hk] at hkey
        cases hkey
        exact ⟨rfl, rfl⟩
      | ok tk =>
        rw [hk] at hkey
        cases hkey
    obtain ⟨-, rfl⟩ := ofExcept_done hkey
    rcases bind_eq_stop hrun₂ with hlock₂ | ⟨_, p₃, hlock₂, hrun₃⟩
    · rw [(lock_stop hlock₂).2]
      exact ⟨rfl, rfl⟩
    obtain ⟨-, rfl⟩ := lock_done hlock₂
    rcases bind_eq_stop hrun₃ with hclass | ⟨ty, p₄, hclass, hrun₄⟩
    · obtain ⟨p₄, hstop, rfl⟩ := guarded_stop hclass
      exact (classified_stops hstop).2.2
    · obtain ⟨-, -, hp₄, -⟩ := classified_done (guarded_done hclass)
      rw [bind_done (lock_run (hp₄.trans hl1))] at hrun₄
      cases hrun₄

/-- A panic in `classify` poisons `L2`. -/
theorem resolved_failedInside {e : String} (hin : PanicsInside st pf c p)
    (hrun : (c.run st pf).run p = (.stop e, p')) : p'.l2Poisoned = true := by
  obtain ⟨h₁, h₂, htk, tk, hkey, hl, e', h, hclass⟩ := hin
  have hheap : (onHeap (classify st c.depth tk)).run p = (.stop e', { p with heap := h }) := by
    simp only [onHeap, hclass]
  have hpanic : (classified st c.depth tk).run p = (.stop e', { p with heap := h }) := by
    rw [classified, get_bind_run, hl]
    show (onHeap (classify st c.depth tk) >>= _ : Comp Proc String Ty).run p = _
    rw [bind_run, hheap]
  rw [resolved_slow h₁ h₂ htk hkey, bind_run, guarded_panics hpanic] at hrun
  cases hrun
  rfl

theorem resolved_linked {ty : Ty} (hlinked : Linked p)
    (hrun : (c.run st pf).run p = (.done ty, p')) : Linked p' := by
  obtain ⟨-, -, ⟨tk, -, -, rfl⟩ | ⟨tk, -, -, hserved, hl1, -⟩⟩ := resolved_done hrun
  · exact hlinked
  -- the new entry of `L1` is for the type just served, and `L2` has lost nothing
  have hl2 : p'.l2.lookup tk = some ty ∧ ∀ tk', (∃ ty, p.l2.lookup tk' = some ty) →
      ∃ ty, p'.l2.lookup tk' = some ty := by
    rcases hserved with ⟨hty, heq, -⟩ | ⟨-, -, heq⟩
    · rw [heq]
      exact ⟨hty, fun tk' h => h⟩
    · rw [heq]
      refine ⟨List.lookup_cons_self, fun tk' h => ?_⟩
      rw [List.lookup_cons]
      split
      · exact ⟨_, rfl⟩
      · exact h
  intro pc tk' htk'
  rw [hl1, List.lookup_cons] at htk'
  split at htk'
  · obtain rfl := Option.some.inj htk'
    exact ⟨ty, hl2.1⟩
  · exact hl2.2 tk' (hlinked pc tk' htk')

/-! ## Whole histories -/

theorem successes_append (cs ds : CallLog Raw) :
    successes (cs ++ ds) = successes cs ++ successes ds := List.filter_append _ _

theorem forall_append_singleton {α : Type} {P : α → Prop} {l : List α} {a : α} :
    (∀ x ∈ l ++ [a], P x) ↔ (∀ x ∈ l, P x) ∧ P a := by
  rw [List.forall_mem_append, List.forall_mem_singleton]

/-- No type is ever in `L1` and not in `L2`. -/
theorem Resolutions.linked {cs : CallLog Raw} (h : Resolutions st pf cs p) : Linked p := by
  have hkeep : ∀ {c : Resolution Raw} {e : String} {p p' : Proc}, Linked p →
      (c.run st pf).run p = (.stop e, p') → Linked p' := by
    intro c e p p' hlinked hrun pc tk htk
    obtain ⟨hl1, hl2⟩ := resolved_maps hrun
    rw [hl2]
    exact hlinked pc tk (hl1 ▸ htk)
  induction h with
  | initial =>
    intro pc tk h
    cases h
  | returned _ hrun ih => exact resolved_linked ih hrun
  | failed _ _ hrun ih => exact hkeep ih hrun
  | failedInside _ _ hrun ih => exact hkeep ih hrun

/-- As long as no call has panicked in `classify`, the calls that failed have left no trace;
afterwards `L2` is poisoned. -/
theorem Resolutions.cases {cs : CallLog Raw} (h : Resolutions st pf cs p) :
    ((∀ c ∈ cs, c.2 ≠ .failedInside) ∧ p.l1Poisoned = false ∧ p.l2Poisoned = false ∧
      Resolutions st pf (successes cs) p) ∨
    (∃ c ∈ cs, c.2 = .failedInside) ∧ p.l2Poisoned = true := by
  induction h with
  | initial =>
    left
    refine ⟨?_, rfl, rfl, .initial⟩
    intro c hc
    cases hc
  | @returned cs c ty p p' hist hrun ih =>
    obtain ⟨-, h₂, hcases⟩ := resolved_done hrun
    rcases ih with ⟨hno, -, -, hsucc⟩ | ⟨-, hpoison⟩
    · left
      have hclean : p'.l1Poisoned = false ∧ p'.l2Poisoned = false := by
        obtain ⟨h₁, -, -⟩ := resolved_done hrun
        rcases hcases with ⟨-, -, -, rfl⟩ | ⟨-, -, -, -, -, h⟩
        · exact ⟨h₁, h₂⟩
        · exact h
      refine ⟨forall_append_singleton.2 ⟨hno, by intro h; cases h⟩, hclean.1, hclean.2, ?_⟩
      rw [successes_append]
      exact hsucc.returned hrun
    · rw [h₂] at hpoison
      cases hpoison
  | @failed cs c e p p' hist hnot hrun ih =>
    rcases ih with ⟨hno, h₁, h₂, hsucc⟩ | ⟨⟨x, hx, hin⟩, hpoison⟩
    · left
      -- nothing has changed, and the call is not among those that returned
      obtain rfl := resolved_failed h₁ h₂ hist.linked hnot hrun
      refine ⟨forall_append_singleton.2 ⟨hno, by intro h; cases h⟩, h₁, h₂, ?_⟩
      rw [successes_append]
      show Resolutions st pf (successes cs ++ []) p'
      rw [List.append_nil]
      exact hsucc
    · right
      refine ⟨⟨x, List.mem_append_left _ hx, hin⟩, ?_⟩
      rcases resolved_stop hrun with rfl | h
      · exact hpoison
      · exact h
  | @failedInside cs c e p p' hist hin hrun ih =>
    right
    exact ⟨⟨_, List.mem_append_right _ List.mem_cons_self, rfl⟩, resolved_failedInside hin hrun⟩

/-- After any history of calls, every type in `L1` is in `L2`, and a call that has what it needs
returns what it returns when the failed calls are left out, exactly when none of them has failed in
`classify`. -/
theorem undamaged_iff (cs : CallLog Raw) (p : Proc) (hist : Resolutions st pf cs p)
    (c : Resolution Raw) (hown : OwnSuccess st pf c p) :
    (Linked p ∧ ∃ q ty p', Resolutions st pf (successes cs) q ∧
      (c.run st pf).run q = (.done ty, p') ∧ (c.run st pf).run p = (.done ty, p')) ↔
      ∀ x ∈ cs, x.2 ≠ .failedInside := by
  rcases hist.cases with ⟨hno, h₁, h₂, hsucc⟩ | ⟨⟨x, hx, hin⟩, hpoison⟩
  · refine iff_of_true ⟨hist.linked, ?_⟩ hno
    obtain ⟨ty, p', hrun⟩ := resolved_returns h₁ h₂ hist.linked hown
    exact ⟨p, ty, p', hsucc, hrun, hrun⟩
  · refine iff_of_false ?_ fun hno => hno x hx hin
    rintro ⟨-, q, ty, p', -, -, hrun⟩
    rw [(resolved_done hrun).2.1] at hpoison
    cases hpoison

/-! ## A map without a trampoline -/

/-- A function with the locals `x: MaybeUninit<u64>` and `m: MaybeUninit<BTreeMap<u64, u64>>`, at
8 and 16 bytes from the frame base, in a program without trampolines. -/
def mapLocal : Store :=
  ⟨[⟨.plain 0 (.other 0x11) [] [
    .mk ⟨1, .subprogram, [(.frameBase, .exprloc [0x9C])], [(0, 100)]⟩ [
      .plain 2 .variable [(.name, .string "x"), (.type, .unitRef 4),
        (.location, .exprloc [0x91, 8])] [],
      .plain 3 .variable [(.name, .string "m"), (.type, .unitRef 6),
        (.location, .exprloc [0x91, 16])] []],
    .plain 4 .unionType [(.name, .string "MaybeUninit<u64>"), (.byteSize, .udata 8)] [
      .plain 5 .templateTypeParameter [(.name, .string "T"), (.type, .unitRef 8)] []],
    .plain 6 .unionType [(.name, .string "MaybeUninit<BTreeMap<u64, u64>>"),
        (.byteSize, .udata 24)] [
      .plain 7 .templateTypeParameter [(.name, .string "T"), (.type, .unitRef 10)] []],
    u64Die 8,
    .plain 10 .structureType [(.name, .string "BTreeMap<u64, u64>"), (.byteSize, .udata 24)] [
      .plain 11 .templateTypeParameter [(.name, .string "K"), (.type, .unitRef 8)] [],
      .plain 12 .templateTypeParameter [(.name, .string "V"), (.type, .unitRef 8)] [],
      .plain 13 .member [(.name, .string "length"), (.type, .unitRef 8),
        (.dataMemberLocation, .udata 16)] []]]⟩], 0⟩

/-- Every program counter is a call site, in a frame at address 0. -/
def manyCallSites : Platform ℕ := ⟨.linux, fun pc => pc, fun _ => .ok ⟨50, 0, 0⟩⟩

/-- A call for an address where no local lies fails before `classify`, and the call site that has been
served a `u64` is served again. -/
theorem undamaged_iff_locals :
    ∃ p, (Linked p ∧ ∃ q ty p', Resolutions mapLocal manyCallSites
        (successes [(⟨3, 50, 8⟩, .returned), (⟨3, 60, 99⟩, .failed)]) q ∧
      (Resolution.run mapLocal manyCallSites ⟨3, 50, 8⟩).run q = (.done ty, p') ∧
      (Resolution.run mapLocal manyCallSites ⟨3, 50, 8⟩).run p = (.done ty, p')) ↔
      ∀ x ∈ [((⟨3, 50, 8⟩ : Resolution ℕ), Ending.returned), (⟨3, 60, 99⟩, .failed)],
        x.2 ≠ .failedInside := by
  have hfirst := @Resolutions.returned ℕ mapLocal manyCallSites [] ⟨3, 50, 8⟩ _ _ _ .initial rfl
  have hnot : ∀ p, ¬ PanicsInside mapLocal manyCallSites ⟨3, 60, 99⟩ p := by
    rintro p ⟨-, -, -, tk, hkey, -⟩
    cases hkey
  exact ⟨_, undamaged_iff [(⟨3, 50, 8⟩, .returned), (⟨3, 60, 99⟩, .failed)] _
    (hfirst.failed (hnot _) rfl) ⟨3, 50, 8⟩ (.inl ⟨_, rfl⟩)⟩

/-- After a call for the map has failed, the call site that has been served a `u64` is not served
any more. -/
theorem damaged_map :
    ∃ p, Resolutions mapLocal manyCallSites
        [(⟨3, 50, 8⟩, .returned), (⟨3, 60, 16⟩, .failedInside)] p ∧
      OwnSuccess mapLocal manyCallSites ⟨3, 50, 8⟩ p ∧
      (∀ ty p', (Resolution.run mapLocal manyCallSites ⟨3, 50, 8⟩).run p ≠ (.done ty, p')) ∧
      ∃ q ty p', Resolutions mapLocal manyCallSites [(⟨3, 50, 8⟩, .returned)] q ∧
        (Resolution.run mapLocal manyCallSites ⟨3, 50, 8⟩).run q = (.done ty, p') := by
  have hfirst := @Resolutions.returned ℕ mapLocal manyCallSites [] ⟨3, 50, 8⟩ _ _ _ .initial rfl
  refine ⟨_, hfirst.failedInside ⟨rfl, rfl, rfl, _, rfl, rfl, _, _, rfl⟩ rfl, .inl ⟨_, rfl⟩, ?_,
    _, _, _, hfirst, rfl⟩
  intro ty p' hrun
  cases hrun

end Bilbo
