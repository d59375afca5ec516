import Bilbo.Halting
import Bilbo.Resolve

/-!
# What the two caches serve

`L1` is keyed by the caller's program counter and `L2` by the type entry. So a call is
served the type of the first call that returned at the same program counter: the frame and
the destination of later calls are not looked at.
-/

namespace Bilbo

open Base Comp

variable {Raw : Type} {st : Store} {pf : Platform Raw}

/-! ## One call -/

theorem lock_done {poisoned : Proc → Bool} {p p' : Proc} {u : Unit}
    (h : (lock poisoned).run p = (.done u, p')) : poisoned p = false ∧ p' = p := by
  rw [lock, get_bind_run, ite_run] at h
  split at h
  · cases h
  · rename_i hp
    cases h
    exact ⟨by simpa using hp, rfl⟩

theorem lock_stop {poisoned : Proc → Bool} {p p' : Proc} {e : String}
    (h : (lock poisoned).run p = (.stop e, p')) : poisoned p = true ∧ p' = p := by
  rw [lock, get_bind_run, ite_run] at h
  split at h
  · cases h
    exact ⟨‹_›, rfl⟩
  · cases h

theorem guarded_done {α : Type} {poison : Proc → Proc} {x : Comp Proc String α} {p p' : Proc}
    {a : α} (h : (guarded poison x).run p = (.done a, p')) : x.run p = (.done a, p') := by
  rw [guarded] at h
  rcases hx : x.run p with ⟨_ | _ | _ | _, p₁⟩ <;> simp only [hx] at h
  · exact h
  all_goals cases h

theorem guarded_stop {α : Type} {poison : Proc → Proc} {x : Comp Proc String α} {p p' : Proc}
    {e : String} (h : (guarded poison x).run p = (.stop e, p')) :
    ∃ p₁, x.run p = (.stop e, p₁) ∧ p' = poison p₁ := by
  rw [guarded] at h
  rcases hx : x.run p with ⟨_ | _ | _ | _, p₁⟩ <;> simp only [hx] at h
  case stop =>
    cases h
    exact ⟨p₁, rfl, rfl⟩
  all_goals cases h

theorem onHeap_done {α : Type} {x : Comp Heap String α} {p p' : Proc} {a : α}
    (h : (onHeap x).run p = (.done a, p')) :
    x.run p.heap = (.done a, p'.heap) ∧ p' = { p with heap := p'.heap } := by
  simp only [onHeap, Prod.mk.injEq] at h
  obtain ⟨h₁, rfl⟩ := h
  exact ⟨Prod.ext h₁ rfl, rfl⟩

/-- How a call that returns leaves `L2` and the heap: the type was there, or it has been
classified. -/
def Served (st : Store) (d : ℕ) (tk : TypeKey) (ty : Ty) (p p' : Proc) : Prop :=
  (p.l2.lookup tk = some ty ∧ p'.l2 = p.l2 ∧ p'.heap = p.heap) ∨
    (p.l2.lookup tk = none ∧ (classify st d tk).run p.heap = (.done ty, p'.heap) ∧
      p'.l2 = (tk, ty) :: p.l2)

theorem classified_done {d : ℕ} {tk : TypeKey} {ty : Ty} {p p' : Proc}
    (h : (classified st d tk).run p = (.done ty, p')) :
    Served st d tk ty p p' ∧ p'.l1 = p.l1 ∧ p'.l1Poisoned = p.l1Poisoned ∧
      p'.l2Poisoned = p.l2Poisoned := by
  rw [classified, get_bind_run] at h
  split at h
  · rename_i hl
    cases h
    exact ⟨.inl ⟨hl, rfl, rfl⟩, rfl, rfl, rfl⟩
  · rename_i hl
    obtain ⟨ty', p₁, hc, h⟩ := bind_eq_done h
    obtain ⟨hrun, hp₁⟩ := onHeap_done hc
    cases h
    rw [hp₁]
    exact ⟨.inr ⟨hl, hrun, rfl⟩, rfl, rfl, rfl⟩

/-- A call that returns: on the hot path both caches have what it needs; on the slow path
it fills in what is missing. -/
theorem resolved_done {d : ℕ} {raw : Raw} {ptr : ℕ} {ty : Ty} {p p' : Proc}
    (h : (resolved st pf d raw ptr).run p = (.done ty, p')) :
    p.l1Poisoned = false ∧ p.l2Poisoned = false ∧
      ((∃ tk, p.l1.lookup (pf.callerPc raw) = some tk ∧ p.l2.lookup tk = some ty ∧ p' = p) ∨
        ∃ tk, p.l1.lookup (pf.callerPc raw) = none ∧ typeKeyOf st pf raw ptr = .ok tk ∧
          Served st d tk ty p p' ∧ p'.l1 = (pf.callerPc raw, tk) :: p.l1 ∧
          p'.l1Poisoned = false ∧ p'.l2Poisoned = false) := by
  unfold resolved at h
  obtain ⟨_, p₁, hl, h₁⟩ := bind_eq_done h
  obtain ⟨hp₁, rfl⟩ := lock_done hl
  rw [get_bind_run] at h₁
  dsimp only at h₁
  split at h₁
  -- the key was cached, and so was its type
  · rename_i tk htk
    obtain ⟨_, p₂, hl₂, h₂⟩ := bind_eq_done (guarded_done h₁)
    obtain ⟨hp, rfl⟩ := lock_done hl₂
    have h₃ := guarded_done h₂
    rw [get_bind_run] at h₃
    split at h₃
    · rename_i hty
      cases h₃
      exact ⟨hp₁, hp, .inl ⟨tk, htk, hty, rfl⟩⟩
    · cases h₃
  · rename_i htk
    obtain ⟨tk, p₂, hkey, h₂⟩ := bind_eq_done h₁
    obtain ⟨_, p₃, hl₂, h₃⟩ := bind_eq_done h₂
    obtain ⟨hp, rfl⟩ := lock_done hl₂
    obtain ⟨ty', p₄, hc, h₄⟩ := bind_eq_done h₃
    obtain ⟨_, p₅, hl₃, h₅⟩ := bind_eq_done h₄
    obtain ⟨hp₄, rfl⟩ := lock_done hl₃
    obtain ⟨hserved, hl1, -, hp₅⟩ := classified_done (guarded_done hc)
    cases h₅
    cases hk : typeKeyOf st pf raw ptr with
    | error e =>
      rw [hk] at hkey
      cases hkey
    | ok tk' =>
      rw [hk] at hkey
      cases hkey
      exact ⟨hp₁, hp, .inr ⟨tk, htk, rfl, hserved, congrArg _ hl1, hp₄, hp₅.trans hp⟩⟩

/-- A call that panics leaves the process alone or poisons `L2`. -/
theorem resolved_stop {d : ℕ} {raw : Raw} {ptr : ℕ} {e : String} {p p' : Proc}
    (h : (resolved st pf d raw ptr).run p = (.stop e, p')) : p' = p ∨ p'.l2Poisoned = true := by
  unfold resolved at h
  rcases bind_eq_stop h with h | ⟨_, p₁, hl, h₁⟩
  · exact .inl (lock_stop h).2
  obtain ⟨hl1, rfl⟩ := lock_done hl
  rw [get_bind_run] at h₁
  dsimp only at h₁
  split at h₁
  · -- the hot path
    obtain ⟨p₂, h₂, rfl⟩ := guarded_stop h₁
    rcases bind_eq_stop h₂ with h₃ | ⟨_, p₃, hl₂, h₃⟩
    · obtain ⟨hp, rfl⟩ := lock_stop h₃
      exact .inr hp
    · obtain ⟨p₄, -, rfl⟩ := guarded_stop h₃
      exact .inr rfl
  · -- the slow path
    rcases bind_eq_stop h₁ with h₂ | ⟨tk, p₂, hkey, h₂⟩
    · cases hk : typeKeyOf st pf raw ptr with
      | error e' =>
        rw [hk] at h₂
        cases h₂
        exact .inl rfl
      | ok tk =>
        rw [hk] at h₂
        cases h₂
    have hp₂ : p₂ = p₁ := by
      cases hk : typeKeyOf st pf raw ptr with
      | error e' =>
        rw [hk] at hkey
        cases hkey
      | ok tk =>
        rw [hk] at hkey
        cases hkey
        rfl
    subst hp₂
    rcases bind_eq_stop h₂ with h₃ | ⟨_, p₃, hl₂, h₃⟩
    · exact .inl (lock_stop h₃).2
    obtain ⟨-, rfl⟩ := lock_done hl₂
    rcases bind_eq_stop h₃ with h₄ | ⟨ty, p₄, hc, h₄⟩
    · obtain ⟨p₄, -, rfl⟩ := guarded_stop h₄
      exact .inr rfl
    · obtain ⟨-, -, hpoison, -⟩ := classified_done (guarded_done hc)
      rcases bind_eq_stop h₄ with h₅ | ⟨_, p₅, -, h₅⟩
      · -- nobody has poisoned `L1` in between
        have := (lock_stop h₅).1
        rw [hpoison, hl1] at this
        cases this
      · cases h₅

/-! ## Histories -/

/-- The calls of `resolved` that have returned, oldest first, and the process after them.
Calls that panic may come in between. -/
inductive History (st : Store) (pf : Platform Raw) : List (Raw × ℕ) → Proc → Prop
  | initial : History st pf [] Proc.initial
  | returned {calls : List (Raw × ℕ)} {d : ℕ} {raw : Raw} {ptr : ℕ} {ty : Ty} {p p' : Proc} :
      History st pf calls p → (resolved st pf d raw ptr).run p = (.done ty, p') →
      History st pf (calls ++ [(raw, ptr)]) p'
  | panicked {calls : List (Raw × ℕ)} {d : ℕ} {raw : Raw} {ptr : ℕ} {e : String}
      {p p' : Proc} :
      History st pf calls p → (resolved st pf d raw ptr).run p = (.stop e, p') →
      History st pf calls p'

/-- The first of some calls at a program counter. -/
def firstAt (pf : Platform Raw) (calls : List (Raw × ℕ)) (pc : ℕ) : Option (Raw × ℕ) :=
  calls.find? fun c => pf.callerPc c.1 == pc

/-- What the caches hold as long as `L2` is not poisoned: `L1` the type entry of the first
call at each program counter, `L2` what has been classified. -/
structure Cached (st : Store) (pf : Platform Raw) (calls : List (Raw × ℕ)) (p : Proc) : Prop where
  unseen : ∀ pc, firstAt pf calls pc = none → p.l1.lookup pc = none
  seen : ∀ pc c, firstAt pf calls pc = some c →
    ∃ tk, p.l1.lookup pc = some tk ∧ typeKeyOf st pf c.1 c.2 = .ok tk
  kept : ∃ kept, Reachable st kept p.heap ∧ ∀ tk ty, p.l2.lookup tk = some ty → (tk, ty) ∈ kept

theorem firstAt_append (calls : List (Raw × ℕ)) (c : Raw × ℕ) (pc : ℕ) :
    firstAt pf (calls ++ [c]) pc =
      (firstAt pf calls pc).or (if pf.callerPc c.1 = pc then some c else none) := by
  rw [firstAt, List.find?_append, firstAt, List.find?_singleton]
  simp only [beq_iff_eq]

/-- What `L2` serves is kept, and stays what it was. -/
theorem Served.kept {d : ℕ} {tk : TypeKey} {ty : Ty} {p p' : Proc}
    (hs : Served st d tk ty p p')
    (hk : ∃ kept, Reachable st kept p.heap ∧ ∀ tk ty, p.l2.lookup tk = some ty → (tk, ty) ∈ kept) :
    ∃ kept, Reachable st kept p'.heap ∧ (tk, ty) ∈ kept ∧
      ∀ tk ty, p'.l2.lookup tk = some ty → (tk, ty) ∈ kept := by
  obtain ⟨kept, hr, hl2⟩ := hk
  rcases hs with ⟨hl, hl2', hheap⟩ | ⟨-, hrun, hl2'⟩
  · exact ⟨kept, hheap ▸ hr, hl2 tk ty hl, hl2' ▸ hl2⟩
  · refine ⟨(tk, ty) :: kept, hr.call hrun, List.mem_cons_self, fun tk' ty' hl => ?_⟩
    rw [hl2', List.lookup_cons] at hl
    by_cases htk : tk' = tk
    · rw [htk, beq_self_eq_true] at hl
      cases hl
      exact htk ▸ List.mem_cons_self
    · rw [beq_eq_false_iff_ne.2 htk] at hl
      exact List.mem_cons_of_mem _ (hl2 tk' ty' hl)

/-- One call that returns serves the type of the first call at its program counter, and
keeps the caches in order. -/
theorem Cached.returned {calls : List (Raw × ℕ)} {d : ℕ} {raw : Raw} {ptr : ℕ} {ty : Ty}
    {p p' : Proc} (hc : Cached st pf calls p)
    (h : (resolved st pf d raw ptr).run p = (.done ty, p')) :
    Cached st pf (calls ++ [(raw, ptr)]) p' ∧
      ∃ c tk kept, firstAt pf (calls ++ [(raw, ptr)]) (pf.callerPc raw) = some c ∧
        typeKeyOf st pf c.1 c.2 = .ok tk ∧ Reachable st kept p'.heap ∧ (tk, ty) ∈ kept := by
  obtain ⟨-, -, ⟨tk, hl1, hl2, rfl⟩ | ⟨tk, hl1, hkey, hs, hl1', -⟩⟩ := resolved_done h
  · -- the program counter is known: nothing changes
    rcases hfirst : firstAt pf calls (pf.callerPc raw) with _ | c
    · rw [hc.unseen _ hfirst] at hl1
      cases hl1
    obtain ⟨tk', hl1', hkey⟩ := hc.seen _ c hfirst
    rw [hl1] at hl1'
    cases hl1'
    have happ (pc : ℕ) : firstAt pf (calls ++ [(raw, ptr)]) pc = firstAt pf calls pc := by
      rw [firstAt_append]
      by_cases hpc : pf.callerPc raw = pc
      · rw [← hpc, hfirst]
        rfl
      · rw [if_neg hpc, Option.or_none]
    obtain ⟨kept, hr, hmem⟩ := hc.kept
    refine ⟨⟨fun pc => ?_, fun pc => ?_, hc.kept⟩, c, tk, kept, ?_, hkey, hr, hmem tk ty hl2⟩
    · rw [happ]
      exact hc.unseen pc
    · rw [happ]
      exact hc.seen pc
    · rw [happ, hfirst]
  · -- a new program counter
    have hfirst : firstAt pf calls (pf.callerPc raw) = none := by
      rcases hfirst : firstAt pf calls (pf.callerPc raw) with _ | c
      · rfl
      · obtain ⟨tk', hl, -⟩ := hc.seen _ c hfirst
        rw [hl1] at hl
        cases hl
    obtain ⟨kept, hr, hmem, hl2⟩ := hs.kept hc.kept
    refine ⟨⟨fun pc hpc => ?_, fun pc c hpc => ?_, kept, hr, hl2⟩, (raw, ptr), tk, kept, ?_,
      hkey, hr, hmem⟩
    · rw [firstAt_append, Option.or_eq_none_iff] at hpc
      have hne : pc ≠ pf.callerPc raw := by
        rintro rfl
        simp at hpc
      rw [hl1', List.lookup_cons, beq_eq_false_iff_ne.2 hne]
      exact hc.unseen pc hpc.1
    · rw [firstAt_append] at hpc
      by_cases hpceq : pc = pf.callerPc raw
      · rw [hpceq, hfirst, Option.none_or, if_pos rfl] at hpc
        cases hpc
        refine ⟨tk, ?_, hkey⟩
        rw [hl1', hpceq, List.lookup_cons_self]
      · rw [if_neg (Ne.symm hpceq), Option.or_none] at hpc
        rw [hl1', List.lookup_cons, beq_eq_false_iff_ne.2 hpceq]
        exact hc.seen pc c hpc
    · rw [firstAt_append, hfirst, Option.none_or, if_pos rfl]

theorem History.cached {calls : List (Raw × ℕ)} {p : Proc} (hist : History st pf calls p) :
    p.l2Poisoned = true ∨ Cached st pf calls p := by
  induction hist with
  | initial => exact .inr ⟨fun _ _ => rfl, nofun, [], .initial, nofun⟩
  | returned _ hrun ih =>
    rcases ih with hp | hc
    · rw [(resolved_done hrun).2.1] at hp
      cases hp
    · exact .inr (hc.returned hrun).1
  | panicked _ hrun ih =>
    rcases resolved_stop hrun with rfl | hp
    · exact ih
    · exact .inl hp

/-- Whatever was called before, a call that returns serves the type that the slow path finds
for the first call that returned at the same program counter: read through the cells, it is
the tree of that call's type entry, and so is the result of that call without caches. -/
theorem resolved_eq_first {calls : List (Raw × ℕ)} {p p' : Proc} {d : ℕ} {raw : Raw} {ptr : ℕ}
    {ty : Ty} (hist : History st pf calls p)
    (hrun : (resolved st pf d raw ptr).run p = (.done ty, p')) :
    ∃ c tk, firstAt pf (calls ++ [(raw, ptr)]) (pf.callerPc raw) = some c ∧
      typeKeyOf st pf c.1 c.2 = .ok tk ∧
      (∀ n, ∃ tree, (∃ D, ∀ k ≥ D, (classifyTree st k n tk).run () = (.done tree, ())) ∧
        ty.unfold p'.heap.cells n = tree.trim n) ∧
      ∀ kept h k ty₀ h₀, Reachable st kept h →
        (uncached st pf k c.1 c.2).run h = (.done ty₀, h₀) →
        ∀ n, ty.unfold p'.heap.cells n = ty₀.unfold h₀.cells n := by
  have hc : Cached st pf calls p := by
    refine hist.cached.resolve_left fun hp => ?_
    rw [(resolved_done hrun).2.1] at hp
    cases hp
  obtain ⟨-, c, tk, kept, hfirst, hkey, hr, hmem⟩ := hc.returned hrun
  obtain ⟨own, full, hcalm⟩ := hr.calm
  refine ⟨c, tk, hfirst, hkey, hcalm.unfold hmem, fun kept₀ h k ty₀ h₀ hr₀ hun n => ?_⟩
  rw [uncached, hkey] at hun
  obtain ⟨own₀, full₀, hcalm₀⟩ := (hr₀.call hun).calm
  -- both unfold to the tree of the same key
  obtain ⟨tree, ⟨D, hD⟩, htree⟩ := hcalm.unfold hmem n
  obtain ⟨tree₀, ⟨D₀, hD₀⟩, htree₀⟩ := hcalm₀.unfold List.mem_cons_self n
  have htt := (hD (max D D₀) (Nat.le_max_left _ _)).symm.trans
    (hD₀ (max D D₀) (Nat.le_max_right _ _))
  cases htt
  rw [htree, htree₀]

/-! ## One call site, two locals -/

/-- A function with the locals `x: MaybeUninit<u64>` and `y: MaybeUninit<bool>`, at 8 and
16 bytes from the frame base. -/
def localsStore : Store :=
  ⟨[⟨.plain 0 (.other 0x11) [] [
    .mk ⟨1, .subprogram, [(.frameBase, .exprloc [0x9C])], [(0, 100)]⟩ [
      .plain 2 .variable [(.name, .string "x"), (.type, .unitRef 4),
        (.location, .exprloc [0x91, 8])] [],
      .plain 3 .variable [(.name, .string "y"), (.type, .unitRef 6),
        (.location, .exprloc [0x91, 16])] []],
    .plain 4 .unionType [(.name, .string "MaybeUninit<u64>"), (.byteSize, .udata 8)] [
      .plain 5 .templateTypeParameter [(.name, .string "T"), (.type, .unitRef 8)] []],
    .plain 6 .unionType [(.name, .string "MaybeUninit<bool>"), (.byteSize, .udata 1)] [
      .plain 7 .templateTypeParameter [(.name, .string "T"), (.type, .unitRef 9)] []],
    u64Die 8,
    .plain 9 .baseType [(.name, .string "bool"), (.byteSize, .udata 1),
      (.encoding, .encoding .boolean)] []]⟩], 0⟩

/-- Every call comes from one call site, in a frame at address 0. -/
def oneCallSite : Platform Unit := ⟨.linux, fun _ => 50, fun _ => .ok ⟨50, 0, 0⟩⟩

/-- The second call from the site passes the other local and is served the first type. -/
theorem resolved_ne_uncached :
    ∃ p ty p' ty₀ h₀, History localsStore oneCallSite [((), 8)] p ∧
      (resolved localsStore oneCallSite 3 () 16).run p = (.done ty, p') ∧
      (uncached localsStore oneCallSite 3 () 16).run Heap.initial = (.done ty₀, h₀) ∧
      ty.unfold p'.heap.cells 1 = .u 8 ∧ ty₀.unfold h₀.cells 1 = .bool := by
  refine ⟨_, _, _, _, _, History.initial.returned (d := 3) rfl, rfl, rfl, rfl, rfl⟩

theorem resolved_eq_first_locals :
    ∃ (ty : Ty) (p' : Proc) (c : Unit × ℕ) (tk : TypeKey),
      firstAt oneCallSite ([((), 8)] ++ [((), 16)]) 50 = some c ∧
      typeKeyOf localsStore oneCallSite c.1 c.2 = .ok tk ∧
      (∀ n, ∃ tree,
        (∃ D, ∀ k ≥ D, (classifyTree localsStore k n tk).run () = (.done tree, ())) ∧
        ty.unfold p'.heap.cells n = tree.trim n) ∧
      ∀ kept h k ty₀ h₀, Reachable localsStore kept h →
        (uncached localsStore oneCallSite k c.1 c.2).run h = (.done ty₀, h₀) →
        ∀ n, ty.unfold p'.heap.cells n = ty₀.unfold h₀.cells n :=
  ⟨_, _, resolved_eq_first (d := 3) (History.initial.returned (d := 3) rfl) rfl⟩

end Bilbo
