import Bilbo.Base.Comp

/-!
# Programs whose recursive calls are left open

The body of a recursive function, with each recursive call a question and the rest of the
body a function of the answer. One body can then be run with different answers: by the
recursion itself, by a variant of it, by a specification.

* `exec` runs a body with a handler for the calls;
* `Yields R` is what a body can return when every answer satisfies `R`;
* `Rel` relates two bodies that ask the same questions;
* `Uses` counts what a body holds: answers come in, go out in the result or are thrown
  away, and none is used twice.
-/

namespace Base

/-- A body that calls with a `κ` and is answered with a `τ`. -/
inductive Calls (κ τ ε : Type) (α : Type) where
  | ret (a : α)
  | stop (e : ε)
  /-- the body loops forever -/
  | hang
  | call (k : κ) (f : τ → Calls κ τ ε α)
  /-- an answer goes out of scope -/
  | discard (t : τ) (x : Calls κ τ ε α)

namespace Calls

variable {κ κ' τ τ' ε σ α α' β β' : Type}

/-- Sequence two bodies. -/
def bind : Calls κ τ ε α → (α → Calls κ τ ε β) → Calls κ τ ε β
  | ret a, g => g a
  | stop e, _ => stop e
  | hang, _ => hang
  | call k f, g => call k fun t => (f t).bind g
  | discard t x, g => discard t (x.bind g)

instance : Monad (Calls κ τ ε) where
  pure := ret
  bind := bind

/-- Ask for the answer to `k`. -/
def ask (k : κ) : Calls κ τ ε τ := call k ret

/-- Let an answer go out of scope. -/
def forget (t : τ) : Calls κ τ ε Unit := discard t (ret ())

@[simp] theorem pure_eq (a : α) : (pure a : Calls κ τ ε α) = ret a := rfl

@[simp] theorem ret_bind (a : α) (g : α → Calls κ τ ε β) : ret a >>= g = g a := rfl

@[simp] theorem stop_bind (e : ε) (g : α → Calls κ τ ε β) : stop e >>= g = stop e := rfl

@[simp] theorem hang_bind (g : α → Calls κ τ ε β) : hang >>= g = hang := rfl

@[simp] theorem call_bind (k : κ) (f : τ → Calls κ τ ε α) (g : α → Calls κ τ ε β) :
    call k f >>= g = call k fun t => f t >>= g := rfl

@[simp] theorem discard_bind (t : τ) (x : Calls κ τ ε α) (g : α → Calls κ τ ε β) :
    discard t x >>= g = discard t (x >>= g) := rfl

@[simp] theorem ask_bind (k : κ) (g : τ → Calls κ τ ε β) : ask k >>= g = call k g := rfl

@[simp] theorem forget_bind (t : τ) (g : Unit → Calls κ τ ε β) :
    forget t >>= g = discard t (g ()) := rfl

/-- A sequence that has returned without a call has run its first part to a value. -/
theorem bind_eq_ret {x : Calls κ τ ε α} {g : α → Calls κ τ ε β} {b : β}
    (h : x >>= g = ret b) : ∃ a, x = ret a ∧ g a = ret b := by
  cases x with
  | ret a => exact ⟨a, rfl, h⟩
  | stop e => cases h
  | hang => cases h
  | call k f => cases h
  | discard t x => cases h

/-! ## Running a body -/

/-- Run a body; `rec` answers the calls, `drop` throws answers away. -/
def exec (rec : κ → Comp σ ε τ) (drop : τ → Comp σ ε Unit) : Calls κ τ ε α → Comp σ ε α
  | ret a => pure a
  | stop e => Comp.fail e
  | hang => Comp.spent
  | call k f => rec k >>= fun t => exec rec drop (f t)
  | discard t x => drop t >>= fun _ => exec rec drop x

/-! ## What a body can return -/

/-- `a` is a result of the body when `R` relates each call to its answer. -/
inductive Yields (R : κ → τ → Prop) : Calls κ τ ε α → α → Prop
  | ret (a : α) : Yields R (ret a) a
  | call {k : κ} {f : τ → Calls κ τ ε α} {t : τ} {a : α} :
      R k t → Yields R (f t) a → Yields R (call k f) a
  | discard {t : τ} {x : Calls κ τ ε α} {a : α} : Yields R x a → Yields R (discard t x) a

theorem Yields.mono {R S : κ → τ → Prop} (h : ∀ k t, R k t → S k t) {x : Calls κ τ ε α}
    {a : α} (hx : Yields R x a) : Yields S x a := by
  induction hx with
  | ret a => exact .ret a
  | call hk _ ih => exact .call (h _ _ hk) ih
  | discard _ ih => exact .discard ih

@[simp] theorem yields_ret {R : κ → τ → Prop} {a b : α} :
    Yields R (Calls.ret a : Calls κ τ ε α) b ↔ b = a := by
  constructor
  · intro h
    cases h
    rfl
  · rintro rfl
    exact .ret _

@[simp] theorem not_yields_stop {R : κ → τ → Prop} {e : ε} {a : α} :
    ¬ Yields R (Calls.stop e : Calls κ τ ε α) a := by
  intro h
  cases h

@[simp] theorem not_yields_hang {R : κ → τ → Prop} {a : α} :
    ¬ Yields R (Calls.hang : Calls κ τ ε α) a := by
  intro h
  cases h

@[simp] theorem yields_call {R : κ → τ → Prop} {k : κ} {f : τ → Calls κ τ ε α} {a : α} :
    Yields R (Calls.call k f) a ↔ ∃ t, R k t ∧ Yields R (f t) a := by
  constructor
  · intro h
    cases h with
    | call hk h => exact ⟨_, hk, h⟩
  · rintro ⟨t, hk, h⟩
    exact .call hk h

@[simp] theorem yields_discard {R : κ → τ → Prop} {t : τ} {x : Calls κ τ ε α} {a : α} :
    Yields R (Calls.discard t x) a ↔ Yields R x a := by
  constructor
  · intro h
    cases h with
    | discard h => exact h
  · exact .discard

theorem yields_bind {R : κ → τ → Prop} {x : Calls κ τ ε α} {g : α → Calls κ τ ε β} {b : β} :
    Yields R (x >>= g) b ↔ ∃ a, Yields R x a ∧ Yields R (g a) b := by
  induction x with
  | ret a => simp
  | stop e => simp
  | hang => simp
  | call k f ih =>
    simp only [call_bind, yields_call, ih]
    constructor
    · rintro ⟨t, hk, a, ha, hb⟩
      exact ⟨a, ⟨t, hk, ha⟩, hb⟩
    · rintro ⟨a, ⟨t, hk, ha⟩, hb⟩
      exact ⟨t, hk, a, ha, hb⟩
  | discard t x ih => simp only [discard_bind, yields_discard, ih]

theorem yields_ask {R : κ → τ → Prop} {k : κ} {g : τ → Calls κ τ ε β} {b : β} :
    Yields R (ask k >>= g) b ↔ ∃ t, R k t ∧ Yields R (g t) b := yields_call

/-- What a run returns, the body yields on the answers that the run was given, each in a state
that satisfies an invariant of the calls. -/
theorem yields_of_exec_keeping {I : σ → Prop} {rec : κ → Comp σ ε τ} {drop : τ → Comp σ ε Unit}
    (hrec : ∀ k s, I s → I ((rec k).run s).2) (hdrop : ∀ t s, I s → I ((drop t).run s).2)
    {x : Calls κ τ ε α} {s s' : σ} {a : α} (hI : I s)
    (hrun : (exec rec drop x).run s = (.done a, s')) :
    Yields (fun k t => ∃ s₁ s₂, I s₁ ∧ (rec k).run s₁ = (.done t, s₂)) x a := by
  induction x generalizing s with
  | ret b =>
    cases hrun
    exact .ret _
  | stop e => cases hrun
  | hang => cases hrun
  | call k f ih =>
    obtain ⟨t, s₁, hk, hrun⟩ := Comp.bind_eq_done hrun
    have hI₁ : I s₁ := by
      have h := hrec k s hI
      rwa [hk] at h
    exact .call ⟨s, s₁, hI, hk⟩ (ih t hI₁ hrun)
  | discard t x ih =>
    obtain ⟨_, s₁, ht, hrun⟩ := Comp.bind_eq_done hrun
    have hI₁ : I s₁ := by
      have h := hdrop t s hI
      rwa [ht] at h
    exact .discard (ih hI₁ hrun)

/-- What a run returns, the body yields on the answers that the run was given. -/
theorem yields_of_exec {rec : κ → Comp σ ε τ} {drop : τ → Comp σ ε Unit}
    {x : Calls κ τ ε α} {s s' : σ} {a : α}
    (hrun : (exec rec drop x).run s = (.done a, s')) :
    Yields (fun k t => ∃ s₁ s₂, (rec k).run s₁ = (.done t, s₂)) x a := by
  have h := yields_of_exec_keeping (I := fun _ => True) (fun _ _ _ => trivial)
    (fun _ _ _ => trivial) trivial hrun
  refine h.mono fun k t hk => ?_
  obtain ⟨s₁, s₂, -, hk⟩ := hk
  exact ⟨s₁, s₂, hk⟩

/-! ## Two bodies that ask the same questions -/

/-- The bodies ask the same questions, up to `K`; on answers related by `S` they go on
related, and their results are related by `V`. -/
inductive Rel (K : κ → κ' → Prop) (S : τ → τ' → Prop) (V : α → β → Prop) :
    Calls κ τ ε α → Calls κ' τ' ε β → Prop
  | ret {a : α} {b : β} : V a b → Rel K S V (ret a) (ret b)
  | stop (e : ε) : Rel K S V (stop e) (stop e)
  | hang : Rel K S V hang hang
  | call {k : κ} {k' : κ'} {f : τ → Calls κ τ ε α} {f' : τ' → Calls κ' τ' ε β} : K k k' →
      (∀ t t', S t t' → Rel K S V (f t) (f' t')) → Rel K S V (call k f) (call k' f')
  | discard {t : τ} {t' : τ'} {x : Calls κ τ ε α} {x' : Calls κ' τ' ε β} : S t t' →
      Rel K S V x x' → Rel K S V (discard t x) (discard t' x')

theorem Rel.bind {K : κ → κ' → Prop} {S : τ → τ' → Prop} {V : α → β → Prop}
    {W : α' → β' → Prop} {x : Calls κ τ ε α} {x' : Calls κ' τ' ε β}
    {g : α → Calls κ τ ε α'} {g' : β → Calls κ' τ' ε β'} (hx : Rel K S V x x')
    (hg : ∀ a b, V a b → Rel K S W (g a) (g' b)) : Rel K S W (x >>= g) (x' >>= g') := by
  induction hx with
  | ret h => exact hg _ _ h
  | stop e => exact .stop e
  | hang => exact .hang
  | call hk _ ih => exact .call hk fun t t' ht => ih t t' ht
  | discard ht _ ih => exact .discard ht ih

theorem Rel.mono {K K' : κ → κ' → Prop} {S : τ → τ' → Prop} {V V' : α → β → Prop}
    {x : Calls κ τ ε α} {x' : Calls κ' τ' ε β} (hx : Rel K S V x x')
    (hK : ∀ k k', K k k' → K' k k') (hV : ∀ a b, V a b → V' a b) : Rel K' S V' x x' := by
  induction hx with
  | ret hv => exact .ret (hV _ _ hv)
  | stop e => exact .stop e
  | hang => exact .hang
  | call hk _ ih => exact .call (hK _ _ hk) ih
  | discard ht _ ih => exact .discard ht ih

/-- What related bodies yield on related answers is related. -/
theorem Rel.yields {K : κ → κ' → Prop} {S : τ → τ' → Prop} {V : α → β → Prop}
    {R : κ → τ → Prop} {R' : κ' → τ' → Prop} {x : Calls κ τ ε α} {x' : Calls κ' τ' ε β}
    (h : Rel K S V x x') (hS : ∀ k k' t t', K k k' → R k t → R' k' t' → S t t') {a : α} {b : β}
    (ha : Yields R x a) (hb : Yields R' x' b) : V a b := by
  induction h with
  | ret hv =>
    rw [yields_ret.1 ha, yields_ret.1 hb]
    exact hv
  | stop e => exact absurd ha not_yields_stop
  | hang => exact absurd ha not_yields_hang
  | call hk _ ih =>
    obtain ⟨t, ht, ha⟩ := yields_call.1 ha
    obtain ⟨t', ht', hb⟩ := yields_call.1 hb
    exact ih t t' (hS _ _ t t' hk ht ht') ha hb
  | discard _ _ ih => exact ih (yields_discard.1 ha) (yields_discard.1 hb)

/-- Running related bodies: a result of one is matched by a run of the other. -/
theorem Rel.runs {K : κ → κ' → Prop} {S : τ → τ' → Prop} {V : α → β → Prop}
    {R : κ → τ → Prop} {rec : ℕ → κ' → Comp Unit ε τ'} {x : Calls κ τ ε α}
    {x' : Calls κ' τ' ε β} (h : Rel K S V x x')
    (hrec : ∀ k k' t, K k k' → R k t →
      ∃ t', S t t' ∧ ∃ D, ∀ d ≥ D, (rec d k').run () = (.done t', ()))
    {a : α} (ha : Yields R x a) :
    ∃ b, V a b ∧ ∃ D, ∀ d ≥ D,
      (exec (rec d) (fun _ => pure ()) x').run () = (.done b, ()) := by
  induction h with
  | ret hv =>
    cases ha
    exact ⟨_, hv, 0, fun _ _ => rfl⟩
  | stop e => cases ha
  | hang => cases ha
  | call hk _ ih =>
    obtain ⟨t, ht, ha⟩ := yields_call.1 ha
    obtain ⟨t', hs, D₁, h₁⟩ := hrec _ _ _ hk ht
    obtain ⟨b, hb, D₂, h₂⟩ := ih t t' hs ha
    refine ⟨b, hb, max D₁ D₂, fun d hd => ?_⟩
    rw [exec, Comp.bind_done (h₁ d (by omega))]
    exact h₂ d (by omega)
  | discard _ _ ih =>
    obtain ⟨b, hb, D, h⟩ := ih (yields_discard.1 ha)
    exact ⟨b, hb, D, fun d hd => h d hd⟩

/-- The body may ask the question, for some answers to those before it. -/
inductive Asks : Calls κ τ ε α → κ → Prop
  | here {k : κ} {f : τ → Calls κ τ ε α} : Asks (call k f) k
  | later {k k' : κ} {t : τ} {f : τ → Calls κ τ ε α} : Asks (f t) k' → Asks (call k f) k'
  | discard {t : τ} {x : Calls κ τ ε α} {k : κ} : Asks x k → Asks (discard t x) k

/-- Run a body, answering its `i`-th question with `mark i`: the result and the questions. -/
def trial (mark : ℕ → τ) : Calls κ τ ε α → List κ → Option (α × List κ)
  | ret a, qs => some (a, qs)
  | stop _, _ => none
  | hang, _ => none
  | call k f, qs => trial mark (f (mark qs.length)) (qs ++ [k])
  | discard _ x, qs => trial mark x qs

theorem trial_append {mark : ℕ → τ} {x : Calls κ τ ε α} {qs Q : List κ} {a : α}
    (h : trial mark x qs = some (a, Q)) : ∃ rest, Q = qs ++ rest := by
  induction x generalizing qs with
  | ret b =>
    cases h
    exact ⟨[], (List.append_nil _).symm⟩
  | stop e => cases h
  | hang => cases h
  | call k f ih =>
    obtain ⟨rest, hrest⟩ := ih _ h
    rw [List.append_assoc] at hrest
    exact ⟨_, hrest⟩
  | discard t x ih => exact ih h

/-- The result of a trial run comes from marks, each the answer to a question asked. -/
theorem yields_of_trial {mark : ℕ → τ} {x : Calls κ τ ε α} {qs Q : List κ} {a : α}
    (h : trial mark x qs = some (a, Q)) :
    Yields (fun k t => ∃ i, t = mark i ∧ Q[i]? = some k) x a := by
  induction x generalizing qs with
  | ret b =>
    cases h
    exact .ret _
  | stop e => cases h
  | hang => cases h
  | call k f ih =>
    have h : trial mark (f (mark qs.length)) (qs ++ [k]) = some (a, Q) := h
    obtain ⟨rest, hrest⟩ := trial_append h
    refine .call ⟨qs.length, rfl, ?_⟩ (ih _ h)
    rw [hrest, List.append_assoc, List.getElem?_append_right (Nat.le_refl _), Nat.sub_self]
    rfl
  | discard t x ih => exact .discard (ih h)

/-- A body that can return also returns in a trial run, if it is like itself for all
answers. -/
theorem Rel.trial_isSome {V : α → β → Prop} {R : κ → τ → Prop} {mark : ℕ → τ'}
    {x : Calls κ τ ε α} {x' : Calls κ τ' ε β} (h : Rel Eq (fun _ _ => True) V x x') {a : α}
    (ha : Yields R x a) (qs : List κ) : ∃ r, trial mark x' qs = some r := by
  induction h generalizing qs with
  | ret _ => exact ⟨_, rfl⟩
  | stop e => cases ha
  | hang => cases ha
  | call _ _ ih =>
    obtain ⟨t, -, ha⟩ := yields_call.1 ha
    exact ih t _ trivial ha _
  | discard _ _ ih => exact ih (yields_discard.1 ha) qs

/-- A result is related to the result of the trial run, whose marks stand for the answers to
the questions related to those asked. -/
theorem Rel.trial {K : κ → κ' → Prop} {S : τ → τ' → Prop} {V : α → β → Prop} {R : κ → τ → Prop}
    {mark : ℕ → τ'} {x : Calls κ τ ε α} {x' : Calls κ' τ' ε β} (h : Rel K S V x x') {qs Q : List κ'}
    (hS : ∀ i k k' t, K k k' → Q[i]? = some k' → R k t → S t (mark i)) {a : α} {b : β}
    (ha : Yields R x a) (hb : Calls.trial mark x' qs = some (b, Q)) : V a b := by
  induction h generalizing qs with
  | ret hv =>
    cases hb
    rw [yields_ret.1 ha]
    exact hv
  | stop e => cases ha
  | hang => cases ha
  | @call k k' f f' hk _ ih =>
    obtain ⟨t, ht, ha⟩ := yields_call.1 ha
    have hb : Calls.trial mark (f' (mark qs.length)) (qs ++ [k']) = some (b, Q) := hb
    obtain ⟨rest, hrest⟩ := trial_append hb
    refine ih t _ (hS qs.length k k' t hk ?_ ht) ha hb
    rw [hrest, List.append_assoc, List.getElem?_append_right (Nat.le_refl _),
      Nat.sub_self]
    rfl
  | discard _ _ ih => exact ih (yields_discard.1 ha) hb

/-! ## What a body holds -/

/-- Holding answers of total weight `n`, the body throws away only what it holds and
returns a result of at most the weight left. It loops forever only if `L` says that some
bodies do. -/
inductive Uses (L : Prop) (W : τ → ℕ) (V : α → ℕ) : ℕ → Calls κ τ ε α → Prop
  | ret {n : ℕ} {a : α} : V a ≤ n → Uses L W V n (ret a)
  | stop {n : ℕ} (e : ε) : Uses L W V n (stop e)
  | hang {n : ℕ} : L → Uses L W V n hang
  | call {n : ℕ} {k : κ} {f : τ → Calls κ τ ε α} : (∀ t, Uses L W V (n + W t) (f t)) →
      Uses L W V n (call k f)
  | discard {n : ℕ} {t : τ} {x : Calls κ τ ε α} : Uses L W V n x →
      Uses L W V (n + W t) (discard t x)

section Uses

variable {L : Prop} {W : τ → ℕ} {V : α → ℕ} {n : ℕ}

theorem Uses.bind {V' : β → ℕ} {m : ℕ} {x : Calls κ τ ε α} {g : α → Calls κ τ ε β}
    (hx : Uses L W V n x) (hg : ∀ a k, V a ≤ k → Uses L W V' (k + m) (g a)) :
    Uses L W V' (n + m) (x >>= g) := by
  induction hx with
  | ret h => exact hg _ _ h
  | stop e => exact .stop e
  | hang h => exact .hang h
  | @call n k f _ ih =>
    refine .call fun t => ?_
    rw [Nat.add_right_comm]
    exact ih t
  | @discard n t x _ ih =>
    rw [Nat.add_right_comm]
    exact .discard ih

@[simp] theorem uses_ret {a : α} : Uses L W V n (Calls.ret a : Calls κ τ ε α) ↔ V a ≤ n := by
  constructor
  · intro h
    cases h
    assumption
  · exact .ret

@[simp] theorem uses_call {k : κ} {f : τ → Calls κ τ ε α} :
    Uses L W V n (Calls.call k f) ↔ ∀ t, Uses L W V (n + W t) (f t) := by
  constructor
  · intro h
    cases h
    assumption
  · exact .call

theorem uses_discard {t : τ} {x : Calls κ τ ε α} :
    Uses L W V n (Calls.discard t x) ↔ W t ≤ n ∧ Uses L W V (n - W t) x := by
  constructor
  · intro h
    cases h with
    | @discard n _ _ hx =>
      rw [Nat.add_sub_cancel]
      exact ⟨Nat.le_add_left _ _, hx⟩
  · rintro ⟨hle, hx⟩
    have h := Uses.discard (t := t) hx
    rwa [Nat.sub_add_cancel hle] at h

theorem Uses.foldlM {V : β → ℕ} {g : β → α → Calls κ τ ε β}
    (h : ∀ b a n, V b ≤ n → Uses L W V n (g b a)) (l : List α) {b : β} (hb : V b ≤ n) :
    Uses L W V n (l.foldlM g b) := by
  induction l generalizing b n with
  | nil => exact .ret hb
  | cons a l ih =>
    rw [List.foldlM_cons, ← Nat.add_zero n]
    exact (h b a n hb).bind fun c k hc => ih (by omega)

end Uses

/-! ## Bodies that ask nothing -/

/-- The body asks nothing and throws nothing away: it has already ended, or it loops
forever, which needs `L`. -/
def Silent (L : Prop) (x : Calls κ τ ε α) : Prop :=
  (∃ a, x = ret a) ∨ (∃ e, x = stop e) ∨ (L ∧ x = hang)

section Silent

variable {L : Prop}

theorem Silent.ret (a : α) : Silent L (Calls.ret a : Calls κ τ ε α) := Or.inl ⟨a, rfl⟩

theorem Silent.stop (e : ε) : Silent L (Calls.stop e : Calls κ τ ε α) :=
  Or.inr (Or.inl ⟨e, rfl⟩)

theorem Silent.hang (h : L) : Silent L (Calls.hang : Calls κ τ ε α) := Or.inr (Or.inr ⟨h, rfl⟩)

theorem Silent.bind {x : Calls κ τ ε α} {g : α → Calls κ τ ε β} (hx : Silent L x)
    (hg : ∀ a, Silent L (g a)) : Silent L (x >>= g) := by
  rcases hx with ⟨a, rfl⟩ | ⟨e, rfl⟩ | ⟨h, rfl⟩
  · exact hg a
  · exact Silent.stop e
  · exact Silent.hang h

theorem Silent.foldlM {g : β → α → Calls κ τ ε β} (h : ∀ b a, Silent L (g b a)) (l : List α)
    (b : β) : Silent L (l.foldlM g b) := by
  induction l generalizing b with
  | nil => exact Silent.ret b
  | cons a l ih =>
    rw [List.foldlM_cons]
    exact (h b a).bind ih

/-- A silent body that returns has returned. -/
theorem Silent.eq_ret {R : κ → τ → Prop} {x : Calls κ τ ε α} (hx : Silent L x) {a : α}
    (hy : Yields R x a) : x = Calls.ret a := by
  rcases hx with ⟨b, rfl⟩ | ⟨e, rfl⟩ | ⟨-, rfl⟩
  · rw [yields_ret.1 hy]
  · exact absurd hy not_yields_stop
  · exact absurd hy not_yields_hang

/-- A silent body in front leaves what is held alone. -/
theorem Silent.uses_bind {W : τ → ℕ} {V : β → ℕ} {n : ℕ} {x : Calls κ τ ε α}
    {g : α → Calls κ τ ε β} (hx : Silent L x) (hg : ∀ a, Uses L W V n (g a)) :
    Uses L W V n (x >>= g) := by
  rcases hx with ⟨b, rfl⟩ | ⟨e, rfl⟩ | ⟨h, rfl⟩
  · exact hg b
  · exact .stop e
  · exact .hang h

end Silent

/-! ## Bodies that ask nothing and end alike -/

/-- Two bodies that ask nothing: they return results related by `V`, panic alike, or both loop
forever. -/
abbrev Twins (V : α → β → Prop) : Calls κ τ ε α → Calls κ' τ' ε β → Prop :=
  Rel (fun _ _ => False) (fun _ _ => False) V

section Twins

variable {V : α → β → Prop} {x : Calls κ τ ε α} {x' : Calls κ' τ' ε β}

theorem Silent.twins {L : Prop} (hx : Silent L x) : Twins Eq x x := by
  rcases hx with ⟨b, rfl⟩ | ⟨e, rfl⟩ | ⟨-, rfl⟩
  · exact .ret rfl
  · exact .stop e
  · exact .hang

theorem Twins.rel {K : κ → κ' → Prop} {S : τ → τ' → Prop} (h : Twins V x x') : Rel K S V x x' := by
  induction h with
  | ret hv => exact .ret hv
  | stop e => exact .stop e
  | hang => exact .hang
  | call hk _ _ => exact hk.elim
  | discard ht _ _ => exact ht.elim

/-- The related results are what the bodies have returned. -/
theorem Twins.results (h : Twins V x x') :
    Twins (fun a b => V a b ∧ x = ret a ∧ x' = ret b) x x' := by
  cases h with
  | ret hv => exact .ret ⟨hv, rfl, rfl⟩
  | stop e => exact .stop e
  | hang => exact .hang
  | call hk _ => exact hk.elim
  | discard ht _ => exact ht.elim

end Twins

/-! ## Bodies with one possible value -/

/-- The body has already returned `a`, or it loops forever, which needs `L`. -/
def Gives (L : Prop) (x : Calls κ τ ε α) (a : α) : Prop := x = ret a ∨ L ∧ x = hang

section Gives

variable {L : Prop} {x : Calls κ τ ε α} {a : α}

theorem Gives.silent (hx : Gives L x a) : Silent L x :=
  hx.imp (fun h => ⟨a, h⟩) .inr

theorem Gives.eq_ret (hx : Gives L x a) (hL : ¬ L) : x = Calls.ret a :=
  hx.resolve_right fun h => hL h.1

/-- A value returned is the one that the body gives. -/
theorem Gives.eq_of_ret (hx : Gives L x a) {b : α} (h : x = Calls.ret b) : b = a := by
  rcases hx with hx | ⟨-, hx⟩
  · exact (Calls.ret.inj (hx.symm.trans h)).symm
  · cases hx.symm.trans h

theorem Gives.bind {g : α → Calls κ τ ε β} {b : β} (hx : Gives L x a) (hg : Gives L (g a) b) :
    Gives L (x >>= g) b := by
  rcases hx with rfl | ⟨h, rfl⟩
  · exact hg
  · exact .inr ⟨h, rfl⟩

theorem Gives.bind_eq_ret {g : α → Calls κ τ ε β} {b : β} (hx : Gives L x a)
    (h : x >>= g = Calls.ret b) : x = Calls.ret a ∧ g a = Calls.ret b := by
  obtain ⟨c, hc, hg⟩ := Calls.bind_eq_ret h
  obtain rfl := hx.eq_of_ret hc
  exact ⟨hc, hg⟩

theorem Gives.yields_bind {R : κ → τ → Prop} {g : α → Calls κ τ ε β} {b : β}
    (hx : Gives L x a) (hy : Yields R (x >>= g) b) : x = Calls.ret a ∧ Yields R (g a) b := by
  obtain ⟨c, hc, hg⟩ := Calls.yields_bind.1 hy
  have hret := hx.silent.eq_ret hc
  obtain rfl := hx.eq_of_ret hret
  exact ⟨hret, hg⟩

end Gives

theorem Rel.foldlM {K : κ → κ' → Prop} {S : τ → τ' → Prop} {V : β → β' → Prop}
    {g : β → α → Calls κ τ ε β} {g' : β' → α → Calls κ' τ' ε β'}
    (h : ∀ b b' a, V b b' → Rel K S V (g b a) (g' b' a)) (l : List α) {b : β} {b' : β'}
    (hb : V b b') : Rel K S V (l.foldlM g b) (l.foldlM g' b') := by
  induction l generalizing b b' with
  | nil => exact .ret hb
  | cons a l ih =>
    rw [List.foldlM_cons, List.foldlM_cons]
    exact (h b b' a hb).bind fun _ _ hc => ih hc

end Calls

end Base
