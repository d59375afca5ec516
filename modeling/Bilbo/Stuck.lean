import Mathlib.Data.List.DropRight
import Bilbo.Base.Fate
import Bilbo.Rendering

/-!
# Where the lenient parser goes on forever

Every loop of `json.rs` steps over something in each iteration, except for one: `parse_value` takes
a byte that starts no value for a number without digits and steps over nothing. In front of a value
in an object that does no harm, and in an array a comma is stepped over afterwards. Any other such
byte where an element of an array is due keeps `parse_array` there, pushing empty numbers.

`Eats` is what the parser reads, as a grammar of what is left of the text, and `Sticks` says that
such a byte lies on the way.
-/

namespace Bilbo

open Base Comp

/-! ## What is read -/

/-- What is left behind white space. -/
def skipBlank (t : Bytes) : Bytes := t.dropWhile Ascii.isWhitespace

/-- What is left behind white space and one comma. -/
def skipGap (t : Bytes) : Bytes :=
  match skipBlank t with
  | c :: r => if c == Ascii.comma then r else c :: r
  | [] => []

/-- The bytes that select another branch of `parse_value` than the one for numbers. -/
def opensValue (c : UInt8) : Bool :=
  c == Ascii.lbrace || c == Ascii.lbracket || c == Ascii.quote || c == 0x74 || c == 0x66 ||
    c == 0x6E

/-- A byte that keeps `parse_array` where it is. -/
def isStray (c : UInt8) : Bool :=
  !opensValue c && !isNumChar c && c != Ascii.rbracket && c != Ascii.comma

/-- What is due: a value, the rest of an array, or the rest of an object. -/
inductive Due where
  | value
  | elements
  | members

/-- The head of a loop of `parse_array` is at an element. -/
def AtElement (t : Bytes) : Prop := ∃ c r, skipBlank t = c :: r ∧ c ≠ Ascii.rbracket

/-- A member of an object up to its value, with what is left at the value. -/
def KeyThen (t r : Bytes) : Prop :=
  ∃ raw r₁, skipBlank t = quoted raw ++ r₁ ∧ RawBody raw ∧ Utf8 (lenient raw) ∧
    skipBlank r₁ = Ascii.colon :: r

/-- What is due is read from the front of a text, and this much of it is left. -/
inductive Eats : Due → Bytes → Bytes → Prop
  | string {t raw r : Bytes} : skipBlank t = quoted raw ++ r → RawBody raw → Utf8 (lenient raw) →
      Eats .value t r
  | true' {t r : Bytes} : skipBlank t = 0x74 :: r → Eats .value t (r.drop 3)
  | false' {t r : Bytes} : skipBlank t = 0x66 :: r → Eats .value t (r.drop 4)
  | null {t r : Bytes} : skipBlank t = 0x6E :: r → Eats .value t (r.drop 3)
  | number {t r : Bytes} {c : UInt8} : skipBlank t = c :: r → opensValue c = false →
      Eats .value t ((c :: r).dropWhile isNumChar)
  | array {t r r' : Bytes} : skipBlank t = Ascii.lbracket :: r → Eats .elements r r' →
      Eats .value t r'
  | object {t r r' : Bytes} : skipBlank t = Ascii.lbrace :: r → Eats .members r r' →
      Eats .value t r'
  | rbracket {t r : Bytes} : skipBlank t = Ascii.rbracket :: r → Eats .elements t r
  | element {t r r' : Bytes} : AtElement t → Eats .value t r → Eats .elements (skipGap r) r' →
      Eats .elements t r'
  | rbrace {t r : Bytes} : skipBlank t = Ascii.rbrace :: r → Eats .members t r
  | member {t r r₁ r' : Bytes} : KeyThen t r → Eats .value r r₁ → Eats .members (skipGap r₁) r' →
      Eats .members t r'

/-- Reading what is due comes to a stray byte where an element of an array is due. -/
inductive Sticks : Due → Bytes → Prop
  | stray {t r : Bytes} {c : UInt8} : skipBlank t = c :: r → isStray c = true → Sticks .elements t
  | element {t : Bytes} : Sticks .value t → Sticks .elements t
  | nextElement {t r : Bytes} : AtElement t → Eats .value t r → Sticks .elements (skipGap r) →
      Sticks .elements t
  | array {t r : Bytes} : skipBlank t = Ascii.lbracket :: r → Sticks .elements r → Sticks .value t
  | object {t r : Bytes} : skipBlank t = Ascii.lbrace :: r → Sticks .members r → Sticks .value t
  | member {t r : Bytes} : KeyThen t r → Sticks .value r → Sticks .members t
  | nextMember {t r r₁ : Bytes} : KeyThen t r → Eats .value r r₁ → Sticks .members (skipGap r₁) →
      Sticks .members t

/-! ## One step -/

variable {b : Bytes} {i p : ℕ}

theorem drop_takeWhile (f : UInt8 → Bool) (t : Bytes) :
    t.drop (t.takeWhile f).length = t.dropWhile f := by
  have hsplit := List.takeWhile_append_dropWhile (p := f) (l := t)
  have hdrop : (t.takeWhile f ++ t.dropWhile f).drop (t.takeWhile f).length = t.dropWhile f :=
    List.drop_left
  rwa [hsplit] at hdrop

theorem drop_skipTo (b : Bytes) (i : ℕ) : b.drop (skipTo b i) = skipBlank (b.drop i) := by
  rw [skipTo, ← List.drop_drop, drop_takeWhile]
  rfl

/-- The byte that `parse_value` or a loop looks at. -/
theorem peek_skipTo {c : UInt8} {r : Bytes} (h : skipBlank (b.drop i) = c :: r) :
    (peek b).run (skipTo b i) = (.done c, skipTo b i) := by
  apply peek_run (r := r)
  rw [drop_skipTo]
  exact h

/-- Past a value: the comma behind it, if there is one. -/
theorem skipComma_skipGap (hne : skipBlank (b.drop i) ≠ []) :
    ∃ k, (skipComma b).run (skipTo b i) = (.done (), k) ∧ b.drop k = skipGap (b.drop i) := by
  obtain ⟨c, r, hc⟩ := List.exists_cons_of_ne_nil hne
  have hdrop : b.drop (skipTo b i) = c :: r := (drop_skipTo b i).trans hc
  have hgap : skipGap (b.drop i) = if c == Ascii.comma then r else c :: r := by
    rw [skipGap, hc]
  rw [hgap, skipComma, bind_done (peek_run hdrop)]
  by_cases hcomma : (c == Ascii.comma) = true
  · rw [if_pos hcomma, if_pos hcomma]
    exact ⟨_, rfl, drop_byte hdrop⟩
  · rw [if_neg hcomma, if_neg hcomma]
    exact ⟨_, rfl, hdrop⟩

theorem parseNumber_eats (b : Bytes) (p : ℕ) :
    ∃ j i', (parseNumber b).run p = (.done j, i') ∧ b.drop i' = (b.drop p).dropWhile isNumChar := by
  have ht : ∀ c ∈ (b.drop p).takeWhile isNumChar, isNumChar c = true :=
    fun c hc => List.mem_takeWhile_imp hc
  refine ⟨.num ((b.drop p).takeWhile isNumChar), p + ((b.drop p).takeWhile isNumChar).length,
    ?_, ?_⟩
  · show (advance ((b.drop p).takeWhile isNumChar).length >>= fun _ =>
      if isUtf8 ((b.drop p).takeWhile isNumChar) = true then
        pure (Json.num ((b.drop p).takeWhile isNumChar)) else fail "invalid utf-8").run p = _
    rw [if_pos ((isUtf8_iff _).2 (utf8_number ht))]
    rfl
  · rw [← List.drop_drop, drop_takeWhile]

theorem valueAt_other {c : UInt8} (h : opensValue c = false) (b : Bytes) (n : ℕ)
    (value : Scan Json) : valueAt b n value c = parseNumber b := by
  simp only [opensValue, Bool.or_eq_false_iff] at h
  obtain ⟨⟨⟨⟨⟨h₁, h₂⟩, h₃⟩, h₄⟩, h₅⟩, h₆⟩ := h
  simp only [valueAt, h₁, h₂, h₃, h₄, h₅, h₆, Bool.false_eq_true, if_false]

/-- To parse a value is to follow the branch that its first byte selects. -/
theorem runs_value {c : UInt8} {r : Bytes} {j : Json} {i' : ℕ}
    (h : skipBlank (b.drop i) = c :: r)
    (hrun : Runs (fun n d => valueAt b n (parseValue b n d) c) (skipTo b i) j i') :
    Runs (fun n d => parseValue b n d) i j i' := by
  apply Runs.call (fun n d => parseValue_succ b n d)
  apply Runs.bind_eq (skipWs_run b i)
  exact Runs.bind_eq (peek_skipTo h) hrun

theorem fated_value {c : UInt8} {r : Bytes} {f : Fate} (h : skipBlank (b.drop i) = c :: r)
    (hrun : Fated (fun n d => valueAt b n (parseValue b n d) c) (skipTo b i) f) :
    Fated (fun n d => parseValue b n d) i f := by
  apply Fated.call (fun n d => parseValue_succ b n d)
  apply Fated.bind_eq (skipWs_run b i)
  exact Fated.bind_eq (peek_skipTo h) hrun

/-! ## One iteration -/

/-- What both loops do with an item from its value on. -/
def itemRest {β : Type} (b : Bytes) (value : Scan Json) (add : Json → β) : Scan (β ⊕ Json) := do
  let val ← value
  skipWs b
  skipComma b
  pure (.inl (add val))

section

variable {β : Type} {value : ℕ → ℕ → Scan Json} {j : Json} {i' : ℕ}

theorem itemRest_runs (hvalue : Runs value i j i') (hne : skipBlank (b.drop i') ≠ []) :
    ∃ k, b.drop k = skipGap (b.drop i') ∧ ∀ add : Json → β,
      Runs (fun n d => itemRest b (value n d) add) i (.inl (add j)) k := by
  obtain ⟨k, hcomma, hk⟩ := skipComma_skipGap hne
  refine ⟨k, hk, fun add => ?_⟩
  unfold itemRest
  apply hvalue.bind
  apply Runs.bind_eq (skipWs_run b _)
  apply Runs.bind_eq hcomma
  exact Runs.pure _ _

/-- At the end of the text the comma is looked for out of bounds. -/
theorem itemRest_end (hvalue : Runs value i j i') (hend : skipBlank (b.drop i') = [])
    (add : Json → β) : Fated (fun n d => itemRest b (value n d) add) i .stops := by
  unfold itemRest
  apply hvalue.bind_fated
  apply Fated.bind_eq (skipWs_run b _)
  apply Fated.of_eq
  have hpeek := peek_end ((drop_skipTo b i').trans hend)
  apply bind_fate _ _ (by decide)
  apply bind_fate _ _ (by decide)
  rw [hpeek]
  rfl

theorem itemRest_fated {f : Fate} (hvalue : Fated value i f) (hf : f ≠ .returns)
    (add : Json → β) : Fated (fun n d => itemRest b (value n d) add) i f := by
  unfold itemRest
  exact hvalue.bind _ hf

end

/-- An iteration of `parse_array` that does not leave. -/
theorem arrayBody_follows {c : UInt8} {r : Bytes} (h : skipBlank (b.drop i) = c :: r)
    (hc : c ≠ Ascii.rbracket) (out : List Json) :
    Follows (fun n d => arrayBody b (parseValue b n d) out)
      (fun n d => itemRest b (parseValue b n d) fun j => out ++ [j]) i (skipTo b i) := by
  refine ⟨0, fun n _ d => ?_⟩
  unfold arrayBody
  rw [bind_done (skipWs_run b i), bind_done (peek_skipTo h),
    if_neg (by rw [beq_eq_false_iff_ne.2 hc]; exact Bool.false_ne_true)]
  rfl

/-- What `parse_object` does with an item from its key on. -/
def keyRest (b : Bytes) (value : Scan Json) (out : List (Bytes × Json)) (key : Bytes) :
    Scan (List (Bytes × Json) ⊕ Json) := do
  skipWs b
  let c ← peek b
  if c != Ascii.colon then fail "expected colon"
  else do
    advance 1
    itemRest b value fun j => out ++ [(key, j)]

/-- An iteration of `parse_object` that does not leave. -/
theorem objectBody_run {c : UInt8} {r : Bytes} (h : skipBlank (b.drop i) = c :: r)
    (hc : c ≠ Ascii.rbrace) (n : ℕ) (value : Scan Json) (out : List (Bytes × Json)) :
    (objectBody b n value out).run i =
      (parseString b n >>= keyRest b value out).run (skipTo b i) := by
  unfold objectBody
  rw [bind_done (skipWs_run b i), bind_done (peek_skipTo h),
    if_neg (by rw [beq_eq_false_iff_ne.2 hc]; exact Bool.false_ne_true)]
  rfl

/-- The key and the colon are read. -/
theorem objectBody_follows {r : Bytes} (h : KeyThen (b.drop i) r) :
    ∃ key i', b.drop i' = r ∧ ∀ out,
      Follows (fun n d => objectBody b n (parseValue b n d) out)
        (fun n d => itemRest b (parseValue b n d) fun j => out ++ [(key, j)]) i i' := by
  obtain ⟨raw, r₁, hkey, hraw, hutf8, hcolon⟩ := h
  have hdrop : b.drop (skipTo b i) = quoted raw ++ r₁ := (drop_skipTo b i).trans hkey
  have hnext : b.drop (skipTo b i + (quoted raw).length) = r₁ := drop_text hdrop
  rw [← hnext] at hcolon
  have hdrop' := (drop_skipTo b (skipTo b i + (quoted raw).length)).trans hcolon
  obtain ⟨N, hN⟩ := parseString_runs hraw hutf8 hdrop
  refine ⟨lenient raw, _, drop_byte hdrop', fun out => ⟨N, fun n hn d => ?_⟩⟩
  rw [objectBody_run hkey (by decide), bind_done (hN n hn N (Nat.le_refl N)), keyRest,
    bind_done (skipWs_run b _), bind_done (peek_skipTo hcolon)]
  rfl

/-! ## What is read is read -/

theorem skipBlank_skipBlank (t : Bytes) : skipBlank (skipBlank t) = skipBlank t :=
  List.dropWhile_idempotent _ _

/-- What is due is read from one index to the other. -/
def RunsDue (b : Bytes) : Due → ℕ → ℕ → Prop
  | .value, i, i' => ∃ j, Runs (fun n d => parseValue b n d) i j i'
  | .elements, i, i' => ∀ out, ∃ j,
    RunsLoop (fun n d => arrayBody b (parseValue b n d)) out i j i'
  | .members, i, i' => ∀ out, ∃ j,
    RunsLoop (fun n d => objectBody b n (parseValue b n d)) out i j i'

/-- What becomes of reading what is due. -/
def FatedDue (b : Bytes) (f : Fate) : Due → ℕ → Prop
  | .value, i => Fated (fun n d => parseValue b n d) i f
  | .elements, i => ∀ out, FatedLoop (fun n d => arrayBody b (parseValue b n d)) out i f
  | .members, i => ∀ out, FatedLoop (fun n d => objectBody b n (parseValue b n d)) out i f

/-- Something is left to be read. -/
theorem Eats.nonempty {g : Due} {t r : Bytes} (h : Eats g t r) : skipBlank t ≠ [] := by
  cases h with
  | string h _ _ => rw [h]; exact List.cons_ne_nil _ _
  | element h _ _ =>
    obtain ⟨c, r, h, -⟩ := h
    rw [h]
    exact List.cons_ne_nil _ _
  | member h _ _ =>
    obtain ⟨raw, r₁, h, -⟩ := h
    rw [h]
    exact List.cons_ne_nil _ _
  | _ => simp only [*, ne_eq, reduceCtorEq, not_false_eq_true]

theorem skipGap_nonempty {t : Bytes} (h : skipBlank (skipGap t) ≠ []) : skipBlank t ≠ [] := by
  intro hend
  apply h
  rw [skipGap, hend]
  rfl

theorem Sticks.nonempty {g : Due} {t : Bytes} (h : Sticks g t) : skipBlank t ≠ [] := by
  induction h with
  | stray h _ => rw [h]; exact List.cons_ne_nil _ _
  | element _ ih => exact ih
  | nextElement h _ _ _ =>
    obtain ⟨c, r, h, -⟩ := h
    rw [h]
    exact List.cons_ne_nil _ _
  | array h _ _ => rw [h]; exact List.cons_ne_nil _ _
  | object h _ _ => rw [h]; exact List.cons_ne_nil _ _
  | member h _ _ =>
    obtain ⟨raw, r₁, h, -⟩ := h
    rw [h]
    exact List.cons_ne_nil _ _
  | nextMember h _ _ _ =>
    obtain ⟨raw, r₁, h, -⟩ := h
    rw [h]
    exact List.cons_ne_nil _ _

/-- The key of a member, at an index in front of the same token. -/
theorem KeyThen.congr {t t' r : Bytes} (h : KeyThen t r) (ht : skipBlank t' = skipBlank t) :
    KeyThen t' r := by
  unfold KeyThen at *
  rwa [ht]

/-- What the grammar reads, the parser reads. -/
theorem Eats.runs {g : Due} {t r : Bytes} (h : Eats g t r) {i : ℕ}
    (hi : skipBlank (b.drop i) = skipBlank t) : ∃ i', b.drop i' = r ∧ RunsDue b g i i' := by
  induction h generalizing i with
  | @string t raw r h hraw hutf8 =>
    have hdrop : b.drop (skipTo b i) = quoted raw ++ r := (drop_skipTo b i).trans (hi.trans h)
    refine ⟨_, drop_text hdrop, .str (lenient raw), ?_⟩
    apply runs_value (hi.trans h)
    apply (parseString_runs hraw hutf8 hdrop).bind
    exact Runs.pure _ _
  | @true' t r h =>
    have hdrop : b.drop (skipTo b i) = 0x74 :: r := (drop_skipTo b i).trans (hi.trans h)
    refine ⟨skipTo b i + 4, ?_, .bool true, runs_value (hi.trans h) (Runs.of_eq rfl)⟩
    rw [← List.drop_drop, hdrop]
    rfl
  | @false' t r h =>
    have hdrop : b.drop (skipTo b i) = 0x66 :: r := (drop_skipTo b i).trans (hi.trans h)
    refine ⟨skipTo b i + 5, ?_, .bool false, runs_value (hi.trans h) (Runs.of_eq rfl)⟩
    rw [← List.drop_drop, hdrop]
    rfl
  | @null t r h =>
    have hdrop : b.drop (skipTo b i) = 0x6E :: r := (drop_skipTo b i).trans (hi.trans h)
    refine ⟨skipTo b i + 4, ?_, .null, runs_value (hi.trans h) (Runs.of_eq rfl)⟩
    rw [← List.drop_drop, hdrop]
    rfl
  | @number t r c h hc =>
    have hdrop : b.drop (skipTo b i) = c :: r := (drop_skipTo b i).trans (hi.trans h)
    obtain ⟨j, i', hrun, hi'⟩ := parseNumber_eats b (skipTo b i)
    rw [hdrop] at hi'
    refine ⟨i', hi', j, runs_value (hi.trans h) ?_⟩
    simp only [valueAt_other hc]
    exact Runs.of_eq hrun
  | @array t r r' h _ ih =>
    have hdrop : b.drop (skipTo b i) = Ascii.lbracket :: r := (drop_skipTo b i).trans (hi.trans h)
    have hnext := drop_byte hdrop
    obtain ⟨i', hi', hruns⟩ := ih (by rw [hnext])
    obtain ⟨j, hloop⟩ := hruns []
    refine ⟨i', hi', j, runs_value (hi.trans h) ?_⟩
    exact Runs.bind_eq (advance_run 1 (skipTo b i)) hloop.runs
  | @object t r r' h _ ih =>
    have hdrop : b.drop (skipTo b i) = Ascii.lbrace :: r := (drop_skipTo b i).trans (hi.trans h)
    have hnext := drop_byte hdrop
    obtain ⟨i', hi', hruns⟩ := ih (by rw [hnext])
    obtain ⟨j, hloop⟩ := hruns []
    refine ⟨i', hi', j, runs_value (hi.trans h) ?_⟩
    exact Runs.bind_eq (advance_run 1 (skipTo b i)) hloop.runs
  | @rbracket t r h =>
    have hdrop : b.drop (skipTo b i) = Ascii.rbracket :: r := (drop_skipTo b i).trans (hi.trans h)
    refine ⟨skipTo b i + 1, drop_byte hdrop, fun out => ⟨.array out, ?_⟩⟩
    apply RunsLoop.exit
    unfold arrayBody
    apply Runs.bind_eq (skipWs_run b i)
    apply Runs.bind_eq (peek_run hdrop)
    exact Runs.of_eq rfl
  | @element t r r' hat _ hrest ihv ihr =>
    obtain ⟨c, x, h, hc⟩ := hat
    obtain ⟨i', hi', j, hvalue⟩ := ihv (i := skipTo b i)
      (by rw [drop_skipTo, skipBlank_skipBlank, hi])
    have hne : skipBlank (b.drop i') ≠ [] := by
      rw [hi']
      exact skipGap_nonempty hrest.nonempty
    -- where the next iteration starts does not depend on the elements so far
    obtain ⟨k, hk, hitem⟩ := itemRest_runs (β := List Json) hvalue hne
    obtain ⟨i'', hi'', hruns⟩ := ihr (i := k) (by rw [hk, hi'])
    refine ⟨i'', hi'', fun out => ?_⟩
    obtain ⟨js, hloop⟩ := hruns (out ++ [j])
    exact ⟨js, RunsLoop.step ((arrayBody_follows (hi.trans h) hc out).runs (hitem _)) hloop⟩
  | @rbrace t r h =>
    have hdrop : b.drop (skipTo b i) = Ascii.rbrace :: r := (drop_skipTo b i).trans (hi.trans h)
    refine ⟨skipTo b i + 1, drop_byte hdrop, fun out => ⟨.object out, ?_⟩⟩
    apply RunsLoop.exit
    unfold objectBody
    apply Runs.bind_eq (skipWs_run b i)
    apply Runs.bind_eq (peek_run hdrop)
    exact Runs.of_eq rfl
  | @member t r r₁ r' hkey _ hrest ihv ihr =>
    obtain ⟨key, p, hp, hfollows⟩ := objectBody_follows (hkey.congr hi)
    obtain ⟨i', hi', j, hvalue⟩ := ihv (i := p) (by rw [hp])
    have hne : skipBlank (b.drop i') ≠ [] := by
      rw [hi']
      exact skipGap_nonempty hrest.nonempty
    obtain ⟨k, hk, hitem⟩ := itemRest_runs (β := List (Bytes × Json)) hvalue hne
    obtain ⟨i'', hi'', hruns⟩ := ihr (i := k) (by rw [hk, hi'])
    refine ⟨i'', hi'', fun out => ?_⟩
    obtain ⟨kvs, hloop⟩ := hruns (out ++ [(key, j)])
    exact ⟨kvs, RunsLoop.step ((hfollows out).runs (hitem _)) hloop⟩

theorem isWhitespace_head {t r : Bytes} {c : UInt8} (h : skipBlank t = c :: r) :
    Ascii.isWhitespace c = false := by
  have hhead := List.head?_dropWhile_not Ascii.isWhitespace t
  rw [skipBlank] at h
  rw [h] at hhead
  exact hhead

/-- In front of a stray byte `parse_array` pushes empty numbers and stays. -/
theorem stray_round {c : UInt8} (hc : isStray c = true) {i : ℕ} {r : Bytes}
    (h : skipBlank (b.drop i) = c :: r) (out : List Json) :
    FatedLoop (fun n d => arrayBody b (parseValue b n d)) out i .goesOn := by
  simp only [isStray, Bool.and_eq_true, Bool.not_eq_true', bne_iff_ne] at hc
  obtain ⟨⟨⟨hopens, hnum⟩, hbracket⟩, hcomma⟩ := hc
  refine FatedLoop.round (fun _ i => skipBlank (b.drop i) = c :: r) h (N := 1) ?_
  intro n _ d hd out i h
  obtain ⟨d, rfl⟩ : ∃ e, d = e + 1 := ⟨d - 1, by omega⟩
  have hdrop : b.drop (skipTo b i) = c :: r := (drop_skipTo b i).trans h
  have hskip : skipTo b (skipTo b i) = skipTo b i := skipTo_token hdrop (isWhitespace_head h)
  have hvalue : (parseValue b n (d + 1)).run (skipTo b i) = (.done (.num []), skipTo b i) := by
    rw [parseValue_succ, bind_done (skipWs_run b _), hskip, bind_done (peek_run hdrop),
      valueAt_other hopens]
    have hstops : Stops (c :: r) := hnum
    exact parseNumber_run (t := []) (fun _ hx => absurd hx List.not_mem_nil) hstops hdrop
  refine ⟨out ++ [.num []], skipTo b i, by rw [drop_skipTo, skipBlank_skipBlank, h], ?_⟩
  unfold arrayBody
  rw [bind_done (skipWs_run b i), bind_done (peek_run hdrop),
    if_neg (by simpa using hbracket), bind_done hvalue, bind_done (skipWs_run b _), hskip, skipComma]
  -- and no comma is stepped over
  have hstay : (peek b >>= fun c => if c == Ascii.comma then advance 1 else pure ()).run
      (skipTo b i) = (.done (), skipTo b i) := by
    rw [bind_done (peek_run hdrop), if_neg (by simpa using hcomma)]
    rfl
  rw [bind_done hstay]
  rfl

/-! ### The fate of what is due -/

section

variable {t r : Bytes} {f : Fate}

/-- Behind an opening bracket the fate is that of the loop. -/
theorem opens_fated {c : UInt8} {g : Due}
    (hc : c = Ascii.lbracket ∧ g = .elements ∨ c = Ascii.lbrace ∧ g = .members)
    (h : skipBlank (b.drop i) = c :: r)
    (hloop : ∀ p, skipBlank (b.drop p) = skipBlank r → FatedDue b f g p) :
    FatedDue b f .value i := by
  have hdrop : b.drop (skipTo b i) = c :: r := (drop_skipTo b i).trans h
  have hinner := hloop (skipTo b i + 1) (by rw [drop_byte hdrop])
  rcases hc with ⟨rfl, rfl⟩ | ⟨rfl, rfl⟩
  · exact fated_value h (Fated.bind_eq (advance_run 1 _) (hinner []).fated)
  · exact fated_value h (Fated.bind_eq (advance_run 1 _) (hinner []).fated)

/-- A value that does not return keeps the loop of an array from returning. -/
theorem element_fated (hat : AtElement t) (hi : skipBlank (b.drop i) = skipBlank t)
    (hf : f ≠ .returns) (hvalue : ∀ p, skipBlank (b.drop p) = skipBlank t → FatedDue b f .value p) :
    FatedDue b f .elements i := by
  obtain ⟨c, x, h, hc⟩ := hat
  intro out
  have hhere := hvalue (skipTo b i) (by rw [drop_skipTo, skipBlank_skipBlank, hi])
  apply FatedLoop.here _ hf
  exact (arrayBody_follows (hi.trans h) hc out).fated (itemRest_fated hhere hf _)

/-- A value that returns before the end of the text leaves the loop where its gap ends. -/
theorem nextElement_fated (hat : AtElement t) (hi : skipBlank (b.drop i) = skipBlank t)
    (heats : Eats .value t r) (hr : skipBlank r ≠ [])
    (hloop : ∀ p, skipBlank (b.drop p) = skipBlank (skipGap r) → FatedDue b f .elements p) :
    FatedDue b f .elements i := by
  obtain ⟨c, x, h, hc⟩ := hat
  obtain ⟨i', hi', j, hvalue⟩ := heats.runs (i := skipTo b i)
    (by rw [drop_skipTo, skipBlank_skipBlank, hi])
  obtain ⟨k, hk, hitem⟩ := itemRest_runs (β := List Json) hvalue (by rw [hi']; exact hr)
  intro out
  apply FatedLoop.step ((arrayBody_follows (hi.trans h) hc out).runs (hitem _))
  exact hloop k (by rw [hk, hi']) _

theorem member_fated (hkey : KeyThen t r) (hi : skipBlank (b.drop i) = skipBlank t)
    (hf : f ≠ .returns) (hvalue : ∀ p, skipBlank (b.drop p) = skipBlank r → FatedDue b f .value p) :
    FatedDue b f .members i := by
  obtain ⟨key, p, hp, hfollows⟩ := objectBody_follows (hkey.congr hi)
  intro out
  apply FatedLoop.here _ hf
  exact (hfollows out).fated (itemRest_fated (hvalue p (by rw [hp])) hf _)

theorem nextMember_fated {r₁ : Bytes} (hkey : KeyThen t r) (hi : skipBlank (b.drop i) = skipBlank t)
    (heats : Eats .value r r₁) (hr : skipBlank r₁ ≠ [])
    (hloop : ∀ p, skipBlank (b.drop p) = skipBlank (skipGap r₁) → FatedDue b f .members p) :
    FatedDue b f .members i := by
  obtain ⟨key, p, hp, hfollows⟩ := objectBody_follows (hkey.congr hi)
  obtain ⟨i', hi', j, hvalue⟩ := heats.runs (i := p) (by rw [hp])
  obtain ⟨k, hk, hitem⟩ :=
    itemRest_runs (β := List (Bytes × Json)) hvalue (by rw [hi']; exact hr)
  intro out
  apply FatedLoop.step ((hfollows out).runs (hitem _))
  exact hloop k (by rw [hk, hi']) _

end

/-- A text on which the grammar is stuck, the parser does not come to the end of. -/
theorem Sticks.goesOn {g : Due} {t : Bytes} (h : Sticks g t) {i : ℕ}
    (hi : skipBlank (b.drop i) = skipBlank t) : FatedDue b .goesOn g i := by
  have hgoes : Fate.goesOn ≠ Fate.returns := by decide
  induction h generalizing i with
  | stray h hc => exact stray_round hc (hi.trans h)
  | @element t hval ih =>
    -- only a bracket or a brace can be stuck, and both are elements
    have hat : AtElement t := by
      cases hval with
      | array h _ => exact ⟨_, _, h, by decide⟩
      | object h _ => exact ⟨_, _, h, by decide⟩
    exact element_fated hat hi hgoes fun p hp => ih hp
  | nextElement hat heats hrest ih =>
    exact nextElement_fated hat hi heats (skipGap_nonempty hrest.nonempty) fun p hp => ih hp
  | array h _ ih => exact opens_fated (.inl ⟨rfl, rfl⟩) (hi.trans h) fun p hp => ih hp
  | object h _ ih => exact opens_fated (.inr ⟨rfl, rfl⟩) (hi.trans h) fun p hp => ih hp
  | member hkey _ ih => exact member_fated hkey hi hgoes fun p hp => ih hp
  | nextMember hkey heats hrest ih =>
    exact nextMember_fated hkey hi heats (skipGap_nonempty hrest.nonempty) fun p hp => ih hp

/-! ## Strings that are not read -/

/-- A body is closed by a quote, or the loop of `parse_string` runs out of the text. -/
theorem body_cases (x : Bytes) :
    (∃ raw r, x = raw ++ Ascii.quote :: r ∧ RawBody raw) ∨
      ∀ (b : Bytes) (p : ℕ) (acc : Bytes), b.drop p = x →
        FatedLoop (fun _ _ => stringBody b) acc p .stops := by
  -- at the end of the text, or at a backslash in front of it, the loop stops
  have hend : ∀ (b : Bytes) (p : ℕ) (acc : Bytes),
      b.drop p = [] ∨ b.drop p = [Ascii.backslash] →
      FatedLoop (fun _ _ => stringBody b) acc p .stops := by
    intro b p acc h
    obtain ⟨q, hq⟩ := stringBody_end h acc
    exact FatedLoop.here (Fated.of_eq (by rw [hq]; rfl)) (by decide)
  induction hn : x.length using Nat.strong_induction_on generalizing x with
  | _ n ih =>
    cases x with
    | nil => exact .inr fun b p acc h => hend b p acc (.inl h)
    | cons c x =>
      by_cases hq : c = Ascii.quote
      · exact .inl ⟨[], x, by rw [hq]; rfl, .nil⟩
      by_cases hb : c = Ascii.backslash
      · subst hb
        cases x with
        | nil => exact .inr fun b p acc h => hend b p acc (.inr h)
        | cons e x =>
          -- an escape takes the byte behind the backslash with it
          rcases ih x.length (by rw [← hn]; simp only [List.length_cons]; omega) x rfl with
            ⟨raw, r, rfl, hraw⟩ | hrest
          · exact .inl ⟨Ascii.backslash :: e :: raw, r, rfl, .escape hraw⟩
          · right
            intro b p acc h
            exact FatedLoop.step (Runs.of_eq (stringBody_escape h acc))
              (hrest b _ _ (drop_byte (drop_byte h)))
      · rcases ih x.length (by rw [← hn]; exact Nat.lt_succ_self _) x rfl with
          ⟨raw, r, rfl, hraw⟩ | hrest
        · exact .inl ⟨c :: raw, r, rfl, .plain hq hb hraw⟩
        · right
          intro b p acc h
          exact FatedLoop.step (Runs.of_eq (stringBody_plain h hq hb acc))
            (hrest b _ _ (drop_byte h))

/-- A text starts with a string, or `parse_string` stops on it. -/
theorem string_cases (x : Bytes) :
    (∃ raw r, x = quoted raw ++ r ∧ RawBody raw ∧ Utf8 (lenient raw)) ∨
      ∀ (b : Bytes) (p : ℕ), b.drop p = x → Fated (fun n _ => parseString b n) p .stops := by
  have hstops : Fate.stops ≠ Fate.returns := by decide
  cases x with
  | nil =>
    right
    intro b p h
    refine ⟨0, fun n _ _ _ => bind_fate _ ?_ hstops⟩
    rw [peek_end h]
    rfl
  | cons c x =>
    by_cases hc : c = Ascii.quote
    · subst hc
      have hquote : (Ascii.quote != Ascii.quote) = false := rfl
      rcases body_cases x with ⟨raw, r, rfl, hraw⟩ | hend
      · by_cases hutf8 : Utf8 (lenient raw)
        · left
          refine ⟨raw, r, ?_, hraw, hutf8⟩
          rw [quoted, List.cons_append, List.append_assoc, List.singleton_append]
        · -- the body is closed, and its bytes are no text
          right
          intro b p h
          unfold parseString
          apply Fated.bind_eq (peek_run h)
          simp only [hquote, Bool.false_eq_true, if_false]
          apply Fated.bind_eq (advance_run 1 p)
          apply (stringLoop_runs hraw (drop_byte h) []).runs.bind_fated
          apply Fated.bind_eq (advance_run 1 _)
          apply Fated.of_eq
          rw [List.nil_append, if_neg (mt (isUtf8_iff _).1 hutf8)]
          rfl
      · right
        intro b p h
        unfold parseString
        apply Fated.bind_eq (peek_run h)
        simp only [hquote, Bool.false_eq_true, if_false]
        apply Fated.bind_eq (advance_run 1 p)
        exact (hend b (p + 1) [] (drop_byte h)).fated.bind _ hstops
    · right
      intro b p h
      refine ⟨0, fun n _ _ _ => ?_⟩
      unfold parseString
      rw [bind_done (peek_run h), if_pos (by simpa using hc)]
      rfl

/-! ## Every text -/

theorem length_skipBlank (t : Bytes) : (skipBlank t).length ≤ t.length :=
  (List.dropWhile_suffix _).length_le

theorem length_skipGap (t : Bytes) : (skipGap t).length ≤ t.length := by
  have h := length_skipBlank t
  unfold skipGap
  split
  · next c r hc =>
    rw [hc, List.length_cons] at h
    split
    · omega
    · rw [List.length_cons]
      exact h
  · exact Nat.zero_le _

theorem KeyThen.length_lt {t r : Bytes} (h : KeyThen t r) : r.length < (skipBlank t).length := by
  obtain ⟨raw, r₁, hkey, -, -, hcolon⟩ := h
  have h₁ := length_skipBlank r₁
  rw [hcolon, List.length_cons] at h₁
  rw [hkey, List.length_append]
  omega

/-- Nothing is put back. -/
theorem Eats.length_le {g : Due} {t r : Bytes} (h : Eats g t r) :
    r.length ≤ (skipBlank t).length := by
  induction h with
  | string h _ _ =>
    rw [h, List.length_append]
    exact Nat.le_add_left _ _
  | true' h => rw [h, List.length_drop, List.length_cons]; omega
  | false' h => rw [h, List.length_drop, List.length_cons]; omega
  | null h => rw [h, List.length_drop, List.length_cons]; omega
  | number h _ =>
    rw [h]
    exact (List.dropWhile_suffix _).length_le
  | @array t r r' h _ ih =>
    have hr := length_skipBlank r
    rw [h, List.length_cons]
    omega
  | @object t r r' h _ ih =>
    have hr := length_skipBlank r
    rw [h, List.length_cons]
    omega
  | rbracket h => rw [h, List.length_cons]; omega
  -- a list is as short as what its first value leaves
  | @element t r r' _ _ _ ihv ihr =>
    have h₁ := length_skipBlank (skipGap r)
    have h₂ := length_skipGap r
    omega
  | rbrace h => rw [h, List.length_cons]; omega
  | @member t r r₁ r' hkey _ _ ihv ihr =>
    have h₁ := length_skipBlank (skipGap r₁)
    have h₂ := length_skipGap r₁
    have h₃ := length_skipBlank r
    have h₄ := hkey.length_lt
    omega

/-- What is left behind a word that starts at the first byte. -/
theorem length_drop_lt {t x l : Bytes} {b c : UInt8} (hx : x.length < t.length)
    (h : c :: x = b :: l) (k : ℕ) : (l.drop k).length < t.length := by
  obtain ⟨-, rfl⟩ := List.cons.inj h
  rw [List.length_drop]
  omega

theorem Eats.length_lt {t r x : Bytes} {c : UInt8} (h : Eats .value t r)
    (hc : skipBlank t = c :: x) (heats : opensValue c = true ∨ isNumChar c = true) :
    r.length < t.length := by
  have ht := length_skipBlank t
  rw [hc, List.length_cons] at ht
  cases h with
  | @string t raw r h hraw hutf8 =>
    have hlen := congrArg List.length (hc.symm.trans h)
    rw [quoted, List.length_append, List.length_cons, List.length_cons] at hlen
    omega
  | true' h => exact length_drop_lt (by omega) (hc.symm.trans h) 3
  | false' h => exact length_drop_lt (by omega) (hc.symm.trans h) 4
  | null h => exact length_drop_lt (by omega) (hc.symm.trans h) 3
  -- a number takes the byte that starts it
  | number h hopens =>
    obtain ⟨rfl, rfl⟩ := List.cons.inj (hc.symm.trans h)
    have hnum : isNumChar c = true := by
      rcases heats with hyes | hnum
      · rw [hopens] at hyes
        cases hyes
      · exact hnum
    rw [List.dropWhile_cons_of_pos hnum]
    have hle := (List.dropWhile_suffix (l := x) isNumChar).length_le
    omega
  | array h hrest =>
    obtain ⟨-, rfl⟩ := List.cons.inj (hc.symm.trans h)
    have hle := hrest.length_le
    have hx := length_skipBlank x
    omega
  | object h hrest =>
    obtain ⟨-, rfl⟩ := List.cons.inj (hc.symm.trans h)
    have hle := hrest.length_le
    have hx := length_skipBlank x
    omega

/-- A byte that is not stray is stepped over, with the comma behind the value at the latest. -/
theorem Eats.progress {t r x : Bytes} {c : UInt8} (h : Eats .value t r) (hc : skipBlank t = c :: x)
    (hbracket : c ≠ Ascii.rbracket) (hstray : isStray c = false) :
    (skipGap r).length < t.length := by
  have hgap := length_skipGap r
  by_cases heats : opensValue c = true ∨ isNumChar c = true
  · have hlt := h.length_lt hc heats
    omega
  · rw [not_or, Bool.not_eq_true, Bool.not_eq_true] at heats
    obtain ⟨hopens, hnum⟩ := heats
    -- what is left is the comma, taken for a number without digits
    have hcomma : c = Ascii.comma := by
      simpa [isStray, hopens, hnum, hbracket] using hstray
    subst hcomma
    have ht := length_skipBlank t
    rw [hc, List.length_cons] at ht
    have hr : r = Ascii.comma :: x := by
      cases h with
      | number h _ =>
        obtain ⟨rfl, rfl⟩ := List.cons.inj (hc.symm.trans h)
        exact List.dropWhile_cons_of_neg (by decide)
      | string h _ _ => exact absurd (List.cons.inj (hc.symm.trans h)).1 (by decide)
      | _ h => exact absurd (List.cons.inj (hc.symm.trans h)).1 (by decide)
    rw [hr]
    exact ht

/-- Reading what is due is stuck, comes to an end or stops. -/
def Settled (g : Due) (t : Bytes) : Prop :=
  Sticks g t ∨ (∃ r, Eats g t r) ∨
    ∀ (b : Bytes) (i : ℕ), skipBlank (b.drop i) = skipBlank t → FatedDue b .stops g i

/-- At the end of the text nothing is read. -/
theorem skipWs_end {f : UInt8 → Scan β} (h : skipBlank (b.drop i) = []) :
    ((skipWs b >>= fun _ => peek b >>= f).run i).1.fate = .stops := by
  rw [bind_done (skipWs_run b i)]
  apply bind_fate _ _ (by decide)
  rw [peek_end ((drop_skipTo b i).trans h)]
  rfl

theorem settled_value {t : Bytes} (ih : ∀ r : Bytes, r.length < t.length → ∀ g, Settled g r) :
    Settled .value t := by
  have hstops : Fate.stops ≠ Fate.returns := by decide
  rcases ht : skipBlank t with - | ⟨c, r⟩
  · right; right
    intro b i hi
    exact Fated.call (fun n d => parseValue_succ b n d) (Fated.of_end (skipWs_end (hi.trans ht)))
  have hlt : r.length < t.length := by
    have hle := length_skipBlank t
    rw [ht, List.length_cons] at hle
    omega
  -- the first byte decides
  by_cases hc : opensValue c = false
  · exact .inr (.inl ⟨_, .number ht hc⟩)
  simp only [opensValue, Bool.or_eq_false_iff, not_and_or, Bool.not_eq_false, beq_iff_eq] at hc
  rcases hc with ((((rfl | rfl) | rfl) | rfl) | rfl) | rfl
  · rcases ih r hlt .members with hstuck | ⟨r', heats⟩ | hfate
    · exact .inl (.object ht hstuck)
    · exact .inr (.inl ⟨r', .object ht heats⟩)
    · right; right
      intro b i hi
      exact opens_fated (.inr ⟨rfl, rfl⟩) (hi.trans ht) (hfate b)
  · rcases ih r hlt .elements with hstuck | ⟨r', heats⟩ | hfate
    · exact .inl (.array ht hstuck)
    · exact .inr (.inl ⟨r', .array ht heats⟩)
    · right; right
      intro b i hi
      exact opens_fated (.inl ⟨rfl, rfl⟩) (hi.trans ht) (hfate b)
  · rcases string_cases (Ascii.quote :: r) with ⟨raw, r', h, hraw, hutf8⟩ | hend
    · exact .inr (.inl ⟨r', .string (ht.trans h) hraw hutf8⟩)
    · right; right
      intro b i hi
      have hstring := hend b (skipTo b i) ((drop_skipTo b i).trans (hi.trans ht))
      exact fated_value (hi.trans ht) (hstring.bind _ hstops)
  · exact .inr (.inl ⟨_, .true' ht⟩)
  · exact .inr (.inl ⟨_, .false' ht⟩)
  · exact .inr (.inl ⟨_, .null ht⟩)

theorem settled_elements {t : Bytes} (ih : ∀ r : Bytes, r.length < t.length → ∀ g, Settled g r) :
    Settled .elements t := by
  have hstops : Fate.stops ≠ Fate.returns := by decide
  rcases ht : skipBlank t with - | ⟨c, x⟩
  · right; right
    intro b i hi out
    exact FatedLoop.here (Fated.of_end (skipWs_end (hi.trans ht))) hstops
  by_cases hbracket : c = Ascii.rbracket
  · subst hbracket
    exact .inr (.inl ⟨x, .rbracket ht⟩)
  -- a stray byte is never taken, so the loop stays on it
  cases hstray : isStray c with
  | true => exact .inl (.stray ht hstray)
  | false =>
    have hat : AtElement t := ⟨c, x, ht, hbracket⟩
    rcases settled_value ih with hstuck | ⟨r, heats⟩ | hfate
    · exact .inl (.element hstuck)
    -- behind the value the text ends, or the rest of the list is shorter
    · by_cases hend : skipBlank r = []
      · right; right
        intro b i hi out
        obtain ⟨i', hi', j, hvalue⟩ := heats.runs (i := skipTo b i)
          (by rw [drop_skipTo, skipBlank_skipBlank, hi])
        apply FatedLoop.here _ hstops
        apply (arrayBody_follows (hi.trans ht) hbracket out).fated
        exact itemRest_end hvalue (by rw [hi', hend]) _
      · rcases ih _ (heats.progress ht hbracket hstray) .elements with hstuck | ⟨r', hrest⟩ | hfate
        · exact .inl (.nextElement hat heats hstuck)
        · exact .inr (.inl ⟨r', .element hat heats hrest⟩)
        · right; right
          intro b i hi
          exact nextElement_fated hat hi heats hend (hfate b)
    · right; right
      intro b i hi
      exact element_fated hat hi hstops (hfate b)

/-- What becomes of a member whose key and colon are read. -/
theorem settled_member {t r : Bytes} (hkey : KeyThen t r)
    (ih : ∀ r : Bytes, r.length < t.length → ∀ g, Settled g r) : Settled .members t := by
  have hstops : Fate.stops ≠ Fate.returns := by decide
  have hlt : r.length < t.length := hkey.length_lt.trans_le (length_skipBlank t)
  rcases ih r hlt .value with hstuck | ⟨r₁, heats⟩ | hfate
  · exact .inl (.member hkey hstuck)
  -- behind the value the text ends, or the rest of the object is shorter
  · by_cases hend : skipBlank r₁ = []
    · right; right
      intro b i hi out
      obtain ⟨key, p, hp, hfollows⟩ := objectBody_follows (hkey.congr hi)
      obtain ⟨i', hi', j, hvalue⟩ := heats.runs (i := p) (by rw [hp])
      apply FatedLoop.here _ hstops
      apply (hfollows out).fated
      exact itemRest_end hvalue (by rw [hi', hend]) _
    · have hle : (skipGap r₁).length < t.length := by
        have h₁ := heats.length_le
        have h₂ := length_skipBlank r
        have h₃ := length_skipGap r₁
        omega
      rcases ih _ hle .members with hstuck | ⟨r', hrest⟩ | hfate
      · exact .inl (.nextMember hkey heats hstuck)
      · exact .inr (.inl ⟨r', .member hkey heats hrest⟩)
      · right; right
        intro b i hi
        exact nextMember_fated hkey hi heats hend (hfate b)
  · right; right
    intro b i hi
    exact member_fated hkey hi hstops (hfate b)

theorem settled_members {t : Bytes} (ih : ∀ r : Bytes, r.length < t.length → ∀ g, Settled g r) :
    Settled .members t := by
  have hstops : Fate.stops ≠ Fate.returns := by decide
  rcases ht : skipBlank t with - | ⟨c, x⟩
  · right; right
    intro b i hi out
    exact FatedLoop.here (Fated.of_end (skipWs_end (hi.trans ht))) hstops
  by_cases hbrace : c = Ascii.rbrace
  · subst hbrace
    exact .inr (.inl ⟨x, .rbrace ht⟩)
  rcases string_cases (c :: x) with ⟨raw, r₁, h, hraw, hutf8⟩ | hstring
  · by_cases hcolon : ∃ r, skipBlank r₁ = Ascii.colon :: r
    · obtain ⟨r, hr⟩ := hcolon
      exact settled_member ⟨raw, r₁, ht.trans h, hraw, hutf8, hr⟩ ih
    · -- behind the key comes the end of the text, or a byte that is no colon
      right; right
      intro b i hi out
      have hi' := hi.trans ht
      have hdrop : b.drop (skipTo b i) = quoted raw ++ r₁ := (drop_skipTo b i).trans (hi'.trans h)
      have hnext := drop_text hdrop
      obtain ⟨N, hN⟩ := parseString_runs hraw hutf8 hdrop
      apply FatedLoop.here _ hstops
      refine ⟨N, fun n hn d _ => ?_⟩
      rw [objectBody_run hi' hbrace, bind_done (hN n hn N (Nat.le_refl N)), keyRest]
      rcases hr : skipBlank r₁ with - | ⟨e, r⟩
      · exact skipWs_end (by rw [hnext, hr])
      · have he : e ≠ Ascii.colon := by
          rintro rfl
          exact hcolon ⟨r, hr⟩
        rw [bind_done (skipWs_run b _), bind_done (peek_skipTo (by rw [hnext, hr])),
          if_pos (by simpa using he)]
        rfl
  · right; right
    intro b i hi out
    obtain ⟨N, hN⟩ := hstring b (skipTo b i) ((drop_skipTo b i).trans (hi.trans ht))
    apply FatedLoop.here _ hstops
    refine ⟨N, fun n hn d hd => ?_⟩
    rw [objectBody_run (hi.trans ht) hbrace]
    exact bind_fate _ (hN n hn d hd) hstops

/-- Every text is read, stopped at or stuck on. -/
theorem settled (g : Due) (t : Bytes) : Settled g t := by
  induction hn : t.length using Nat.strong_induction_on generalizing g t with
  | _ n ih =>
    have hshorter : ∀ r : Bytes, r.length < t.length → ∀ g, Settled g r :=
      fun r hr g => ih r.length (hn ▸ hr) g r rfl
    cases g with
    | value => exact settled_value hshorter
    | elements => exact settled_elements hshorter
    | members => exact settled_members hshorter

/-- `json::parse` returns or panics: from some bounds on, no bound is used up. -/
def Json.Ends (b : Bytes) : Prop :=
  ∃ N, ∀ n ≥ N, ∀ d ≥ N, ((parseValue b n d).run 0).1.fate ≠ .goesOn

theorem Json.Ends.of_fated {f : Fate} (h : Fated (fun n d => parseValue b n d) 0 f)
    (hf : f ≠ .goesOn) : Json.Ends b := by
  obtain ⟨N, hN⟩ := h
  refine ⟨N, fun n hn d hd => ?_⟩
  rw [hN n hn d hd]
  exact hf

/-- `json::parse` comes to an end unless a byte that starts no value, and is neither a closing
bracket nor a comma, stands where an element of an array is due. -/
theorem parse_ends_iff (b : Bytes) : Json.Ends b ↔ ¬ Sticks .value b := by
  constructor
  · rintro ⟨N, hN⟩ hstuck
    obtain ⟨M, hM⟩ : Fated (fun n d => parseValue b n d) 0 .goesOn := hstuck.goesOn rfl
    exact hN (max N M) (by omega) (max N M) (by omega) (hM _ (by omega) _ (by omega))
  · intro hstuck
    rcases settled .value b with h | ⟨r, heats⟩ | hfate
    · exact absurd h hstuck
    · obtain ⟨i', -, j, hruns⟩ := heats.runs (b := b) (i := 0) rfl
      exact Json.Ends.of_fated hruns.fated (by decide)
    · exact Json.Ends.of_fated (hfate b 0 rfl) (by decide)

/-- `[x` -/
theorem parse_bracket_x : ¬ Json.Ends [Ascii.lbracket, 0x78] := by
  rintro ⟨N, hN⟩
  have hstuck : Sticks .value [Ascii.lbracket, 0x78] :=
    .array (r := [0x78]) rfl (.stray (r := []) rfl rfl)
  obtain ⟨M, hM⟩ : Fated (fun n d => parseValue [Ascii.lbracket, 0x78] n d) 0 .goesOn :=
    hstuck.goesOn rfl
  exact hN (max N M) (by omega) (max N M) (by omega) (hM _ (by omega) _ (by omega))

end Bilbo
