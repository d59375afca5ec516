import Bilbo.Literals

/-!
# Skipping over a value

`rt_skip` byte by byte, with every load checked against `end`: it never loads at or past
`end`, and on a JSON value it stops right behind it. Where the input ends in the middle of
a string it returns a cursor past `end`.
-/

namespace Bilbo

open Base Comp

variable {inp : Input}

/-! ## The loops -/

section

variable {β : Type} (cursor : β → ℕ) (step : UInt8 → β → β ⊕ ℕ)

/-- One iteration of `while cur < end`: the byte at the cursor decides whether the loop goes
on. -/
def whileBody (inp : Input) (x : β) : M (β ⊕ ℕ) :=
  if cursor x < inp.stop then do
    let b ← loadU8 inp (cursor x)
    pure (step b x)
  else pure (.inr (cursor x))

variable {cursor step}

theorem whileBody_end {x : β} (h : inp.stop ≤ cursor x) (s : State) :
    RunsLoop (fun _ _ => whileBody cursor step inp) x s (cursor x) s := by
  apply RunsLoop.exit
  unfold whileBody
  rw [if_neg (by omega)]
  exact Runs.pure _ s

theorem whileBody_run {x : β} {b : UInt8} {r : Bytes} (h : inp.rest (cursor x) = b :: r)
    (s : State) : Runs (fun _ _ => whileBody cursor step inp x) s (step b x) s := by
  unfold whileBody
  rw [if_pos (Input.rest_cons h).1]
  exact Runs.bind_eq (loadU8_run h s) (Runs.pure _ s)

theorem whileBody_leave {x : β} {b : UInt8} {r : Bytes} {e : ℕ}
    (h : inp.rest (cursor x) = b :: r) (hstep : step b x = .inr e) (s : State) :
    RunsLoop (fun _ _ => whileBody cursor step inp) x s e s := by
  apply RunsLoop.exit
  rw [← hstep]
  exact whileBody_run h s

theorem whileBody_goOn {x x' : β} {b : UInt8} {r : Bytes} {e : ℕ} {s : State}
    (h : inp.rest (cursor x) = b :: r) (hstep : step b x = .inl x')
    (hloop : RunsLoop (fun _ _ => whileBody cursor step inp) x' s e s) :
    RunsLoop (fun _ _ => whileBody cursor step inp) x s e s := by
  refine RunsLoop.step ?_ hloop
  rw [← hstep]
  exact whileBody_run h s

end

theorem stop_le_of_rest {c : ℕ} (h : inp.rest c = []) : inp.stop ≤ c := by
  have hlen := congrArg List.length h
  rw [Input.length_rest, List.length_nil] at hlen
  omega

/-- The loop of `rt_ws`. -/
def wsStep (b : UInt8) (c : ℕ) : ℕ ⊕ ℕ := if isws b then .inl (c + 1) else .inr c

/-- The loop behind the opening quote. -/
def stringStep (b : UInt8) (c : ℕ) : ℕ ⊕ ℕ :=
  if b == Ascii.quote then .inr c
  else if b == Ascii.backslash then .inl (c + 2)
  else .inl (c + 1)

/-- The loop inside brackets: `in_str`, the depth and the cursor. -/
def nestedStep (b : UInt8) (x : Bool × ℤ × ℕ) : (Bool × ℤ × ℕ) ⊕ ℕ :=
  let (inStr, depth, c) := x
  if inStr then
    if b == Ascii.backslash then .inl (true, depth, c + 2)
    else .inl (b != Ascii.quote, depth, c + 1)
  else if b == Ascii.quote then .inl (true, depth, c + 1)
  else if b == Ascii.lbrace || b == Ascii.lbracket then .inl (false, wrapI32 (depth + 1), c + 1)
  else if b == Ascii.rbrace || b == Ascii.rbracket then
    if wrapI32 (depth - 1) = 0 then .inr (c + 1) else .inl (false, wrapI32 (depth - 1), c + 1)
  else .inl (false, depth, c + 1)

/-- The loop over a scalar. -/
def scalarStep (b : UInt8) (c : ℕ) : ℕ ⊕ ℕ := if endsScalar b then .inr c else .inl (c + 1)

/-- `rt_skip`, load by load. -/
def skipBytes (inp : Input) (n cur : ℕ) : M ℕ := do
  let c ← loop (whileBody id wsStep inp) n cur
  if c < inp.stop then do
    let b ← loadU8 inp c
    if b == Ascii.quote then do
      let e ← loop (whileBody id stringStep inp) n (c + 1)
      pure (e + 1)
    else if b == Ascii.lbrace || b == Ascii.lbracket then
      loop (whileBody (fun x => x.2.2) nestedStep inp) n (false, 0, c)
    else loop (whileBody id scalarStep inp) n c
  else pure c

theorem ws_loop (inp : Input) (c : ℕ) (s : State) :
    RunsLoop (fun _ _ => whileBody id wsStep inp) c s (rtWs inp c) s := by
  rw [rtWs]
  generalize hr : inp.rest c = r
  induction r generalizing c with
  | nil => exact whileBody_end (x := c) (stop_le_of_rest hr) s
  | cons b r ih =>
    have hrest := (Input.rest_cons hr).2.2
    cases hb : isws b with
    | true =>
      rw [List.takeWhile_cons_of_pos hb, List.length_cons, Nat.add_comm _ 1, ← Nat.add_assoc]
      exact whileBody_goOn hr (if_pos hb) (ih (c + 1) hrest)
    | false =>
      rw [List.takeWhile_cons_of_neg (by rw [hb]; decide)]
      exact whileBody_leave hr (if_neg (by rw [hb]; decide)) s

theorem scalar_loop (inp : Input) (c : ℕ) (s : State) :
    RunsLoop (fun _ _ => whileBody id scalarStep inp) c s
      (c + ((inp.rest c).takeWhile fun b => !endsScalar b).length) s := by
  generalize hr : inp.rest c = r
  induction r generalizing c with
  | nil => exact whileBody_end (x := c) (stop_le_of_rest hr) s
  | cons b r ih =>
    have hrest := (Input.rest_cons hr).2.2
    cases hb : endsScalar b with
    | true =>
      rw [List.takeWhile_cons_of_neg (by rw [hb]; decide)]
      exact whileBody_leave hr (if_pos hb) s
    | false =>
      rw [List.takeWhile_cons_of_pos (by rw [hb]; rfl), List.length_cons, Nat.add_comm _ 1,
        ← Nat.add_assoc]
      exact whileBody_goOn hr (if_neg (by rw [hb]; decide)) (ih (c + 1) hrest)

theorem string_loop (inp : Input) (c : ℕ) (s : State) :
    RunsLoop (fun _ _ => whileBody id stringStep inp) c s (skipString (inp.rest c) c) s := by
  generalize hr : inp.rest c = r
  fun_induction skipString r c with
  | case1 c => exact whileBody_end (x := c) (stop_le_of_rest hr) s
  | case2 b r c hq => exact whileBody_leave hr (if_pos hq) s
  | case3 b c hq hb =>
    -- the backslash is the last byte: the cursor leaves past `end`
    have hend := stop_le_of_rest (Input.rest_cons hr).2.2
    have hstep : stringStep b c = .inl (c + 2) := by rw [stringStep, if_neg hq, if_pos hb]
    have hpast : inp.stop ≤ c + 2 := Nat.le_succ_of_le hend
    exact whileBody_goOn hr hstep (whileBody_end (x := c + 2) hpast s)
  | case4 b c hq hb e r ih =>
    have hstep : stringStep b c = .inl (c + 2) := by rw [stringStep, if_neg hq, if_pos hb]
    have hrest := (Input.rest_cons (Input.rest_cons hr).2.2).2.2
    exact whileBody_goOn hr hstep (ih hrest)
  | case5 b r c hq hb ih =>
    have hstep : stringStep b c = .inl (c + 1) := by rw [stringStep, if_neg hq, if_neg hb]
    exact whileBody_goOn hr hstep (ih (Input.rest_cons hr).2.2)

theorem nested_loop (inp : Input) (inStr : Bool) (depth : ℤ) (c : ℕ) (s : State) :
    RunsLoop (fun _ _ => whileBody (fun x => x.2.2) nestedStep inp) (inStr, depth, c) s
      (skipNested (inp.rest c) inStr depth c) s := by
  generalize hr : inp.rest c = r
  fun_induction skipNested r inStr depth c with
  | case1 i d c => exact whileBody_end (x := (i, d, c)) (stop_le_of_rest hr) s
  | case2 b d c hb =>
    -- inside a string, a backslash is the last byte
    have hend := stop_le_of_rest (Input.rest_cons hr).2.2
    have hstep : nestedStep b (true, d, c) = .inl (true, d, c + 2) := if_pos hb
    have hpast : inp.stop ≤ c + 2 := Nat.le_succ_of_le hend
    exact whileBody_goOn hr hstep (whileBody_end (x := (true, d, c + 2)) hpast s)
  | case3 b d c hb e r ih =>
    have hstep : nestedStep b (true, d, c) = .inl (true, d, c + 2) := if_pos hb
    have hrest := (Input.rest_cons (Input.rest_cons hr).2.2).2.2
    exact whileBody_goOn hr hstep (ih hrest)
  | case4 b r d c hb ih =>
    have hstep : nestedStep b (true, d, c) = .inl (b != Ascii.quote, d, c + 1) := if_neg hb
    exact whileBody_goOn hr hstep (ih (Input.rest_cons hr).2.2)
  | case5 b r i d c hi hq ih =>
    have hstep : nestedStep b (i, d, c) = .inl (true, d, c + 1) := by
      simp only [nestedStep, if_neg hi, if_pos hq]
    exact whileBody_goOn hr hstep (ih (Input.rest_cons hr).2.2)
  | case6 b r i d c hi hq ho ih =>
    have hstep : nestedStep b (i, d, c) = .inl (false, wrapI32 (d + 1), c + 1) := by
      simp only [nestedStep, if_neg hi, if_neg hq, if_pos ho]
    exact whileBody_goOn hr hstep (ih (Input.rest_cons hr).2.2)
  | case7 b r i d c hi hq ho hc hd =>
    have hstep : nestedStep b (i, d, c) = .inr (c + 1) := by
      simp only [nestedStep, if_neg hi, if_neg hq, if_neg ho, if_pos hc, if_pos hd]
    exact whileBody_leave hr hstep s
  | case8 b r i d c hi hq ho hc hd ih =>
    have hstep : nestedStep b (i, d, c) = .inl (false, wrapI32 (d - 1), c + 1) := by
      simp only [nestedStep, if_neg hi, if_neg hq, if_neg ho, if_pos hc, if_neg hd]
    exact whileBody_goOn hr hstep (ih (Input.rest_cons hr).2.2)
  | case9 b r i d c hi hq ho hc ih =>
    have hstep : nestedStep b (i, d, c) = .inl (false, d, c + 1) := by
      simp only [nestedStep, if_neg hi, if_neg hq, if_neg ho, if_neg hc]
    exact whileBody_goOn hr hstep (ih (Input.rest_cons hr).2.2)

/-- Load by load, `rt_skip` reaches the cursor that the walk over the bytes reaches. -/
theorem skipBytes_runs (inp : Input) (c : ℕ) (s : State) :
    Runs (fun n _ => skipBytes inp n c) s (rtSkip inp c) s := by
  unfold skipBytes
  apply Runs.bind (ws_loop inp c s).runs
  rw [rtSkip]
  generalize rtWs inp c = c
  cases hr : inp.rest c with
  | nil =>
    have hend := stop_le_of_rest hr
    simp only [if_neg (Nat.not_lt.2 hend)]
    exact Runs.pure c s
  | cons b r =>
    obtain ⟨hlt, -, hrest⟩ := Input.rest_cons hr
    simp only [if_pos hlt]
    apply Runs.bind_eq (loadU8_run hr s)
    split
    -- a string, brackets, or a scalar up to its delimiter
    · have hstring := (string_loop inp (c + 1) s).runs
      rw [hrest] at hstring
      exact Runs.bind hstring (Runs.pure _ s)
    · split
      · have hnested := (nested_loop inp false 0 c s).runs
        rw [hr] at hnested
        exact hnested
      · have hscalar := (scalar_loop inp c s).runs
        rw [hr] at hscalar
        exact hscalar

/-! ## JSON values -/

/-- On a JSON value, with white space in front of it and a delimiter behind, `rt_skip` stops right
behind the value. -/
theorem rtSkip_value {n c : ℕ} {w t tail : Bytes} (hw : IsWs w) (ht : NestedJson n t)
    (hn : n < 2 ^ 31) (h : inp.rest c = w ++ (t ++ tail)) (htail : Delim tail) (s : State) :
    rtSkip inp c = c + (w.length + t.length) ∧
      Runs (fun n _ => skipBytes inp n c) s (c + (w.length + t.length)) s := by
  rw [← List.append_assoc] at h
  have hskip := rtSkip_nested (ht.lead hw) hn h htail
  rw [List.length_append] at hskip
  refine ⟨hskip, ?_⟩
  -- the loads follow the walk, wherever it ends
  rw [← hskip]
  exact skipBytes_runs inp c s

/-- `"}\""` -/
def closingText : Bytes := quoted [0x7D, 0x5C, 0x22]

/-- ` ["}\""],` -/
def closingInput : Input :=
  ⟨Ascii.space :: Ascii.lbracket :: (closingText ++ [Ascii.rbracket, Ascii.comma]), fun _ => 0,
    by decide⟩

theorem rtSkip_value_closing :
    rtSkip closingInput 0 = 0 + (1 + 7) ∧
      Runs (fun n _ => skipBytes closingInput n 0) (State.initial 0) (0 + (1 + 7))
        (State.initial 0) := by
  have hraw : RawBody [0x7D, 0x5C, 0x22] := .plain (by decide) (by decide) (.escape .nil)
  have hnil : IsWs [] := fun _ h => absurd h List.not_mem_nil
  have hspace : IsWs [Ascii.space] := fun b hb => by rw [List.mem_singleton.1 hb]; rfl
  have hitem : NestedJson 0 ([] ++ closingText) := .string hnil hraw
  have hitems : ∀ x ∈ [(closingText, ([] : Bytes))], NestedJson 0 x.1 := by
    intro x hx
    rw [List.mem_singleton.1 hx]
    exact hitem
  have hvalue : NestedJson 1 ([] ++ Ascii.lbracket :: arrayText [] [(closingText, [])]) :=
    .array hnil hnil ⟨⟨[], hnil, .inl rfl⟩, .inl rfl, trivial⟩ hitems
  have hrest : closingInput.rest 0 = [Ascii.space] ++
      (([] ++ Ascii.lbracket :: arrayText [] [(closingText, [])]) ++ [Ascii.comma]) := rfl
  exact rtSkip_value hspace hvalue (by decide) hrest rfl (State.initial 0)

/-! ## Text that is cut off -/

/-- Without a closing quote: every quote behind the opening one is escaped. -/
inductive Unclosed : Bytes → Prop
  | body {raw : Bytes} : RawBody raw → Unclosed raw
  | backslash {raw : Bytes} : RawBody raw → Unclosed (raw ++ [Ascii.backslash])

/-- Read from brackets nested `depth` deep, the text ends in a string, behind a backslash that
escapes nothing, and no bracket before closes the first one. -/
inductive Dangling : ℤ → Bytes → Prop
  | cut {d : ℤ} {raw : Bytes} : RawBody raw →
      Dangling d (Ascii.quote :: (raw ++ [Ascii.backslash]))
  | string {d : ℤ} {raw r : Bytes} : RawBody raw → Dangling d r → Dangling d (quoted raw ++ r)
  | opens {d : ℤ} {b : UInt8} {r : Bytes} : b = Ascii.lbrace ∨ b = Ascii.lbracket →
      Dangling (wrapI32 (d + 1)) r → Dangling d (b :: r)
  | closes {d : ℤ} {b : UInt8} {r : Bytes} : b = Ascii.rbrace ∨ b = Ascii.rbracket →
      wrapI32 (d - 1) ≠ 0 → Dangling (wrapI32 (d - 1)) r → Dangling d (b :: r)
  | inner {d : ℤ} {b : UInt8} {r : Bytes} : isInner b = true → Dangling d r → Dangling d (b :: r)

/-- A string without a closing quote, or brackets that dangle. -/
inductive CutOff : Bytes → Prop
  | string {r : Bytes} : Unclosed r → CutOff (Ascii.quote :: r)
  | brackets {b : UInt8} {r : Bytes} : b = Ascii.lbrace ∨ b = Ascii.lbracket →
      Dangling 0 (b :: r) → CutOff (b :: r)

/-- Behind an opening quote stands a body with its closing quote, or there is no closing quote. -/
theorem closed_or_unclosed (r : Bytes) :
    (∃ raw r', RawBody raw ∧ r = raw ++ Ascii.quote :: r') ∨ Unclosed r := by
  fun_induction strBody r with
  | case1 => exact .inr (.body .nil)
  | case2 b r hq =>
    rw [beq_iff_eq] at hq
    exact .inl ⟨[], r, .nil, by rw [hq]; rfl⟩
  | case3 b hq hb =>
    rw [beq_iff_eq] at hb
    rw [hb]
    exact .inr (.backslash .nil)
  -- an escape belongs to the body on either side
  | case4 b hq hb e r ih =>
    rw [beq_iff_eq] at hb
    rw [hb]
    obtain ⟨raw, r', hraw, rfl⟩ | hr := ih
    · exact .inl ⟨_, r', hraw.escape, rfl⟩
    · cases hr with
      | body hraw => exact .inr (.body hraw.escape)
      | backslash hraw => exact .inr (.backslash hraw.escape)
  | case5 b r hq hb ih =>
    rw [beq_iff_eq] at hq hb
    obtain ⟨raw, r', hraw, rfl⟩ | hr := ih
    · exact .inl ⟨_, r', hraw.plain hq hb, rfl⟩
    · cases hr with
      | body hraw => exact .inr (.body (hraw.plain hq hb))
      | backslash hraw => exact .inr (.backslash (hraw.plain hq hb))

theorem RawBody.skipString {raw : Bytes} (h : RawBody raw) (k : ℕ) :
    skipString raw k = k + raw.length := by
  have hbody := skipString_body h [] k
  rw [List.append_nil] at hbody
  exact hbody

/-- A string that is not closed takes the cursor past the end. -/
theorem Unclosed.lt_skipString {r : Bytes} (h : Unclosed r) (k : ℕ) :
    k + r.length < skipString r k + 1 := by
  cases h with
  | body hraw =>
    rw [hraw.skipString]
    exact Nat.lt_succ_self _
  | backslash hraw =>
    rw [skipString_body hraw, List.length_append]
    show _ < k + _ + 2 + 1
    rw [List.length_singleton]
    omega

/-- Dangling brackets take the cursor one past the end. -/
theorem Dangling.skipNested {d : ℤ} {t : Bytes} (h : Dangling d t) (k : ℕ) :
    skipNested t false d k = k + t.length + 1 := by
  induction h generalizing k with
  | cut hraw =>
    rw [skipNested_quote, skipNested_body hraw, List.length_cons, List.length_append]
    show k + 1 + _ + 2 = _
    rw [List.length_singleton]
    omega
  | string hraw _ ih =>
    rw [quoted, List.cons_append, List.append_assoc, List.singleton_append, skipNested_quote,
      skipNested_string hraw, ih]
    simp only [List.length_cons, List.length_append]
    omega
  | opens hb _ ih =>
    rw [Brackets.open_eq ⟨hb, .inl (Eq.refl Ascii.rbrace)⟩, ih, List.length_cons]
    omega
  | closes hb hd _ ih =>
    rw [Brackets.close_eq ⟨.inl (Eq.refl Ascii.lbrace), hb⟩, if_neg hd, ih, List.length_cons]
    omega
  | inner hb _ ih =>
    rw [skipNested_inner hb, ih, List.length_cons]
    omega

/-- Brackets that do not dangle leave the cursor inside. -/
theorem skipNested_le {d : ℤ} {t : Bytes} (h : ¬ Dangling d t) (k : ℕ) :
    skipNested t false d k ≤ k + t.length := by
  -- a string is left as a whole, so the induction is on the length and not on the text
  induction hn : t.length using Nat.strong_induction_on generalizing t d k with
  | _ n ih =>
    subst hn
    cases t with
    | nil => exact Nat.le_refl k
    | cons b t =>
      rw [List.length_cons] at ih
      have hnext : ∀ {d' : ℤ}, ¬ Dangling d' t →
          Bilbo.skipNested t false d' (k + 1) ≤ k + (t.length + 1) := by
        intro d' hd
        have hle := ih t.length (Nat.lt_succ_self _) hd (k + 1) rfl
        omega
      rw [List.length_cons]
      by_cases hq : b = Ascii.quote
      · subst hq
        rw [skipNested_quote]
        -- a closed string is stepped over; an open one dangles if its last byte is a backslash
        obtain ⟨raw, r, hraw, rfl⟩ | ht := closed_or_unclosed t
        · have hr : ¬ Dangling d r := by
            intro hr
            have hd := hr.string hraw
            rw [quoted, List.cons_append, List.append_assoc] at hd
            exact h hd
          rw [List.length_append, List.length_cons] at ih ⊢
          have hle := ih r.length (by omega) hr (k + 1 + raw.length + 1) rfl
          rw [skipNested_string hraw]
          omega
        · cases ht with
          | body hraw =>
            have hbody := skipNested_body hraw [] d (k + 1)
            rw [List.append_nil] at hbody
            rw [hbody]
            show k + 1 + _ ≤ _
            omega
          | backslash hraw => exact absurd (.cut hraw) h
      · by_cases ho : b = Ascii.lbrace ∨ b = Ascii.lbracket
        · rw [Brackets.open_eq ⟨ho, .inl (Eq.refl Ascii.rbrace)⟩]
          exact hnext fun hd => h (.opens ho hd)
        · by_cases hc : b = Ascii.rbrace ∨ b = Ascii.rbracket
          · rw [Brackets.close_eq ⟨.inl (Eq.refl Ascii.lbrace), hc⟩]
            split
            · omega
            · next hd => exact hnext fun hr => h (.closes hc hd hr)
          · have hb : isInner b = true := by
              rw [not_or] at ho hc
              simp only [isInner, Bool.and_eq_true, bne_iff_ne]
              exact ⟨⟨⟨⟨hq, ho.1⟩, ho.2⟩, hc.1⟩, hc.2⟩
            rw [skipNested_inner hb]
            exact hnext fun hd => h (.inner hb hd)

/-- A string with its closing quote leaves the cursor inside. -/
theorem skipString_le {r : Bytes} (h : ¬ Unclosed r) (k : ℕ) : skipString r k + 1 ≤ k + r.length := by
  obtain ⟨raw, r', hraw, rfl⟩ | hr := closed_or_unclosed r
  · rw [skipString_eq hraw, List.length_append, List.length_cons]
    omega
  · exact absurd hr h

theorem cutOff_nil : ¬ CutOff [] := by
  intro h
  cases h

theorem cutOff_quote_iff {r : Bytes} : CutOff (Ascii.quote :: r) ↔ Unclosed r := by
  refine ⟨fun h => ?_, .string⟩
  cases h with
  | string h => exact h
  | brackets hb _ => rcases hb with hb | hb <;> exact absurd hb (by decide)

theorem cutOff_brackets_iff {b : UInt8} {r : Bytes} (hb : b = Ascii.lbrace ∨ b = Ascii.lbracket) :
    CutOff (b :: r) ↔ Dangling 0 (b :: r) := by
  refine ⟨fun h => ?_, .brackets hb⟩
  cases h with
  | brackets _ h => exact h
  | string _ => rcases hb with hb | hb <;> exact absurd hb (by decide)

theorem cutOff_scalar {b : UInt8} {r : Bytes} (hq : b ≠ Ascii.quote)
    (hb : ¬ (b = Ascii.lbrace ∨ b = Ascii.lbracket)) : ¬ CutOff (b :: r) := by
  intro h
  cases h with
  | string _ => exact hq rfl
  | brackets h _ => exact hb h

/-- From inside the input, `rt_skip` stays inside exactly when the value is not cut off. -/
theorem rtSkip_le_iff {c : ℕ} (hc : c ≤ inp.stop) :
    rtSkip inp c ≤ inp.stop ↔ ¬ CutOff (token (inp.rest c)) := by
  -- the cursor behind the white space and what is left there add up to `end`
  obtain ⟨hws, hrest⟩ := rtWs_eq (Eq.refl (inp.rest c))
  have hlen := congrArg List.length (lead_append_token (inp.rest c))
  rw [List.length_append, Input.length_rest] at hlen
  have hstop : inp.stop = rtWs inp c + (token (inp.rest c)).length := by omega
  rw [rtSkip, hrest, hstop]
  cases token (inp.rest c) with
  | nil => exact iff_of_true (Nat.le_refl _) cutOff_nil
  | cons b r =>
    by_cases hq : b = Ascii.quote
    · subst hq
      show skipString r (rtWs inp c + 1) + 1 ≤ _ ↔ _
      rw [cutOff_quote_iff, List.length_cons]
      constructor
      · intro hle hr
        have hlt := hr.lt_skipString (rtWs inp c + 1)
        omega
      · intro hr
        have hle := skipString_le hr (rtWs inp c + 1)
        omega
    · by_cases hb : b = Ascii.lbrace ∨ b = Ascii.lbracket
      · show (if (b == Ascii.quote) = true then _ else if _ then _ else _) ≤ _ ↔ _
        rw [if_neg (by simpa using hq), if_pos (by simpa using hb), cutOff_brackets_iff hb]
        constructor
        · intro hle hd
          rw [hd.skipNested] at hle
          omega
        · exact fun hd => skipNested_le hd _
      · show (if (b == Ascii.quote) = true then _ else if _ then _ else _) ≤ _ ↔ _
        rw [if_neg (by simpa using hq), if_neg (by simpa using hb)]
        refine iff_of_true ?_ (cutOff_scalar hq hb)
        exact Nat.add_le_add_left (List.takeWhile_prefix _).length_le _

/-- From any cursor in the input, `rt_skip` makes all its loads inside the input and returns a
cursor between its start and `end` exactly when the value it skips is not cut off. -/
theorem rtSkip_stays_iff {c : ℕ} (hc : c ≤ inp.stop) (s : State) :
    (∃ e, Runs (fun n _ => skipBytes inp n c) s e s ∧ c ≤ e ∧ e ≤ inp.stop) ↔
      ¬ CutOff (token (inp.rest c)) := by
  rw [← rtSkip_le_iff hc]
  have hruns := skipBytes_runs inp c s
  constructor
  · rintro ⟨e, he, -, hle⟩
    rw [(Runs.unique hruns he).1]
    exact hle
  · exact fun hle => ⟨_, hruns, le_rtSkip inp c, hle⟩

/-- `["a",{"b":1}]` -/
def itemsInput : Input :=
  ⟨[0x5B, 0x22, 0x61, 0x22, 0x2C, 0x7B, 0x22, 0x62, 0x22, 0x3A, 0x31, 0x7D, 0x5D], fun _ => 0,
    by decide⟩

theorem rtSkip_stays_items :
    (∃ e, Runs (fun n _ => skipBytes itemsInput n 0) (State.initial 0) e (State.initial 0) ∧ 0 ≤ e ∧
      e ≤ itemsInput.stop) ↔ ¬ CutOff (token (itemsInput.rest 0)) :=
  rtSkip_stays_iff (Nat.zero_le _) _

/-- `{"x":"ab`, cut off in the string. -/
def cutOffInput : Input := ⟨[0x7B, 0x22, 0x78, 0x22, 0x3A, 0x22, 0x61, 0x62], fun _ => 0, by decide⟩

theorem rtSkip_cut_leaves : 5 ≤ cutOffInput.stop ∧
    ¬ ∃ e, Runs (fun n _ => skipBytes cutOffInput n 5) (State.initial 0) e (State.initial 0) ∧
      5 ≤ e ∧ e ≤ cutOffInput.stop := by
  refine ⟨by decide, ?_⟩
  rintro ⟨e, he, -, hle⟩
  have hskip : rtSkip cutOffInput 5 = 9 := by decide
  have hruns := skipBytes_runs cutOffInput 5 (State.initial 0)
  rw [← (Runs.unique hruns he).1, hskip] at hle
  exact absurd hle (by decide)

end Bilbo
