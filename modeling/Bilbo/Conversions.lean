import Bilbo.Reading

/-!
# The conversions of the lenient parser

`json.rs` makes text of bytes in two places: the body of a string and a number token. On UTF-8
neither fails, wherever in a character the fixed jumps over literals have left the index:

* a string starts behind a quote, and a quote is a character of its own, so both ends of the body
  are character boundaries;
* unescaping edits only ASCII;
* a number token is ASCII.
-/

namespace Bilbo

open Base Comp

variable {α β : Type} {b : Bytes} {n : ℕ}

/-! ## Computations whose conversions succeed -/

/-- The messages of the panics at the two conversions. -/
def IsConversion (e : String) : Prop :=
  e = "valid UTF-8 in JSON string" ∨ e = "invalid utf-8"

instance (e : String) : Decidable (IsConversion e) := inferInstanceAs (Decidable (_ ∨ _))

/-- Wherever `x` starts, it does not stop at a conversion. -/
def Converts (x : Scan α) : Prop := ∀ i e, (x.run i).1 = .stop e → ¬ IsConversion e

theorem Converts.pure (a : α) : Converts (pure a : Scan α) := by
  intro i e h
  cases h

theorem Converts.fail {e : String} (he : ¬ IsConversion e) : Converts (fail e : Scan α) := by
  intro i e' h
  cases h
  exact he

theorem Converts.modify (f : ℕ → ℕ) : Converts (modify f : Scan Unit) := by
  intro i e h
  cases h

theorem Converts.bind {x : Scan α} {f : α → Scan β} (hx : Converts x) (hf : ∀ a, Converts (f a)) :
    Converts (x >>= f) := by
  intro i e h
  have hrun : (x >>= f).run i = (.stop e, ((x >>= f).run i).2) := Prod.ext h rfl
  rcases bind_eq_stop hrun with hstop | ⟨a, j, -, hstop⟩
  · exact hx i e (congrArg Prod.fst hstop)
  · exact hf a j e (congrArg Prod.fst hstop)

theorem Converts.ite {p : Prop} [Decidable p] {x y : Scan α} (hx : Converts x) (hy : Converts y) :
    Converts (if p then x else y) := by
  split
  · exact hx
  · exact hy

theorem Converts.loop {body : β → Scan (β ⊕ α)} (h : ∀ c, Converts (body c)) (k : ℕ) (c : β) :
    Converts (loop body k c) := by
  induction k generalizing c with
  | zero =>
    intro i e he
    cases he
  | succ k ih =>
    rw [loop_succ]
    apply (h c).bind
    intro r
    cases r with
    | inl c' => exact ih c'
    | inr a => exact Converts.pure a

theorem peek_converts (b : Bytes) : Converts (peek b) := by
  intro i e h
  unfold peek at h
  rw [get_bind_run] at h
  cases hget : b[i]? with
  | none =>
    rw [hget] at h
    cases h
    decide
  | some c =>
    rw [hget] at h
    cases h

theorem skipComma_converts (b : Bytes) : Converts (skipComma b) :=
  (peek_converts b).bind fun _ => Converts.ite (Converts.modify _) (Converts.pure _)

/-! ## The two conversions -/

/-- The loop of `parse_string` comes to the closing quote with what is in front of it, or not to
its end. -/
theorem stringLoop_cases (k : ℕ) {x : Bytes} {p : ℕ} (h : b.drop p = x) (acc : Bytes) :
    (∃ raw r, x = raw ++ Ascii.quote :: r ∧ RawBody raw ∧
      ((loop (stringBody b) k acc).run p).1 = .done (acc ++ lenient raw)) ∨
    ((loop (stringBody b) k acc).run p).1 = .stop "index out of bounds" ∨
    ((loop (stringBody b) k acc).run p).1 = .spent := by
  induction k generalizing x p acc with
  | zero => exact .inr (.inr rfl)
  | succ k ih =>
    -- the text ends in the body
    have hend : b.drop p = [] ∨ b.drop p = [Ascii.backslash] →
        ((loop (stringBody b) (k + 1) acc).run p).1 = .stop "index out of bounds" := by
      intro hx
      obtain ⟨q, hq⟩ := stringBody_end hx acc
      rw [loop_succ, bind_run, hq]
    cases x with
    | nil => exact .inr (.inl (hend (.inl h)))
    | cons c x =>
      by_cases hq : c = Ascii.quote
      · subst hq
        left
        refine ⟨[], x, rfl, .nil, ?_⟩
        rw [loop_succ, bind_done (stringBody_quote h acc), lenient, List.append_nil]
        rfl
      by_cases hb : c = Ascii.backslash
      · subst hb
        cases x with
        | nil => exact .inr (.inl (hend (.inr h)))
        | cons e x =>
          rw [loop_succ, bind_done (stringBody_escape h acc)]
          rcases ih (drop_byte (drop_byte h)) (acc ++ [unescapeByte e]) with
            ⟨raw, r, rfl, hraw, hrun⟩ | hno
          · left
            refine ⟨Ascii.backslash :: e :: raw, r, rfl, .escape hraw, ?_⟩
            rw [lenient_escape, List.append_cons acc _ (lenient raw)]
            exact hrun
          · exact .inr hno
      · rw [loop_succ, bind_done (stringBody_plain h hq hb acc)]
        rcases ih (drop_byte h) (acc ++ [c]) with ⟨raw, r, rfl, hraw, hrun⟩ | hno
        · left
          refine ⟨c :: raw, r, rfl, .plain hq hb hraw, ?_⟩
          rw [lenient_plain _ hb, List.append_cons acc _ (lenient raw)]
          exact hrun
        · exact .inr hno

/-- What stands between quotes in a text is a text. -/
theorem utf8_between {p : ℕ} {raw r : Bytes} (hb : Utf8 b)
    (h : b.drop p = Ascii.quote :: (raw ++ Ascii.quote :: r)) : Utf8 raw := by
  have hquote : Ascii.quote.toNat < 0x80 := by decide
  rw [← List.take_append_drop p b, h] at hb
  -- both quotes are character boundaries
  have htail := (hb.split (isUTF8FirstByte_of_ascii hquote)).2
  have hbody := (utf8_ascii_cons_iff hquote).1 htail
  exact (hbody.split (isUTF8FirstByte_of_ascii hquote)).1

/-- What is behind the opening quote of `parse_string`. -/
theorem stringTail_converts (hb : Utf8 b) {p : ℕ} {x : Bytes} (h : b.drop p = Ascii.quote :: x)
    {e : String} (hstop : ((loop (stringBody b) n [] >>= fun bytes => advance 1 >>= fun _ =>
      if isUtf8 bytes = true then pure bytes else fail "valid UTF-8 in JSON string" :
        Scan Bytes).run (p + 1)).1 = .stop e) : ¬ IsConversion e := by
  rw [bind_run] at hstop
  rcases hrun : (loop (stringBody b) n []).run (p + 1) with ⟨o, q⟩
  have hcases := stringLoop_cases n (drop_byte h) []
  rw [hrun] at hstop hcases
  rcases hcases with ⟨raw, r, rfl, hraw, rfl⟩ | rfl | rfl
  · -- the body is a text, and so is what it stands for
    have htext : Utf8 (lenient raw) := utf8_lenient hraw (utf8_between hb h)
    have hdone : ((advance 1 >>= fun _ => if isUtf8 (lenient raw) = true then pure (lenient raw)
        else fail "valid UTF-8 in JSON string" : Scan Bytes).run q).1 = .stop e := hstop
    rw [bind_done (advance_run 1 q), if_pos ((isUtf8_iff _).2 htext)] at hdone
    cases hdone
  · cases hstop
    decide
  · cases hstop

theorem parseString_converts (hb : Utf8 b) (n : ℕ) : Converts (parseString b n) := by
  intro p e h
  cases hx : b.drop p with
  | nil =>
    rw [parseString, bind_run, peek_end hx] at h
    cases h
    decide
  | cons c x =>
    rw [parseString, bind_done (peek_run hx)] at h
    by_cases hc : c = Ascii.quote
    · subst hc
      have hquote : (Ascii.quote != Ascii.quote) = false := rfl
      simp only [hquote, Bool.false_eq_true, if_false] at h
      rw [bind_done (advance_run 1 p)] at h
      exact stringTail_converts hb hx h
    · rw [if_pos (by simpa using hc)] at h
      cases h
      decide

theorem parseNumber_converts (b : Bytes) : Converts (parseNumber b) := by
  intro p e h
  have ht : Utf8 ((b.drop p).takeWhile isNumChar) :=
    utf8_number fun c hc => List.mem_takeWhile_imp hc
  have hrun : (parseNumber b).run p = (if isUtf8 ((b.drop p).takeWhile isNumChar) = true then
      pure (Json.num ((b.drop p).takeWhile isNumChar)) else fail "invalid utf-8" : Scan Json).run
      (p + ((b.drop p).takeWhile isNumChar).length) := rfl
  rw [hrun, if_pos ((isUtf8_iff _).2 ht)] at h
  cases h

/-! ## Values -/

theorem arrayBody_converts {value : Scan Json} (hvalue : Converts value) (b : Bytes)
    (out : List Json) : Converts (arrayBody b value out) := by
  apply (Converts.modify _).bind
  intro _
  apply (peek_converts b).bind
  intro c
  apply Converts.ite
  · exact (Converts.modify _).bind fun _ => Converts.pure _
  · apply hvalue.bind
    intro val
    apply (Converts.modify _).bind
    intro _
    exact (skipComma_converts b).bind fun _ => Converts.pure _

theorem objectBody_converts {value : Scan Json} (hvalue : Converts value) (hb : Utf8 b) (n : ℕ)
    (out : List (Bytes × Json)) : Converts (objectBody b n value out) := by
  apply (Converts.modify _).bind
  intro _
  apply (peek_converts b).bind
  intro c
  apply Converts.ite
  · exact (Converts.modify _).bind fun _ => Converts.pure _
  · apply (parseString_converts hb n).bind
    intro key
    apply (Converts.modify _).bind
    intro _
    apply (peek_converts b).bind
    intro c
    apply Converts.ite
    · exact Converts.fail (by decide)
    · apply (Converts.modify _).bind
      intro _
      apply hvalue.bind
      intro val
      apply (Converts.modify _).bind
      intro _
      exact (skipComma_converts b).bind fun _ => Converts.pure _

theorem valueAt_converts {value : Scan Json} (hvalue : Converts value) (hb : Utf8 b) (n : ℕ)
    (c : UInt8) : Converts (valueAt b n value c) := by
  have hobject : Converts (parseObject b n value) :=
    (Converts.modify _).bind fun _ => Converts.loop (objectBody_converts hvalue hb n) n []
  have harray : Converts (parseArray b n value) :=
    (Converts.modify _).bind fun _ => Converts.loop (arrayBody_converts hvalue b) n []
  have hstring : Converts (parseString b n >>= fun s => (pure (.str s) : Scan Json)) :=
    (parseString_converts hb n).bind fun _ => Converts.pure _
  -- a literal is stepped over without a look at its bytes
  have hliteral : ∀ (k : ℕ) (j : Json), Converts (advance k >>= fun _ => (pure j : Scan Json)) :=
    fun k j => (Converts.modify _).bind fun _ => Converts.pure _
  exact hobject.ite (harray.ite (hstring.ite ((hliteral 4 _).ite ((hliteral 5 _).ite
    ((hliteral 4 _).ite (parseNumber_converts b))))))

theorem parseValue_converts (hb : Utf8 b) (n d : ℕ) : Converts (parseValue b n d) := by
  induction d with
  | zero =>
    intro i e h
    cases h
  | succ d ih =>
    rw [parseValue_succ]
    apply (Converts.modify _).bind
    intro _
    exact (peek_converts b).bind fun c => valueAt_converts ih hb n c

/-- On UTF-8, well-formed JSON or not, `json::parse` never panics at a conversion. -/
theorem parse_conversions_succeed (b : Bytes) (hb : Utf8 b) (n d : ℕ) :
    ((parseValue b n d).run 0).1 ≠ .stop "valid UTF-8 in JSON string" ∧
      ((parseValue b n d).run 0).1 ≠ .stop "invalid utf-8" :=
  ⟨fun h => parseValue_converts hb n d 0 _ h (.inl rfl),
    fun h => parseValue_converts hb n d 0 _ h (.inr rfl)⟩

/-- `[té,"\é"]`: the jump over `té,` ends at the quote. -/
def escapedAccent : Bytes :=
  encode ['[', 't', 'é', ',', '"', '\\', 'é', '"', ']']

theorem escapedAccent_converts : Utf8 escapedAccent ∧
    ((parseValue escapedAccent 8 8).run 0).1 ≠ .stop "valid UTF-8 in JSON string" ∧
      ((parseValue escapedAccent 8 8).run 0).1 ≠ .stop "invalid utf-8" :=
  ⟨⟨_, rfl⟩, parse_conversions_succeed escapedAccent ⟨_, rfl⟩ 8 8⟩

end Bilbo
