import Bilbo.Fields

/-!
# The lenient JSON parser on documents

What `json.rs` makes of the texts of `Documents`: every one of them is read to its end. The
escapes it does not know stand for the byte behind the backslash.
-/

namespace Bilbo

open Base Comp

variable {b : Bytes} {i p : ℕ}

/-! ## Positions in the text -/

theorem drop_text {t r : Bytes} (h : b.drop i = t ++ r) : b.drop (i + t.length) = r := by
  rw [← List.drop_drop, h, List.drop_left]

theorem drop_byte {c : UInt8} {r : Bytes} (h : b.drop i = c :: r) : b.drop (i + 1) = r :=
  drop_text (t := [c]) h

theorem peek_run {c : UInt8} {r : Bytes} (h : b.drop i = c :: r) :
    (peek b).run i = (.done c, i) := by
  have hget := (of_drop_eq_cons h).1
  unfold peek
  rw [get_bind_run, hget]
  rfl

/-- At the end of the text the index is out of bounds. -/
theorem peek_end (h : b.drop i = []) : (peek b).run i = (.stop "index out of bounds", i) := by
  have hget : b[i]? = none := by
    rw [← List.head?_drop, h]
    rfl
  unfold peek
  rw [get_bind_run, hget]
  rfl

theorem advance_run (k i : ℕ) : (advance k).run i = (.done (), i + k) := rfl

/-- Where `skip_ws` stops. -/
def skipTo (b : Bytes) (i : ℕ) : ℕ := i + ((b.drop i).takeWhile Ascii.isWhitespace).length

theorem skipWs_run (b : Bytes) (i : ℕ) : (skipWs b).run i = (.done (), skipTo b i) := rfl

theorem isWhitespace_of_isws {c : UInt8} (h : isws c = true) : Ascii.isWhitespace c = true := by
  simp only [isws, Bool.or_eq_true, beq_iff_eq] at h
  rcases h with ((rfl | rfl) | rfl) | rfl <;> rfl

theorem not_isWhitespace {c : UInt8} (h : 0x20 < c) : ¬ Ascii.isWhitespace c = true := by
  intro hws
  simp only [Ascii.isWhitespace, Bool.or_eq_true, beq_iff_eq] at hws
  rcases hws with (((rfl | rfl) | rfl) | rfl) | rfl <;> exact absurd h (by decide)

theorem skipTo_eq {w r : Bytes} {c : UInt8} (hw : IsWs w) (h : b.drop i = w ++ c :: r)
    (hc : 0x20 < c) : skipTo b i = i + w.length := by
  have hall : ∀ x ∈ w, Ascii.isWhitespace x = true := fun x hx => isWhitespace_of_isws (hw x hx)
  rw [skipTo, h, List.takeWhile_append_of_pos hall, List.takeWhile_cons_of_neg (not_isWhitespace hc),
    List.append_nil]

theorem skipTo_visible {c : UInt8} {r : Bytes} (h : b.drop i = c :: r) (hc : 0x20 < c) :
    skipTo b i = i := skipTo_eq (w := []) IsWs.nil h hc

/-- `skip_ws` in front of a text stops at its token. -/
theorem Starts.skipTo_eq {t : Bytes} {c : UInt8} (ht : Starts t c) (h : b.drop i = t) :
    skipTo b i = i + (lead t).length ∧ b.drop (skipTo b i) = token t := by
  obtain ⟨r, hr⟩ := ht.eq
  have hskip : skipTo b i = i + (lead t).length :=
    Bilbo.skipTo_eq (isWs_lead t) (h.trans hr) ht.1
  rw [hskip]
  refine ⟨rfl, ?_⟩
  apply drop_text
  rw [h, lead_append_token]

/-- White space in front of a text is skipped with the text's own. -/
theorem skipTo_lead {w t : Bytes} {c : UInt8} (hw : IsWs w) (ht : Starts t c)
    (h : b.drop i = w ++ t) : skipTo b i = skipTo b (i + w.length) := by
  obtain ⟨r, hr⟩ := ht.eq
  rw [(ht.skipTo_eq (drop_text h)).1, Bilbo.skipTo_eq (r := r) (hw.append (isWs_lead t)) _ ht.1,
    List.length_append, Nat.add_assoc]
  rw [List.append_assoc, ← hr, h]

/-! ## Strings -/

/-- What `parse_string` makes of a body. -/
def lenient : Bytes → Bytes
  | [] => []
  | c :: r =>
    if c == Ascii.backslash then
      match r with
      | [] => []
      | e :: r' => unescapeByte e :: lenient r'
    else c :: lenient r

theorem lenient_plain {c : UInt8} (r : Bytes) (hc : c ≠ Ascii.backslash) :
    lenient (c :: r) = c :: lenient r := by
  rw [lenient.eq_def]
  show (if (c == Ascii.backslash) = true then _ else c :: lenient r) = _
  rw [if_neg (by simpa using hc)]

theorem lenient_escape (e : UInt8) (r : Bytes) :
    lenient (Ascii.backslash :: e :: r) = unescapeByte e :: lenient r := rfl

/-- What `parse_string` makes of characters that stand for themselves. -/
theorem lenient_append {a : Bytes} (r : Bytes) (ha : Ascii.backslash ∉ a) :
    lenient (a ++ r) = a ++ lenient r := by
  induction a with
  | nil => rfl
  | cons b a ih =>
    rw [List.mem_cons, not_or] at ha
    rw [List.cons_append, lenient_plain _ (Ne.symm ha.1), ih ha.2]
    rfl

/-- The body of the loop of `parse_string`. -/
def stringBody (b : Bytes) (bytes : Bytes) : Scan (Bytes ⊕ Bytes) := do
  let c ← peek b
  if c == Ascii.quote then pure (.inr bytes)
  else if c == Ascii.backslash then do
    advance 1
    let e ← peek b
    advance 1
    pure (.inl (bytes ++ [unescapeByte e]))
  else do
    advance 1
    pure (.inl (bytes ++ [c]))

theorem stringBody_quote {x : Bytes} (h : b.drop p = Ascii.quote :: x) (acc : Bytes) :
    (stringBody b acc).run p = (.done (.inr acc), p) := by
  rw [stringBody, bind_done (peek_run h)]
  rfl

theorem stringBody_plain {c : UInt8} {x : Bytes} (h : b.drop p = c :: x) (hq : c ≠ Ascii.quote)
    (hb : c ≠ Ascii.backslash) (acc : Bytes) :
    (stringBody b acc).run p = (.done (.inl (acc ++ [c])), p + 1) := by
  rw [stringBody, bind_done (peek_run h), if_neg (by simpa using hq), if_neg (by simpa using hb)]
  rfl

/-- An escape takes two bytes. -/
theorem stringBody_escape {e : UInt8} {x : Bytes} (h : b.drop p = Ascii.backslash :: e :: x)
    (acc : Bytes) :
    (stringBody b acc).run p = (.done (.inl (acc ++ [unescapeByte e])), p + 1 + 1) := by
  rw [stringBody, bind_done (peek_run h)]
  show (advance 1 >>= fun _ => peek b >>= _ : Scan (Bytes ⊕ Bytes)).run p = _
  rw [bind_done (advance_run 1 p), bind_done (peek_run (drop_byte h)),
    bind_done (advance_run 1 (p + 1))]
  rfl

/-- The text ends in the body of a string. -/
theorem stringBody_end (h : b.drop p = [] ∨ b.drop p = [Ascii.backslash]) (acc : Bytes) :
    ∃ q, (stringBody b acc).run p = (.stop "index out of bounds", q) := by
  rcases h with h | h
  · refine ⟨p, ?_⟩
    rw [stringBody, bind_run, peek_end h]
  · refine ⟨p + 1, ?_⟩
    rw [stringBody, bind_done (peek_run h)]
    show (advance 1 >>= fun _ => peek b >>= _ : Scan (Bytes ⊕ Bytes)).run p = _
    rw [bind_done (advance_run 1 p), bind_run, peek_end (drop_byte h)]

theorem stringLoop_runs {raw r : Bytes} (hraw : RawBody raw)
    (h : b.drop i = raw ++ Ascii.quote :: r) (acc : Bytes) :
    RunsLoop (fun _ _ => stringBody b) acc i (acc ++ lenient raw) (i + raw.length) := by
  induction hraw generalizing i acc with
  | nil =>
    apply RunsLoop.exit
    rw [lenient, List.append_nil]
    exact Runs.of_eq (stringBody_quote h acc)
  | @plain c raw hq hb _ ih =>
    have hloop := ih (drop_byte h) (acc ++ [c])
    rw [lenient_plain raw hb, List.length_cons]
    rw [List.append_assoc, List.singleton_append, Nat.add_assoc, Nat.add_comm 1] at hloop
    exact RunsLoop.step (Runs.of_eq (stringBody_plain h hq hb acc)) hloop
  -- two bytes are read and one is kept
  | @escape e raw _ ih =>
    have hloop := ih (drop_byte (drop_byte h)) (acc ++ [unescapeByte e])
    rw [lenient_escape, List.length_cons, List.length_cons]
    rw [List.append_assoc, List.singleton_append,
      show i + 1 + 1 + raw.length = i + (raw.length + 1 + 1) by omega] at hloop
    exact RunsLoop.step (Runs.of_eq (stringBody_escape h acc)) hloop

/-- `parse_string` on a string. -/
theorem parseString_runs {raw r : Bytes} (hraw : RawBody raw) (hutf8 : Utf8 (lenient raw))
    (h : b.drop i = quoted raw ++ r) :
    Runs (fun n _ => parseString b n) i (lenient raw) (i + (quoted raw).length) := by
  have hbody : b.drop (i + 1) = raw ++ Ascii.quote :: r :=
    (drop_byte h).trans (List.append_assoc raw [Ascii.quote] r)
  have hlen : i + (quoted raw).length = i + 1 + raw.length + 1 := by
    rw [quoted, List.length_cons, List.length_append, List.length_singleton]
    omega
  rw [hlen]
  unfold parseString
  apply Runs.bind_eq (peek_run h)
  have hquote : (Ascii.quote != Ascii.quote) = false := rfl
  simp only [hquote, Bool.false_eq_true, if_false]
  apply Runs.bind_eq (advance_run 1 i)
  -- the loop stops at the closing quote, which is stepped over
  have hloop := (stringLoop_runs hraw hbody []).runs
  apply hloop.bind
  apply Runs.of_eq
  show (if isUtf8 (lenient raw) = true then pure (lenient raw)
    else fail "valid UTF-8 in JSON string" : Scan Bytes).run (i + 1 + raw.length + 1) = _
  rw [if_pos ((isUtf8_iff _).2 hutf8)]
  rfl

theorem utf8_lenient {raw : Bytes} (hraw : RawBody raw) (h : Utf8 raw) : Utf8 (lenient raw) := by
  -- an escape replaces ASCII by ASCII or drops a backslash, so no character is cut
  apply AsciiEdit.utf8 _ h
  clear h
  induction hraw with
  | nil => exact AsciiEdit.nil
  | plain _ hb _ ih =>
    rw [lenient_plain _ hb]
    exact AsciiEdit.keep ih
  | @escape e raw _ ih =>
    rw [lenient_escape]
    apply AsciiEdit.drop (by decide)
    unfold unescapeByte
    split
    · rename_i hn
      rw [beq_iff_eq] at hn
      rw [hn]
      exact AsciiEdit.swap (by decide) (by decide) ih
    · split
      · rename_i ht
        rw [beq_iff_eq] at ht
        rw [ht]
        exact AsciiEdit.swap (by decide) (by decide) ih
      · exact AsciiEdit.keep ih

/-! ## Values -/

/-- `json.rs` reads the value from the text, whatever delimiter is behind it and wherever it starts
in the white space in front of it. -/
def Reads (t : Bytes) (j : Json) : Prop :=
  ∀ ⦃b : Bytes⦄ ⦃i p : ℕ⦄ ⦃tail : Bytes⦄, b.drop p = t ++ tail → Delim tail →
    skipTo b i = skipTo b p → Runs (fun n d => parseValue b n d) i j (p + t.length)

/-- The branch of `parse_value` that a byte selects. -/
def valueAt (b : Bytes) (n : ℕ) (value : Scan Json) (c : UInt8) : Scan Json :=
  if c == Ascii.lbrace then parseObject b n value
  else if c == Ascii.lbracket then parseArray b n value
  else if c == Ascii.quote then do
    let s ← parseString b n
    pure (.str s)
  else if c == 0x74 then do
    advance 4
    pure (.bool true)
  else if c == 0x66 then do
    advance 5
    pure (.bool false)
  else if c == 0x6E then do
    advance 4
    pure .null
  else parseNumber b

theorem parseValue_succ (b : Bytes) (n d : ℕ) :
    parseValue b n (d + 1) = (do
      skipWs b
      let c ← peek b
      valueAt b n (parseValue b n d) c) := rfl

/-- `parse_value` steps over white space and reads the token behind it. -/
theorem parseValue_runs {w x tail : Bytes} {c : UInt8} {j : Json} {b : Bytes} {i p : ℕ} (hw : IsWs w)
    (hc : 0x20 < c) (hp : b.drop p = w ++ (c :: x ++ tail)) (hi : skipTo b i = skipTo b p)
    (h : Runs (fun n d => valueAt b n (parseValue b n d) c) (p + w.length) j
      (p + w.length + (c :: x).length)) :
    Runs (fun n d => parseValue b n d) i j (p + (w ++ c :: x).length) := by
  have hskip : skipTo b p = p + w.length := skipTo_eq hw hp hc
  apply Runs.call (fun n d => parseValue_succ b n d)
  apply Runs.bind_eq (skipWs_run b i)
  rw [hi, hskip, List.length_append, ← Nat.add_assoc]
  apply Runs.bind_eq (peek_run (drop_text hp))
  exact h

/-- To read a value is to read its token. -/
theorem reads_of {w x : Bytes} {c : UInt8} {j : Json} (hw : IsWs w) (hc : 0x20 < c)
    (h : ∀ (b : Bytes) (q : ℕ) (tail : Bytes), b.drop q = c :: x ++ tail → Delim tail →
      Runs (fun n d => valueAt b n (parseValue b n d) c) q j (q + (c :: x).length)) :
    Reads (w ++ c :: x) j := by
  intro b i p tail hp htail hi
  rw [List.append_assoc] at hp
  exact parseValue_runs hw hc hp hi (h b _ tail (drop_text hp) htail)

theorem reads_bool {w : Bytes} (hw : IsWs w) (x : Bool) : Reads (w ++ boolText x) (.bool x) := by
  cases x with
  | true => exact reads_of hw (by decide) fun b q tail _ _ => Runs.of_eq rfl
  | false => exact reads_of hw (by decide) fun b q tail _ _ => Runs.of_eq rfl

theorem reads_null {w : Bytes} (hw : IsWs w) : Reads (w ++ nullText) .null :=
  reads_of hw (by decide) fun b q tail _ _ => Runs.of_eq rfl

theorem reads_string {w raw : Bytes} (hw : IsWs w) (hraw : RawBody raw)
    (hutf8 : Utf8 (lenient raw)) : Reads (w ++ quoted raw) (.str (lenient raw)) := by
  apply reads_of hw (by decide)
  intro b q tail h _
  apply (parseString_runs hraw hutf8 h).bind
  exact Runs.pure _ _

/-- The characters of a number are ASCII. -/
theorem utf8_number {t : Bytes} (ht : ∀ c ∈ t, isNumChar c = true) : Utf8 t := by
  apply utf8_of_ascii
  intro c hc
  have hc := ht c hc
  simp only [isNumChar, Bool.or_eq_true, beq_iff_eq] at hc
  rcases hc with ((((h | rfl) | rfl) | rfl) | rfl) | rfl
  · simp only [Ascii.isDigit, Bool.and_eq_true, decide_eq_true_eq, UInt8.le_iff_toNat_le] at h
    exact Nat.lt_of_le_of_lt h.2 (by decide)
  all_goals decide

theorem Digits.isNumChar {ds : Bytes} (h : Digits ds) : ∀ b ∈ ds, isNumChar b = true := by
  intro b hb
  have hdigit := h.digits b hb
  simp only [Bilbo.isNumChar, hdigit, Bool.true_or]

theorem reads_number {w t : Bytes} (hw : IsWs w) (hne : t ≠ [])
    (ht : ∀ c ∈ t, isNumChar c = true) : Reads (w ++ t) (.num t) := by
  obtain ⟨c, t, rfl⟩ := List.exists_cons_of_ne_nil hne
  have hc := ht c List.mem_cons_self
  apply reads_of hw (isNumChar_spec hc).1
  intro b q tail h htail
  -- a character of a number selects none of the other branches
  have hbranch : ∀ n d, valueAt b n (parseValue b n d) c = parseNumber b := by
    intro n d
    have hother : ∀ x : UInt8, isNumChar x = false → (c == x) = false := by
      intro x hx
      rw [beq_eq_false_iff_ne]
      rintro rfl
      rw [hc] at hx
      cases hx
    simp only [valueAt, hother Ascii.lbrace rfl, hother Ascii.lbracket rfl, hother Ascii.quote rfl,
      hother 0x74 rfl, hother 0x66 rfl, hother 0x6E rfl, Bool.false_eq_true, if_false]
  have htake : (b.drop q).takeWhile isNumChar = c :: t := by
    rw [h, List.takeWhile_append_of_pos ht]
    cases tail with
    | nil => exact List.append_nil _
    | cons x r =>
      -- what ends a scalar is no character of a number
      have hx : ¬ isNumChar x = true := by
        intro hx
        have hends : endsScalar x = true := htail
        rw [(isNumChar_spec hx).2.1] at hends
        cases hends
      rw [List.takeWhile_cons_of_neg hx, List.append_nil]
  simp only [hbranch]
  apply Runs.of_eq
  show (advance ((b.drop q).takeWhile isNumChar).length >>= fun _ =>
    if isUtf8 ((b.drop q).takeWhile isNumChar) = true then
      pure (Json.num ((b.drop q).takeWhile isNumChar)) else fail "invalid utf-8").run q = _
  rw [htake, if_pos ((isUtf8_iff _).2 (utf8_number ht))]
  rfl

/-! ## Arrays and objects -/

/-- Behind an item: past the separator, or at the token behind it. -/
theorem skipComma_run {sep t : Bytes} {c : UInt8} (hsep : IsSep sep) (h : b.drop p = sep ++ t)
    (ht : Starts t c) (hc : c ≠ Ascii.comma) :
    ∃ k, (skipComma b).run (skipTo b p) = (.done (), k) ∧
      skipTo b k = skipTo b (p + sep.length) := by
  obtain ⟨w, hw, rfl | rfl⟩ := hsep
  · -- no comma: the index stays at the token
    have hrest := drop_text h
    obtain ⟨-, htoken⟩ := ht.skipTo_eq hrest
    obtain ⟨hvis, r, hr⟩ := ht
    rw [hr] at htoken
    have hskip := skipTo_lead hw ⟨hvis, r, hr⟩ h
    refine ⟨skipTo b (p + sep.length), ?_, skipTo_visible htoken hvis⟩
    rw [hskip, skipComma, bind_done (peek_run htoken), if_neg (by simpa using hc)]
    rfl
  · rw [List.append_assoc, List.singleton_append] at h
    have hskip : skipTo b p = p + w.length := skipTo_eq hw h (by decide)
    refine ⟨p + (w ++ [Ascii.comma]).length, ?_, rfl⟩
    rw [hskip, skipComma, bind_done (peek_run (drop_text h)), List.length_append,
      List.length_singleton, ← Nat.add_assoc]
    rfl

/-- The body of the loop of `parse_array`. -/
def arrayBody (b : Bytes) (value : Scan Json) (out : List Json) : Scan (List Json ⊕ Json) := do
  skipWs b
  let c ← peek b
  if c == Ascii.rbracket then do
    advance 1
    pure (.inr (Json.array out))
  else do
    let val ← value
    skipWs b
    skipComma b
    pure (.inl (out ++ [val]))

theorem arrayBody_runs {x : Bytes × Bytes} {r : Bytes} {j : Json} {c c' : UInt8}
    (hx : Reads x.1 j) (hstarts : Starts x.1 c) (hc : c ≠ Ascii.rbracket) (hsep : IsSep x.2)
    (hr : Starts r c') (hc' : c' ≠ Ascii.comma) (hdelim : Delim (x.2 ++ r))
    (h : b.drop p = x.1 ++ (x.2 ++ r)) (hi : skipTo b i = skipTo b p) (out : List Json) :
    ∃ k, Runs (fun n d => arrayBody b (parseValue b n d) out) i (.inl (out ++ [j])) k ∧
      skipTo b k = skipTo b (p + (x.1.length + x.2.length)) := by
  obtain ⟨-, htoken, hst⟩ := hstarts.append (x.2 ++ r)
  obtain ⟨-, hdrop⟩ := hst.skipTo_eq h
  obtain ⟨hvis, t, ht⟩ := hstarts
  rw [htoken, ht, List.cons_append] at hdrop
  obtain ⟨k, hcomma, hk⟩ := skipComma_run hsep (drop_text h) hr hc'
  rw [Nat.add_assoc] at hk
  refine ⟨k, ?_, hk⟩
  unfold arrayBody
  apply Runs.bind_eq (skipWs_run b i)
  rw [hi]
  apply Runs.bind_eq (peek_run hdrop)
  simp only [beq_eq_false_iff_ne.2 hc, Bool.false_eq_true, if_false]
  apply (hx h hdelim (skipTo_visible hdrop hvis)).bind
  apply Runs.bind_eq (skipWs_run b _)
  apply Runs.bind_eq hcomma
  exact Runs.pure _ _

/-- The loop of `parse_array` on the items that are left. -/
theorem arrayLoop_runs {items : List (Bytes × Bytes)} {js : List Json} {tail : Bytes}
    (hreads : List.Forall₂ (fun x j => Reads x.1 j) items js) (hseps : Separated items)
    (hstarts : ∀ x ∈ items, ∃ c, Starts x.1 c ∧ c ≠ Ascii.comma ∧ c ≠ Ascii.rbracket)
    (h : b.drop p = closed Ascii.rbracket items ++ tail) (hi : skipTo b i = skipTo b p)
    (out : List Json) :
    RunsLoop (fun n d => arrayBody b (parseValue b n d)) out i (.array (out ++ js))
      (p + (closed Ascii.rbracket items).length) := by
  induction hreads generalizing i p out with
  | nil =>
    have hvis := skipTo_visible h (by decide)
    apply RunsLoop.exit
    rw [List.append_nil]
    unfold arrayBody
    apply Runs.bind_eq (skipWs_run b i)
    rw [hi, hvis]
    apply Runs.bind_eq (peek_run h)
    exact Runs.of_eq rfl
  | @cons x j items js hx _ ih =>
    obtain ⟨hsep, hlast, hseps⟩ := hseps
    obtain ⟨c, hst, -, hc⟩ := hstarts x List.mem_cons_self
    have hrest : ∀ y ∈ items, ∃ c, Starts y.1 c ∧ c ≠ Ascii.comma ∧ c ≠ Ascii.rbracket :=
      fun y hy => hstarts y (List.mem_cons_of_mem _ hy)
    obtain ⟨c', hc', hne⟩ := closed_starts (by decide : 0x20 < Ascii.rbracket) (by decide)
      (fun y hy => (hrest y hy).imp fun _ hy => ⟨hy.1, hy.2.1⟩) tail
    rw [closed_cons_append] at h
    have hdelim := delim_sep (by decide : endsScalar Ascii.rbracket = true) hsep hlast tail
    -- one iteration reads the first item and its separator
    obtain ⟨k, hbody, hk⟩ := arrayBody_runs hx hst hc hsep hc' hne hdelim h hi out
    have hdrop := drop_text (drop_text h)
    rw [Nat.add_assoc] at hdrop
    have hloop := ih hseps hrest hdrop hk (out ++ [j])
    rw [List.append_assoc, List.singleton_append] at hloop
    have hlen : p + (x.1.length + x.2.length) + (closed Ascii.rbracket items).length =
        p + (closed Ascii.rbracket (x :: items)).length := by
      rw [length_closed_cons, Nat.add_assoc]
    rw [← hlen]
    exact RunsLoop.step hbody hloop

theorem reads_array {w w' : Bytes} {items : List (Bytes × Bytes)} {js : List Json} (hw : IsWs w)
    (hw' : IsWs w') (hseps : Separated items)
    (hreads : List.Forall₂ (fun x j => Reads x.1 j) items js)
    (hstarts : ∀ x ∈ items, ∃ c, Starts x.1 c ∧ c ≠ Ascii.comma ∧ c ≠ Ascii.rbracket) :
    Reads (w ++ Ascii.lbracket :: arrayText w' items) (.array js) := by
  apply reads_of hw (by decide)
  intro b q tail h _
  have hbody : b.drop (q + 1) = w' ++ (closed Ascii.rbracket items ++ tail) := by
    rw [← List.append_assoc]
    exact drop_byte h
  obtain ⟨c, hc, -⟩ := closed_starts (by decide : 0x20 < Ascii.rbracket) (by decide)
    (fun y hy => (hstarts y hy).imp fun _ hy => ⟨hy.1, hy.2.1⟩) tail
  have hloop := arrayLoop_runs hreads hseps hstarts (drop_text hbody)
    (skipTo_lead hw' hc hbody) []
  have hlen : q + 1 + w'.length + (closed Ascii.rbracket items).length =
      q + (Ascii.lbracket :: arrayText w' items).length := by
    rw [arrayText, List.length_cons, List.length_append]
    omega
  rw [hlen] at hloop
  apply Runs.bind_eq (advance_run 1 q)
  exact hloop.runs

/-- The body of the loop of `parse_object`. -/
def objectBody (b : Bytes) (n : ℕ) (value : Scan Json) (out : List (Bytes × Json)) :
    Scan (List (Bytes × Json) ⊕ Json) := do
  skipWs b
  let c ← peek b
  if c == Ascii.rbrace then do
    advance 1
    pure (.inr (Json.object out))
  else do
    let key ← parseString b n
    skipWs b
    let c ← peek b
    if c != Ascii.colon then fail "expected colon"
    else do
      advance 1
      let val ← value
      skipWs b
      skipComma b
      pure (.inl (out ++ [(key, val)]))

/-- The pair that a member is read as. -/
structure ReadsMember (m : Member) (kv : Bytes × Json) : Prop where
  key : kv.1 = lenient m.key
  value : Reads m.value kv.2

theorem objectBody_runs {m : Member} {kv : Bytes × Json} {r : Bytes} {c' : UInt8}
    (hm : ReadsMember m kv) (hbefore : IsWs m.before) (hafter : IsWs m.after)
    (hkey : RawBody m.key) (hutf8 : Utf8 (lenient m.key)) (hsep : IsSep m.sep)
    (hr : Starts r c') (hc' : c' ≠ Ascii.comma) (hdelim : Delim (m.sep ++ r))
    (h : b.drop p = m.item.1 ++ (m.sep ++ r)) (hi : skipTo b i = skipTo b p)
    (out : List (Bytes × Json)) :
    ∃ k, Runs (fun n d => objectBody b n (parseValue b n d) out) i (.inl (out ++ [kv])) k ∧
      skipTo b k = skipTo b (p + (m.item.1.length + m.sep.length)) := by
  -- from the white space through the key and the colon to the value
  have hsepdrop := drop_text h
  rw [m.item_append] at h
  have hskip : skipTo b p = p + m.before.length := skipTo_eq hbefore h (by decide)
  have hquoted := drop_text h
  have hcolon := drop_text hquoted
  have hskip' := skipTo_eq hafter hcolon (by decide)
  have hcolon' := drop_text hcolon
  have hvalue := drop_byte hcolon'
  have hlen : p + m.before.length + (quoted m.key).length + m.after.length + 1 + m.value.length =
      p + m.item.1.length := by
    rw [m.length_item]
    omega
  obtain ⟨k, hcomma, hk⟩ := skipComma_run hsep hsepdrop hr hc'
  rw [Nat.add_assoc] at hk
  refine ⟨k, ?_, hk⟩
  unfold objectBody
  apply Runs.bind_eq (skipWs_run b i)
  rw [hi, hskip]
  apply Runs.bind_eq (peek_run hquoted)
  have hquote : (Ascii.quote == Ascii.rbrace) = false := rfl
  simp only [hquote, Bool.false_eq_true, if_false]
  apply (parseString_runs hkey hutf8 hquoted).bind
  apply Runs.bind_eq (skipWs_run b _)
  rw [hskip']
  apply Runs.bind_eq (peek_run hcolon')
  have hsame : (Ascii.colon != Ascii.colon) = false := rfl
  simp only [hsame, Bool.false_eq_true, if_false]
  apply Runs.bind_eq (advance_run 1 _)
  apply (hm.value hvalue hdelim rfl).bind
  apply Runs.bind_eq (skipWs_run b _)
  rw [hlen]
  apply Runs.bind_eq hcomma
  rw [← hm.key]
  exact Runs.pure _ _

/-- The loop of `parse_object` on the members that are left. -/
theorem objectLoop_runs {members : List Member} {kvs : List (Bytes × Json)} {tail : Bytes}
    (hreads : List.Forall₂ ReadsMember members kvs) (hbefore : ∀ m ∈ members, IsWs m.before)
    (hafter : ∀ m ∈ members, IsWs m.after) (hkeys : ∀ m ∈ members, RawBody m.key)
    (hutf8 : ∀ m ∈ members, Utf8 (lenient m.key)) (hseps : Separated (members.map Member.item))
    (h : b.drop p = closed Ascii.rbrace (members.map Member.item) ++ tail)
    (hi : skipTo b i = skipTo b p) (out : List (Bytes × Json)) :
    RunsLoop (fun n d => objectBody b n (parseValue b n d)) out i (.object (out ++ kvs))
      (p + (closed Ascii.rbrace (members.map Member.item)).length) := by
  induction hreads generalizing i p out with
  | nil =>
    have hvis := skipTo_visible h (by decide)
    apply RunsLoop.exit
    rw [List.append_nil]
    unfold objectBody
    apply Runs.bind_eq (skipWs_run b i)
    rw [hi, hvis]
    apply Runs.bind_eq (peek_run h)
    exact Runs.of_eq rfl
  | @cons m kv members kvs hm _ ih =>
    obtain ⟨hsep, hlast, hseps⟩ := hseps
    have hmem := List.mem_cons_self (a := m) (l := members)
    have hrest : ∀ x ∈ members, x ∈ m :: members := fun x hx => List.mem_cons_of_mem _ hx
    obtain ⟨c', hc', hne⟩ := members_starts (fun x hx => hbefore x (hrest x hx)) tail
    rw [List.map_cons, closed_cons_append] at h
    have hdelim := delim_sep (by decide : endsScalar Ascii.rbrace = true) hsep hlast tail
    -- one iteration reads the first member and its separator
    obtain ⟨k, hbody, hk⟩ := objectBody_runs hm (hbefore m hmem) (hafter m hmem) (hkeys m hmem)
      (hutf8 m hmem) hsep hc' hne hdelim h hi out
    have hdrop := drop_text (drop_text h)
    rw [Nat.add_assoc] at hdrop
    have hloop := ih (fun x hx => hbefore x (hrest x hx))
      (fun x hx => hafter x (hrest x hx)) (fun x hx => hkeys x (hrest x hx))
      (fun x hx => hutf8 x (hrest x hx)) hseps hdrop hk (out ++ [kv])
    rw [List.append_assoc, List.singleton_append] at hloop
    have hlen : p + (m.item.1.length + m.sep.length) +
        (closed Ascii.rbrace (members.map Member.item)).length =
        p + (closed Ascii.rbrace ((m :: members).map Member.item)).length := by
      rw [List.map_cons, length_closed_cons, Nat.add_assoc]
      rfl
    rw [← hlen]
    exact RunsLoop.step hbody hloop

theorem reads_object {w w' : Bytes} {members : List Member} {kvs : List (Bytes × Json)}
    (hw : IsWs w) (hsp : Spaced w' members) (hkeys : ∀ m ∈ members, RawBody m.key)
    (hutf8 : ∀ m ∈ members, Utf8 (lenient m.key))
    (hreads : List.Forall₂ ReadsMember members kvs) :
    Reads (w ++ Ascii.lbrace :: objectText w' members) (.object kvs) := by
  apply reads_of hw (by decide)
  intro b q tail h _
  have hbody : b.drop (q + 1) =
      w' ++ (closed Ascii.rbrace (members.map Member.item) ++ tail) := by
    rw [← List.append_assoc]
    exact drop_byte h
  obtain ⟨c, hc, -⟩ := members_starts hsp.before tail
  have hloop := objectLoop_runs hreads hsp.before hsp.after hkeys hutf8 hsp.seps
    (drop_text hbody) (skipTo_lead hsp.lead hc hbody) []
  have hlen : q + 1 + w'.length + (closed Ascii.rbrace (members.map Member.item)).length =
      q + (Ascii.lbrace :: objectText w' members).length := by
    rw [objectText, List.length_cons, List.length_append]
    omega
  rw [hlen] at hloop
  apply Runs.bind_eq (advance_run 1 q)
  exact hloop.runs

/-! ## Texts in UTF-8 -/

theorem ascii_of_isws {c : UInt8} (h : isws c = true) : c.toNat < 0x80 :=
  Nat.lt_of_le_of_lt (UInt8.le_iff_toNat_le.1 (isws_le h)) (by decide)

theorem IsWs.utf8 {w : Bytes} (hw : IsWs w) : Utf8 w :=
  utf8_of_ascii fun c hc => ascii_of_isws (hw c hc)

theorem IsSep.utf8 {sep : Bytes} (h : IsSep sep) : Utf8 sep := by
  obtain ⟨w, hw, rfl | rfl⟩ := h
  · exact hw.utf8
  · exact hw.utf8.append (Utf8.ascii (by decide))

theorem Delim.boundary {t : Bytes} (h : Delim t) : Boundary t := by
  cases t with
  | nil => trivial
  | cons c t =>
    have hc : endsScalar c = true := h
    apply isUTF8FirstByte_of_ascii
    simp only [endsScalar, Bool.or_eq_true, beq_iff_eq] at hc
    rcases hc with ((rfl | rfl) | rfl) | hc
    · decide
    · decide
    · decide
    · exact ascii_of_isws hc

theorem utf8_quoted {raw : Bytes} (h : Utf8 (quoted raw)) : Utf8 raw := by
  have hrest := (utf8_ascii_cons_iff (by decide)).1 h
  exact (hrest.split (isUTF8FirstByte_of_ascii (by decide))).1

/-- The items of a text are texts. -/
theorem utf8_items {e : UInt8} {items : List (Bytes × Bytes)} (he : endsScalar e = true)
    (hseps : Separated items) (h : Utf8 (closed e items)) : ∀ x ∈ items, Utf8 x.1 := by
  induction items with
  | nil => exact nofun
  | cons x items ih =>
    obtain ⟨hsep, hlast, hseps⟩ := hseps
    -- a separator starts with ASCII, so the item ends at a character boundary
    have hdelim := delim_sep he hsep hlast []
    rw [List.append_nil] at hdelim
    obtain ⟨hx, hrest⟩ := h.split hdelim.boundary
    have hitems := ih hseps (hsep.utf8.of_append_left hrest)
    intro y hy
    rcases List.mem_cons.1 hy with rfl | hy
    · exact hx
    · exact hitems y hy

theorem utf8_array {w w' : Bytes} {items : List (Bytes × Bytes)} (hw : IsWs w) (hw' : IsWs w')
    (hseps : Separated items) (h : Utf8 (w ++ Ascii.lbracket :: arrayText w' items)) :
    ∀ x ∈ items, Utf8 x.1 := by
  have htext := (utf8_ascii_cons_iff (by decide)).1 (hw.utf8.of_append_left h)
  exact utf8_items rfl hseps (hw'.utf8.of_append_left htext)

/-- The keys and the values of a text are texts. -/
theorem utf8_object {w w' : Bytes} {members : List Member} (hw : IsWs w) (hsp : Spaced w' members)
    (h : Utf8 (w ++ Ascii.lbrace :: objectText w' members)) :
    ∀ m ∈ members, Utf8 m.key ∧ Utf8 m.value := by
  have htext := (utf8_ascii_cons_iff (by decide)).1 (hw.utf8.of_append_left h)
  have hitems := utf8_items rfl hsp.seps (hsp.lead.utf8.of_append_left htext)
  intro m hm
  have hitem := (hsp.before m hm).utf8.of_append_left
    (hitems m.item (List.mem_map_of_mem (f := Member.item) hm))
  have hbound : Boundary (m.after ++ Ascii.colon :: m.value) := by
    cases hafter : m.after with
    | nil => exact isUTF8FirstByte_of_ascii (by decide)
    | cons c t =>
      have hc := hsp.after m hm c (by rw [hafter]; exact List.mem_cons_self)
      exact isUTF8FirstByte_of_ascii (ascii_of_isws hc)
  obtain ⟨hkey, hrest⟩ := hitem.split hbound
  have hcolon := (hsp.after m hm).utf8.of_append_left hrest
  exact ⟨utf8_quoted hkey, (utf8_ascii_cons_iff (by decide)).1 hcolon⟩

/-! ## Any value -/

theorem IsJson.starts {t : Bytes} (h : IsJson t) :
    ∃ c, Starts t c ∧ c ≠ Ascii.comma ∧ c ≠ Ascii.rbracket := by
  cases h with
  | bool b hw =>
    cases b with
    | true => exact ⟨0x74, starts_ws hw (by decide), by decide, by decide⟩
    | false => exact ⟨0x66, starts_ws hw (by decide), by decide, by decide⟩
  | null hw => exact ⟨0x6E, starts_ws hw (by decide), by decide, by decide⟩
  | @number w t hw hne hnum =>
    obtain ⟨c, t, rfl⟩ := List.exists_cons_of_ne_nil hne
    have hc := hnum c List.mem_cons_self
    refine ⟨c, starts_ws hw (isNumChar_spec hc).1, ?_, ?_⟩ <;> rintro rfl <;>
      exact absurd hc (by decide)
  | string hw _ => exact ⟨Ascii.quote, starts_ws hw (by decide), by decide, by decide⟩
  | array hw _ _ _ => exact ⟨Ascii.lbracket, starts_ws hw (by decide), by decide, by decide⟩
  | object hw _ _ _ => exact ⟨Ascii.lbrace, starts_ws hw (by decide), by decide, by decide⟩

/-- For each element of a list there is one of its kind: lists of them. -/
theorem exists_forall₂ {α β : Type} {R : α → β → Prop} {l : List α} (h : ∀ a ∈ l, ∃ b, R a b) :
    ∃ l', List.Forall₂ R l l' := by
  induction l with
  | nil => exact ⟨[], List.Forall₂.nil⟩
  | cons a l ih =>
    obtain ⟨b, hb⟩ := h a List.mem_cons_self
    obtain ⟨l', hl'⟩ := ih fun x hx => h x (List.mem_cons_of_mem _ hx)
    exact ⟨b :: l', List.Forall₂.cons hb hl'⟩

/-- Every JSON text is read. -/
theorem IsJson.reads {t : Bytes} (h : IsJson t) (hutf8 : Utf8 t) : ∃ j, Reads t j := by
  induction h with
  | bool b hw => exact ⟨_, reads_bool hw b⟩
  | null hw => exact ⟨_, reads_null hw⟩
  | number hw hne hnum => exact ⟨_, reads_number hw hne hnum⟩
  | string hw hraw =>
    have hbody := utf8_quoted (hw.utf8.of_append_left hutf8)
    exact ⟨_, reads_string hw hraw (utf8_lenient hraw hbody)⟩
  | @array w w' items hw hw' hseps hitems ih =>
    have hparts := utf8_array hw hw' hseps hutf8
    -- each item is a text of its own, so it is read
    obtain ⟨js, hjs⟩ := exists_forall₂ fun x hx => ih x hx (hparts x hx)
    exact ⟨_, reads_array hw hw' hseps hjs fun x hx => (hitems x hx).starts⟩
  | @object w w' members hw hsp hkeys hvalues ih =>
    have hparts := utf8_object hw hsp hutf8
    obtain ⟨kvs, hkvs⟩ : ∃ kvs, List.Forall₂ ReadsMember members kvs := by
      apply exists_forall₂
      intro m hm
      obtain ⟨j, hj⟩ := ih m hm (hparts m hm).2
      exact ⟨(lenient m.key, j), rfl, hj⟩
    exact ⟨_, reads_object hw hsp hkeys
      (fun m hm => utf8_lenient (hkeys m hm) (hparts m hm).1) hkvs⟩

/-- A whole text. -/
theorem Reads.parses {t tail : Bytes} {j : Json} (h : Reads t j) (htail : Delim tail) :
    Json.Parses (t ++ tail) j :=
  ⟨_, h (b := t ++ tail) (i := 0) (p := 0) rfl htail rfl⟩

end Bilbo
