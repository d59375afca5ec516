import Bilbo.Reading

/-!
# Rendering and reading back

What a JSON tree may be written as: any ASCII white space around tokens, a comma, white space or
both between items, a trailing comma or not, and in strings the escapes of quote and backslash,
and those of newline and tab where the writer likes. `json.rs` reads every such text back as the
tree it is a rendering of.
-/

namespace Bilbo

open Base Comp

/-! ## Renderings -/

/-- ASCII white space. -/
def IsBlank (w : Bytes) : Prop := ∀ c ∈ w, Ascii.isWhitespace c = true

/-- What stands behind an item: white space, with a comma in it or not. -/
def IsGap (g : Bytes) : Prop :=
  IsBlank g ∨ ∃ w w', IsBlank w ∧ IsBlank w' ∧ g = w ++ Ascii.comma :: w'

/-- Between two items the gap is not empty. -/
def Gaps : List Bytes → Prop
  | [] => True
  | g :: gs => IsGap g ∧ (gs ≠ [] → g ≠ []) ∧ Gaps gs

/-- A body of a string for some bytes: quote and backslash are escaped, newline and tab may be. -/
inductive Escapes : Bytes → Bytes → Prop
  | nil : Escapes [] []
  | plain {c : UInt8} {s r : Bytes} : c ≠ Ascii.quote → c ≠ Ascii.backslash → Escapes s r →
      Escapes (c :: s) (c :: r)
  | quote {s r : Bytes} : Escapes s r →
      Escapes (Ascii.quote :: s) (Ascii.backslash :: Ascii.quote :: r)
  | backslash {s r : Bytes} : Escapes s r →
      Escapes (Ascii.backslash :: s) (Ascii.backslash :: Ascii.backslash :: r)
  | newline {s r : Bytes} : Escapes s r →
      Escapes (Ascii.newline :: s) (Ascii.backslash :: 0x6E :: r)
  | tab {s r : Bytes} : Escapes s r → Escapes (Ascii.tab :: s) (Ascii.backslash :: 0x74 :: r)

/-- An element of an array: its value, its text and the gap behind it. -/
structure Element where
  value : Json
  text : Bytes
  gap : Bytes

/-- See `Element`. -/
def Element.piece (x : Element) : Bytes × Bytes := (x.text, x.gap)

/-- A member of an object. The key has a body; white space stands before and behind the colon. -/
structure KeyValue where
  key : Bytes
  raw : Bytes
  before : Bytes
  after : Bytes
  value : Json
  text : Bytes
  gap : Bytes

/-- The text of a member up to the gap. -/
def KeyValue.item (m : KeyValue) : Bytes :=
  quoted m.raw ++ (m.before ++ Ascii.colon :: (m.after ++ m.text))

/-- See `KeyValue`. -/
def KeyValue.piece (m : KeyValue) : Bytes × Bytes := (m.item, m.gap)

/-- What a member is read as. -/
def KeyValue.pair (m : KeyValue) : Bytes × Json := (m.key, m.value)

/-- The key and the colon of a member are rendered. -/
structure KeyValue.Ok (m : KeyValue) : Prop where
  key : Utf8 m.key
  raw : Escapes m.key m.raw
  before : IsBlank m.before
  after : IsBlank m.after

/-- What a tree may be written as. A string of the tree is a Rust string, in UTF-8. -/
inductive Renders : Json → Bytes → Prop
  | str {s raw : Bytes} : Utf8 s → Escapes s raw → Renders (.str s) (quoted raw)
  | num {t : Bytes} : t ≠ [] → (∀ c ∈ t, isNumChar c = true) → Renders (.num t) t
  | bool (x : Bool) : Renders (.bool x) (boolText x)
  | null : Renders .null nullText
  | array {w : Bytes} {items : List Element} : IsBlank w → Gaps (items.map Element.gap) →
      (∀ x ∈ items, Renders x.value x.text) →
      Renders (.array (items.map Element.value))
        (Ascii.lbracket :: (w ++ closed Ascii.rbracket (items.map Element.piece)))
  | object {w : Bytes} {members : List KeyValue} : IsBlank w → Gaps (members.map KeyValue.gap) →
      (∀ m ∈ members, m.Ok) → (∀ m ∈ members, Renders m.value m.text) →
      Renders (.object (members.map KeyValue.pair))
        (Ascii.lbrace :: (w ++ closed Ascii.rbrace (members.map KeyValue.piece)))

/-- What stands behind a value: nothing that a number could go on with. -/
def Stops : Bytes → Prop
  | [] => True
  | c :: _ => isNumChar c = false

/-! ## Positions -/

variable {b : Bytes} {i p : ℕ}

theorem skipTo_blank {w r : Bytes} {c : UInt8} (hw : IsBlank w) (h : b.drop i = w ++ c :: r)
    (hc : Ascii.isWhitespace c = false) : skipTo b i = i + w.length := by
  have hc' : ¬ Ascii.isWhitespace c = true := by
    rw [hc]
    exact Bool.false_ne_true
  rw [skipTo, h, List.takeWhile_append_of_pos hw, List.takeWhile_cons_of_neg hc', List.append_nil]

theorem skipTo_token {c : UInt8} {r : Bytes} (h : b.drop i = c :: r)
    (hc : Ascii.isWhitespace c = false) : skipTo b i = i :=
  skipTo_blank (w := []) (fun _ hx => absurd hx List.not_mem_nil) h hc

/-- A token: no white space, and no comma or bracket that an array would take for its own. -/
def IsHead (c : UInt8) : Prop :=
  Ascii.isWhitespace c = false ∧ c ≠ Ascii.comma ∧ c ≠ Ascii.rbracket

theorem isHead_number {c : UInt8} (hc : isNumChar c = true) : IsHead c := by
  refine ⟨?_, ?_, ?_⟩
  · exact Bool.eq_false_iff.2 (not_isWhitespace (isNumChar_spec hc).1)
  · rintro rfl
    exact absurd hc (by decide)
  · rintro rfl
    exact absurd hc (by decide)

theorem Renders.head {j : Json} {t : Bytes} (h : Renders j t) :
    ∃ c r, t = c :: r ∧ IsHead c := by
  cases h with
  | str _ _ => exact ⟨_, _, rfl, by decide, by decide, by decide⟩
  | num hne ht =>
    obtain ⟨c, r, rfl⟩ := List.exists_cons_of_ne_nil hne
    exact ⟨c, r, rfl, isHead_number (ht c List.mem_cons_self)⟩
  | bool x =>
    cases x
    · exact ⟨_, _, rfl, by decide, by decide, by decide⟩
    · exact ⟨_, _, rfl, by decide, by decide, by decide⟩
  | null => exact ⟨_, _, rfl, by decide, by decide, by decide⟩
  | array _ _ _ => exact ⟨_, _, rfl, by decide, by decide, by decide⟩
  | object _ _ _ _ => exact ⟨_, _, rfl, by decide, by decide, by decide⟩

theorem stops_blank {c : UInt8} (h : Ascii.isWhitespace c = true) : isNumChar c = false := by
  rw [Bool.eq_false_iff]
  intro hc
  rw [(isHead_number hc).1] at h
  cases h

/-- Behind an item nothing goes on with a number. -/
theorem IsGap.stops {g r : Bytes} {c : UInt8} (hg : IsGap g) (h : g = [] → isNumChar c = false) :
    Stops (g ++ c :: r) := by
  rcases hg with hw | ⟨w, w', hw, -, rfl⟩
  · cases g with
    | nil => exact h rfl
    | cons x g => exact stops_blank (hw x List.mem_cons_self)
  · cases w with
    | nil => exact (by decide : isNumChar Ascii.comma = false)
    | cons x w => exact stops_blank (hw x List.mem_cons_self)

/-- Past the gap behind an item. -/
theorem skipComma_gap {g r : Bytes} {c : UInt8} (hg : IsGap g) (h : b.drop p = g ++ c :: r)
    (hws : Ascii.isWhitespace c = false) (hc : c ≠ Ascii.comma) :
    ∃ k, (skipComma b).run (skipTo b p) = (.done (), k) ∧ skipTo b k = p + g.length := by
  rcases hg with hw | ⟨w, w', hw, hw', rfl⟩
  · -- no comma: the index stays at the token
    have hskip := skipTo_blank hw h hws
    have hrest := drop_text h
    refine ⟨p + g.length, ?_, skipTo_token hrest hws⟩
    rw [hskip, skipComma, bind_done (peek_run hrest), if_neg (by simpa using hc)]
    rfl
  · rw [List.append_assoc, List.cons_append] at h
    have hskip := skipTo_blank hw h (by decide)
    have hcomma := drop_text h
    have hrest := drop_byte hcomma
    refine ⟨p + w.length + 1, ?_, ?_⟩
    · rw [hskip, skipComma, bind_done (peek_run hcomma)]
      rfl
    · rw [skipTo_blank hw' hrest hws, List.length_append, List.length_cons]
      omega

/-! ## Values -/

/-- `json.rs` reads the value from the text, wherever in the white space in front of it it starts
and whatever stands behind it. -/
def ReadsBack (t : Bytes) (j : Json) : Prop :=
  ∀ ⦃b : Bytes⦄ ⦃i : ℕ⦄ ⦃tail : Bytes⦄, b.drop (skipTo b i) = t ++ tail → Stops tail →
    Runs (fun n d => parseValue b n d) i j (skipTo b i + t.length)

/-- To read a value is to read on from its token. -/
theorem readsBack_of {c : UInt8} {x : Bytes} {j : Json}
    (h : ∀ (b : Bytes) (p : ℕ) (tail : Bytes), b.drop p = c :: x ++ tail → Stops tail →
      Runs (fun n d => valueAt b n (parseValue b n d) c) p j (p + (c :: x).length)) :
    ReadsBack (c :: x) j := by
  intro b i tail hp htail
  apply Runs.call (fun n d => parseValue_succ b n d)
  apply Runs.bind_eq (skipWs_run b i)
  apply Runs.bind_eq (peek_run hp)
  exact h b _ tail hp htail

theorem Escapes.rawBody {s raw : Bytes} (h : Escapes s raw) : RawBody raw ∧ lenient raw = s := by
  induction h with
  | nil => exact ⟨.nil, rfl⟩
  | plain hq hb _ ih => exact ⟨.plain hq hb ih.1, by rw [lenient_plain _ hb, ih.2]⟩
  | quote _ ih => exact ⟨.escape ih.1, by rw [lenient_escape, ih.2]; rfl⟩
  | backslash _ ih => exact ⟨.escape ih.1, by rw [lenient_escape, ih.2]; rfl⟩
  | newline _ ih => exact ⟨.escape ih.1, by rw [lenient_escape, ih.2]; rfl⟩
  | tab _ ih => exact ⟨.escape ih.1, by rw [lenient_escape, ih.2]; rfl⟩

/-- `parse_string` on a rendered string. -/
theorem parseString_escapes {s raw r : Bytes} (hs : Utf8 s) (hraw : Escapes s raw)
    (h : b.drop p = quoted raw ++ r) :
    Runs (fun n _ => parseString b n) p s (p + (quoted raw).length) := by
  obtain ⟨hbody, hlenient⟩ := hraw.rawBody
  have hrun := parseString_runs hbody (by rw [hlenient]; exact hs) h
  rwa [hlenient] at hrun

theorem readsBack_str {s raw : Bytes} (hs : Utf8 s) (hraw : Escapes s raw) :
    ReadsBack (quoted raw) (.str s) := by
  apply readsBack_of
  intro b p tail h _
  apply (parseString_escapes hs hraw h).bind
  exact Runs.pure _ _

theorem readsBack_bool (x : Bool) : ReadsBack (boolText x) (.bool x) := by
  cases x with
  | true => exact readsBack_of fun _ _ _ _ _ => Runs.of_eq rfl
  | false => exact readsBack_of fun _ _ _ _ _ => Runs.of_eq rfl

theorem readsBack_null : ReadsBack nullText .null :=
  readsBack_of fun _ _ _ _ _ => Runs.of_eq rfl

/-- A character of a number selects none of the other branches. -/
theorem valueAt_number {c : UInt8} (hc : isNumChar c = true) (b : Bytes) (n : ℕ)
    (value : Scan Json) : valueAt b n value c = parseNumber b := by
  have hother : ∀ x : UInt8, isNumChar x = false → (c == x) = false := by
    intro x hx
    rw [beq_eq_false_iff_ne]
    rintro rfl
    rw [hc] at hx
    cases hx
  simp only [valueAt, hother Ascii.lbrace rfl, hother Ascii.lbracket rfl, hother Ascii.quote rfl,
    hother 0x74 rfl, hother 0x66 rfl, hother 0x6E rfl, Bool.false_eq_true, if_false]

/-- The number branch takes the whole token. -/
theorem parseNumber_run {t tail : Bytes} (ht : ∀ c ∈ t, isNumChar c = true) (htail : Stops tail)
    (h : b.drop p = t ++ tail) : (parseNumber b).run p = (.done (.num t), p + t.length) := by
  have htake : (b.drop p).takeWhile isNumChar = t := by
    rw [h, List.takeWhile_append_of_pos ht]
    cases tail with
    | nil => exact List.append_nil _
    | cons x r =>
      have hx : isNumChar x = false := htail
      rw [List.takeWhile_cons_of_neg (by rw [hx]; exact Bool.false_ne_true), List.append_nil]
  show (advance ((b.drop p).takeWhile isNumChar).length >>= fun _ =>
    if isUtf8 ((b.drop p).takeWhile isNumChar) = true then
      pure (Json.num ((b.drop p).takeWhile isNumChar)) else fail "invalid utf-8").run p = _
  rw [htake, if_pos ((isUtf8_iff _).2 (utf8_number ht))]
  rfl

theorem readsBack_num {t : Bytes} (hne : t ≠ []) (ht : ∀ c ∈ t, isNumChar c = true) :
    ReadsBack t (.num t) := by
  obtain ⟨c, x, rfl⟩ := List.exists_cons_of_ne_nil hne
  apply readsBack_of
  intro b p tail h htail
  simp only [valueAt_number (ht c List.mem_cons_self)]
  exact Runs.of_eq (parseNumber_run ht htail h)

/-! ## Items -/

/-- The rest of a container starts with a token or with the bracket. -/
theorem closed_head {e : UInt8} (he : Ascii.isWhitespace e = false ∧ e ≠ Ascii.comma)
    {l : List (Bytes × Bytes)} (hitems : ∀ x ∈ l, ∃ c r, x.1 = c :: r ∧ IsHead c)
    (tail : Bytes) : ∃ c r, closed e l ++ tail = c :: r ∧ Ascii.isWhitespace c = false ∧
      c ≠ Ascii.comma ∧ (l = [] → c = e) := by
  cases l with
  | nil => exact ⟨e, tail, rfl, he.1, he.2, fun _ => rfl⟩
  | cons x l =>
    obtain ⟨c, r, hx, hc⟩ := hitems x List.mem_cons_self
    exact ⟨c, _, by rw [closed, hx]; rfl, hc.1, hc.2.1, nofun⟩

/-- What stands behind the text of an item stops it. -/
theorem stops_gap {e : UInt8} (he : isNumChar e = false) {g : Bytes} {c : UInt8} {r : Bytes}
    {l : List (Bytes × Bytes)} (hg : IsGap g) (hne : l ≠ [] → g ≠ [])
    (hlast : l = [] → c = e) : Stops (g ++ c :: r) := by
  apply hg.stops
  intro hnil
  by_cases hitems : l = []
  · rw [hlast hitems]
    exact he
  · exact absurd hnil (hne hitems)

/-- The loop of `parse_array` on the elements that are left. -/
theorem elements_readBack {items : List Element} {tail : Bytes}
    (hread : ∀ x ∈ items, ReadsBack x.text x.value)
    (hhead : ∀ x ∈ items, ∃ c r, x.text = c :: r ∧ IsHead c)
    (hgaps : Gaps (items.map Element.gap))
    (h : b.drop (skipTo b i) = closed Ascii.rbracket (items.map Element.piece) ++ tail)
    (out : List Json) :
    RunsLoop (fun n d => arrayBody b (parseValue b n d)) out i
      (.array (out ++ items.map Element.value))
      (skipTo b i + (closed Ascii.rbracket (items.map Element.piece)).length) := by
  induction items generalizing i out with
  | nil =>
    apply RunsLoop.exit
    rw [List.map_nil, List.append_nil]
    unfold arrayBody
    apply Runs.bind_eq (skipWs_run b i)
    apply Runs.bind_eq (peek_run h)
    exact Runs.of_eq rfl
  | cons x items ih =>
    obtain ⟨hgap, hne, hgaps⟩ := hgaps
    obtain ⟨c, r, htext, hws, -, hbracket⟩ := hhead x List.mem_cons_self
    have hrest : ∀ y ∈ items, ∃ c r, y.text = c :: r ∧ IsHead c :=
      fun y hy => hhead y (List.mem_cons_of_mem x hy)
    obtain ⟨c', r', hclosed, hws', hcomma', hlast⟩ :=
      closed_head (e := Ascii.rbracket) (l := items.map Element.piece) (by decide) (by
        intro y hy
        obtain ⟨z, hz, rfl⟩ := List.mem_map.1 hy
        exact hrest z hz) tail
    rw [List.map_cons, closed_cons_append, hclosed] at h
    -- at the first byte of the text of the element
    have hpeek : b.drop (skipTo b i) = c :: (r ++ (x.gap ++ c' :: r')) := by
      rw [h]
      show x.text ++ _ = _
      rw [htext]
      rfl
    have hskip : skipTo b (skipTo b i) = skipTo b i := skipTo_token hpeek hws
    have hstops : Stops (x.gap ++ c' :: r') := by
      apply stops_gap (e := Ascii.rbracket) (l := items.map Element.piece) rfl hgap
      · intro hitems
        apply hne
        rwa [Ne, List.map_eq_nil_iff] at hitems ⊢
      · exact hlast
    have hvalue := hread x List.mem_cons_self (b := b) (i := skipTo b i) (by rw [hskip]; exact h) hstops
    rw [hskip] at hvalue
    obtain ⟨k, hrun, hk⟩ := skipComma_gap hgap (drop_text h) hws' hcomma'
    have hbody : Runs (fun n d => arrayBody b (parseValue b n d) out) i
        (.inl (out ++ [x.value])) k := by
      unfold arrayBody
      apply Runs.bind_eq (skipWs_run b i)
      apply Runs.bind_eq (peek_run hpeek)
      simp only [beq_eq_false_iff_ne.2 hbracket, Bool.false_eq_true, if_false]
      apply hvalue.bind
      apply Runs.bind_eq (skipWs_run b _)
      apply Runs.bind_eq hrun
      exact Runs.pure _ _
    have hdrop : b.drop (skipTo b k) = closed Ascii.rbracket (items.map Element.piece) ++ tail := by
      rw [hk, hclosed]
      exact drop_text (drop_text h)
    have hloop := ih (fun y hy => hread y (List.mem_cons_of_mem x hy)) hrest hgaps hdrop
      (out ++ [x.value])
    rw [hk, List.append_assoc, List.singleton_append] at hloop
    have hlen : skipTo b i + x.text.length + x.gap.length +
        (closed Ascii.rbracket (items.map Element.piece)).length =
        skipTo b i + (closed Ascii.rbracket ((x :: items).map Element.piece)).length := by
      rw [List.map_cons, length_closed_cons]
      show _ = _ + (x.text.length + x.gap.length + _)
      omega
    rw [← hlen]
    exact RunsLoop.step hbody hloop

theorem readsBack_array {w : Bytes} {items : List Element} (hw : IsBlank w)
    (hgaps : Gaps (items.map Element.gap)) (hread : ∀ x ∈ items, ReadsBack x.text x.value)
    (hhead : ∀ x ∈ items, ∃ c r, x.text = c :: r ∧ IsHead c) :
    ReadsBack (Ascii.lbracket :: (w ++ closed Ascii.rbracket (items.map Element.piece)))
      (.array (items.map Element.value)) := by
  apply readsBack_of
  intro b p tail h _
  have hbody : b.drop (p + 1) = w ++ (closed Ascii.rbracket (items.map Element.piece) ++ tail) :=
    (drop_byte h).trans (List.append_assoc _ _ _)
  obtain ⟨c, r, hclosed, hws, -⟩ :=
    closed_head (e := Ascii.rbracket) (l := items.map Element.piece) (by decide) (by
      intro y hy
      obtain ⟨z, hz, rfl⟩ := List.mem_map.1 hy
      exact hhead z hz) tail
  have hskip : skipTo b (p + 1) = p + 1 + w.length := by
    rw [hclosed] at hbody
    exact skipTo_blank hw hbody hws
  -- the loop starts at the first element
  have hloop := elements_readBack (i := p + 1) hread hhead hgaps
    (by rw [hskip]; exact drop_text hbody) []
  have hlen : skipTo b (p + 1) + (closed Ascii.rbracket (items.map Element.piece)).length =
      p + (Ascii.lbracket :: (w ++ closed Ascii.rbracket (items.map Element.piece))).length := by
    rw [hskip, List.length_cons, List.length_append]
    omega
  rw [hlen] at hloop
  apply Runs.bind_eq (advance_run 1 p)
  exact hloop.runs

/-- One iteration of `parse_object`: a member and the gap behind it. -/
theorem objectBody_readBack {m : KeyValue} {c c' : UInt8} {r r' : Bytes} (hm : m.Ok)
    (htext : m.text = c :: r) (hws : Ascii.isWhitespace c = false)
    (hread : ReadsBack m.text m.value) (hgap : IsGap m.gap) (hstops : Stops (m.gap ++ c' :: r'))
    (hws' : Ascii.isWhitespace c' = false) (hcomma : c' ≠ Ascii.comma)
    (h : b.drop (skipTo b i) = m.item ++ (m.gap ++ c' :: r')) (out : List (Bytes × Json)) :
    ∃ k, Runs (fun n d => objectBody b n (parseValue b n d) out) i (.inl (out ++ [m.pair])) k ∧
      skipTo b k = skipTo b i + m.item.length + m.gap.length := by
  obtain ⟨k, hrun, hk⟩ := skipComma_gap hgap (drop_text h) hws' hcomma
  refine ⟨k, ?_, hk⟩
  have hitem : m.item ++ (m.gap ++ c' :: r') = quoted m.raw ++ (m.before ++
      Ascii.colon :: (m.after ++ (m.text ++ (m.gap ++ c' :: r')))) := by
    simp only [KeyValue.item, List.append_assoc, List.cons_append]
  rw [hitem] at h
  have hkey := drop_text h
  have hcolon := drop_text hkey
  have hafter := drop_byte hcolon
  -- the index behind the key, at the colon, and at the value
  have hskip₁ := skipTo_blank hm.before hkey (by decide)
  have hskip₂ : skipTo b (skipTo b i + (quoted m.raw).length + m.before.length + 1) =
      skipTo b i + (quoted m.raw).length + m.before.length + 1 + m.after.length := by
    rw [htext, List.cons_append] at hafter
    exact skipTo_blank hm.after hafter hws
  have hvalue := hread (b := b) (i := skipTo b i + (quoted m.raw).length + m.before.length + 1)
    (by rw [hskip₂]; exact drop_text hafter) hstops
  have hlen : skipTo b i + (quoted m.raw).length + m.before.length + 1 + m.after.length +
      m.text.length = skipTo b i + m.item.length := by
    simp only [KeyValue.item, List.length_append, List.length_cons]
    omega
  rw [hskip₂, hlen] at hvalue
  unfold objectBody
  apply Runs.bind_eq (skipWs_run b i)
  apply Runs.bind_eq (peek_run h)
  have hquote : (Ascii.quote == Ascii.rbrace) = false := rfl
  simp only [hquote, Bool.false_eq_true, if_false]
  apply (parseString_escapes hm.key hm.raw h).bind
  apply Runs.bind_eq (skipWs_run b _)
  rw [hskip₁]
  apply Runs.bind_eq (peek_run hcolon)
  have hsame : (Ascii.colon != Ascii.colon) = false := rfl
  simp only [hsame, Bool.false_eq_true, if_false]
  apply Runs.bind_eq (advance_run 1 _)
  apply hvalue.bind
  apply Runs.bind_eq (skipWs_run b _)
  apply Runs.bind_eq hrun
  exact Runs.pure _ _

/-- A member starts with the quote of its key. -/
theorem members_head (members : List KeyValue) :
    ∀ x ∈ members.map KeyValue.piece, ∃ c r, x.1 = c :: r ∧ IsHead c := by
  intro x hx
  obtain ⟨m, -, rfl⟩ := List.mem_map.1 hx
  exact ⟨Ascii.quote, _, rfl, by decide, by decide, by decide⟩

/-- The loop of `parse_object` on the members that are left. -/
theorem members_readBack {members : List KeyValue} {tail : Bytes} (hok : ∀ m ∈ members, m.Ok)
    (hread : ∀ m ∈ members, ReadsBack m.text m.value)
    (hhead : ∀ m ∈ members, ∃ c r, m.text = c :: r ∧ IsHead c)
    (hgaps : Gaps (members.map KeyValue.gap))
    (h : b.drop (skipTo b i) = closed Ascii.rbrace (members.map KeyValue.piece) ++ tail)
    (out : List (Bytes × Json)) :
    RunsLoop (fun n d => objectBody b n (parseValue b n d)) out i
      (.object (out ++ members.map KeyValue.pair))
      (skipTo b i + (closed Ascii.rbrace (members.map KeyValue.piece)).length) := by
  induction members generalizing i out with
  | nil =>
    apply RunsLoop.exit
    rw [List.map_nil, List.append_nil]
    unfold objectBody
    apply Runs.bind_eq (skipWs_run b i)
    apply Runs.bind_eq (peek_run h)
    exact Runs.of_eq rfl
  | cons m members ih =>
    obtain ⟨hgap, hne, hgaps⟩ := hgaps
    obtain ⟨c, r, htext, hws, -⟩ := hhead m List.mem_cons_self
    obtain ⟨c', r', hclosed, hws', hcomma, hlast⟩ :=
      closed_head (e := Ascii.rbrace) (by decide) (members_head members) tail
    rw [List.map_cons, closed_cons_append, hclosed] at h
    -- the value ends where the gap or the bracket starts
    have hstops : Stops (m.gap ++ c' :: r') := by
      apply stops_gap (e := Ascii.rbrace) (l := members.map KeyValue.piece) rfl hgap
      · intro hitems
        apply hne
        rwa [Ne, List.map_eq_nil_iff] at hitems ⊢
      · exact hlast
    obtain ⟨k, hbody, hk⟩ := objectBody_readBack (hok m List.mem_cons_self) htext hws
      (hread m List.mem_cons_self) hgap hstops hws' hcomma h out
    have hdrop : b.drop (skipTo b k) =
        closed Ascii.rbrace (members.map KeyValue.piece) ++ tail := by
      rw [hk, hclosed]
      exact drop_text (drop_text h)
    have hloop := ih (fun x hx => hok x (List.mem_cons_of_mem m hx))
      (fun x hx => hread x (List.mem_cons_of_mem m hx))
      (fun x hx => hhead x (List.mem_cons_of_mem m hx)) hgaps hdrop (out ++ [m.pair])
    rw [hk, List.append_assoc, List.singleton_append] at hloop
    have hlen : skipTo b i + m.item.length + m.gap.length +
        (closed Ascii.rbrace (members.map KeyValue.piece)).length =
        skipTo b i + (closed Ascii.rbrace ((m :: members).map KeyValue.piece)).length := by
      rw [List.map_cons, length_closed_cons]
      show _ = _ + (m.item.length + m.gap.length + _)
      omega
    rw [← hlen]
    exact RunsLoop.step hbody hloop

theorem readsBack_object {w : Bytes} {members : List KeyValue} (hw : IsBlank w)
    (hgaps : Gaps (members.map KeyValue.gap)) (hok : ∀ m ∈ members, m.Ok)
    (hread : ∀ m ∈ members, ReadsBack m.text m.value)
    (hhead : ∀ m ∈ members, ∃ c r, m.text = c :: r ∧ IsHead c) :
    ReadsBack (Ascii.lbrace :: (w ++ closed Ascii.rbrace (members.map KeyValue.piece)))
      (.object (members.map KeyValue.pair)) := by
  apply readsBack_of
  intro b p tail h _
  have hbody : b.drop (p + 1) = w ++ (closed Ascii.rbrace (members.map KeyValue.piece) ++ tail) :=
    (drop_byte h).trans (List.append_assoc _ _ _)
  obtain ⟨c, r, hclosed, hws, -⟩ :=
    closed_head (e := Ascii.rbrace) (by decide) (members_head members) tail
  have hskip : skipTo b (p + 1) = p + 1 + w.length := by
    rw [hclosed] at hbody
    exact skipTo_blank hw hbody hws
  -- the loop starts at the first key
  have hloop := members_readBack (i := p + 1) hok hread hhead hgaps
    (by rw [hskip]; exact drop_text hbody) []
  have hlen : skipTo b (p + 1) + (closed Ascii.rbrace (members.map KeyValue.piece)).length =
      p + (Ascii.lbrace :: (w ++ closed Ascii.rbrace (members.map KeyValue.piece))).length := by
    rw [hskip, List.length_cons, List.length_append]
    omega
  rw [hlen] at hloop
  apply Runs.bind_eq (advance_run 1 p)
  exact hloop.runs

/-! ## Any tree -/

theorem Renders.readsBack {j : Json} {t : Bytes} (h : Renders j t) : ReadsBack t j := by
  induction h with
  | str hs hraw => exact readsBack_str hs hraw
  | num hne ht => exact readsBack_num hne ht
  | bool x => exact readsBack_bool x
  | null => exact readsBack_null
  | array hw hgaps hitems ih =>
    exact readsBack_array hw hgaps ih fun x hx => (hitems x hx).head
  | object hw hgaps hok hvalues ih =>
    exact readsBack_object hw hgaps hok ih fun m hm => (hvalues m hm).head

/-- `json::parse` reads every rendering of a tree back as that tree, with white space in front of
it and anything behind it that a number could not go on with. -/
theorem parses_rendering {j : Json} {w t tail : Bytes} (h : Renders j t) (hw : IsBlank w)
    (htail : Stops tail) : Json.Parses (w ++ (t ++ tail)) j := by
  obtain ⟨c, r, rfl, hc⟩ := h.head
  have hskip : skipTo (w ++ (c :: r ++ tail)) 0 = 0 + w.length := skipTo_blank hw rfl hc.1
  refine ⟨_, h.readsBack (i := 0) ?_ htail⟩
  rw [hskip, Nat.zero_add, List.drop_left]

/-- The members of `{"a": 1 "a":"\n",}`. -/
def twiceA : List KeyValue :=
  [⟨[0x61], [0x61], [], [0x20], .num [0x31], [0x31], [0x20]⟩,
    ⟨[0x61], [0x61], [], [], .str [Ascii.newline], quoted [0x5C, 0x6E], [0x2C]⟩]

theorem renders_twiceA : Renders (.object (twiceA.map KeyValue.pair))
    (Ascii.lbrace :: ([] ++ closed Ascii.rbrace (twiceA.map KeyValue.piece))) := by
  have hempty : IsBlank [] := fun _ hc => absurd hc List.not_mem_nil
  have hspace : IsBlank [0x20] := List.forall_mem_singleton.2 rfl
  have hkey : Utf8 [0x61] := by decide
  have hraw : Escapes [0x61] [0x61] := .plain (by decide) (by decide) .nil
  have hone : Renders (.num [0x31]) [0x31] := .num (by decide) (List.forall_mem_singleton.2 rfl)
  have hline : Renders (.str [Ascii.newline]) (quoted [0x5C, 0x6E]) :=
    .str (by decide) (.newline .nil)
  apply Renders.object hempty
  · exact ⟨.inl hspace, fun _ => by decide, .inr ⟨[], [], hempty, hempty, rfl⟩,
      fun h => absurd rfl h, trivial⟩
  · intro m hm
    rcases List.mem_cons.1 hm with rfl | hm
    · exact ⟨hkey, hraw, hempty, hspace⟩
    · rw [List.mem_singleton.1 hm]
      exact ⟨hkey, hraw, hempty, hempty⟩
  · intro m hm
    rcases List.mem_cons.1 hm with rfl | hm
    · exact hone
    · rw [List.mem_singleton.1 hm]
      exact hline

/-- `{"a": 1 "a":"\n",}]`, with a bracket too many. -/
theorem parses_rendering_twiceA :
    Json.Parses ([] ++ ([0x7B, 0x22, 0x61, 0x22, 0x3A, 0x20, 0x31, 0x20, 0x22, 0x61, 0x22, 0x3A,
      0x22, 0x5C, 0x6E, 0x22, 0x2C, 0x7D] ++ [0x5D]))
      (.object [([0x61], .num [0x31]), ([0x61], .str [Ascii.newline])]) :=
  parses_rendering renders_twiceA (fun _ hc => absurd hc List.not_mem_nil) rfl

end Bilbo
