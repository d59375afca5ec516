import Bilbo.Unescape

/-!
# The inline copy and owned strings

`emit_copy` writes words and then one word, or two half words and so on, that overlap what
is already there. Each write is a slice of the source, so the overlaps agree and the
destination ends up equal to the source.
-/

namespace Bilbo

open Base Comp

variable {inp : Input} {s s' : State}

/-- The state with the first `k` bytes from `src` on copied to `dst`. -/
def copied (inp : Input) (s : State) (dst src k : ℕ) : State :=
  { s with mem := writeCells s.mem dst (ints (inp.span src k)) }

theorem copied_zero (inp : Input) (s : State) (dst src : ℕ) : copied inp s dst src 0 = s := by
  simp [copied, Input.span, ints]

/-- A chunk that starts inside what is copied. -/
theorem copied_copied {dst src i j w : ℕ} (hj : j ≤ i) (hi : i ≤ j + w)
    (hw : src + (j + w) ≤ inp.stop) :
    { copied inp s dst src i with
      mem := writeCells (copied inp s dst src i).mem (dst + j) (ints (inp.span (src + j) w)) } =
      copied inp s dst src (j + w) := by
  have hspan : ∀ k, ints (inp.span src k) = (ints (inp.rest src)).take k := by
    intro k
    rw [Input.span, ints, List.map_take]
    rfl
  have hslice : ints (inp.span (src + j) w) = ((ints (inp.rest src)).drop j).take w := by
    rw [Input.span, ← Input.rest_add, ints, List.map_take, List.map_drop]
    rfl
  have hlen : j + w ≤ (ints (inp.rest src)).length := by
    rw [length_ints, Input.length_rest]
    omega
  simp only [copied, hspan, hslice, writeCells_slice _ _ _ hj hi hlen]

/-- `cp` of a chunk that starts inside what is copied. -/
theorem cp_run {dst src i j w : ℕ} (hj : j ≤ i) (hi : i ≤ j + w)
    (hw : src + (j + w) ≤ inp.stop) :
    (cp inp src dst w j).run (copied inp s dst src i) =
      (.done (), copied inp s dst src (j + w)) := by
  rw [cp, if_pos (by omega), storeCells, modify_run, copied_copied hj hi hw]

/-- `cp` returns only when the chunk lies inside the input. -/
theorem cp_done {dst src w off : ℕ} {o : Outcome Stop Unit} (h : (cp inp src dst w off).run s = (o, s'))
    (ho : o = .done ()) : src + off + w ≤ inp.stop := by
  subst ho
  rw [cp] at h
  split at h
  · assumption
  · cases h

/-! ## The word loop -/

theorem copyWords_succ (dst src len n i : ℕ) :
    copyWords inp dst src len (n + 1) i =
      if i + 8 ≤ len then cp inp src dst 8 i >>= fun _ => copyWords inp dst src len n (i + 8)
      else pure () := by
  rw [copyWords, loop_succ]
  split
  · rw [bind_assoc_run]
    rfl
  · rfl

/-- With enough iterations the loop copies all whole words; with fewer it runs out. -/
theorem copyWords_run (s : State) (dst : ℕ) {src len : ℕ} (hlen : src + len ≤ inp.stop) (n i : ℕ) (hi : i ≤ len) :
    ((len - i) / 8 < n → (copyWords inp dst src len n i).run (copied inp s dst src i) =
      (.done (), copied inp s dst src (i + (len - i) / 8 * 8))) ∧
    (n ≤ (len - i) / 8 →
      ((copyWords inp dst src len n i).run (copied inp s dst src i)).1 = .spent) := by
  induction n generalizing i with
  | zero => exact ⟨fun h => absurd h (Nat.not_lt_zero _), fun _ => rfl⟩
  | succ n ih =>
    rw [copyWords_succ]
    split
    -- a word is copied, and one iteration less is needed for the rest
    · next hw =>
      obtain ⟨h1, h2⟩ := ih (i + 8) hw
      have hdiv : (len - i) / 8 = (len - (i + 8)) / 8 + 1 := by omega
      have hcp : (cp inp src dst 8 i).run (copied inp s dst src i) =
          (.done (), copied inp s dst src (i + 8)) :=
        cp_run (Nat.le_refl _) (Nat.le_add_right _ _) (by omega)
      rw [bind_done hcp]
      refine ⟨fun h => ?_, fun h => h2 (by omega)⟩
      rw [h1 (by omega), hdiv]
      congr 2
      omega
    · next hw =>
      have hdiv : (len - i) / 8 = 0 := by omega
      refine ⟨fun _ => ?_, fun h => absurd h (by omega)⟩
      rw [hdiv, Nat.zero_mul, Nat.add_zero]
      rfl

/-! ## The copy -/

/-- The inline copy copies. -/
theorem emitCopy_run {n dst src len : ℕ} (hlen : src + len ≤ inp.stop)
    (hn : 8 ≤ len → len / 8 < n) :
    (emitCopy inp n dst src len).run s = (.done (), copied inp s dst src len) := by
  conv_lhs => rw [← copied_zero inp s dst src]
  rw [emitCopy]
  have step : ∀ {i j w k : ℕ}, j ≤ i → i ≤ j + w → j + w = k → k ≤ len →
      (cp inp src dst w j).run (copied inp s dst src i) = (.done (), copied inp s dst src k) := by
    rintro i j w k hj hi rfl hk
    exact cp_run hj hi (by omega)
  split
  · next h8 =>
    have hloop := (copyWords_run s dst hlen n 0 (Nat.zero_le _)).1 (hn h8)
    rw [bind_done hloop]
    exact step (by omega) (by omega) (by omega) (Nat.le_refl _)
  · split
    · rw [bind_done (step (Nat.le_refl _) (by omega) (Nat.zero_add 4) (by omega))]
      exact step (by omega) (by omega) (by omega) (Nat.le_refl _)
    · split
      · rw [bind_done (step (Nat.le_refl _) (by omega) (Nat.zero_add 2) (by omega))]
        exact step (by omega) (by omega) (by omega) (Nat.le_refl _)
      · split
        · exact step (Nat.le_refl _) (by omega) (by omega) (Nat.le_refl _)
        · obtain rfl : len = 0 := by omega
          rfl

/-- The copy returns only when the source lies inside the input, or there is nothing to
copy. -/
theorem emitCopy_done {n dst src len : ℕ}
    (h : (emitCopy inp n dst src len).run s = (.done (), s')) :
    len = 0 ∨ src + len ≤ inp.stop := by
  -- each length ends with a copy of its last bytes, which are read inside the input
  have last : ∀ {x : M Unit} {w : ℕ}, w ≤ len →
      (x >>= fun _ => cp inp src dst w (len - w)).run s = (.done (), s') →
      src + len ≤ inp.stop := by
    intro x w hw hx
    rw [bind_run] at hx
    split at hx
    · have := cp_done hx rfl
      omega
    all_goals cases hx
  rw [emitCopy] at h
  split at h
  · exact Or.inr (last (by omega) h)
  · split at h
    · exact Or.inr (last (by omega) h)
    · split at h
      · exact Or.inr (last (by omega) h)
      · split at h
        · have := cp_done h rfl
          right
          omega
        · left
          omega

/-- What the copy leaves when it returns. -/
theorem emitCopy_eq {n dst src len : ℕ}
    (h : (emitCopy inp n dst src len).run s = (.done (), s')) :
    s' = copied inp s dst src len := by
  have hin := emitCopy_done h
  by_cases hn : 8 ≤ len ∧ n ≤ len / 8
  · -- the word loop would have run out
    exfalso
    rw [emitCopy, if_pos hn.1, bind_run] at h
    have hlen : src + len ≤ inp.stop := by omega
    have hsp : ((copyWords inp dst src len n 0).run (copied inp s dst src 0)).1 = .spent :=
      (copyWords_run s dst hlen n 0 (Nat.zero_le _)).2 (by omega)
    rw [copied_zero] at hsp
    rcases hr : (copyWords inp dst src len n 0).run s with ⟨o, s₁⟩
    rw [hr] at hsp h
    subst hsp
    cases h
  · rcases hin with rfl | hlen
    · rw [emitCopy, if_neg (by omega), if_neg (by omega), if_neg (by omega),
        if_neg (by omega)] at h
      cases h
      exact (copied_zero _ _ _ _).symm
    · rw [emitCopy_run hlen (by omega)] at h
      cases h
      rfl

/-! ## Owned strings -/

/-- What a span decodes to, `none` being the panic of the unescaper. -/
def decodeSpan (inp : Input) (sp : StrSpan) : Option Bytes :=
  if sp.esc ≠ 0 then unescape (inp.span sp.start sp.len) else some (inp.span sp.start sp.len)

/-- The pointer and the length that `build_str` returns designate the decoded span. -/
theorem buildStr_designates {n : ℕ} {sp : StrSpan} {buf blen : ℕ}
    (h : (buildStr inp n sp).run s = (.done (buf, blen), s')) :
    ∃ bs, decodeSpan inp sp = some bs ∧ readCells s'.mem buf blen = ints bs := by
  rw [buildStr] at h
  rw [decodeSpan]
  split at h
  -- behind an escape the decoded body is stored
  · next hesc =>
    rw [if_pos hesc]
    cases hu : unescape (inp.span sp.start sp.len) with
    | none =>
      rw [rtUnescape, hu] at h
      cases h
    | some out =>
      refine ⟨out, rfl, ?_⟩
      rw [rtUnescape, hu] at h
      rw [bind_assoc_run, bind_run] at h
      split at h
      · next buf' s₁ _ =>
        cases h
        have := readCells_writeCells s₁.mem buf (ints out)
        rwa [length_ints] at this
      all_goals cases h
  · next hesc =>
    rw [if_neg hesc]
    refine ⟨_, rfl, ?_⟩
    rw [bind_run] at h
    split at h
    · next buf' s₁ _ =>
      rw [bind_run] at h
      split at h
      · next hcopy =>
        cases h
        rcases emitCopy_done hcopy with hz | hlen
        · simp [hz, readCells, Input.span, ints]
        · rw [emitCopy_eq hcopy]
          have := readCells_writeCells s₁.mem buf (ints (inp.span sp.start sp.len))
          rwa [length_ints, Input.length_span hlen] at this
      all_goals cases h
    all_goals cases h

/-- `strspan` always returns. -/
@[simp] theorem strspan_run (inp : Input) (cur : ℕ) (s : State) :
    (strspan inp cur).run s =
      (.done ⟨ws inp cur + 1, (strscan inp (ws inp cur)).len, (strscan inp (ws inp cur)).after,
        (strscan inp (ws inp cur)).esc⟩,
      { s with sc := ((strscan inp (ws inp cur)).len, (strscan inp (ws inp cur)).esc) }) := rfl

/-- The bytes that decode the string scanned from `q` are UTF-8 exactly when the string
starts at a character and no escape cuts one. -/
theorem decodeSpan_utf8_iff {q : ℕ} {bs : Bytes} (ht : Utf8 inp.text)
    (h : decodeSpan inp ⟨q + 1, (strscan inp q).len, (strscan inp q).after,
      (strscan inp q).esc⟩ = some bs) :
    Utf8 bs ↔ Boundary (inp.rest (q + 1)) ∧ ¬ CutsChar (strBody (inp.rest (q + 1))) := by
  rw [decodeSpan] at h
  rcases Nat.lt_or_ge q inp.stop with hq | hq
  · rw [span_strscan hq, strscan_eq hq] at h
    -- the body ends at a quote or at the end of the text, so it is cut only at its start
    obtain ⟨t, hr, ht'⟩ := strBody_append (inp.rest (q + 1))
    have hbt : Boundary t := by
      rcases ht' with rfl | ⟨t', rfl⟩
      · trivial
      · exact isUTF8FirstByte_of_ascii (b := Ascii.quote) (by decide)
    have hbs : Boundary (inp.rest (q + 1)) → Utf8 (strBody (inp.rest (q + 1))) := by
      intro hb
      have hrest : Utf8 (inp.rest (q + 1)) := by
        rw [← List.take_append_drop (q + 1) inp.text] at ht
        exact (ht.split hb).2
      rw [hr] at hrest
      exact (hrest.split hbt).1
    have hnb : ¬ Boundary (inp.rest (q + 1)) → ¬ Boundary (strBody (inp.rest (q + 1))) := by
      intro hb hb'
      cases hbody : strBody (inp.rest (q + 1)) with
      | nil => exact hb (by rw [hr, hbody]; exact hbt)
      | cons b body =>
        rw [hbody] at hb'
        exact hb (by rw [hr, hbody]; exact hb')
    -- an escape may cut a character, a copy does not
    by_cases hmem : Ascii.backslash ∈ strBody (inp.rest (q + 1))
    · rw [if_pos (by simp [hmem])] at h
      by_cases hb : Boundary (inp.rest (q + 1))
      · rw [unescapesWell _ bs (hbs hb) h]
        simp [hb]
      · exact iff_of_false (not_utf8_unescape (hnb hb) h) fun h => hb h.1
    · rw [if_neg (by simp [hmem])] at h
      cases h
      by_cases hb : Boundary (inp.rest (q + 1))
      · exact iff_of_true (hbs hb) ⟨hb, not_cutsChar_of_raw hmem⟩
      · exact iff_of_false (fun hu => hnb hb hu.boundary) fun h => hb h.1
  · have hrest : inp.rest (q + 1) = [] := Input.rest_of_stop_le (by omega)
    have hspan : ∀ k, inp.span (q + 1) k = [] := by
      intro k
      rw [Input.span, hrest, List.take_nil]
    rw [hspan] at h
    have hbs : bs = [] := by
      split at h <;> cases h <;> rfl
    rw [hbs, hrest]
    exact iff_of_true Utf8.nil ⟨trivial, not_cutsChar_nil⟩

end Bilbo
