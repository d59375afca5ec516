import Bilbo.Decoding

/-!
# The string scanner and what it hands on

`rt_strscan` jumps from one quote or backslash to the next with `memchr2`; it finds what a walk
over the bytes finds. `rt_unescape` then takes four digits behind every `\u` of the span.
-/

namespace Bilbo

open Base Comp

/-! ## The jumps -/

section

variable (memchr2 : UInt8 → UInt8 → Bytes → Option ℕ)

/-- The first position of either byte, as `memchr2` documents it. -/
def FindsFirst : Prop :=
  ∀ x y hay, memchr2 x y hay = hay.findIdx? fun b => b == x || b == y

/-- One iteration of the loop of `rt_strscan`, at `i` and with the flag so far. -/
def jumpBody (inp : Input) (s : ℕ) (b : ℕ × ℕ) : M ((ℕ × ℕ) ⊕ ℕ) :=
  match memchr2 Ascii.quote Ascii.backslash (inp.rest b.1) with
  | none => do
    modify fun st => { st with sc := (wrapSub inp.stop s, b.2) }
    pure (.inr inp.stop)
  | some off => do
    let c ← loadU8 inp (b.1 + off)
    if c == Ascii.quote then do
      modify fun st => { st with sc := (b.1 + off - s, b.2) }
      pure (.inr (b.1 + off + 1))
    else pure (.inl (min (b.1 + off + 2) inp.stop, 1))

/-- `rt_strscan`, jump by jump. -/
def jumpScan (inp : Input) (n q : ℕ) : M ℕ := loop (jumpBody memchr2 inp (q + 1)) n (q + 1, 0)

end

/-- Bytes that are neither quotes nor backslashes are stepped over. -/
theorem strscanLoop_plain (stop s : ℕ) {a : Bytes} (ha : PlainKey a) (r : Bytes) (i esc : ℕ) :
    strscanLoop stop s (a ++ r) i esc = strscanLoop stop s r (i + a.length) esc := by
  induction a generalizing i with
  | nil => rfl
  | cons b a ih =>
    have ⟨hq, hb⟩ := ha
    rw [List.mem_cons, not_or] at hq hb
    have hstep : strscanLoop stop s (b :: (a ++ r)) i esc =
        strscanLoop stop s (a ++ r) (i + 1) esc := by
      conv_lhs => unfold strscanLoop
      rw [if_neg (by simpa using Ne.symm hq.1), if_neg (by simpa using Ne.symm hb.1)]
    rw [List.cons_append, hstep, ih ⟨hq.2, hb.2⟩, List.length_cons, Nat.add_assoc, Nat.add_comm 1]

/-- What `memchr2` finds: nothing, or the first quote or backslash. -/
theorem findsFirst_cases {memchr2 : UInt8 → UInt8 → Bytes → Option ℕ} (h : FindsFirst memchr2)
    (bs : Bytes) :
    memchr2 Ascii.quote Ascii.backslash bs = none ∧ PlainKey bs ∨
      ∃ a b r, bs = a ++ b :: r ∧ PlainKey a ∧ (b = Ascii.quote ∨ b = Ascii.backslash) ∧
        memchr2 Ascii.quote Ascii.backslash bs = some a.length := by
  rw [h]
  induction bs with
  | nil => exact .inl ⟨rfl, nofun, nofun⟩
  | cons b bs ih =>
    rw [List.findIdx?_cons]
    by_cases hb : b = Ascii.quote ∨ b = Ascii.backslash
    · refine .inr ⟨[], b, bs, rfl, ⟨nofun, nofun⟩, hb, ?_⟩
      rw [if_pos (by simpa using hb)]
      rfl
    · rw [if_neg (by simpa using hb)]
      rw [not_or] at hb
      -- a plain byte in front changes nothing but the index
      obtain ⟨hnone, hq, hbs⟩ | ⟨a, c, r, rfl, ⟨hq, hbs⟩, hc, hsome⟩ := ih
      · refine .inl ⟨by rw [hnone]; rfl, ?_, ?_⟩
        · rw [List.mem_cons, not_or]
          exact ⟨Ne.symm hb.1, hq⟩
        · rw [List.mem_cons, not_or]
          exact ⟨Ne.symm hb.2, hbs⟩
      · refine .inr ⟨b :: a, c, r, rfl, ⟨?_, ?_⟩, hc, by rw [hsome]; rfl⟩
        · rw [List.mem_cons, not_or]
          exact ⟨Ne.symm hb.1, hq⟩
        · rw [List.mem_cons, not_or]
          exact ⟨Ne.symm hb.2, hbs⟩

theorem strscanLoop_quote (stop s : ℕ) (r : Bytes) (i esc : ℕ) :
    strscanLoop stop s (Ascii.quote :: r) i esc = ⟨i + 1, i - s, esc⟩ := by
  unfold strscanLoop
  rfl

/-- Behind a backslash the walk goes on at the byte after next, or at `end`. -/
theorem strscanLoop_backslash {inp : Input} {s i esc : ℕ} {r : Bytes}
    (h : inp.rest i = Ascii.backslash :: r) :
    strscanLoop inp.stop s (Ascii.backslash :: r) i esc =
      strscanLoop inp.stop s (inp.rest (min (i + 2) inp.stop)) (min (i + 2) inp.stop) 1 := by
  have hlen := congrArg List.length h
  rw [Input.length_rest, List.length_cons] at hlen
  cases r with
  | nil =>
    have hmin : min (i + 2) inp.stop = inp.stop := by
      rw [List.length_nil] at hlen
      omega
    rw [hmin, Input.rest_of_stop_le (Nat.le_refl _)]
    rfl
  | cons e r =>
    have hmin : min (i + 2) inp.stop = i + 2 := by
      rw [List.length_cons] at hlen
      omega
    have hrest : inp.rest (i + 2) = r := by
      rw [← Input.rest_add, h]
      rfl
    rw [hmin, hrest]
    conv_lhs => unfold strscanLoop
    rfl

/-- The jumps from `i` on find what the walk from `i` on finds. -/
theorem jumps_run {memchr2 : UInt8 → UInt8 → Bytes → Option ℕ} (h : FindsFirst memchr2)
    {inp : Input} {s : ℕ} (i esc : ℕ) (st : State) :
    RunsLoop (fun _ _ => jumpBody memchr2 inp s) (i, esc) st
      (strscanLoop inp.stop s (inp.rest i) i esc).after
      { st with
        sc := ((strscanLoop inp.stop s (inp.rest i) i esc).len,
          (strscanLoop inp.stop s (inp.rest i) i esc).esc) } := by
  induction hn : inp.stop - i using Nat.strong_induction_on generalizing i esc with
  | _ n ih =>
    subst hn
    obtain ⟨hnone, hplain⟩ | ⟨a, b, r, hrest, hplain, hb, hsome⟩ := findsFirst_cases h (inp.rest i)
    · -- neither byte is left: up to `end`
      have hscan := strscanLoop_plain inp.stop s hplain [] i esc
      rw [List.append_nil] at hscan
      rw [hscan]
      apply RunsLoop.exit
      unfold jumpBody
      simp only [hnone]
      exact Runs.of_eq rfl
    · have hat := Input.rest_append hrest
      have hload := loadU8_run hat st
      have hlt := (Input.rest_cons hat).1
      rw [hrest, strscanLoop_plain _ _ hplain]
      rcases hb with rfl | rfl
      -- the quote ends the loop
      · rw [strscanLoop_quote]
        apply RunsLoop.exit
        unfold jumpBody
        simp only [hsome]
        apply Runs.bind_eq hload
        exact Runs.of_eq rfl
      -- behind a backslash the next jump starts past the escaped byte, so less is left
      · rw [strscanLoop_backslash hat]
        refine RunsLoop.step ?_ (ih _ (by omega) _ 1 rfl)
        unfold jumpBody
        simp only [hsome]
        apply Runs.bind_eq hload
        exact Runs.of_eq rfl

/-- `rt_strscan` with its jumps is the walk over the bytes. -/
theorem jumpScan_runs {memchr2 : UInt8 → UInt8 → Bytes → Option ℕ} (h : FindsFirst memchr2)
    (inp : Input) (q : ℕ) (st : State) :
    Runs (fun n _ => jumpScan memchr2 inp n q) st (strscan inp q).after
      { st with sc := ((strscan inp q).len, (strscan inp q).esc) } :=
  (jumps_run h (q + 1) 0 st).runs

/-- `rt_strscan` ends. It reports the bytes up to the first quote that no active backslash precedes,
or up to `end`, and whether there is a backslash among them; it returns the cursor behind that
quote, or `end`. -/
theorem rtStrscan_finds_quote {memchr2 : UInt8 → UInt8 → Bytes → Option ℕ}
    (h : FindsFirst memchr2) {inp : Input} {q : ℕ} (hq : q < inp.stop) (st : State) :
    ∃ body after, body = strBody (inp.rest (q + 1)) ∧
      Runs (fun n _ => jumpScan memchr2 inp n q) st after
        { st with sc := (body.length, if Ascii.backslash ∈ body then 1 else 0) } ∧
      (inp.rest (q + 1) = body ∧ after = inp.stop ∨
        ∃ r, inp.rest (q + 1) = body ++ Ascii.quote :: r ∧ after = q + 1 + body.length + 1) ∧
      q + 1 + body.length ≤ inp.stop ∧ q ≤ after ∧ after ≤ inp.stop := by
  have hrun := jumpScan_runs h inp q st
  have hin := strscan_len_le hq
  have hlen := inp.length_rest (q + 1)
  rw [strscan_eq hq] at hrun hin
  have hin : q + 1 + (strBody (inp.rest (q + 1))).length ≤ inp.stop := hin
  -- behind the body stands nothing, or the quote that closes it
  obtain ⟨t, ht, hend⟩ := strBody_append (inp.rest (q + 1))
  have hbody := congrArg List.length ht
  rw [List.length_append] at hbody
  obtain rfl | ⟨r, rfl⟩ := hend
  · rw [List.length_nil] at hbody
    rw [if_neg (by omega)] at hrun
    rw [List.append_nil] at ht
    exact ⟨_, inp.stop, rfl, hrun, .inl ⟨ht, rfl⟩, hin, Nat.le_of_lt hq, Nat.le_refl _⟩
  · rw [List.length_cons] at hbody
    rw [if_pos (by omega)] at hrun
    refine ⟨_, q + 1 + (strBody (inp.rest (q + 1))).length + 1, rfl, hrun, .inr ⟨r, ht, rfl⟩, hin, ?_⟩
    constructor <;> omega

/-- A `memchr2`. -/
def firstOf (x y : UInt8) (hay : Bytes) : Option ℕ := hay.findIdx? fun b => b == x || b == y

theorem rtStrscan_finds_quote_newline : ∃ body after,
    body = strBody ((stringInput newlinePieces (by decide)).rest 1) ∧
      Runs (fun n _ => jumpScan firstOf (stringInput newlinePieces (by decide)) n 0)
        (State.initial 0) after
        { State.initial 0 with sc := (body.length, if Ascii.backslash ∈ body then 1 else 0) } ∧
      ((stringInput newlinePieces (by decide)).rest 1 = body ∧ after = 5 ∨
        ∃ r, (stringInput newlinePieces (by decide)).rest 1 = body ++ Ascii.quote :: r ∧
          after = 0 + 1 + body.length + 1) ∧
      0 + 1 + body.length ≤ 5 ∧ 0 ≤ after ∧ after ≤ 5 :=
  rtStrscan_finds_quote (fun _ _ _ => rfl) (by decide) _

/-! ## Escapes cut short -/

/-- Read from left to right, some `\u` of the span has fewer than four bytes behind it. -/
inductive UnitCut : Bytes → Prop
  | here {r : Bytes} : r.length < 4 → UnitCut (Ascii.backslash :: 0x75 :: r)
  | unit {a b c d : UInt8} {r : Bytes} : UnitCut r →
      UnitCut (Ascii.backslash :: 0x75 :: a :: b :: c :: d :: r)
  | short {e : UInt8} {r : Bytes} : e ≠ 0x75 → UnitCut r → UnitCut (Ascii.backslash :: e :: r)
  | raw {b : UInt8} {r : Bytes} : b ≠ Ascii.backslash → UnitCut r → UnitCut (b :: r)

theorem unitCut_raw_iff {b : UInt8} {r : Bytes} (hb : b ≠ Ascii.backslash) :
    UnitCut (b :: r) ↔ UnitCut r := by
  refine ⟨fun h => ?_, .raw hb⟩
  cases h with
  | raw _ h => exact h
  | here | unit | short => exact absurd rfl hb

theorem unitCut_short_iff {e : UInt8} {r : Bytes} (he : e ≠ 0x75) :
    UnitCut (Ascii.backslash :: e :: r) ↔ UnitCut r := by
  refine ⟨fun h => ?_, .short he⟩
  cases h with
  | short _ h => exact h
  | raw hb _ => exact absurd rfl hb
  | here | unit => exact absurd rfl he

theorem unitCut_unit_iff {a b c d : UInt8} {r : Bytes} :
    UnitCut (Ascii.backslash :: 0x75 :: a :: b :: c :: d :: r) ↔ UnitCut r := by
  refine ⟨fun h => ?_, .unit⟩
  cases h with
  | unit h => exact h
  | raw hb _ => exact absurd rfl hb
  | short he _ => exact absurd rfl he
  | here hlen =>
    simp only [List.length_cons] at hlen
    omega

/-- Four bytes are taken, or ten when they and the next escape are a pair; then the rest is cut
short when the span is. -/
theorem unitCut_uStep {r o r' : Bytes} (h : uStep r = some (o, r')) :
    UnitCut (Ascii.backslash :: 0x75 :: r) ↔ UnitCut r' := by
  match r, h with
  | a :: b :: c :: d :: r, h =>
    rw [unitCut_unit_iff]
    simp only [uStep] at h
    split at h
    · rename_i lo hlo
      rw [Option.ite_none_right_eq_some] at hlo
      obtain ⟨l₀, l₁, l₂, l₃, r₂, rfl, -, -⟩ := lowEscape_eq_some hlo.2
      simp only [Option.some.injEq, Prod.mk.injEq] at h
      rw [← h.2]
      exact unitCut_unit_iff
    · simp only [Option.some.injEq, Prod.mk.injEq] at h
      rw [h.2]

theorem uStep_eq_none {r : Bytes} (h : uStep r = none) : r.length < 4 := by
  match r, h with
  | [], _ => decide
  | [_], _ => simp
  | [_, _], _ => simp
  | [_, _, _], _ => simp
  | a :: b :: c :: d :: r, h =>
    simp only [uStep] at h
    split at h <;> cases h

/-- The unescaper runs out of the span exactly where a `\u` is cut short. -/
theorem unescape_eq_none_iff (s : Bytes) : unescape s = none ↔ UnitCut s := by
  -- a `\u` takes six or twelve bytes at once
  induction hn : s.length using Nat.strong_induction_on generalizing s with
  | _ n ih =>
    subst hn
    cases s with
    | nil => exact iff_of_false nofun nofun
    | cons b s =>
      by_cases hb : b = Ascii.backslash
      · subst hb
        cases s with
        | nil =>
          refine iff_of_false nofun ?_
          intro h
          cases h with
          | raw hb _ => exact hb rfl
        | cons e s =>
          by_cases he : e = 0x75
          · subst he
            rw [unescape_u]
            cases hstep : uStep s with
            | none => exact iff_of_true rfl (.here (uStep_eq_none hstep))
            | some x =>
              obtain ⟨o, r⟩ := x
              have hlen := uStep_length hstep
              simp only [List.length_cons] at ih
              rw [Option.bind_some, Option.map_eq_none_iff, unitCut_uStep hstep]
              exact ih r.length (by omega) r rfl
          · rw [unescape_short _ he, Option.map_eq_none_iff, unitCut_short_iff he]
            exact ih s.length (by simp only [List.length_cons]; omega) s rfl
      · rw [unescape_raw _ hb, Option.map_eq_none_iff, unitCut_raw_iff hb]
        exact ih s.length (Nat.lt_succ_self _) s rfl

/-- On a span that `rt_strscan` delivers `rt_unescape` runs to its end exactly when no `\u` of the
string is cut short. -/
theorem rtUnescape_survives_iff {inp : Input} {q : ℕ} (hq : q < inp.stop) (s : State) :
    (∃ p s', (rtUnescape inp (q + 1) (strscan inp q).len).run s = (.done p, s')) ↔
      ¬ UnitCut (strBody (inp.rest (q + 1))) := by
  rw [← unescape_eq_none_iff, ← span_strscan hq]
  cases hun : unescape (inp.span (q + 1) (strscan inp q).len) with
  | none =>
    refine iff_of_false ?_ (fun h => h rfl)
    rintro ⟨p, s', hrun⟩
    rw [rtUnescape, hun] at hrun
    cases hrun
  | some out =>
    obtain ⟨p, s', hrun, -⟩ := rtUnescape_run hun s
    exact iff_of_true ⟨p, s', hrun⟩ (Option.some_ne_none out)

theorem rtUnescape_survives_newline :
    (∃ p s', (rtUnescape (stringInput newlinePieces (by decide)) 1
        (strscan (stringInput newlinePieces (by decide)) 0).len).run (State.initial 0) =
        (.done p, s')) ↔
      ¬ UnitCut (strBody ((stringInput newlinePieces (by decide)).rest 1)) :=
  rtUnescape_survives_iff (by decide) _

/-- `"\u12"` -/
def cutUnitInput : Input := ⟨[0x22, 0x5C, 0x75, 0x31, 0x32, 0x22], fun _ => 0, by decide⟩

theorem rtUnescape_cut_panics : (strscan cutUnitInput 0).esc ≠ 0 ∧
    ((rtUnescape cutUnitInput 1 (strscan cutUnitInput 0).len).run (State.initial 0)).1 =
      .stop (.panic "index out of bounds") := by
  constructor
  · decide
  · rfl

end Bilbo
