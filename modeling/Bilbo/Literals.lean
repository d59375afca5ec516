import Bilbo.Copy
import Bilbo.Tokens

/-!
# The scanners on strings, numbers and skipped values

Where each scanner stops, and what it reads, when the text in front of it is a string, a
number or any JSON value.
-/

namespace Bilbo

open Base Comp

variable {inp : Input} {c : ℕ}

/-! ## Strings -/

theorem strBody_rawBody {raw : Bytes} (h : RawBody raw) (r : Bytes) :
    strBody (raw ++ Ascii.quote :: r) = raw := by
  induction h with
  | nil => exact strBody_quote r
  | plain hq hb _ ih => rw [List.cons_append, strBody_raw _ hq hb, ih]
  | escape _ ih => rw [List.cons_append, List.cons_append, strBody_escape, ih]

/-- `rt_strscan` on a string. -/
theorem strscan_quoted {raw r : Bytes} {q : ℕ} (hraw : RawBody raw)
    (h : inp.rest q = quoted raw ++ r) :
    strscan inp q =
      ⟨q + (quoted raw).length, raw.length, if Ascii.backslash ∈ raw then 1 else 0⟩ := by
  obtain ⟨hlt, -, hrest⟩ := Input.rest_cons h
  have hbody : inp.rest (q + 1) = raw ++ Ascii.quote :: r := by
    rw [hrest]
    exact List.append_assoc raw [Ascii.quote] r
  have hlen := congrArg List.length hbody
  rw [Input.length_rest, List.length_append, List.length_cons] at hlen
  rw [strscan_eq hlt, hbody, strBody_rawBody hraw, if_pos (by omega)]
  have hq : (quoted raw).length = raw.length + 2 := by
    rw [quoted, List.length_cons, List.length_append]
    rfl
  rw [hq]
  congr 1
  omega

theorem RawBody.append_of_plain {a r : Bytes} (ha : PlainKey a) (hr : RawBody r) :
    RawBody (a ++ r) := by
  induction a with
  | nil => exact hr
  | cons b a ih =>
    have ⟨hq, hb⟩ := ha
    rw [List.mem_cons, not_or] at hq hb
    exact RawBody.plain (Ne.symm hq.1) (Ne.symm hb.1) (ih ⟨hq.2, hb.2⟩)

theorem PlainKey.rawBody {a : Bytes} (ha : PlainKey a) : RawBody a := by
  have h := RawBody.append_of_plain ha RawBody.nil
  rwa [List.append_nil] at h

theorem isHexDigit_plain {x : UInt8} (hx : isHexDigit x = true) :
    x ≠ Ascii.quote ∧ x ≠ Ascii.backslash := by
  constructor <;> rintro rfl <;> exact absurd hx (by decide)

theorem RawBody.unit {a b c d : UInt8} {r : Bytes} (hx : Hex4 a b c d) (hr : RawBody r) :
    RawBody (Ascii.backslash :: 0x75 :: a :: b :: c :: d :: r) := by
  have ha := isHexDigit_plain (hx a (by simp))
  have hb := isHexDigit_plain (hx b (by simp))
  have hc := isHexDigit_plain (hx c (by simp))
  have hd := isHexDigit_plain (hx d (by simp))
  apply RawBody.escape
  exact .plain ha.1 ha.2 (.plain hb.1 hb.2 (.plain hc.1 hc.2 (.plain hd.1 hd.2 hr)))

theorem Quoted.rawBody {raw bs : Bytes} (h : Quoted raw bs) : RawBody raw := by
  induction h with
  | nil => exact RawBody.nil
  | plain hq hb _ ih => exact RawBody.plain hq hb ih
  | short _ _ ih => exact RawBody.escape ih
  | unicode hx _ _ _ ih => exact RawBody.unit hx ih
  | pair hx hx' _ _ _ ih => exact RawBody.unit hx (RawBody.unit hx' ih)

theorem hex_lt (b : UInt8) : hex b < 16 := by
  have hb := b.toNat_lt
  rw [hex]
  split
  · rename_i h
    simp only [Ascii.isDigit, Bool.and_eq_true, decide_eq_true_eq, UInt8.le_iff_toNat_le] at h
    have h₁ := h.2
    have h₂ : Ascii.nine.toNat = 0x39 := rfl
    omega
  · split
    · rename_i h
      simp only [Bool.and_eq_true, decide_eq_true_eq, UInt8.le_iff_toNat_le] at h
      have h₁ := h.2
      have h₂ : (0x66 : UInt8).toNat = 0x66 := rfl
      omega
    · split
      · rename_i h
        simp only [Bool.and_eq_true, decide_eq_true_eq, UInt8.le_iff_toNat_le] at h
        have h₁ := h.2
        have h₂ : (0x46 : UInt8).toNat = 0x46 := rfl
        omega
      · omega

theorem u4_eq (a b c d : UInt8) : u4 a b c d = codeUnit a b c d := by
  have ha := hex_lt a
  have hb := hex_lt b
  have hc := hex_lt c
  have hd := hex_lt d
  have h₁ : hex a <<< 12 ||| hex b <<< 8 = (hex a * 16 + hex b) <<< 8 := by
    rw [← Nat.shiftLeft_add_eq_or_of_lt (by rw [Nat.shiftLeft_eq]; omega)]
    simp only [Nat.shiftLeft_eq]
    omega
  have h₂ : (hex a * 16 + hex b) <<< 8 ||| hex c <<< 4 =
      ((hex a * 16 + hex b) * 16 + hex c) <<< 4 := by
    rw [← Nat.shiftLeft_add_eq_or_of_lt (by rw [Nat.shiftLeft_eq]; omega)]
    simp only [Nat.shiftLeft_eq]
    omega
  rw [u4, h₁, h₂, ← Nat.shiftLeft_add_eq_or_of_lt (by omega), Nat.shiftLeft_eq, codeUnit]

theorem encodeScalar_eq {cp : ℕ} (h : cp.isValidChar) :
    encodeScalar cp = String.utf8EncodeChar (Char.ofNat cp) := by
  rw [encodeScalar, if_pos h]

theorem not_surrogate_valid {a b c d : UInt8} (hhi : isHigh (codeUnit a b c d) = false)
    (hlo : isLow (codeUnit a b c d) = false) : (codeUnit a b c d).isValidChar := by
  have ha := hex_lt a
  have hb := hex_lt b
  have hc := hex_lt c
  have hd := hex_lt d
  simp only [isHigh, isLow, Bool.and_eq_false_iff, decide_eq_false_iff_not] at hhi hlo
  have hlt : codeUnit a b c d < 0x10000 := by
    rw [codeUnit]
    omega
  unfold Nat.isValidChar
  omega

theorem pairUp_valid {hi lo : ℕ} (hhi : isHigh hi = true) (hlo : isLow lo = true) :
    (pairUp hi lo).isValidChar := by
  simp only [isHigh, isLow, Bool.and_eq_true, decide_eq_true_eq] at hhi hlo
  unfold Nat.isValidChar pairUp
  simp only [Nat.shiftLeft_eq]
  omega

theorem shortEscape_eq {e c : UInt8} (h : (e, c) ∈ shortEscapes) :
    e ≠ 0x75 ∧ shortEscape e = c := by
  have hall : shortEscapes.all (fun x => x.1 != 0x75 && shortEscape x.1 == x.2) = true := rfl
  have hx := List.all_eq_true.1 hall (e, c) h
  rw [Bool.and_eq_true, bne_iff_ne, beq_iff_eq] at hx
  exact hx

/-- The unescaper on a string body. -/
theorem Quoted.unescape_eq {raw bs : Bytes} (h : Quoted raw bs) : unescape raw = some bs := by
  induction h with
  | nil => rfl
  | plain hq hb _ ih =>
    rw [unescape_raw _ hb, ih]
    rfl
  | short he _ ih =>
    obtain ⟨hu, hc⟩ := shortEscape_eq he
    rw [unescape_short _ hu, ih, hc]
    rfl
  | @unicode a b c d r t _ hhi hlo _ ih =>
    have hstep : uStep (a :: b :: c :: d :: r) = some (encodeScalar (codeUnit a b c d), r) := by
      simp only [uStep, u4_eq, hhi, Bool.false_eq_true, if_false]
    rw [unescape_u, hstep, Option.bind_some, ih,
      encodeScalar_eq (not_surrogate_valid hhi hlo), Option.map_some]
  | @pair a b c d e f g k r t _ _ hhi hlo _ ih =>
    have hlow : lowEscape (Ascii.backslash :: 0x75 :: e :: f :: g :: k :: r) =
        some (codeUnit e f g k) := by
      simp only [lowEscape, u4_eq, hlo, beq_self_eq_true, Bool.and_self, if_true]
    have hstep : uStep (a :: b :: c :: d :: Ascii.backslash :: 0x75 :: e :: f :: g :: k :: r) =
        some (encodeScalar (pairUp (codeUnit a b c d) (codeUnit e f g k)), r) := by
      simp only [uStep, u4_eq, hhi, if_true, hlow, List.drop_succ_cons, List.drop_zero]
    rw [unescape_u, hstep, Option.bind_some, ih, encodeScalar_eq (pairUp_valid hhi hlo),
      Option.map_some]

/-! ## Numbers -/

theorem Digits.single {b : UInt8} (h : Ascii.isDigit b = true) : Digits [b] :=
  ⟨List.cons_ne_nil _ _, List.forall_mem_singleton.2 h⟩

theorem decimal_append (ds : Bytes) (b : UInt8) :
    decimal (ds ++ [b]) = decimal ds * 10 + (b.toNat - 0x30) := by
  rw [decimal, List.foldl_append]
  rfl

/-- No digit comes next. -/
def DigitsEnd : Bytes → Prop
  | [] => True
  | b :: _ => Ascii.isDigit b = false

/-- A byte that ends a scalar is no digit. -/
theorem Delim.digitsEnd {tail : Bytes} (h : Delim tail) : DigitsEnd tail := by
  cases tail with
  | nil => trivial
  | cons b r =>
    have h : endsScalar b = true := h
    simp only [endsScalar, isws, Bool.or_eq_true, beq_iff_eq] at h
    show Ascii.isDigit b = false
    rcases h with ((rfl | rfl) | rfl) | ((rfl | rfl) | rfl) | rfl <;> decide

/-- The digit loop on a row of digits. -/
theorem digits_runs (done : Bytes) {ds tail : Bytes} (hds : ∀ b ∈ ds, Ascii.isDigit b = true)
    (h : inp.rest c = ds ++ tail) (htail : DigitsEnd tail) (s : State) {n : ℕ}
    (hn : ds.length < n) :
    (digits inp n (c, decimal done % 2 ^ 64)).run s =
      (.done (c + ds.length, decimal (done ++ ds) % 2 ^ 64), s) := by
  induction ds generalizing c done n with
  | nil =>
    obtain ⟨n, rfl⟩ : ∃ m, n = m + 1 := ⟨n - 1, by omega⟩
    have hstop : ¬ (c < inp.stop ∧ Ascii.isDigit (inp.byte c) = true) := by
      rintro ⟨hlt, hdig⟩
      rw [List.nil_append, Input.rest_of_lt hlt] at h
      rw [← h] at htail
      have hnot : Ascii.isDigit (inp.byte c) = false := htail
      rw [hnot] at hdig
      cases hdig
    rw [digits, loop_succ, if_neg hstop, List.append_nil]
    rfl
  | cons b ds ih =>
    obtain ⟨n, rfl⟩ : ∃ m, n = m + 1 := ⟨n - 1, by omega⟩
    obtain ⟨hlt, hbyte, hrest⟩ := Input.rest_cons h
    have hdig := hds b List.mem_cons_self
    rw [List.length_cons] at hn
    have hnext := ih (done ++ [b]) (fun x hx => hds x (List.mem_cons_of_mem _ hx)) hrest
      (Nat.lt_of_succ_lt_succ hn)
    -- truncating between the digits does not matter
    have hmod : (decimal done % 2 ^ 64 * 10 + (b.toNat - 0x30)) % 2 ^ 64 =
        decimal (done ++ [b]) % 2 ^ 64 := by
      rw [decimal_append]
      omega
    rw [digits, loop_succ, hbyte, if_pos ⟨hlt, hdig⟩]
    show (digits inp n (c + 1, (decimal done % 2 ^ 64 * 10 + (b.toNat - 0x30)) % 2 ^ 64)).run s =
      _
    rw [hmod, hnext, List.append_assoc, List.length_cons]
    congr 3
    omega

/-- What may stand in front of digits. -/
inductive Sign
  | none
  | plus
  | minus
deriving DecidableEq, Repr

/-- A sign as it is written. -/
def Sign.text : Sign → Bytes
  | none => []
  | plus => [Ascii.plus]
  | minus => [Ascii.minus]

/-- The number with the sign in front. -/
def Sign.apply (v : ℕ) : Sign → ℤ
  | minus => -v
  | _ => v

/-- The sign that `signedText` writes. -/
def Sign.ofNeg (neg : Bool) : Sign := if neg then minus else none

theorem signedText_eq (neg : Bool) (ds : Bytes) :
    signedText neg ds = (Sign.ofNeg neg).text ++ ds := by
  cases neg <;> rfl

/-- A digit is visible and no sign. -/
theorem isDigit_visible {b : UInt8} (h : Ascii.isDigit b = true) :
    0x20 < b ∧ b ≠ Ascii.minus ∧ b ≠ Ascii.plus := by
  refine ⟨?_, ?_, ?_⟩
  · simp only [Ascii.isDigit, Bool.and_eq_true, decide_eq_true_eq] at h
    exact UInt8.lt_of_lt_of_le (by decide) h.1
  · rintro rfl
    exact absurd h (by decide)
  · rintro rfl
    exact absurd h (by decide)

/-- `intval` on digits behind a sign; a minus only where signs are read. -/
theorem intval_runs {w ds tail : Bytes} {signed : Bool} {sign : Sign}
    (hsign : sign = .minus → signed = true) (hw : IsWs w) (hds : Digits ds)
    (h : inp.rest c = w ++ ((sign.text ++ ds) ++ tail)) (htail : DigitsEnd tail) (s : State) :
    Runs (fun n _ => intval inp n c signed) s
      (if sign = .minus then wrapSub 0 (decimal ds % 2 ^ 64) else decimal ds % 2 ^ 64,
        c + (w.length + (sign.text ++ ds).length)) s := by
  -- the loop over the digits, wherever it starts
  have hloop : ∀ {k n : ℕ}, inp.rest k = ds ++ tail → ds.length + 1 ≤ n →
      (digits inp n (k, 0)).run s = (.done (k + ds.length, decimal ds % 2 ^ 64), s) :=
    fun hk hn => digits_runs [] hds.digits hk htail s hn
  refine ⟨ds.length + 1, fun n hn _ _ => ?_⟩
  show (intval inp n c signed).run s = _
  rw [intval, List.length_append, ← Nat.add_assoc]
  cases sign with
  | minus =>
    have hrest := Input.rest_append h
    rw [hsign rfl, ws_eq hw h (by decide), bind_done (loadU8_run hrest s)]
    show (digits inp n (c + w.length + 1, 0) >>= _).run s = _
    rw [bind_done (hloop (Input.rest_cons hrest).2.2 hn), if_pos rfl]
    show (Outcome.done (_, _), s) = _
    rw [Nat.add_assoc]
    rfl
  | plus =>
    have hrest := Input.rest_append h
    have hminus : (Ascii.plus == Ascii.minus) = false := rfl
    rw [ws_eq hw h (by decide), bind_done (loadU8_run hrest s), hminus, Bool.and_false]
    show (digits inp n (c + w.length + 1, 0) >>= _).run s = _
    rw [bind_done (hloop (Input.rest_cons hrest).2.2 hn), if_neg (by decide)]
    show (Outcome.done (_, _), s) = _
    rw [Nat.add_assoc]
    rfl
  | none =>
    obtain ⟨b, ds', hb⟩ := List.exists_cons_of_ne_nil hds.nonempty
    have hdig := isDigit_visible (hds.digits b (by rw [hb]; exact List.mem_cons_self))
    have hrest := Input.rest_append h
    have hdigits := hloop (k := c + w.length) hrest hn
    rw [hb] at h hrest
    rw [ws_eq hw h hdig.1, bind_done (loadU8_run hrest s), beq_eq_false_iff_ne.2 hdig.2.1,
      beq_eq_false_iff_ne.2 hdig.2.2, Bool.and_false]
    show (digits inp n (c + w.length, 0) >>= _).run s = _
    rw [bind_done hdigits, if_neg (by decide)]
    show (Outcome.done (_, _), s) = (Outcome.done (_, _ + (0 + ds.length)), s)
    rw [Nat.zero_add]
    rfl

/-! ## Values to skip -/

theorem wrapI32_of_lt {x : ℤ} (h₀ : 0 ≤ x) (h : x < 2 ^ 31) : wrapI32 x = x := by
  rw [wrapI32]
  apply Int.bmod_eq_of_le <;> omega

/-- A string body is stepped over, whatever follows. -/
theorem skipString_body {raw : Bytes} (h : RawBody raw) (r : Bytes) (k : ℕ) :
    skipString (raw ++ r) k = skipString r (k + raw.length) := by
  induction h generalizing k with
  | nil => rfl
  | plain hq hb _ ih =>
    rw [List.cons_append]
    conv_lhs => unfold skipString
    rw [if_neg (by simpa using hq), if_neg (by simpa using hb), ih, List.length_cons]
    congr 1
    omega
  | escape _ ih =>
    rw [List.cons_append, List.cons_append]
    conv_lhs => unfold skipString
    show skipString _ (k + 2) = _
    rw [ih, List.length_cons, List.length_cons]
    congr 1
    omega

theorem skipString_eq {raw : Bytes} (h : RawBody raw) (r : Bytes) (k : ℕ) :
    skipString (raw ++ Ascii.quote :: r) k = k + raw.length := by
  rw [skipString_body h]
  unfold skipString
  rfl

/-- `rt_skip` inside brackets reads the text as one that opens as many as it closes, at most `n` at
a time. -/
def Passes (n : ℕ) (t : Bytes) : Prop :=
  ∀ (r : Bytes) (d : ℤ) (k : ℕ), 1 ≤ d → d + n < 2 ^ 31 →
    skipNested (t ++ r) false d k = skipNested r false d (k + t.length)

theorem Passes.nil {n : ℕ} : Passes n [] := fun _ _ _ _ _ => rfl

theorem Passes.append {n : ℕ} {t t' : Bytes} (h : Passes n t) (h' : Passes n t') :
    Passes n (t ++ t') := by
  intro r d k hd hn
  rw [List.append_assoc, h _ d k hd hn, h' r d _ hd hn, List.length_append, Nat.add_assoc]

/-- A byte that is no quote and no bracket. -/
def isInner (b : UInt8) : Bool :=
  b != Ascii.quote && b != Ascii.lbrace && b != Ascii.lbracket && b != Ascii.rbrace &&
    b != Ascii.rbracket

theorem skipNested_inner {b : UInt8} (h : isInner b = true) (r : Bytes) (d : ℤ) (k : ℕ) :
    skipNested (b :: r) false d k = skipNested r false d (k + 1) := by
  simp only [isInner, Bool.and_eq_true, bne_iff_ne] at h
  obtain ⟨⟨⟨⟨hq, ho⟩, ho'⟩, hc⟩, hc'⟩ := h
  conv_lhs => unfold skipNested
  simp only [beq_iff_eq, hq, Bool.or_self, Bool.false_eq_true, if_false,
    beq_eq_false_iff_ne.2 ho, beq_eq_false_iff_ne.2 ho', beq_eq_false_iff_ne.2 hc,
    beq_eq_false_iff_ne.2 hc']

theorem Passes.inner {n : ℕ} {t : Bytes} (h : t.all isInner = true) : Passes n t := by
  rw [List.all_eq_true] at h
  induction t with
  | nil => exact Passes.nil
  | cons b t ih =>
    intro r d k hd hn
    have ih := ih (fun x hx => h x (List.mem_cons_of_mem _ hx)) r d (k + 1) hd hn
    rw [List.cons_append, List.length_cons, skipNested_inner (h b List.mem_cons_self), ih]
    congr 1
    omega

theorem isInner_of_isws {b : UInt8} (h : isws b = true) : isInner b = true := by
  simp only [isws, Bool.or_eq_true, beq_iff_eq] at h
  rcases h with ((rfl | rfl) | rfl) | rfl <;> decide

theorem IsWs.passes {n : ℕ} {w : Bytes} (hw : IsWs w) : Passes n w :=
  Passes.inner (List.all_eq_true.2 fun b hb => isInner_of_isws (hw b hb))

theorem IsSep.passes {n : ℕ} {sep : Bytes} (h : IsSep sep) : Passes n sep := by
  obtain ⟨w, hw, rfl | rfl⟩ := h
  · exact hw.passes
  · apply hw.passes.append
    exact Passes.inner rfl

/-- A string body inside brackets. -/
theorem skipNested_body {raw : Bytes} (h : RawBody raw) (r : Bytes) (d : ℤ) (k : ℕ) :
    skipNested (raw ++ r) true d k = skipNested r true d (k + raw.length) := by
  induction h generalizing k with
  | nil => rfl
  | @plain b _ hq hb _ ih =>
    have hne : (b != Ascii.quote) = true := by simpa using hq
    rw [List.cons_append]
    conv_lhs => unfold skipNested
    rw [if_pos rfl, if_neg (by simpa using hb), hne, ih, List.length_cons]
    congr 1
    omega
  | escape _ ih =>
    rw [List.cons_append, List.cons_append]
    conv_lhs => unfold skipNested
    show skipNested _ true d (k + 2) = _
    rw [ih, List.length_cons, List.length_cons]
    congr 1
    omega

/-- The rest of a string, inside brackets. -/
theorem skipNested_string {raw : Bytes} (h : RawBody raw) (r : Bytes) (d : ℤ) (k : ℕ) :
    skipNested (raw ++ Ascii.quote :: r) true d k = skipNested r false d (k + raw.length + 1) := by
  rw [skipNested_body h]
  conv_lhs => unfold skipNested
  rfl

theorem skipNested_quote (r : Bytes) (d : ℤ) (k : ℕ) :
    skipNested (Ascii.quote :: r) false d k = skipNested r true d (k + 1) := by
  conv_lhs => unfold skipNested
  rfl

theorem passes_quoted {n : ℕ} {raw : Bytes} (h : RawBody raw) : Passes n (quoted raw) := by
  intro r d k _ _
  rw [quoted, List.cons_append, List.append_assoc, List.singleton_append, skipNested_quote,
    skipNested_string h, List.length_cons, List.length_append]
  congr 1
  simp only [List.length_singleton]
  omega

/-- An opening or closing bracket. -/
structure Brackets (opening close : UInt8) : Prop where
  opens : opening = Ascii.lbrace ∨ opening = Ascii.lbracket
  closes : close = Ascii.rbrace ∨ close = Ascii.rbracket

theorem Brackets.open_eq {o e : UInt8} (h : Brackets o e) (r : Bytes) (d : ℤ) (k : ℕ) :
    skipNested (o :: r) false d k = skipNested r false (wrapI32 (d + 1)) (k + 1) := by
  rcases h.opens with rfl | rfl
  · conv_lhs => unfold skipNested
    rfl
  · conv_lhs => unfold skipNested
    rfl

theorem Brackets.close_eq {o e : UInt8} (h : Brackets o e) (r : Bytes) (d : ℤ) (k : ℕ) :
    skipNested (e :: r) false d k = if wrapI32 (d - 1) = 0 then k + 1
      else skipNested r false (wrapI32 (d - 1)) (k + 1) := by
  rcases h.closes with rfl | rfl
  · conv_lhs => unfold skipNested
    rfl
  · conv_lhs => unfold skipNested
    rfl

theorem Passes.bracketed {n : ℕ} {o e : UInt8} {t : Bytes} (h : Brackets o e) (ht : Passes n t) :
    Passes (n + 1) (o :: (t ++ [e])) := by
  intro r d k hd hn
  simp only [List.length_cons, List.length_append, List.length_nil]
  rw [List.cons_append, List.append_assoc, h.open_eq, wrapI32_of_lt (by omega) (by omega),
    ht _ (d + 1) (k + 1) (by omega) (by omega), List.singleton_append, h.close_eq,
    wrapI32_of_lt (by omega) (by omega), if_neg (by omega)]
  congr 1
  · omega
  · omega

/-- The items of an array or object, without the closing bracket. -/
theorem closed_eq (e : UInt8) (l : List (Bytes × Bytes)) :
    closed e l = l.flatMap (fun x => x.1 ++ x.2) ++ [e] := by
  induction l with
  | nil => rfl
  | cons x l ih =>
    rw [closed, ih, List.flatMap_cons]
    simp only [List.append_assoc]

theorem passes_items {n : ℕ} {l : List (Bytes × Bytes)} (hl : ∀ x ∈ l, Passes n x.1)
    (hsep : Separated l) : Passes n (l.flatMap fun x => x.1 ++ x.2) := by
  induction l with
  | nil => exact Passes.nil
  | cons x l ih =>
    obtain ⟨hx, -, hrest⟩ := hsep
    rw [List.flatMap_cons]
    apply Passes.append
    · exact (hl x List.mem_cons_self).append hx.passes
    · exact ih (fun y hy => hl y (List.mem_cons_of_mem _ hy)) hrest

theorem passes_members {n : ℕ} {w : Bytes} {members : List Member} (h : Spaced w members)
    (hkeys : ∀ m ∈ members, RawBody m.key) (hvalues : ∀ m ∈ members, Passes n m.value) :
    Passes n (w ++ (members.map Member.item).flatMap fun x => x.1 ++ x.2) := by
  apply h.lead.passes.append
  apply passes_items _ h.seps
  intro x hx
  obtain ⟨m, hm, rfl⟩ := List.mem_map.1 hx
  apply (h.before m hm).passes.append
  apply (passes_quoted (hkeys m hm)).append
  apply (h.after m hm).passes.append
  exact Passes.append (t := [Ascii.colon]) (Passes.inner rfl) (hvalues m hm)

/-- The characters of a number are visible, and end no scalar. -/
theorem isNumChar_spec {b : UInt8} (h : isNumChar b = true) :
    0x20 < b ∧ endsScalar b = false ∧ isInner b = true := by
  refine ⟨?_, ?_, ?_⟩
  · simp only [isNumChar, Bool.or_eq_true, beq_iff_eq] at h
    rcases h with ((((h | rfl) | rfl) | rfl) | rfl) | rfl
    · simp only [Ascii.isDigit, Bool.and_eq_true, decide_eq_true_eq] at h
      exact UInt8.lt_of_lt_of_le (by decide) h.1
    all_goals decide
  · by_contra hends
    simp only [Bool.not_eq_false, endsScalar, isws, Bool.or_eq_true, beq_iff_eq] at hends
    rcases hends with ((rfl | rfl) | rfl) | ((rfl | rfl) | rfl) | rfl <;>
      exact absurd h (by decide)
  · simp only [isInner, Bool.and_eq_true, bne_iff_ne]
    refine ⟨⟨⟨⟨?_, ?_⟩, ?_⟩, ?_⟩, ?_⟩ <;> rintro rfl <;> exact absurd h (by decide)

/-- What stands between the brackets of a value. -/
theorem NestedJson.passes {n : ℕ} {t : Bytes} (h : NestedJson n t) : Passes n t := by
  induction h with
  | bool b hw =>
    apply hw.passes.append
    cases b <;> exact Passes.inner rfl
  | null hw => exact hw.passes.append (Passes.inner rfl)
  | number hw _ hnum =>
    apply hw.passes.append
    exact Passes.inner (List.all_eq_true.2 fun b hb => (isNumChar_spec (hnum b hb)).2.2)
  | string hw hraw => exact hw.passes.append (passes_quoted hraw)
  | array hw hw' hsep _ ih =>
    apply hw.passes.append
    rw [arrayText, closed_eq, ← List.append_assoc]
    exact Passes.bracketed ⟨.inr rfl, .inr rfl⟩ (hw'.passes.append (passes_items ih hsep))
  | object hw hsp hkeys _ ih =>
    apply hw.passes.append
    rw [objectText, closed_eq, ← List.append_assoc]
    exact Passes.bracketed ⟨.inl rfl, .inl rfl⟩ (passes_members hsp hkeys ih)

/-- Brackets around a text that passes. -/
theorem skipNested_bracketed {n : ℕ} {o e : UInt8} {t : Bytes} (h : Brackets o e) (ht : Passes n t)
    (hn : n + 1 < 2 ^ 31) (r : Bytes) (k : ℕ) :
    skipNested (o :: (t ++ e :: r)) false 0 k = k + (t.length + 2) := by
  rw [h.open_eq, wrapI32_of_lt (by omega) (by omega), ht _ _ _ (by omega) (by omega),
    h.close_eq, wrapI32_of_lt (by omega) (by omega), if_pos (by omega)]
  omega

/-- A scalar stops at the delimiter. -/
theorem takeWhile_scalar {t tail : Bytes} (ht : ∀ b ∈ t, endsScalar b = false)
    (htail : Delim tail) : (t ++ tail).takeWhile (fun b => !endsScalar b) = t := by
  rw [List.takeWhile_append_of_pos fun b hb => by rw [ht b hb]; rfl]
  cases tail with
  | nil => exact List.append_nil t
  | cons b tail =>
    have hb : endsScalar b = true := htail
    rw [List.takeWhile_cons_of_neg (by rw [hb]; decide), List.append_nil]

/-- A character of a scalar. -/
def isScalar (b : UInt8) : Bool := 0x20 < b && !endsScalar b && isInner b

/-- `rt_skip` on a scalar. -/
theorem rtSkip_scalar {w t tail : Bytes} (hw : IsWs w) (hne : t ≠ [])
    (hscalar : t.all isScalar = true)
    (h : inp.rest c = w ++ (t ++ tail)) (htail : Delim tail) :
    rtSkip inp c = c + (w.length + t.length) := by
  have ht : ∀ b ∈ t, 0x20 < b ∧ endsScalar b = false ∧ isInner b = true := by
    intro b hb
    have hall := List.all_eq_true.1 hscalar b hb
    simp only [isScalar, Bool.and_eq_true, decide_eq_true_eq, Bool.not_eq_true'] at hall
    exact ⟨hall.1.1, hall.1.2, hall.2⟩
  obtain ⟨b, t', rfl⟩ := List.exists_cons_of_ne_nil hne
  have hb := (ht b List.mem_cons_self).2.2
  simp only [isInner, Bool.and_eq_true, bne_iff_ne] at hb
  obtain ⟨hlead, htok⟩ :=
    lead_token (r := t' ++ tail) hw (ht b List.mem_cons_self).1
  obtain ⟨hws, hrest⟩ := rtWs_eq h
  rw [List.cons_append, hlead] at hws
  rw [List.cons_append, htok] at hrest
  have htake := takeWhile_scalar (fun x hx => (ht x hx).2.1) htail
  rw [List.cons_append] at htake
  rw [rtSkip, hrest]
  show (if (b == Ascii.quote) = true then _ else _) = _
  rw [if_neg (by simpa using hb.1.1.1.1), if_neg (by simpa using ⟨hb.1.1.1.2, hb.1.1.2⟩), htake,
    hws, Nat.add_assoc]

/-- `rt_skip` on a string. -/
theorem rtSkip_quoted {w raw tail : Bytes} (hw : IsWs w) (hraw : RawBody raw)
    (h : inp.rest c = (w ++ quoted raw) ++ tail) : rtSkip inp c = c + (w ++ quoted raw).length := by
  rw [quoted, List.append_assoc, List.cons_append, List.append_assoc] at h
  obtain ⟨hlead, htok⟩ :=
    lead_token (r := raw ++ ([Ascii.quote] ++ tail)) (b := Ascii.quote) hw (by decide)
  obtain ⟨hws, hrest⟩ := rtWs_eq h
  rw [hlead] at hws
  rw [htok] at hrest
  have hskip := skipString_eq hraw tail (c + w.length + 1)
  rw [rtSkip, hrest]
  show skipString (raw ++ Ascii.quote :: tail) (rtWs inp c + 1) + 1 = _
  rw [hws, hskip, quoted]
  simp only [List.length_append, List.length_cons, List.length_nil]
  omega

/-- `rt_skip` on brackets around a text that passes. -/
theorem rtSkip_brackets {k : ℕ} {w t tail : Bytes} {o e : UInt8} (hw : IsWs w)
    (hoe : Brackets o e) (hpass : Passes k t) (hk : k + 1 < 2 ^ 31)
    (h : inp.rest c = (w ++ o :: (t ++ [e])) ++ tail) :
    rtSkip inp c = c + (w ++ o :: (t ++ [e])).length := by
  have hvis : 0x20 < o := by
    rcases hoe.opens with rfl | rfl <;> decide
  have hbr : (o == Ascii.lbrace || o == Ascii.lbracket) = true := by
    rcases hoe.opens with rfl | rfl <;> decide
  have hq : (o == Ascii.quote) = false := by
    rcases hoe.opens with rfl | rfl <;> decide
  rw [List.append_assoc, List.cons_append, List.append_assoc] at h
  obtain ⟨hlead, htok⟩ := lead_token (r := t ++ ([e] ++ tail)) hw hvis
  obtain ⟨hws, hrest⟩ := rtWs_eq h
  rw [hlead] at hws
  rw [htok] at hrest
  simp only [List.length_append, List.length_cons, List.length_nil]
  rw [rtSkip, hrest]
  show (if (o == Ascii.quote) = true then _ else _) = _
  rw [hq, if_neg (by decide), if_pos hbr]
  rw [show t ++ ([e] ++ tail) = t ++ e :: tail from rfl,
    skipNested_bracketed hoe hpass hk, hws]
  omega

/-- `rt_skip` on a value of any kind. -/
theorem rtSkip_nested {n : ℕ} {t tail : Bytes} (ht : NestedJson n t) (hn : n < 2 ^ 31)
    (h : inp.rest c = t ++ tail) (htail : Delim tail) : rtSkip inp c = c + t.length := by
  have hscalar : ∀ {w t : Bytes}, IsWs w → t ≠ [] → t.all isScalar = true →
      inp.rest c = (w ++ t) ++ tail → rtSkip inp c = c + (w ++ t).length := by
    intro w t hw hne hall h
    rw [List.append_assoc] at h
    rw [rtSkip_scalar hw hne hall h htail, List.length_append]
  cases ht with
  | bool b hw =>
    apply hscalar hw _ _ h
    · cases b <;> exact List.cons_ne_nil _ _
    · cases b <;> rfl
  | null hw => exact hscalar hw (List.cons_ne_nil _ _) rfl h
  | @number _ w t hw hne hnum =>
    apply hscalar hw hne _ h
    apply List.all_eq_true.2
    intro b hb
    obtain ⟨hvis, hends, hinner⟩ := isNumChar_spec (hnum b hb)
    simp only [isScalar, Bool.and_eq_true, decide_eq_true_eq, Bool.not_eq_true']
    exact ⟨⟨hvis, hends⟩, hinner⟩
  | string hw hraw => exact rtSkip_quoted hw hraw h
  -- what stands between the brackets passes, nested values and all
  | @array _ w w' items hw hw' hsep hitems =>
    rw [arrayText, closed_eq, ← List.append_assoc] at h ⊢
    exact rtSkip_brackets hw ⟨.inr rfl, .inr rfl⟩
      (hw'.passes.append (passes_items (fun x hx => (hitems x hx).passes) hsep)) hn h
  | @object _ w w' members hw hsp hkeys hvalues =>
    rw [objectText, closed_eq, ← List.append_assoc] at h ⊢
    exact rtSkip_brackets hw ⟨.inl rfl, .inl rfl⟩
      (passes_members hsp hkeys fun m hm => (hvalues m hm).passes) hn h

/-- More white space in front. -/
theorem NestedJson.lead {n : ℕ} {w t : Bytes} (h : NestedJson n t) (hw : IsWs w) :
    NestedJson n (w ++ t) := by
  cases h with
  | bool b hw' =>
    rw [← List.append_assoc]
    exact NestedJson.bool b (hw.append hw')
  | null hw' =>
    rw [← List.append_assoc]
    exact NestedJson.null (hw.append hw')
  | number hw' hne hnum =>
    rw [← List.append_assoc]
    exact NestedJson.number (hw.append hw') hne hnum
  | string hw' hraw =>
    rw [← List.append_assoc]
    exact NestedJson.string (hw.append hw') hraw
  | array hw' hlead hsep hitems =>
    rw [← List.append_assoc]
    exact NestedJson.array (hw.append hw') hlead hsep hitems
  | object hw' hsp hkeys hvalues =>
    rw [← List.append_assoc]
    exact NestedJson.object (hw.append hw') hsp hkeys hvalues

theorem NestedJson.mono {n m : ℕ} {t : Bytes} (h : NestedJson n t) (hle : n ≤ m) :
    NestedJson m t := by
  induction h generalizing m with
  | bool b hw => exact NestedJson.bool b hw
  | null hw => exact NestedJson.null hw
  | number hw hne hnum => exact NestedJson.number hw hne hnum
  | string hw hraw => exact NestedJson.string hw hraw
  | array hw hw' hsep _ ih =>
    obtain ⟨k, rfl⟩ : ∃ k, m = k + 1 := ⟨m - 1, by omega⟩
    exact NestedJson.array hw hw' hsep fun x hx => ih x hx (by omega)
  | object hw hsp hkeys _ ih =>
    obtain ⟨k, rfl⟩ : ∃ k, m = k + 1 := ⟨m - 1, by omega⟩
    exact NestedJson.object hw hsp hkeys fun x hx => ih x hx (by omega)

theorem NestedJson.isJson {n : ℕ} {t : Bytes} (h : NestedJson n t) : IsJson t := by
  induction h with
  | bool b hw => exact IsJson.bool b hw
  | null hw => exact IsJson.null hw
  | number hw hne hnum => exact IsJson.number hw hne hnum
  | string hw hraw => exact IsJson.string hw hraw
  | array hw hw' hsep _ ih => exact IsJson.array hw hw' hsep ih
  | object hw hsp hkeys _ ih => exact IsJson.object hw hsp hkeys ih

/-- A text has no more brackets than bytes. -/
theorem IsJson.nested {t : Bytes} (h : IsJson t) : NestedJson t.length t := by
  induction h with
  | bool b hw => exact NestedJson.bool b hw
  | null hw => exact NestedJson.null hw
  | number hw hne hnum => exact NestedJson.number hw hne hnum
  | string hw hraw => exact NestedJson.string hw hraw
  | @array w w' items hw hw' hsep _ ih =>
    rw [List.length_append, List.length_cons, ← Nat.add_assoc]
    refine NestedJson.array hw hw' hsep fun x hx => (ih x hx).mono ?_
    have hle := length_item_lt (e := Ascii.rbracket) hx
    rw [arrayText, List.length_append]
    omega
  | @object w w' members hw hsp hkeys _ ih =>
    rw [List.length_append, List.length_cons, ← Nat.add_assoc]
    refine NestedJson.object hw hsp hkeys fun m hm => (ih m hm).mono ?_
    have hle := length_value_le (w := w') hm
    omega

end Bilbo
