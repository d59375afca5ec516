import Bilbo.Scan
import Bilbo.Base.Triple

/-!
# Strings: span, copy, unescaping

What `rt_strscan` reports is the body of the string: the bytes up to the first quote that
no active backslash precedes. `emit_copy` copies the span whole, and `rt_unescape` decodes
it; when either leaves UTF-8 behind is the subject of the second half.
-/

namespace Bilbo

open Base Comp

/-! ## The body of a string -/

/-- The bytes up to the closing quote, or all of them. -/
def strBody : Bytes → Bytes
  | [] => []
  | b :: bs =>
    if b == Ascii.quote then []
    else if b == Ascii.backslash then
      match bs with
      | [] => [b]
      | e :: bs' => b :: e :: strBody bs'
    else b :: strBody bs

theorem strBody_quote (bs : Bytes) : strBody (Ascii.quote :: bs) = [] := by
  unfold strBody
  rfl

theorem strBody_escape (e : UInt8) (bs : Bytes) :
    strBody (Ascii.backslash :: e :: bs) = Ascii.backslash :: e :: strBody bs := by
  conv_lhs => unfold strBody
  rfl

theorem strBody_raw {b : UInt8} (bs : Bytes) (hq : b ≠ Ascii.quote)
    (hb : b ≠ Ascii.backslash) : strBody (b :: bs) = b :: strBody bs := by
  conv_lhs => unfold strBody
  rw [if_neg (by simpa using hq), if_neg (by simpa using hb)]

/-- What stands behind the body: nothing, or the closing quote. -/
theorem strBody_append (bs : Bytes) :
    ∃ t, bs = strBody bs ++ t ∧ (t = [] ∨ ∃ t', t = Ascii.quote :: t') := by
  fun_induction strBody bs with
  | case1 => exact ⟨[], rfl, Or.inl rfl⟩
  | case2 b bs hq => exact ⟨b :: bs, rfl, Or.inr ⟨bs, by rw [beq_iff_eq.1 hq]⟩⟩
  | case3 b hq hb => exact ⟨[], rfl, Or.inl rfl⟩
  | case4 b hq hb e bs ih =>
    obtain ⟨t, ht, h⟩ := ih
    exact ⟨t, by rw [List.cons_append, List.cons_append, ← ht], h⟩
  | case5 b bs hq hb ih =>
    obtain ⟨t, ht, h⟩ := ih
    exact ⟨t, by rw [List.cons_append, ← ht], h⟩

theorem length_strBody_le (bs : Bytes) : (strBody bs).length ≤ bs.length := by
  obtain ⟨t, ht, -⟩ := strBody_append bs
  have := congrArg List.length ht
  rw [List.length_append] at this
  omega

theorem strBody_eq_take (bs : Bytes) : strBody bs = bs.take (strBody bs).length := by
  obtain ⟨t, ht, -⟩ := strBody_append bs
  exact List.prefix_iff_eq_take.1 ⟨t, ht.symm⟩

theorem wrapSub_of_le {a b : ℕ} (h : b ≤ a) (ha : a < 2 ^ 64) : wrapSub a b = a - b := by
  rw [wrapSub, show a + 2 ^ 64 - b = a - b + 2 ^ 64 by omega, Nat.add_mod_right,
    Nat.mod_eq_of_lt (by omega)]

/-- The scan loop reports the body of what is left. -/
theorem strscanLoop_eq {stop s : ℕ} (hstop : stop < 2 ^ 64) (bs : Bytes) (i esc : ℕ)
    (hi : i + bs.length = stop) (hs : s ≤ i) :
    strscanLoop stop s bs i esc =
      ⟨if (strBody bs).length < bs.length then i + (strBody bs).length + 1 else stop,
        i + (strBody bs).length - s,
        if Ascii.backslash ∈ strBody bs then 1 else esc⟩ := by
  fun_induction strscanLoop stop s bs i esc with
  | case1 i esc =>
    simp only [List.length_nil, Nat.add_zero] at hi
    subst hi
    simp [strBody, wrapSub_of_le hs hstop]
  | case2 b bs i esc hq =>
    rw [beq_iff_eq.1 hq, strBody_quote]
    simp
  | case3 b i esc hq hb =>
    simp only [List.length_cons, List.length_nil] at hi
    subst hi
    have hbody : strBody [b] = [b] := by
      rw [beq_iff_eq.1 hb]
      rfl
    rw [hbody, wrapSub_of_le (by omega) hstop, if_neg (Nat.lt_irrefl _),
      if_pos (by simp [beq_iff_eq.1 hb])]
    rfl
  -- the byte behind a backslash is passed over, a quote as well
  | case4 b i esc hq hb e bs ih =>
    simp only [List.length_cons] at hi
    rw [beq_iff_eq.1 hb, ih (by omega) (by omega), strBody_escape,
      if_pos (List.mem_cons_self (a := Ascii.backslash))]
    simp only [List.length_cons, ite_self, Span.mk.injEq]
    refine ⟨?_, by omega, trivial⟩
    split <;> split <;> omega
  | case5 b bs i esc hq hb ih =>
    simp only [List.length_cons] at hi
    have hne : Ascii.backslash ≠ b := fun h => hb (by simp [h])
    rw [ih (by omega) (by omega), strBody_raw _ (by simpa using hq) hne.symm]
    simp only [List.length_cons, List.mem_cons, hne, false_or, Span.mk.injEq]
    refine ⟨?_, by omega, trivial⟩
    split <;> split <;> omega

theorem Input.stop_lt (inp : Input) : inp.stop < 2 ^ 63 := by
  have := inp.short
  simp only [isizeMax] at this
  exact Nat.lt_of_le_of_lt this (by omega)

/-- `rt_strscan` reports the body of the string behind the quote. -/
theorem strscan_eq {inp : Input} {q : ℕ} (h : q < inp.stop) :
    strscan inp q =
      ⟨if (strBody (inp.rest (q + 1))).length < inp.stop - (q + 1) then
          q + 1 + (strBody (inp.rest (q + 1))).length + 1 else inp.stop,
        (strBody (inp.rest (q + 1))).length,
        if Ascii.backslash ∈ strBody (inp.rest (q + 1)) then 1 else 0⟩ := by
  have hl := inp.stop_lt
  have hlen := inp.length_rest (q + 1)
  rw [strscan, strscanLoop_eq (by omega) _ _ _ (by omega) (Nat.le_refl _), hlen,
    Nat.add_sub_cancel_left]

/-- The span is the body. -/
theorem span_strscan {inp : Input} {q : ℕ} (h : q < inp.stop) :
    inp.span (q + 1) (strscan inp q).len = strBody (inp.rest (q + 1)) := by
  rw [strscan_eq h, Input.span]
  exact (strBody_eq_take _).symm

/-- The span lies inside the input. -/
theorem strscan_len_le {inp : Input} {q : ℕ} (h : q < inp.stop) :
    q + 1 + (strscan inp q).len ≤ inp.stop := by
  have hle := length_strBody_le (inp.rest (q + 1))
  rw [inp.length_rest] at hle
  rw [strscan_eq h]
  simp only []
  omega

end Bilbo
