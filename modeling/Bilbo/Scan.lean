import Bilbo.Emit

/-!
# Where the scanners stop

How far each scanner moves the cursor. A cursor may lie behind `end`, since the emitted
code steps over punctuation without looking; a scanner that is started there may come
back to `end`, so "the cursor does not move back" means not behind the smaller of the two.
-/

namespace Bilbo

open Base

variable {inp : Input} {c : ℕ}

/-- The cursor is at a byte that is no whitespace. -/
structure AtToken (inp : Input) (c : ℕ) : Prop where
  lt : c < inp.stop
  visible : 0x20 < inp.byte c

/-! ## Whitespace -/

/-- `rt_wsskip` from inside the input stops at a token or at `end`. -/
theorem rtWsskip_spec (h : c ≤ inp.stop) :
    c ≤ rtWsskip inp c ∧ rtWsskip inp c ≤ inp.stop ∧
      (rtWsskip inp c < inp.stop → AtToken inp (rtWsskip inp c)) := by
  rw [rtWsskip]
  cases hi : (inp.rest c).findIdx? fun b => 0x20 < b with
  | none => exact ⟨h, Nat.le_refl _, fun hlt => absurd hlt (Nat.lt_irrefl _)⟩
  | some i =>
    obtain ⟨hlen, hvis, -⟩ := List.findIdx?_eq_some_iff_getElem.1 hi
    have hlt : c + i < inp.stop := by
      rw [Input.length_rest] at hlen
      omega
    refine ⟨Nat.le_add_right _ _, Nat.le_of_lt hlt, fun _ => ⟨hlt, ?_⟩⟩
    have hb : (inp.rest c)[i] = inp.byte (c + i) := by
      have hd := Input.rest_add inp c i
      rw [Input.rest_of_lt hlt, List.drop_eq_getElem_cons hlen] at hd
      exact (List.cons.inj hd).1
    rw [hb] at hvis
    exact of_decide_eq_true hvis

theorem ws_of_stop_le (h : inp.stop ≤ c) : ws inp c = c := by
  rw [ws, peelWs, if_neg (by omega)]

/-- `ws` does nothing at a token. -/
theorem AtToken.ws_eq (h : AtToken inp c) : ws inp c = c := by
  rw [ws, peelWs, if_pos h.lt, if_neg (UInt8.not_le.2 h.visible)]

/-- One peeled byte, for a tail that stops at a token or at `end`. -/
theorem peelWs_spec {tail : ℕ → ℕ} (h : c ≤ inp.stop)
    (ht : ∀ k ≤ inp.stop, k ≤ tail k ∧ tail k ≤ inp.stop ∧
      (tail k < inp.stop → AtToken inp (tail k))) :
    c ≤ peelWs inp c tail ∧ peelWs inp c tail ≤ inp.stop ∧
      (peelWs inp c tail < inp.stop → AtToken inp (peelWs inp c tail)) := by
  rw [peelWs]
  split
  · next hlt =>
    split
    · obtain ⟨h1, h2, h3⟩ := ht (c + 1) hlt
      exact ⟨by omega, h2, h3⟩
    · next hvis => exact ⟨Nat.le_refl _, h, fun _ => ⟨hlt, UInt8.not_le.1 hvis⟩⟩
  · exact ⟨Nat.le_refl _, h, fun hlt => absurd hlt (by assumption)⟩

/-- `ws` from inside the input stops at a token or at `end`. -/
theorem ws_spec (h : c ≤ inp.stop) :
    c ≤ ws inp c ∧ ws inp c ≤ inp.stop ∧ (ws inp c < inp.stop → AtToken inp (ws inp c)) :=
  peelWs_spec h fun _ hk => peelWs_spec hk fun _ hk => rtWsskip_spec hk

theorem le_ws (inp : Input) (c : ℕ) : c ≤ ws inp c := by
  rcases Nat.le_total c inp.stop with h | h
  · exact (ws_spec h).1
  · exact Nat.le_of_eq (ws_of_stop_le h).symm

theorem ws_atToken (h : ws inp c < inp.stop) : AtToken inp (ws inp c) := by
  rcases Nat.le_total c inp.stop with hc | hc
  · exact (ws_spec hc).2.2 h
  · rw [ws_of_stop_le hc] at h
    omega

/-! ## Values that are skipped -/

theorem le_rtWs (inp : Input) (c : ℕ) : c ≤ rtWs inp c := Nat.le_add_right _ _

/-- A byte that `isws` accepts is no token. -/
theorem isws_le {b : UInt8} (h : isws b = true) : b ≤ 0x20 := by
  simp only [isws, Bool.or_eq_true, beq_iff_eq] at h
  rcases h with ((rfl | rfl) | rfl) | rfl <;> decide

theorem AtToken.not_isws (h : AtToken inp c) : isws (inp.byte c) = false := by
  cases hb : isws (inp.byte c) with
  | false => rfl
  | true => exact absurd h.visible (UInt8.not_lt.2 (isws_le hb))

theorem AtToken.rtWs_eq (h : AtToken inp c) : rtWs inp c = c := by
  rw [rtWs, Input.rest_of_lt h.lt, List.takeWhile_cons_of_neg (by simp [h.not_isws])]
  rfl

theorem le_skipString (bs : Bytes) (c : ℕ) : c ≤ skipString bs c := by
  fun_induction skipString bs c <;> omega

theorem le_skipNested (bs : Bytes) (inStr : Bool) (depth : ℤ) (c : ℕ) :
    c ≤ skipNested bs inStr depth c := by
  fun_induction skipNested bs inStr depth c <;> omega

/-- A bracket is skipped at least. -/
theorem lt_skipNested {b : UInt8} (bs : Bytes) (c : ℕ)
    (hb : (b == Ascii.lbrace || b == Ascii.lbracket) = true) :
    c < skipNested (b :: bs) false 0 c := by
  have hq : (b == Ascii.quote) = false := by
    simp only [Bool.or_eq_true, beq_iff_eq] at hb
    rcases hb with rfl | rfl <;> rfl
  unfold skipNested
  simp only [hq, hb, Bool.false_eq_true, if_false, if_true]
  exact le_skipNested _ _ _ _

theorem le_rtSkip (inp : Input) (c : ℕ) : c ≤ rtSkip inp c := by
  have h := le_rtWs inp c
  rw [rtSkip]
  split
  · exact h
  · split
    · have := le_skipString ‹_› (rtWs inp c + 1)
      omega
    · split
      · exact h.trans (le_skipNested _ _ _ _)
      · omega

/-- At a token, `rt_skip` does not move exactly when the token ends a scalar. -/
theorem AtToken.rtSkip_eq_iff (h : AtToken inp c) :
    rtSkip inp c = c ↔ endsScalar (inp.byte c) = true := by
  rw [rtSkip, h.rtWs_eq, Input.rest_of_lt h.lt]
  show (if (inp.byte c == Ascii.quote) = true then _ else _) = c ↔ _
  split
  · next hq =>
    have hle := le_skipString (inp.rest (c + 1)) (c + 1)
    rw [beq_iff_eq.1 hq]
    exact iff_of_false (by omega) (by decide)
  · split
    · next hb =>
      refine iff_of_false (Nat.ne_of_gt (lt_skipNested _ c hb)) ?_
      simp only [Bool.or_eq_true, beq_iff_eq] at hb
      rcases hb with hb | hb <;> rw [hb] <;> decide
    · cases he : endsScalar (inp.byte c) with
      | true => rw [List.takeWhile_cons_of_neg (by simp [he])]; simp
      | false => rw [List.takeWhile_cons_of_pos (by simp [he])]; simp

/-! ## Strings -/

/-- The scan never comes back behind where it started, or ends at `end`. -/
theorem le_strscanLoop_after (stop s : ℕ) (bs : Bytes) (i esc : ℕ) :
    min i stop ≤ (strscanLoop stop s bs i esc).after := by
  fun_induction strscanLoop stop s bs i esc with
  | case1 i esc => exact Nat.min_le_right _ _
  | case2 b bs i esc hq => exact (Nat.min_le_left _ _).trans (Nat.le_succ _)
  | case3 b i esc hq hb => exact Nat.min_le_right _ _
  | case4 b i esc hq hb e bs ih => omega
  | case5 b bs i esc hq hb ih => omega

theorem le_strscan_after (inp : Input) (q : ℕ) :
    min (q + 1) inp.stop ≤ (strscan inp q).after := le_strscanLoop_after _ _ _ _ _

end Bilbo
