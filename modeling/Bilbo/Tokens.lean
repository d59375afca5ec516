import Bilbo.Documents
import Bilbo.Scan
import Mathlib.Data.List.TakeWhile

/-!
# White space and separators in a document

Where the cursor stands after white space and after a separator, when the text in front of it
is a part of a document.
-/

namespace Bilbo

open Base Comp

variable {inp : Input} {c : ℕ}

/-! ## Positions in the input -/

theorem Input.rest_cons {b : UInt8} {r : Bytes} (h : inp.rest c = b :: r) :
    c < inp.stop ∧ inp.byte c = b ∧ inp.rest (c + 1) = r := by
  have hlt : c < inp.stop := by
    by_contra hge
    rw [Input.rest_of_stop_le (by omega)] at h
    cases h
  rw [Input.rest_of_lt hlt] at h
  cases h
  exact ⟨hlt, rfl, rfl⟩

theorem Input.rest_append {t r : Bytes} (h : inp.rest c = t ++ r) :
    inp.rest (c + t.length) = r := by
  rw [← Input.rest_add, h, List.drop_left]

theorem Input.span_append {t r : Bytes} (h : inp.rest c = t ++ r) :
    inp.span c t.length = t := by
  rw [Input.span, h, List.take_left]

theorem loadU8_run {b : UInt8} {r : Bytes} (h : inp.rest c = b :: r) (s : State) :
    (loadU8 inp c).run s = (.done b, s) := by
  obtain ⟨hlt, hbyte, -⟩ := Input.rest_cons h
  rw [loadU8, if_pos hlt, hbyte]
  rfl

/-! ## The first token of a text -/

/-- The white space in front of a text. -/
def lead (t : Bytes) : Bytes := t.takeWhile isws

theorem isWs_lead (t : Bytes) : IsWs (lead t) :=
  fun _ hb => List.mem_takeWhile_imp hb

theorem lead_append_token (t : Bytes) : lead t ++ token t = t :=
  List.takeWhile_append_dropWhile

theorem length_lead_add_token (t : Bytes) : (lead t).length + (token t).length = t.length := by
  rw [← List.length_append, lead_append_token]

/-- Behind white space the text starts with the byte, which is no control character. -/
def Starts (t : Bytes) (b : UInt8) : Prop := 0x20 < b ∧ ∃ r, token t = b :: r

theorem IsWs.nil : IsWs [] := nofun

theorem IsWs.append {w w' : Bytes} (h : IsWs w) (h' : IsWs w') : IsWs (w ++ w') := by
  intro b hb
  rcases List.mem_append.1 hb with hb | hb
  · exact h b hb
  · exact h' b hb

theorem not_isws {b : UInt8} (hb : 0x20 < b) : isws b = false := by
  cases h : isws b with
  | false => rfl
  | true => exact absurd hb (UInt8.not_lt.2 (isws_le h))

/-- White space and a visible byte: the token starts with the byte. -/
theorem lead_token {w r : Bytes} {b : UInt8} (hw : IsWs w) (hb : 0x20 < b) :
    lead (w ++ b :: r) = w ∧ token (w ++ b :: r) = b :: r := by
  have hnot : ¬ isws b = true := by
    rw [not_isws hb]
    decide
  constructor
  · rw [lead, List.takeWhile_append_of_pos hw, List.takeWhile_cons_of_neg hnot, List.append_nil]
  · rw [token, List.dropWhile_append_of_pos hw, List.dropWhile_cons_of_neg hnot]

theorem starts_ws {w r : Bytes} {b : UInt8} (hw : IsWs w) (hb : 0x20 < b) :
    Starts (w ++ b :: r) b := ⟨hb, r, (lead_token hw hb).2⟩

theorem Starts.eq {t : Bytes} {b : UInt8} (h : Starts t b) : ∃ r, t = lead t ++ b :: r := by
  obtain ⟨-, r, hr⟩ := h
  exact ⟨r, by rw [← hr, lead_append_token]⟩

/-- More white space in front, and more text behind. -/
theorem Starts.extend {t : Bytes} {b : UInt8} (h : Starts t b) {w : Bytes} (hw : IsWs w)
    (r : Bytes) : lead (w ++ (t ++ r)) = w ++ lead t ∧ token (w ++ (t ++ r)) = token t ++ r ∧
      Starts (w ++ (t ++ r)) b := by
  obtain ⟨hb, t', ht⟩ := h
  have heq : w ++ (t ++ r) = (w ++ lead t) ++ b :: (t' ++ r) := by
    conv_lhs => rw [← lead_append_token t, ht]
    simp only [List.append_assoc, List.cons_append]
  have hlead := lead_token (r := t' ++ r) (hw.append (isWs_lead t)) hb
  rw [heq, hlead.1, hlead.2, ht]
  exact ⟨rfl, rfl, hb, _, hlead.2⟩

theorem Starts.append {t : Bytes} {b : UInt8} (h : Starts t b) (r : Bytes) :
    lead (t ++ r) = lead t ∧ token (t ++ r) = token t ++ r ∧ Starts (t ++ r) b :=
  h.extend IsWs.nil r

/-! ## White space -/

theorem rtWsskip_eq {w r : Bytes} {b : UInt8} (hw : IsWs w) (h : inp.rest c = w ++ b :: r)
    (hb : 0x20 < b) : rtWsskip inp c = c + w.length := by
  have hfind : (inp.rest c).findIdx? (fun b => decide (0x20 < b)) = some w.length := by
    rw [h]
    apply List.findIdx?_eq_some_iff_getElem.2
    refine ⟨by rw [List.length_append, List.length_cons]; omega, ?_, ?_⟩
    · rw [List.getElem_append_right (Nat.le_refl _)]
      simpa using hb
    · intro j hj
      rw [List.getElem_append_left hj]
      have hle := isws_le (hw _ (List.getElem_mem hj))
      simpa using UInt8.not_lt.2 hle
  rw [rtWsskip, hfind]

theorem peelWs_eq {w r : Bytes} {b : UInt8} {tail : ℕ → ℕ} (hw : IsWs w)
    (h : inp.rest c = w ++ b :: r) (hb : 0x20 < b)
    (htail : ∀ {x : UInt8} {w' : Bytes}, w = x :: w' → tail (c + 1) = c + w.length) :
    peelWs inp c tail = c + w.length := by
  cases w with
  | nil =>
    obtain ⟨hlt, hbyte, -⟩ := Input.rest_cons h
    rw [peelWs, if_pos hlt, hbyte, if_neg (UInt8.not_le.2 hb)]
    rfl
  | cons x w =>
    obtain ⟨hlt, hbyte, -⟩ := Input.rest_cons h
    rw [peelWs, if_pos hlt, hbyte, if_pos (isws_le (hw x List.mem_cons_self))]
    exact htail rfl

/-- `ws` skips white space in front of a visible byte. -/
theorem ws_eq {w r : Bytes} {b : UInt8} (hw : IsWs w) (h : inp.rest c = w ++ b :: r)
    (hb : 0x20 < b) : ws inp c = c + w.length := by
  apply peelWs_eq hw h hb
  rintro x w rfl
  have hw' : IsWs w := fun y hy => hw y (List.mem_cons_of_mem _ hy)
  have h₁ := (Input.rest_cons h).2.2
  have hpeel : peelWs inp (c + 1) (rtWsskip inp) = c + 1 + w.length := by
    apply peelWs_eq hw' h₁ hb
    rintro y w rfl
    have hw'' : IsWs w := fun z hz => hw' z (List.mem_cons_of_mem _ hz)
    rw [rtWsskip_eq hw'' (Input.rest_cons h₁).2.2 hb, List.length_cons]
    omega
  rw [hpeel, List.length_cons]
  omega

theorem ws_visible {b : UInt8} {r : Bytes} (h : inp.rest c = b :: r) (hb : 0x20 < b) :
    ws inp c = c := ws_eq (w := []) IsWs.nil h hb

/-- `ws` in front of a text stops at its token. -/
theorem Starts.ws_eq {t : Bytes} {b : UInt8} (ht : Starts t b) (h : inp.rest c = t) :
    ws inp c = c + (lead t).length ∧ inp.rest (ws inp c) = token t := by
  obtain ⟨r, hr⟩ := ht.eq
  have hws : ws inp c = c + (lead t).length := Bilbo.ws_eq (isWs_lead t) (h.trans hr) ht.1
  rw [hws]
  refine ⟨rfl, ?_⟩
  apply Input.rest_append
  rw [h, lead_append_token]

/-- `rt_ws` stops at the token, too. -/
theorem rtWs_eq {t : Bytes} (h : inp.rest c = t) :
    rtWs inp c = c + (lead t).length ∧ inp.rest (rtWs inp c) = token t := by
  have hws : rtWs inp c = c + (lead t).length := by
    rw [rtWs, h]
    rfl
  rw [hws]
  refine ⟨rfl, ?_⟩
  apply Input.rest_append
  rw [h, lead_append_token]

/-- From `k` only white space is left to the token behind `c`. -/
def Near (inp : Input) (k c : ℕ) : Prop :=
  ∃ w, IsWs w ∧ inp.rest k = w ++ inp.rest (ws inp c) ∧ k + w.length = ws inp c

theorem Near.ws_eq {k : ℕ} {t : Bytes} {b : UInt8} (h : Near inp k c) (ht : Starts t b)
    (hrest : inp.rest c = t) : ws inp k = ws inp c := by
  obtain ⟨w, hw, hk, hlen⟩ := h
  obtain ⟨hb, r, hr⟩ := ht
  rw [(Starts.ws_eq ⟨hb, r, hr⟩ hrest).2, hr] at hk
  rw [← hlen, Bilbo.ws_eq hw hk hb]

theorem near_ws (inp : Input) (c : ℕ) : Near inp (ws inp c) c :=
  ⟨[], IsWs.nil, rfl, rfl⟩

/-- White space in front of a text. -/
theorem near_lead {w t : Bytes} {b : UInt8} (hw : IsWs w) (ht : Starts t b)
    (h : inp.rest c = w ++ t) : Near inp c (c + w.length) := by
  obtain ⟨hws, hrest⟩ := ht.ws_eq (Input.rest_append h)
  refine ⟨w ++ lead t, hw.append (isWs_lead t), ?_, ?_⟩
  · rw [hrest, List.append_assoc, lead_append_token, h]
  · rw [hws, List.length_append, Nat.add_assoc]

theorem near_self {t : Bytes} {b : UInt8} (ht : Starts t b) (h : inp.rest c = t) : Near inp c c :=
  near_lead (w := []) IsWs.nil ht h

/-! ## Items and separators -/

/-- A delimiter in front of a closing bracket. -/
theorem delim_sep {close : UInt8} {sep : Bytes} {l : List (Bytes × Bytes)}
    (hclose : endsScalar close = true) (hsep : IsSep sep) (hne : l = [] ∨ sep ≠ []) (r : Bytes) :
    Delim (sep ++ (closed close l ++ r)) := by
  cases sep with
  | nil =>
    have hl := hne.resolve_right (fun h => h rfl)
    rw [hl]
    exact hclose
  | cons b sep =>
    show endsScalar b = true
    obtain ⟨w, hw, heq | heq⟩ := hsep
    · have hb := hw b (heq ▸ List.mem_cons_self)
      rw [endsScalar, hb, Bool.or_true]
    · cases w with
      | nil =>
        cases heq
        rfl
      | cons x w =>
        cases heq
        rw [endsScalar, hw b List.mem_cons_self, Bool.or_true]

/-- The items that are left start with the first of them, or with the closing bracket. -/
theorem closed_starts {close : UInt8} {l : List (Bytes × Bytes)} (hclose : 0x20 < close)
    (hcomma : close ≠ Ascii.comma)
    (hl : ∀ x ∈ l, ∃ b, Starts x.1 b ∧ b ≠ Ascii.comma) (r : Bytes) :
    ∃ b, Starts (closed close l ++ r) b ∧ b ≠ Ascii.comma := by
  cases l with
  | nil => exact ⟨close, starts_ws IsWs.nil hclose, hcomma⟩
  | cons x l =>
    obtain ⟨b, hb, hne⟩ := hl x List.mem_cons_self
    refine ⟨b, ?_, hne⟩
    rw [closed, List.append_assoc]
    exact (hb.append _).2.2

/-- `pastComma` behind an item stops in front of the token behind the separator. -/
theorem pastComma_run {sep t : Bytes} {b : UInt8} (hsep : IsSep sep)
    (h : inp.rest c = sep ++ t) (ht : Starts t b) (hcomma : b ≠ Ascii.comma) (s : State) :
    ∃ k, (pastComma inp c).run s = (.done k, s) ∧ Near inp k (c + sep.length) := by
  obtain ⟨w, hw, rfl | rfl⟩ := hsep
  · -- no comma: the cursor goes on to the token
    have hws := (near_lead hw ht h).ws_eq ht (Input.rest_append h)
    obtain ⟨-, hrest⟩ := ht.ws_eq (Input.rest_append h)
    obtain ⟨hb, r, hr⟩ := ht
    rw [hr] at hrest
    refine ⟨ws inp (c + sep.length), ?_, near_ws inp _⟩
    rw [pastComma, hws, bind_done (loadU8_run hrest s), if_neg (by simpa using hcomma)]
    rfl
  · have hrest := Input.rest_append h
    rw [List.append_assoc, List.singleton_append] at h
    have hws := Bilbo.ws_eq hw h (by decide)
    have hload := loadU8_run (Input.rest_append h) s
    refine ⟨c + (w ++ [Ascii.comma]).length, ?_, near_self ht hrest⟩
    rw [pastComma, hws, bind_done hload, List.length_append, List.length_singleton,
      ← Nat.add_assoc]
    rfl

/-! ## Parts are no longer than the whole -/

theorem length_closed_pos (e : UInt8) (l : List (Bytes × Bytes)) : 0 < (closed e l).length := by
  induction l with
  | nil => exact Nat.one_pos
  | cons x l ih =>
    rw [length_closed_cons]
    omega

theorem length_item_lt {e : UInt8} {l : List (Bytes × Bytes)} {x : Bytes × Bytes} (hx : x ∈ l) :
    x.1.length < (closed e l).length := by
  induction l with
  | nil => cases hx
  | cons y l ih =>
    rw [length_closed_cons]
    rcases List.mem_cons.1 hx with rfl | hx
    · have hpos := length_closed_pos e l
      omega
    · have hle := ih hx
      omega

theorem length_items_le {e : UInt8} {l : List (Bytes × Bytes)} (hl : ∀ x ∈ l, x.1 ≠ []) :
    l.length ≤ (closed e l).length := by
  induction l with
  | nil => exact Nat.zero_le _
  | cons y l ih =>
    have hle := ih fun x hx => hl x (List.mem_cons_of_mem _ hx)
    have hpos := List.length_pos_of_ne_nil (hl y List.mem_cons_self)
    rw [length_closed_cons, List.length_cons]
    omega

theorem length_value_le {w : Bytes} {members : List Member} {m : Member} (hm : m ∈ members) :
    m.value.length ≤ (objectText w members).length := by
  have hle := length_item_lt (e := Ascii.rbrace) (List.mem_map_of_mem (f := Member.item) hm)
  rw [m.length_item] at hle
  rw [objectText, List.length_append]
  omega

end Bilbo
