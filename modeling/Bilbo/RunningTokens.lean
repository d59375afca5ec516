import Bilbo.Dispatch
import Bilbo.Running

/-!
# Running the emitted scanners

Whitespace, strings, integers: the inline code for a token gets to its end, with the values that the
parser has for the token. The loops go round as often as those of the parser.
-/

namespace Bilbo

open Base Base.Cfg Comp

namespace Emitter

open Clif

variable {fl : FloatOps} {inp : Input} {P : Program Op} {code : Code Op} {x : Ctx Datum Scratch}
  {b b' : Builder Op} {fr : Frame Datum Scratch} {s : State} {N : ℕ} {p : Pctx} {u : Unit}
  {α : Type}

/-! ## Whitespace -/

/-- One byte of whitespace leads to the one block, anything else to the other. -/
theorem peelWs_steps (g : Process) {c e k : ℕ} {cont tail : Blk}
    (h : Wrote code (peelWs c e cont tail) b u b') (hP : P x.func = some code)
    (hcont : cont.Written code) (htail : tail.Written code) (hc : Carries b fr c (.text k))
    (he : Carries b fr e (.text inp.stop)) :
    ∃ fr', Frame.Agree b.values fr fr' ∧ (system fl inp P).Steps (x.point b fr g)
      (if k < inp.stop ∧ inp.byte k ≤ 0x20 then x.start tail [.text (k + 1)] fr' g
        else x.start cont [.text k] fr' g) := by
  simp only [peelWs, wrote_bind] at h
  obtain ⟨inb, b₁, h₁, bchk, b₂, h₂, ⟨⟩, b₃, h₃, ⟨⟩, b₄, h₄, v, b₅, h₅, isWs, b₆, h₆, c1, b₇, h₇,
    h₈⟩ := h
  obtain ⟨fr₁, w₁, hinb⟩ := icmp_text_ran fl inp g h₁ hP hc he
  have w₂ := w₁.trans h₂.created
  have hbranch := branch fl inp g h₃ hP (wrote_switchToBlock h₄).2 hcont
    (hinb.widen h₂.values) .nil (.cons (hc.later w₂.later) .nil)
  by_cases hin : k < inp.stop
  · -- in front of the end the byte decides
    have hl₄ : Later b fr b₄ fr₁ := w₂.later.widen (h₃.values.trans h₄.values)
    rw [IntCC.holds, decide_eq_true hin, if_pos rfl, h₄.start_eq, Frame.bind_nil] at hbranch
    obtain ⟨fr₅, w₅, hv, -⟩ := op_ran fl inp g h₅ hP (.cons (hc.later hl₄) .nil) rfl
    rw [shift_zero] at hv
    obtain ⟨fr₆, w₆, hws⟩ := icmpImm_ran fl inp g h₆ hP hv ((inp.byte k).toNat_lt.trans (by decide))
      (by decide)
    have w₄₆ := w₅.trans w₆
    obtain ⟨fr₇, w₇, hc1⟩ := advance_ran fl inp g h₇ hP ((hc.later hl₄).later w₄₆.later)
      (n := 1) (by decide)
    have hl₇ : Later b fr b₇ fr₇ := hl₄.trans (w₄₆.trans w₇).later
    have hend := branch fl inp g h₈ hP htail hcont (hws.later w₇.later) (.cons hc1 .nil)
      (.cons (hc.later hl₇) .nil)
    have hholds : IntCC.unsignedLessThanOrEqual.holds (inp.byte k).toNat 0x20 =
        decide (k < inp.stop ∧ inp.byte k ≤ 0x20) := by
      rw [IntCC.holds, decide_eq_decide, UInt8.le_iff_toNat_le]
      exact ⟨fun h => ⟨hin, h⟩, fun h => h.2⟩
    simp only [hholds, decide_eq_true_eq] at hend
    exact ⟨fr₇, hl₇.agree, ((w₂.steps.tail hbranch).trans (w₄₆.trans w₇).steps).tail hend⟩
  · rw [IntCC.holds, decide_eq_false hin, if_neg Bool.false_ne_true] at hbranch
    refine ⟨fr₁, w₁.later.agree, ?_⟩
    rw [if_neg fun h => hin h.1]
    exact w₂.steps.tail hbranch

theorem peelWs_eq (inp : Input) (c : ℕ) (tail : ℕ → ℕ) :
    Bilbo.peelWs inp c tail = if c < inp.stop ∧ inp.byte c ≤ 0x20 then tail (c + 1) else c := by
  rw [Bilbo.peelWs, ite_and]

theorem ws_ran (fl : FloatOps) (g : Process) {cur r k : ℕ} (h : Wrote code (ws cur p) b r b')
    (hP : P x.func = some code) (hp : p.Live inp b fr) (hcur : Carries b fr cur (.text k)) :
    ∃ fr', Went (system fl inp P) x g b fr b' fr' ∧ Carries b' fr' r (.text (Bilbo.ws inp k)) := by
  simp only [ws, wrote_bind] at h
  obtain ⟨cont, b₁, h₁, bl, b₂, h₂, slow, b₃, h₃, ⟨⟩, b₄, h₄, ⟨⟩, b₅, h₅, ⟨⟩, b₆, h₆, ⟨⟩, b₇, h₇, r',
    b₈, h₈, ⟨⟩, b₉, h₉, ⟨⟩, b₁₀, h₁₀, hr⟩ := h
  obtain ⟨rfl, rfl, -⟩ := wrote_pure.1 hr
  have hcont := (wrote_switchToBlock h₁₀).2
  have hbl := (wrote_switchToBlock h₅).2
  have hslow := (wrote_switchToBlock h₇).2
  have hv₁ := h₁.block_params
  have hv₂ := h₂.block_params
  have hv₃ := h₃.block_params
  have hle₅ : b₃.values ≤ b₅.values := h₄.values.trans h₅.values
  have hle₇ : b₅.values ≤ b₇.values := h₆.values.trans h₇.values
  have hle₁₀ : b₇.values ≤ b₁₀.values := h₈.values.trans (h₉.values.trans h₁₀.values)
  -- all ways lead to `cont`
  have hend : ∀ frX m, Frame.Agree b.values fr frX →
      (system fl inp P).Steps (x.point b fr g) (x.start cont [.text m] frX g) →
      ∃ fr', Went (system fl inp P) x g b fr b₁₀ fr' ∧ Carries b₁₀ fr' (cont.param 0) (.text m) := by
    intro frX m hagree hrun
    refine ⟨_, h₁₀.entered hv₁.1 (Nat.le_refl _) (by omega) hagree hrun, ?_⟩
    exact Carries.param frX hv₁.1 (by omega) rfl rfl
  have w₃ : Went (system fl inp P) x g b fr b₃ fr := h₁.created.trans (h₂.created.trans h₃.created)
  obtain ⟨fr₄, hagree₄, hrun₄⟩ :=
    peelWs_steps g h₄ hP hcont hbl (hcur.later w₃.later) (hp.end_.later w₃.later)
  have hrun₄ := w₃.steps.trans hrun₄
  have hagree₄ := hagree₄.le w₃.later.values
  rw [Bilbo.ws, peelWs_eq, peelWs_eq]
  by_cases hk : k < inp.stop ∧ inp.byte k ≤ 0x20
  · rw [if_pos hk] at hrun₄ ⊢
    have w₅ := h₅.entered hv₂.1 (by omega) (by omega) hagree₄ hrun₄
    obtain ⟨fr₆, hagree₆, hrun₆⟩ := peelWs_steps g h₆ hP hcont hslow
      (Carries.param fr₄ hv₂.1 (by omega) rfl rfl) (hp.end_.later w₅.later)
    have hrun₆ := w₅.steps.trans hrun₆
    have hagree₆ := w₅.later.agree.trans hagree₆ w₅.later.values
    by_cases hk' : k + 1 < inp.stop ∧ inp.byte (k + 1) ≤ 0x20
    · -- a run of whitespace is left to the shim
      rw [if_pos hk'] at hrun₆ ⊢
      have w₇ := h₇.entered hv₃.1 (by omega) (by omega) hagree₆ hrun₆
      have hcall : ∀ sc, Clif.callShim fl inp sc g .wsskip [.text (k + 1 + 1), .text inp.stop] =
          some (.ok (.text (rtWsskip inp (k + 1 + 1)), sc, g)) := fun _ => if_pos rfl
      obtain ⟨fr₈, w₈, hskipped⟩ := shim_ran h₈ hP
        (.cons (Carries.param fr₆ hv₃.1 (by omega) rfl rfl) (.cons (hp.end_.later w₇.later) .nil))
        (hcall _)
      have w₈ := w₇.trans w₈
      have hgoes := goes fl inp g h₉ hP hcont (.cons hskipped .nil)
      exact hend fr₈ _ w₈.later.agree (w₈.steps.tail hgoes)
    · rw [if_neg hk'] at hrun₆ ⊢
      exact hend fr₆ _ hagree₆ hrun₆
  · rw [if_neg hk] at hrun₄ ⊢
    exact hend fr₄ _ hagree₄ hrun₄

theorem pastComma_follows {c r k : ℕ} (h : Wrote code (pastComma c p) b r b')
    (hP : P x.func = some code) (hp : p.Live inp b fr) (hc : Carries b fr c (.text k)) :
    (system fl inp P).Follows N (x.point b fr s.proc) ((Bilbo.pastComma inp k).run s)
      (Lands x b fr b' fun c' fr' => Carries b' fr' r (.text c')) := by
  simp only [pastComma, wrote_bind] at h
  obtain ⟨c₁, b₁, h₁, v, b₂, h₂, t, b₃, h₃, c2, b₄, h₄, h₅⟩ := h
  obtain ⟨fr₁, w₁, hc₁⟩ := ws_ran fl s.proc h₁ hP hp hc
  refine .after w₁.steps ((loadU8_follows h₂ hP hc₁).bind fun byte s' cfg hload => ?_)
  obtain ⟨⟨rfl, rfl, -⟩, fr₂, rfl, hl₂, hv⟩ := hload
  obtain ⟨fr₃, w₃, ht⟩ := byteEq_ran fl inp s'.proc h₃ hP hv
  have hl₃ := hl₂.trans w₃.later
  obtain ⟨fr₄, w₄, hc2⟩ := advance_ran fl inp s'.proc h₄ hP (hc₁.later hl₃) (n := 1) (by decide)
  have hl₄ := hl₃.trans w₄.later
  obtain ⟨fr₅, w₅, hr⟩ :=
    select_ran fl inp s'.proc h₅ hP (ht.later w₄.later) hc2 (hc₁.later hl₄)
  refine .after (w₃.trans (w₄.trans w₅)).steps
    (.done ⟨fr₅, rfl, w₁.later.trans (hl₄.trans w₅.later), ?_⟩)
  rw [← apply_ite Datum.text] at hr
  exact hr

/-! ## Strings -/

theorem strscanLoop_words {stop st : ℕ} (bs : Bytes) (i esc : ℕ) (hesc : esc ≤ 1)
    (hi : bs = [] ∨ i + bs.length ≤ 2 ^ 64) :
    (strscanLoop stop st bs i esc).len < 2 ^ 64 ∧ (strscanLoop stop st bs i esc).esc ≤ 1 := by
  have hwrap : wrapSub stop st < 2 ^ 64 := Nat.mod_lt _ (by decide)
  fun_induction strscanLoop stop st bs i esc with
  | case1 i esc => exact ⟨hwrap, hesc⟩
  | case2 b bs i esc hq =>
    simp only [List.length_cons, reduceCtorEq, false_or] at hi
    exact ⟨show i - st < 2 ^ 64 by omega, hesc⟩
  | case3 b i esc hq hb => exact ⟨hwrap, Nat.le_refl 1⟩
  | case4 b i esc hq hb e bs ih =>
    simp only [List.length_cons, reduceCtorEq, false_or] at hi
    exact ih (Nat.le_refl 1) (.inr (by omega))
  | case5 b bs i esc hq hb ih =>
    simp only [List.length_cons, reduceCtorEq, false_or] at hi
    exact ih hesc (.inr (by omega))

/-- What `strscan` reports are a word and a flag. -/
theorem strscan_words (inp : Input) (q : ℕ) :
    (Bilbo.strscan inp q).len < 2 ^ 64 ∧ (Bilbo.strscan inp q).esc ≤ 1 := by
  refine strscanLoop_words _ _ _ (Nat.zero_le 1) ?_
  by_cases hq : inp.stop ≤ q + 1
  · exact .inl (Input.rest_of_stop_le hq)
  · right
    have hstop := inp.stop_lt
    rw [Input.length_rest]
    omega

/-- The span of a string is in four values. -/
structure Span.Carries (sp : Span) (b : Builder Op) (fr : Frame Datum Scratch) (r : StrSpan) : Prop where
  start : Cfg.Carries b fr sp.start (.text r.start)
  len : Cfg.Carries b fr sp.len (.nat r.len)
  after : Cfg.Carries b fr sp.after (.text r.after)
  esc : Cfg.Carries b fr sp.esc (.ofBool (r.esc != 0))
  len_lt : r.len < 2 ^ 64

theorem strspan_follows {cur k : ℕ} {sp : Span} (h : Wrote code (strspan cur p) b sp b')
    (hP : P x.func = some code) (hp : p.Live inp b fr) (hc : Carries b fr cur (.text k)) :
    (system fl inp P).Follows N (x.point b fr s.proc) ((Bilbo.strspan inp k).run s)
      (Lands x b fr b' fun r fr' => sp.Carries b' fr' r) := by
  simp only [strspan, wrote_bind] at h
  obtain ⟨q, b₁, h₁, start, b₂, h₂, after, b₃, h₃, len, b₄, h₄, esc, b₅, h₅, hr⟩ := h
  obtain ⟨rfl, rfl, -⟩ := wrote_pure.1 hr
  obtain ⟨fr₁, w₁, hq⟩ := ws_ran fl s.proc h₁ hP hp hc
  obtain ⟨fr₂, w₂, hstart⟩ := advance_ran fl inp s.proc h₂ hP hq (n := 1) (by decide)
  have w₁₂ := w₁.trans w₂
  have hp₂ := hp.later w₁₂.later
  refine .after w₁₂.steps ((shim_follows h₃ hP (.cons (hq.later w₂.later) (.cons hp₂.end_
    (.cons hp₂.sc .nil))) rtStrscan_does).bind fun c' s' cfg hscan => ?_)
  obtain ⟨fr₃, w, rfl, hl₃, hafter, ⟨rfl, hsc⟩, rfl, hloc⟩ := hscan
  obtain ⟨fr₄, w₄, hlen, hloc₄⟩ := op_ran fl inp s'.proc h₄ hP (.cons (hp₂.sc.later hl₃) .nil) rfl
  obtain ⟨fr₅, w₅, hesc, -⟩ := op_ran fl inp s'.proc h₅ hP
    (.cons (hp₂.sc.later (hl₃.trans w₄.later)) .nil) rfl
  have w₄₅ := w₄.trans w₅
  rw [hloc] at hlen
  rw [hloc₄, hloc] at hesc
  refine .after w₄₅.steps (.done ⟨fr₅, rfl, w₁₂.later.trans (hl₃.trans w₄₅.later), ?_⟩)
  obtain ⟨hlt, hle⟩ := strscan_words inp (Bilbo.ws inp k)
  have hflag : Datum.int (.ofNat 64 s'.sc.2) = .ofBool (s'.sc.2 != 0) := by
    rw [hsc]
    generalize (Bilbo.strscan inp (Bilbo.ws inp k)).esc = e at hle
    match e, hle with
    | 0, _ => rfl
    | 1, _ => rfl
  rw [hflag] at hesc
  refine ⟨hstart.later (hl₃.trans w₄₅.later), hlen.later w₅.later, hafter.later w₄₅.later, hesc, ?_⟩
  rw [hsc]
  exact hlt

/-! ## Copies -/

/-- The code has jumped to a block. -/
def Leads (x : Ctx Datum Scratch) (b : Builder Op) (fr : Frame Datum Scratch) (l : Blk)
    (ws : α → List Datum) (a : α) (s : State) (c : Config Datum Scratch Process) : Prop :=
  ∃ fr', c = x.start l (ws a) fr' s.proc ∧ Frame.Agree b.values fr fr'

theorem Leads.after {l : Blk} {ws : α → List Datum} {a : α} {c : Config Datum Scratch Process}
    {b₁ : Builder Op} {fr₁ : Frame Datum Scratch} (h : Leads x b₁ fr₁ l ws a s c)
    (hl : Later b fr b₁ fr₁) : Leads x b fr l ws a s c := by
  obtain ⟨fr', hc, hagree⟩ := h
  exact ⟨fr', hc, hl.agree.trans hagree hl.values⟩

/-- A block with new parameters is entered. -/
theorem Leads.entered {l : Blk} {ws : α → List Datum} {a : α} {c : Config Datum Scratch Process}
    {b₁ b₂ : Builder Op} {n : ℕ} (h : Leads x b fr l ws a s c)
    (hl : Wrote code (switchToBlock l) b₁ u b₂) (hnew : l.New n b b₁) (hws : (ws a).length = n) :
    ∃ fr', c = x.point b₂ fr' s.proc ∧ Later b fr b₂ fr' ∧
      ∀ {i : ℕ} {w : Datum}, (ws a)[i]? = some w → Carries b₂ fr' (l.param i) w := by
  obtain ⟨fr', rfl, hagree⟩ := h
  obtain ⟨k, hparams, hk, hle⟩ := hnew
  have hle₂ := hle.trans hl.values
  rw [hl.start_eq]
  exact ⟨_, rfl, .enter hagree hparams hk (by omega) _, fun hi => .param fr' hparams hle₂ hws hi⟩

/-- A block without parameters that everything before it has led to. -/
theorem Leads.lands {l : Blk} {a : α} {ws : α → List Datum} {c : Config Datum Scratch Process}
    {b₁ b₂ : Builder Op} (h : Leads x b fr l ws a s c) (hws : ws a = [])
    (hl : Wrote code (switchToBlock l) b₁ u b₂) (hle : b.values ≤ b₂.values) :
    Lands x b fr b₂ (fun _ _ => True) a s c := by
  obtain ⟨fr', rfl, hagree⟩ := h
  rw [hws, hl.start_eq, Frame.bind_nil]
  exact ⟨fr', rfl, ⟨hle, hagree⟩, trivial⟩

theorem le_word (ty : Width) (n : ℕ) : le ty.bytes (BitVec.ofNat 64 n).toNat = le ty.bytes n := by
  have hdvd : 256 ^ ty.bytes ∣ 2 ^ 64 := by cases ty <;> decide
  rw [← le_mod, BitVec.toNat_ofNat, Nat.mod_mod_of_dvd _ hdvd, le_mod]

/-- The bytes that a load reads. -/
theorem load_span {k w : ℕ} (h : k + w ≤ inp.stop) :
    (List.range w).map (fun i => inp.byte (k + i)) = inp.span k w := by
  apply List.ext_getElem?
  intro i
  rw [List.getElem?_map]
  by_cases hi : i < w
  · rw [List.getElem?_range hi, Option.map_some, Input.byte_of_span h hi]
  · have hlen := Input.length_span h
    rw [List.getElem?_eq_none (by rw [List.length_range]; omega), List.getElem?_eq_none (by omega),
      Option.map_none]

theorem cp_follows {ty : Width} {src dst off k a o : ℕ} (h : Wrote code (cp src dst ty off) b u b')
    (hP : P x.func = some code) (hsrc : Carries b fr src (.text k)) (hdst : Carries b fr dst (.heap a))
    (hoff : Carries b fr off (.nat o)) (ho : o < 2 ^ 64) :
    (system fl inp P).Follows N (x.point b fr s.proc) ((Bilbo.cp inp k a ty.bytes o).run s)
      (Lands x b fr b' fun _ _ => True) := by
  simp only [cp, wrote_bind] at h
  obtain ⟨sa, b₁, h₁, da, b₂, h₂, v, b₃, h₃, h₄⟩ := h
  obtain ⟨fr₁, w₁, hsa, -⟩ := op_ran fl inp s.proc h₁ hP (.cons hsrc (.cons hoff .nil)) rfl
  obtain ⟨fr₂, w₂, hda, -⟩ := op_ran fl inp s.proc h₂ hP
    (.cons (hdst.later w₁.later) (.cons (hoff.later w₁.later) .nil)) rfl
  rw [toNat_ofNat ho] at hsa hda
  have hsa₂ := hsa.later w₂.later
  have w₁₂ := w₁.trans w₂
  refine .after w₁₂.steps ?_
  rw [Bilbo.cp, ite_run]
  split
  · next hin =>
    obtain ⟨fr₃, w₃, hv, -⟩ := op_ran fl inp s.proc h₃ hP (.cons hsa₂ .nil) rfl
    rw [shift_zero, load_span hin] at hv
    have hlen := Input.length_span hin
    have hbytes : (Datum.int (.ofNat 64 (ofLe (inp.span (k + o) ty.bytes)))).bytes ty =
        some ((ints (inp.span (k + o) ty.bytes)).map Cell.byte) := by
      have hle := le_ofLe (inp.span (k + o) ty.bytes)
      rw [hlen] at hle
      rw [map_byte_ints, Datum.bytes, le_word, hle]
    rw [← shift_zero (a + o)]
    exact .after w₃.steps ((store_follows h₄ hP hv (hda.later w₃.later) hbytes).mono
      fun _ _ _ hl => hl.after (w₁₂.later.trans w₃.later))
  · next hin =>
    refine .stop (fault_load fl h₃ hP (.cons hsa₂ .nil) (w := ty.bytes) ?_ (by omega) _)
    rw [Op.loads, shift_zero]

theorem ofNat_sub {n m : ℕ} (h : n ≤ m) :
    BitVec.ofNat 64 m + -BitVec.ofNat 64 n = BitVec.ofNat 64 (m - n) := by
  conv_lhs => rw [← Nat.sub_add_cancel h, BitVec.ofNat_add]
  rw [BitVec.add_assoc, BitVec.add_right_neg, BitVec.add_zero]

/-- A difference with a constant. -/
theorem subImm_ran (fl : FloatOps) (inp : Input) (g : Process) {v r n m : ℕ}
    (h : Wrote code (iaddImm v (-.ofNat 64 n)) b r b') (hP : P x.func = some code)
    (hv : Carries b fr v (.nat m)) (hnm : n ≤ m) :
    ∃ fr', Went (system fl inp P) x g b fr b' fr' ∧ Carries b' fr' r (.nat (m - n)) := by
  obtain ⟨fr', hwent, hr, -⟩ := op_ran fl inp g h hP (.cons hv .nil) rfl
  rw [ofNat_sub hnm] at hr
  exact ⟨fr', hwent, hr⟩

section Copy

variable {dst src len z k a n : ℕ} {done : Blk}

/-- The parts of a copy of up to a word. -/
theorem copyEnds_follows {ty : Width} (h : Wrote code (copyEnds dst src len z ty done) b u b')
    (hP : P x.func = some code) (hdone : done.Written code) (hdst : Carries b fr dst (.heap a))
    (hsrc : Carries b fr src (.text k)) (hlen : Carries b fr len (.nat n)) (hz : Carries b fr z (.nat 0))
    (hn : n < 2 ^ 64) (hty : ty.bytes ≤ n) :
    (system fl inp P).Follows N (x.point b fr s.proc)
      ((do
        Bilbo.cp inp k a ty.bytes 0
        Bilbo.cp inp k a ty.bytes (n - ty.bytes)).run s)
      (Leads x b fr done fun _ => []) := by
  simp only [copyEnds, wrote_bind] at h
  obtain ⟨⟨⟩, b₁, h₁, l, b₂, h₂, ⟨⟩, b₃, h₃, h₄⟩ := h
  refine (cp_follows h₁ hP hsrc hdst hz (by decide)).bind fun _ s₁ c₁ hc₁ => ?_
  obtain ⟨fr₁, rfl, hl₁, -⟩ := hc₁
  obtain ⟨fr₂, w₂, hl⟩ := subImm_ran fl inp s₁.proc h₂ hP (hlen.later hl₁) hty
  have hl₂ := hl₁.trans w₂.later
  refine .after w₂.steps ?_
  refine (cp_follows h₃ hP (hsrc.later hl₂) (hdst.later hl₂) hl (by omega)).further ?_
  rintro ⟨⟩ s₃ c₃ ⟨fr₃, rfl, hl₃, -⟩
  exact ⟨_, .single (goes fl inp s₃.proc h₄ hP hdone .nil), fr₃, rfl, (hl₂.trans hl₃).agree⟩

/-- The word loop, and the word behind it. -/
theorem copyBig_follows (h : Wrote code (copyBig dst src len z done) b u b')
    (hP : P x.func = some code) (hdone : done.Written code) (hdst : Carries b fr dst (.heap a))
    (hsrc : Carries b fr src (.text k)) (hlen : Carries b fr len (.nat n)) (hz : Carries b fr z (.nat 0))
    (hn : n ≤ isizeMax) (h8 : 8 ≤ n) {bound : ℕ} (hbound : N ≤ bound) :
    (system fl inp P).Follows N (x.point b fr s.proc)
      ((do
        copyWords inp a k n bound 0
        Bilbo.cp inp k a 8 (n - 8)).run s)
      (Leads x b fr done fun _ => []) := by
  simp only [copyBig, wrote_bind] at h
  obtain ⟨wh, b₁, h₁, wb, b₂, h₂, tail, b₃, h₃, ⟨⟩, b₄, h₄, ⟨⟩, b₅, h₅, i8, b₆, h₆, fits, b₇, h₇,
    ⟨⟩, b₈, h₈, ⟨⟩, b₉, h₉, ⟨⟩, b₁₀, h₁₀, i2, b₁₁, h₁₁, ⟨⟩, b₁₂, h₁₂, ⟨⟩, b₁₃, h₁₃, l8, b₁₄, h₁₄,
    ⟨⟩, b₁₅, h₁₅, h₁₆⟩ := h
  have hwh := (wrote_switchToBlock h₅).2
  have hwb := (wrote_switchToBlock h₉).2
  have htail := (wrote_switchToBlock h₁₃).2
  have hv₁ := h₁.block_params
  have hv₂ := h₂.block_params
  have hle₅ : b₂.values ≤ b₅.values := h₃.values.trans (h₄.values.trans h₅.values)
  have hle₉ : b₅.values ≤ b₉.values :=
    h₆.values.trans (h₇.values.trans (h₈.values.trans h₉.values))
  have hle₁₃ : b₉.values ≤ b₁₃.values :=
    h₁₀.values.trans (h₁₁.values.trans (h₁₂.values.trans h₁₃.values))
  have hmax : isizeMax + 8 < 2 ^ 64 := by decide
  have w₃ : Went (system fl inp P) x s.proc b fr b₃ fr :=
    h₁.created.trans (h₂.created.trans h₃.created)
  have hgoes := goes fl inp s.proc h₄ hP hwh (.cons (hz.later w₃.later) .nil)
  refine .after (w₃.steps.tail hgoes) (.bind (Q := Leads x b fr tail fun _ => []) ?_ ?_)
  · -- the head of the loop has the offset as its parameter
    refine System.Follows.loop (fun _ i s c => i ≤ n ∧ ∃ fr', c = x.start wh [.nat i] fr' s.proc ∧
      Frame.Agree b.values fr fr') ?_ hbound ⟨Nat.zero_le n, fr, rfl, .refl _ fr⟩
    rintro _ i s₁ c₁ ⟨hi, fr₁, rfl, hagree⟩
    rw [h₅.start_eq]
    have hl₅ : Later b fr b₅ (fr₁.bind wh.params [Datum.nat i]) :=
      .enter hagree hv₁.1 (Nat.le_refl _) (by omega) _
    have hi₅ : Carries b₅ (fr₁.bind wh.params [Datum.nat i]) (wh.param 0) (.nat i) :=
      Carries.param fr₁ hv₁.1 (by omega) rfl rfl
    obtain ⟨fr₆, w₆, hi8⟩ := iaddImm_ran fl inp s₁.proc h₆ hP hi₅ (n := 8)
    obtain ⟨fr₇, w₇, hfits⟩ := icmp_ran fl inp s₁.proc h₇ hP hi8
      (hlen.later (hl₅.trans w₆.later)) (by omega) (by omega)
    have w₆₇ := w₆.trans w₇
    have hl₇ := hl₅.trans w₆₇.later
    have hbranch := branch fl inp s₁.proc h₈ hP hwb htail hfits
      (.cons (hi₅.later w₆₇.later) .nil) .nil
    refine .after (w₆₇.steps.tail hbranch) ?_
    rw [IntCC.holds, ite_run]
    by_cases hle : i + 8 ≤ n
    · rw [decide_eq_true hle, if_pos rfl, if_pos hle, h₉.start_eq]
      have hl₉ : Later b fr b₉ (fr₇.bind wb.params [Datum.nat i]) :=
        .enter hl₇.agree hv₂.1 (by omega) (by omega) _
      have hi₉ : Carries b₉ (fr₇.bind wb.params [Datum.nat i]) (wb.param 0) (.nat i) :=
        Carries.param fr₇ hv₂.1 (by omega) rfl rfl
      refine (cp_follows h₁₀ hP (hsrc.later hl₉) (hdst.later hl₉) hi₉ (by omega)).bind ?_
      rintro ⟨⟩ s₂ c₂ ⟨fr₁₀, rfl, hl₁₀, -⟩
      obtain ⟨fr₁₁, w₁₁, hi2⟩ := iaddImm_ran fl inp s₂.proc h₁₁ hP (hi₉.later hl₁₀) (n := 8)
      refine .after w₁₁.steps (.done ⟨_, goes fl inp s₂.proc h₁₂ hP hwh (.cons hi2 .nil), hle, fr₁₁,
        rfl, ?_⟩)
      exact (hl₉.trans (hl₁₀.trans w₁₁.later)).agree
    · rw [decide_eq_false hle, if_neg hle]
      exact .done ⟨fr₇, rfl, hl₇.agree⟩
  · rintro ⟨⟩ s₁ c₁ ⟨fr₁, rfl, hagree⟩
    rw [h₁₃.start_eq, Frame.bind_nil]
    have hl₁₃ : Later b fr b₁₃ fr₁ := ⟨by omega, hagree⟩
    obtain ⟨fr₁₄, w₁₄, hl8⟩ := subImm_ran fl inp s₁.proc h₁₄ hP (hlen.later hl₁₃) h8
    have hl₁₄ := hl₁₃.trans w₁₄.later
    refine .after w₁₄.steps ((cp_follows h₁₅ hP (hsrc.later hl₁₄) (hdst.later hl₁₄) hl8
      (by omega)).further ?_)
    rintro ⟨⟩ s₂ c₂ ⟨fr₁₅, rfl, hl₁₅, -⟩
    exact ⟨_, .single (goes fl inp s₂.proc h₁₆ hP hdone .nil), fr₁₅, rfl, (hl₁₄.trans hl₁₅).agree⟩

/-- A branch whose blocks have no parameters. -/
theorem branch_nil (fl : FloatOps) (inp : Input) (g : Process) {c : ℕ} {l l' : Blk} {p : Bool}
    (h : Wrote code (brif c l [] l' []) b u b') (hP : P x.func = some code) (hl : l.Written code)
    (hl' : l'.Written code) (hc : Carries b fr c (.ofBool p)) :
    (system fl inp P).step (x.point b fr g) = some (x.start (if p then l else l') [] fr g) := by
  rw [branch fl inp g h hP hl hl' hc .nil .nil]
  cases p <;> rfl

/-- The ladder for less than a word. -/
theorem copySmall_follows (h : Wrote code (copySmall dst src len z done) b u b')
    (hP : P x.func = some code) (hdone : done.Written code) (hdst : Carries b fr dst (.heap a))
    (hsrc : Carries b fr src (.text k)) (hlen : Carries b fr len (.nat n)) (hz : Carries b fr z (.nat 0))
    (h8 : n < 8) :
    (system fl inp P).Follows N (x.point b fr s.proc)
      ((if 4 ≤ n then do
          Bilbo.cp inp k a 4 0
          Bilbo.cp inp k a 4 (n - 4)
        else if 2 ≤ n then do
          Bilbo.cp inp k a 2 0
          Bilbo.cp inp k a 2 (n - 2)
        else if n ≠ 0 then Bilbo.cp inp k a 1 0
        else pure () : M Unit).run s)
      (Leads x b fr done fun _ => []) := by
  simp only [copySmall, wrote_bind] at h
  obtain ⟨s2, b₁, h₁, s4, b₂, h₂, ge4, b₃, h₃, ⟨⟩, b₄, h₄, ⟨⟩, b₅, h₅, ⟨⟩, b₆, h₆, ⟨⟩, b₇, h₇, do2,
    b₈, h₈, s1, b₉, h₉, ge2, b₁₀, h₁₀, ⟨⟩, b₁₁, h₁₁, ⟨⟩, b₁₂, h₁₂, ⟨⟩, b₁₃, h₁₃, ⟨⟩, b₁₄, h₁₄, one,
    b₁₅, h₁₅, nz, b₁₆, h₁₆, ⟨⟩, b₁₇, h₁₇, ⟨⟩, b₁₈, h₁₈, ⟨⟩, b₁₉, h₁₉, h₂₀⟩ := h
  have hn : n < 2 ^ 64 := h8.trans (by decide)
  have w₂ : Went (system fl inp P) x s.proc b fr b₂ fr := h₁.created.trans h₂.created
  obtain ⟨fr₃, w₃, hge4⟩ := icmpImm_ran fl inp s.proc h₃ hP (hlen.later w₂.later) hn (n := 4)
    (by decide)
  have w₃ := w₂.trans w₃
  have hbranch₄ := branch_nil fl inp s.proc h₄ hP (wrote_switchToBlock h₅).2
    (wrote_switchToBlock h₇).2 hge4
  refine .after (w₃.steps.tail hbranch₄) ?_
  rw [IntCC.holds, ite_run]
  by_cases h4 : 4 ≤ n
  · rw [decide_eq_true h4, if_pos rfl, if_pos h4, h₅.start_eq, Frame.bind_nil]
    have hl₅ := w₃.later.widen (h₄.values.trans h₅.values)
    exact (copyEnds_follows h₆ hP hdone (hdst.later hl₅) (hsrc.later hl₅) (hlen.later hl₅)
      (hz.later hl₅) hn h4).mono fun _ _ _ hc => hc.after hl₅
  rw [decide_eq_false h4, if_neg Bool.false_ne_true, if_neg h4, h₇.start_eq, Frame.bind_nil]
  have hl₇ := w₃.later.widen (h₄.values.trans (h₅.values.trans (h₆.values.trans h₇.values)))
  have w₉ : Went (system fl inp P) x s.proc b₇ fr₃ b₉ fr₃ := h₈.created.trans h₉.created
  obtain ⟨fr₁₀, w₁₀, hge2⟩ := icmpImm_ran fl inp s.proc h₁₀ hP
    (hlen.later (hl₇.trans w₉.later)) hn (n := 2) (by decide)
  have w₁₀ := w₉.trans w₁₀
  have hbranch₁₁ := branch_nil fl inp s.proc h₁₁ hP (wrote_switchToBlock h₁₂).2
    (wrote_switchToBlock h₁₄).2 hge2
  have hl₁₀ := hl₇.trans w₁₀.later
  refine .after (w₁₀.steps.tail hbranch₁₁) ?_
  rw [IntCC.holds, ite_run]
  by_cases h2 : 2 ≤ n
  · rw [decide_eq_true h2, if_pos rfl, if_pos h2, h₁₂.start_eq, Frame.bind_nil]
    have hl₁₂ := hl₁₀.widen (h₁₁.values.trans h₁₂.values)
    exact (copyEnds_follows h₁₃ hP hdone (hdst.later hl₁₂) (hsrc.later hl₁₂) (hlen.later hl₁₂)
      (hz.later hl₁₂) hn h2).mono fun _ _ _ hc => hc.after hl₁₂
  rw [decide_eq_false h2, if_neg Bool.false_ne_true, if_neg h2, h₁₄.start_eq, Frame.bind_nil]
  have hl₁₄ := hl₁₀.widen (h₁₁.values.trans (h₁₂.values.trans (h₁₃.values.trans h₁₄.values)))
  have w₁₅ : Went (system fl inp P) x s.proc b₁₄ fr₁₀ b₁₅ fr₁₀ := h₁₅.created
  obtain ⟨fr₁₆, w₁₆, hnz⟩ := icmpImm_ran fl inp s.proc h₁₆ hP
    (hlen.later (hl₁₄.trans w₁₅.later)) hn (n := 0) (by decide)
  have w₁₆ := w₁₅.trans w₁₆
  have hbranch₁₇ := branch_nil fl inp s.proc h₁₇ hP (wrote_switchToBlock h₁₈).2 hdone hnz
  have hl₁₆ := hl₁₄.trans w₁₆.later
  refine .after (w₁₆.steps.tail hbranch₁₇) ?_
  rw [IntCC.holds, ite_run]
  by_cases h0 : n ≠ 0
  · rw [bne_iff_ne.2 h0, if_pos rfl, if_pos h0, h₁₈.start_eq, Frame.bind_nil]
    have hl₁₈ := hl₁₆.widen (h₁₇.values.trans h₁₈.values)
    refine (cp_follows h₁₉ hP (hsrc.later hl₁₈) (hdst.later hl₁₈) (hz.later hl₁₈)
      (by decide)).further ?_
    rintro ⟨⟩ s₁ c₁ ⟨fr₁₉, rfl, hl₁₉, -⟩
    exact ⟨_, .single (goes fl inp s₁.proc h₂₀ hP hdone .nil), fr₁₉, rfl, (hl₁₈.trans hl₁₉).agree⟩
  · rw [bne_eq_false_iff_eq.2 (not_not.1 h0), if_neg h0]
    exact .done ⟨fr₁₆, rfl, hl₁₆.agree⟩

theorem emitCopy_follows (h : Wrote code (emitCopy dst src len) b u b') (hP : P x.func = some code)
    (hdst : Carries b fr dst (.heap a)) (hsrc : Carries b fr src (.text k))
    (hlen : Carries b fr len (.nat n)) (hn : n ≤ isizeMax) {bound : ℕ} (hbound : N ≤ bound) :
    (system fl inp P).Follows N (x.point b fr s.proc) ((Bilbo.emitCopy inp bound a k n).run s)
      (Lands x b fr b' fun _ _ => True) := by
  simp only [emitCopy, wrote_bind] at h
  obtain ⟨z, b₁, h₁, big, b₂, h₂, small, b₃, h₃, done, b₄, h₄, ge8, b₅, h₅, ⟨⟩, b₆, h₆, ⟨⟩, b₇, h₇,
    ⟨⟩, b₈, h₈, ⟨⟩, b₉, h₉, ⟨⟩, b₁₀, h₁₀, h₁₁⟩ := h
  have hmax : isizeMax < 2 ^ 64 := by decide
  have hdone := (wrote_switchToBlock h₁₁).2
  obtain ⟨fr₁, w₁, hz⟩ := iconst_ran fl inp s.proc fr h₁ hP
  have w₄ : Went (system fl inp P) x s.proc b₁ fr₁ b₄ fr₁ :=
    h₂.created.trans (h₃.created.trans h₄.created)
  have w₄' := w₁.trans w₄
  obtain ⟨fr₅, w₅, hge8⟩ := icmpImm_ran fl inp s.proc h₅ hP (hlen.later w₄'.later) (by omega) (n := 8)
    (by decide)
  have hl₅ := w₄'.later.trans w₅.later
  have hz₅ := hz.later (w₄.trans w₅).later
  have hbranch := branch_nil fl inp s.proc h₆ hP (wrote_switchToBlock h₇).2
    (wrote_switchToBlock h₉).2 hge8
  refine .after ((w₄'.trans w₅).steps.tail hbranch) (System.Follows.mono (Q := Leads x b fr done fun _ => [])
    ?_ fun _ _ _ hc => hc.lands rfl h₁₁ ?_)
  · rw [Bilbo.emitCopy, IntCC.holds, ite_run]
    by_cases h8 : 8 ≤ n
    · rw [decide_eq_true h8, if_pos rfl, if_pos h8, h₇.start_eq, Frame.bind_nil]
      have hl₆₇ : Later b₅ fr₅ b₇ fr₅ := (Later.refl b₅ fr₅).widen (h₆.values.trans h₇.values)
      have hl₇ := hl₅.trans hl₆₇
      exact (copyBig_follows h₈ hP hdone (hdst.later hl₇) (hsrc.later hl₇) (hlen.later hl₇)
        (hz₅.later hl₆₇) hn h8 hbound).mono fun _ _ _ hc => hc.after hl₇
    · rw [decide_eq_false h8, if_neg Bool.false_ne_true, if_neg h8, h₉.start_eq, Frame.bind_nil]
      have hl₆₉ : Later b₅ fr₅ b₉ fr₅ := (Later.refl b₅ fr₅).widen
        (h₆.values.trans (h₇.values.trans (h₈.values.trans h₉.values)))
      have hl₉ := hl₅.trans hl₆₉
      exact (copySmall_follows h₁₀ hP hdone (hdst.later hl₉) (hsrc.later hl₉) (hlen.later hl₉)
        (hz₅.later hl₆₉) (by omega)).mono fun _ _ _ hc => hc.after hl₉
  · exact hl₅.values.trans (h₆.values.trans (h₇.values.trans (h₈.values.trans (h₉.values.trans
      (h₁₀.values.trans h₁₁.values)))))

end Copy

/-! ## Owned strings -/

/-- A buffer and its length are in two values. -/
def Buffer (b : Builder Op) (fr : Frame Datum Scratch) (v : Value × Value) (r : ℕ × ℕ) : Prop :=
  Carries b fr v.1 (.heap r.1) ∧ Carries b fr v.2 (.nat r.2)

theorem buildStr_follows {sp : Span} {r : StrSpan} {v : Value × Value}
    (h : Wrote code (buildStr sp.start sp.len sp.esc p) b v b') (hP : P x.func = some code)
    (hp : p.Live inp b fr) (hsp : sp.Carries b fr r) {bound : ℕ} (hbound : N ≤ bound) :
    (system fl inp P).Follows N (x.point b fr s.proc) ((Bilbo.buildStr inp bound r).run s)
      (Lands x b fr b' fun res fr' => Buffer b' fr' v res) := by
  simp only [buildStr, wrote_bind] at h
  obtain ⟨fast, b₁, h₁, slow, b₂, h₂, cont, b₃, h₃, ⟨⟩, b₄, h₄, ⟨⟩, b₅, h₅, buf, b₆, h₆, ⟨⟩, b₇, h₇,
    ⟨⟩, b₈, h₈, ⟨⟩, b₉, h₉, buf', b₁₀, h₁₀, dl, b₁₁, h₁₁, ⟨⟩, b₁₂, h₁₂, ⟨⟩, b₁₃, h₁₃, hv⟩ := h
  obtain ⟨rfl, rfl, -⟩ := wrote_pure.1 hv
  have hcont := (wrote_switchToBlock h₁₃).2
  have hv₃ := h₃.block_params
  have hle₃ : b.values ≤ b₂.values := h₁.values.trans h₂.values
  have hle₉ : b₃.values ≤ b₉.values := h₄.values.trans (h₅.values.trans (h₆.values.trans
    (h₇.values.trans (h₈.values.trans h₉.values))))
  have hle₁₃ : b₉.values ≤ b₁₃.values :=
    h₁₀.values.trans (h₁₁.values.trans (h₁₂.values.trans h₁₃.values))
  have w₃ : Went (system fl inp P) x s.proc b fr b₃ fr :=
    h₁.created.trans (h₂.created.trans h₃.created)
  have hbranch := branch_nil fl inp s.proc h₄ hP (wrote_switchToBlock h₉).2
    (wrote_switchToBlock h₅).2 (hsp.esc.later w₃.later)
  refine .after (w₃.steps.tail hbranch) (System.Follows.mono
    (Q := Leads x b fr cont fun res : ℕ × ℕ => [.heap res.1, .nat res.2]) ?_ ?_)
  · rw [Bilbo.buildStr, ite_run]
    by_cases hesc : r.esc ≠ 0
    · -- escapes go through the shim, which returns the length in the scratch slot
      rw [bne_iff_ne.2 hesc, if_pos rfl, if_pos hesc, h₉.start_eq, Frame.bind_nil]
      have hl₉ := w₃.later.widen hle₉
      have hp₉ := hp.later hl₉
      refine (shim_follows h₁₀ hP (.cons (hsp.start.later hl₉) (.cons (hsp.len.later hl₉)
        (.cons hp₉.sc .nil))) (rtUnescape_does (toNat_ofNat hsp.len_lt))).bind ?_
      rintro q s₁ c₁ ⟨fr₁₀, w, rfl, hl₁₀, hbuf, rfl, hlen⟩
      obtain ⟨fr₁₁, w₁₁, hdl, -⟩ := op_ran fl inp s₁.proc h₁₁ hP (.cons (hp₉.sc.later hl₁₀) .nil) rfl
      have hword : Datum.int fr₁₀.loc.1 = .nat s₁.sc.1 := by
        rw [← hlen, Datum.nat, BitVec.ofNat_toNat, BitVec.setWidth_eq]
      rw [hword] at hdl
      have hgoes := goes fl inp s₁.proc h₁₂ hP hcont (.cons (hbuf.later w₁₁.later) (.cons hdl .nil))
      exact .after (w₁₁.steps.tail hgoes) (.done ⟨fr₁₁, rfl, (hl₉.trans (hl₁₀.trans w₁₁.later)).agree⟩)
    · rw [bne_eq_false_iff_eq.2 (not_not.1 hesc), if_neg hesc, if_neg Bool.false_ne_true, h₅.start_eq,
        Frame.bind_nil]
      have hl₅ := w₃.later.widen (h₄.values.trans h₅.values)
      refine (shim_follows h₆ hP (.cons (hsp.len.later hl₅) .nil)
        (rtAlloc_does (toNat_ofNat hsp.len_lt))).bind ?_
      rintro q s₁ c₁ ⟨fr₆, w, rfl, hl₆, hbuf, rfl, hlen⟩
      have hl₆ := hl₅.trans hl₆
      refine (emitCopy_follows h₇ hP hbuf (hsp.start.later hl₆) (hsp.len.later hl₆) hlen hbound).bind ?_
      rintro ⟨⟩ s₂ c₂ ⟨fr₇, rfl, hl₇, -⟩
      have hl₇' := hl₆.trans hl₇
      have hgoes := goes fl inp s₂.proc h₈ hP hcont
        (.cons (hbuf.later hl₇) (.cons (hsp.len.later hl₇') .nil))
      exact .of_step hgoes (.done ⟨fr₇, rfl, hl₇'.agree⟩)
  · rintro res s₁ c₁ ⟨fr₁, rfl, hagree⟩
    rw [h₁₃.start_eq]
    refine ⟨_, rfl, Later.enter hagree hv₃.1 hle₃ (by omega) _, ?_, ?_⟩
    · exact Carries.param fr₁ hv₃.1 (by omega) rfl rfl
    · exact Carries.param fr₁ hv₃.1 (by omega) rfl rfl

/-! ## Integers -/

/-- The test for a digit is one comparison. -/
theorem isDigit_word (byte : UInt8) :
    IntCC.unsignedLessThan.holds (BitVec.ofNat 64 byte.toNat + -BitVec.ofNat 64 0x30).toNat 10 =
      Ascii.isDigit byte := by
  have hlt : byte.toNat < 256 := byte.toNat_lt
  rw [IntCC.holds, Ascii.isDigit, Bool.eq_iff_iff, Bool.and_eq_true, decide_eq_true_eq,
    decide_eq_true_eq, decide_eq_true_eq, UInt8.le_iff_toNat_le, UInt8.le_iff_toNat_le]
  show _ ↔ 0x30 ≤ byte.toNat ∧ byte.toNat ≤ 0x39
  bv_omega

theorem nat_mod (n : ℕ) : Datum.nat (n % 2 ^ 64) = .nat n := by
  rw [Datum.nat, Datum.nat]
  congr 1
  apply BitVec.eq_of_toNat_eq
  rw [BitVec.toNat_ofNat, BitVec.toNat_ofNat, Nat.mod_mod]

/-- One more digit. -/
theorem digit_word {byte : UInt8} (h : Ascii.isDigit byte = true) (n : ℕ) :
    Datum.int (BitVec.ofNat 64 n * BitVec.ofNat 64 10 +
      (BitVec.ofNat 64 byte.toNat + -BitVec.ofNat 64 0x30)) =
      .nat ((n * 10 + (byte.toNat - 0x30)) % 2 ^ 64) := by
  have hle : 0x30 ≤ byte.toNat := by
    rw [Ascii.isDigit, Bool.and_eq_true, decide_eq_true_eq, UInt8.le_iff_toNat_le] at h
    exact h.1
  have hdigit : BitVec.ofNat 64 byte.toNat + -BitVec.ofNat 64 0x30 =
      BitVec.ofNat 64 (byte.toNat - 0x30) := ofNat_sub hle
  rw [hdigit, ← BitVec.ofNat_mul, ← BitVec.ofNat_add, nat_mod]
  rfl

section Integers

variable {cur k bound : ℕ} {v : Value × Value}

theorem digits_follows (h : Wrote code (digits cur p) b v b') (hP : P x.func = some code)
    (hp : p.Live inp b fr) (hc : Carries b fr cur (.text k)) (hbound : N ≤ bound) :
    (system fl inp P).Follows N (x.point b fr s.proc) ((Bilbo.digits inp bound (k, 0)).run s)
      (Lands x b fr b' fun r fr' => r.2 < 2 ^ 64 ∧ Carries b' fr' v.1 (.text r.1) ∧
        Carries b' fr' v.2 (.nat r.2)) := by
  simp only [digits, wrote_bind] at h
  obtain ⟨head, b₁, h₁, chk, b₂, h₂, done, b₃, h₃, z, b₄, h₄, ⟨⟩, b₅, h₅, ⟨⟩, b₆, h₆, inb, b₇, h₇,
    ⟨⟩, b₈, h₈, ⟨⟩, b₉, h₉, byte, b₁₀, h₁₀, d, b₁₁, h₁₁, isDig, b₁₂, h₁₂, v10, b₁₃, h₁₃, vn, b₁₄,
    h₁₄, c1, b₁₅, h₁₅, ⟨⟩, b₁₆, h₁₆, ⟨⟩, b₁₇, h₁₇, hv⟩ := h
  obtain ⟨rfl, rfl, -⟩ := wrote_pure.1 hv
  have hhead := (wrote_switchToBlock h₆).2
  have hchk := (wrote_switchToBlock h₉).2
  have hdone := (wrote_switchToBlock h₁₇).2
  have hv₁ := h₁.block_params
  have hv₂ := h₂.block_params
  have hv₃ := h₃.block_params
  have hle₆ : b₃.values ≤ b₆.values := h₄.values.trans (h₅.values.trans h₆.values)
  have hle₉ : b₆.values ≤ b₉.values := h₇.values.trans (h₈.values.trans h₉.values)
  have hle₁₇ : b₉.values ≤ b₁₇.values := h₁₀.values.trans (h₁₁.values.trans (h₁₂.values.trans
    (h₁₃.values.trans (h₁₄.values.trans (h₁₅.values.trans (h₁₆.values.trans h₁₇.values))))))
  have w₃ : Went (system fl inp P) x s.proc b fr b₃ fr :=
    h₁.created.trans (h₂.created.trans h₃.created)
  obtain ⟨fr₄, w₄, hz⟩ := iconst_ran fl inp s.proc fr h₄ hP
  have w₄ := w₃.trans w₄
  have hgoes := goes fl inp s.proc h₅ hP hhead (.cons (hc.later w₄.later) (.cons hz .nil))
  refine .after (w₄.steps.tail hgoes) (System.Follows.mono (Q := fun r s' c => r.2 < 2 ^ 64 ∧
    Leads x b fr done (fun r : ℕ × ℕ => [.text r.1, .nat r.2]) r s' c) ?_ ?_)
  · refine System.Follows.loop (fun _ r s' c => r.2 < 2 ^ 64 ∧
      Leads x b fr head (fun r : ℕ × ℕ => [.text r.1, .nat r.2]) r s' c) ?_ hbound
      ⟨Nat.two_pow_pos 64, fr₄, rfl, w₄.later.agree⟩
    rintro _ ⟨c, n⟩ s₁ c₁ ⟨hn, fr₁, rfl, hagree⟩
    rw [h₆.start_eq]
    have hl₆ : Later b fr b₆ (fr₁.bind head.params [.text c, .nat n]) :=
      .enter hagree hv₁.1 (Nat.le_refl _) (by omega) _
    have hc₆ : Carries b₆ (fr₁.bind head.params [.text c, .nat n]) (head.param 0) (.text c) :=
      Carries.param fr₁ hv₁.1 (by omega) rfl rfl
    have hn₆ : Carries b₆ (fr₁.bind head.params [.text c, .nat n]) (head.param 1) (.nat n) :=
      Carries.param fr₁ hv₁.1 (by omega) rfl rfl
    obtain ⟨fr₇, w₇, hinb⟩ := icmp_text_ran fl inp s₁.proc h₇ hP hc₆ (hp.end_.later hl₆)
    have hl₇ := hl₆.trans w₇.later
    have hbranch := branch fl inp s₁.proc h₈ hP hchk hdone hinb
      (.cons (hc₆.later w₇.later) (.cons (hn₆.later w₇.later) .nil))
      (.cons (hc₆.later w₇.later) (.cons (hn₆.later w₇.later) .nil))
    refine .after (w₇.steps.tail hbranch) ?_
    rw [IntCC.holds, ite_run]
    by_cases hin : c < inp.stop
    · rw [decide_eq_true hin, if_pos rfl, h₉.start_eq]
      have hl₉ : Later b fr b₉ (fr₇.bind chk.params [.text c, .nat n]) :=
        .enter hl₇.agree hv₂.1 (by omega) (by omega) _
      have hc₉ : Carries b₉ (fr₇.bind chk.params [.text c, .nat n]) (chk.param 0) (.text c) :=
        Carries.param fr₇ hv₂.1 (by omega) rfl rfl
      have hn₉ : Carries b₉ (fr₇.bind chk.params [.text c, .nat n]) (chk.param 1) (.nat n) :=
        Carries.param fr₇ hv₂.1 (by omega) rfl rfl
      obtain ⟨fr₁₀, w₁₀, hbyte, -⟩ := op_ran fl inp s₁.proc h₁₀ hP (.cons hc₉ .nil) rfl
      rw [shift_zero] at hbyte
      obtain ⟨fr₁₁, w₁₁, hd, -⟩ := op_ran fl inp s₁.proc h₁₁ hP (.cons hbyte .nil) rfl
      obtain ⟨fr₁₂, w₁₂, hdig, -⟩ := op_ran fl inp s₁.proc h₁₂ hP (.cons hd .nil) rfl
      rw [toNat_ofNat (by decide), isDigit_word] at hdig
      have w₁₂' := w₁₀.trans (w₁₁.trans w₁₂)
      obtain ⟨fr₁₃, w₁₃, hv10, -⟩ :=
        op_ran fl inp s₁.proc h₁₃ hP (.cons (hn₉.later w₁₂'.later) .nil) rfl
      obtain ⟨fr₁₄, w₁₄, hvn, -⟩ := op_ran fl inp s₁.proc h₁₄ hP
        (.cons hv10 (.cons (hd.later (w₁₂.trans w₁₃).later) .nil)) rfl
      have w₁₄' := w₁₂'.trans (w₁₃.trans w₁₄)
      obtain ⟨fr₁₅, w₁₅, hc1⟩ := advance_ran fl inp s₁.proc h₁₅ hP (hc₉.later w₁₄'.later) (n := 1)
        (by decide)
      have w₁₅' := w₁₄'.trans w₁₅
      have hl₁₅ := hl₉.trans w₁₅'.later
      have hbranch' := branch fl inp s₁.proc h₁₆ hP hhead hdone
        (hdig.later (w₁₃.trans (w₁₄.trans w₁₅)).later) (.cons hc1 (.cons (hvn.later w₁₅.later) .nil))
        (.cons (hc₉.later w₁₅'.later) (.cons (hn₉.later w₁₅'.later) .nil))
      by_cases hdigit : Ascii.isDigit (inp.byte c) = true
      · rw [if_pos ⟨hin, hdigit⟩]
        rw [hdigit, if_pos rfl, digit_word hdigit] at hbranch'
        exact .after w₁₅'.steps (.done ⟨_, hbranch', Nat.mod_lt _ (Nat.two_pow_pos 64), fr₁₅, rfl,
          hl₁₅.agree⟩)
      · rw [if_neg fun h => hdigit h.2]
        rw [if_neg hdigit] at hbranch'
        exact .after (w₁₅'.steps.tail hbranch') (.done ⟨hn, fr₁₅, rfl, hl₁₅.agree⟩)
    · rw [decide_eq_false hin, if_neg Bool.false_ne_true, if_neg fun hd => hin hd.1]
      exact .done ⟨hn, fr₇, rfl, hl₇.agree⟩
  · rintro r s₁ c₁ ⟨hlt, fr₁, rfl, hagree⟩
    rw [h₁₇.start_eq]
    refine ⟨_, rfl, Later.enter hagree hv₃.1 (by omega) (by omega) _, hlt, ?_, ?_⟩
    · exact Carries.param fr₁ hv₃.1 (by omega) rfl rfl
    · exact Carries.param fr₁ hv₃.1 (by omega) rfl rfl

theorem minusSign_ran (fl : FloatOps) (inp : Input) (g : Process) {signed : Bool} {byte : UInt8} {r c : ℕ}
    (h : Wrote code (minusSign signed c) b r b') (hP : P x.func = some code)
    (hc : Carries b fr c (.nat byte.toNat)) :
    ∃ fr', Went (system fl inp P) x g b fr b' fr' ∧
      Carries b' fr' r (.ofBool (signed && byte == Ascii.minus)) := by
  cases signed with
  | false => exact iconst_ran fl inp g fr (n := 0) h hP
  | true => exact byteEq_ran fl inp g h hP hc

/-- A disjunction of conditions. -/
theorem or_ran (fl : FloatOps) (inp : Input) (g : Process) {q q' : Bool} {r c c' : ℕ}
    (h : Wrote code (define .bor [c, c']) b r b') (hP : P x.func = some code)
    (hc : Carries b fr c (.ofBool q)) (hc' : Carries b fr c' (.ofBool q')) :
    ∃ fr', Went (system fl inp P) x g b fr b' fr' ∧ Carries b' fr' r (.ofBool (q || q')) := by
  obtain ⟨fr', hwent, hr, -⟩ := op_ran fl inp g h hP (.cons hc (.cons hc' .nil)) rfl
  refine ⟨fr', hwent, ?_⟩
  cases q <;> cases q' <;> exact hr

theorem neg_word {n : ℕ} (h : n < 2 ^ 64) : Datum.int (-.ofNat 64 n) = .nat (wrapSub 0 n) := by
  have hsum : BitVec.ofNat 64 (2 ^ 64) + -BitVec.ofNat 64 n = -BitVec.ofNat 64 n :=
    BitVec.zero_add _
  rw [wrapSub, nat_mod, Datum.nat, Nat.zero_add, ← ofNat_sub (by omega), hsum]

theorem negated_ran (fl : FloatOps) (inp : Input) (g : Process) {signed : Bool} {neg val r n : ℕ} {q : Bool}
    (h : Wrote code (negated signed neg val) b r b') (hP : P x.func = some code)
    (hneg : Carries b fr neg (.ofBool (signed && q))) (hval : Carries b fr val (.nat n))
    (hn : n < 2 ^ 64) :
    ∃ fr', Went (system fl inp P) x g b fr b' fr' ∧
      Carries b' fr' r (.nat (if (signed && q) = true then wrapSub 0 n else n)) := by
  cases signed with
  | false =>
    obtain ⟨rfl, rfl, -⟩ := wrote_pure.1 h
    exact ⟨fr, .refl, hval⟩
  | true =>
    obtain ⟨negd, b₁, h₁, h₂⟩ := wrote_bind.1 h
    obtain ⟨fr₁, w₁, hnegd, -⟩ := op_ran fl inp g h₁ hP (.cons hval .nil) rfl
    rw [neg_word hn] at hnegd
    obtain ⟨fr₂, w₂, hr⟩ := select_ran fl inp g h₂ hP (hneg.later w₁.later) hnegd (hval.later w₁.later)
    rw [← apply_ite Datum.nat] at hr
    exact ⟨fr₂, w₁.trans w₂, hr⟩

theorem intval_follows {signed : Bool} (h : Wrote code (intval cur p signed) b v b')
    (hP : P x.func = some code) (hp : p.Live inp b fr) (hc : Carries b fr cur (.text k))
    (hbound : N ≤ bound) :
    (system fl inp P).Follows N (x.point b fr s.proc) ((Bilbo.intval inp bound k signed).run s)
      (Lands x b fr b' fun r fr' => Carries b' fr' v.1 (.nat r.1) ∧ Carries b' fr' v.2 (.text r.2)) := by
  simp only [intval, wrote_bind] at h
  obtain ⟨c, b₁, h₁, b0, b₂, h₂, neg, b₃, h₃, plus, b₄, h₄, sign, b₅, h₅, c1, b₆, h₆, c2, b₇, h₇,
    ⟨cend, val⟩, b₈, h₈, val', b₉, h₉, hv⟩ := h
  obtain ⟨rfl, rfl, -⟩ := wrote_pure.1 hv
  obtain ⟨fr₁, w₁, hc₁⟩ := ws_ran fl s.proc h₁ hP hp hc
  refine .after w₁.steps ((loadU8_follows h₂ hP hc₁).bind ?_)
  rintro byte s₂ c₂ ⟨⟨rfl, rfl, -⟩, fr₂, rfl, hl₂, hbyte⟩
  obtain ⟨fr₃, w₃, hneg⟩ := minusSign_ran fl inp s₂.proc h₃ hP hbyte
  obtain ⟨fr₄, w₄, hplus⟩ := byteEq_ran fl inp s₂.proc h₄ hP (hbyte.later w₃.later)
  obtain ⟨fr₅, w₅, hsign⟩ := or_ran fl inp s₂.proc h₅ hP (hneg.later w₄.later) hplus
  have hl₅ := hl₂.trans (w₃.trans (w₄.trans w₅)).later
  obtain ⟨fr₆, w₆, hc1⟩ := advance_ran fl inp s₂.proc h₆ hP (hc₁.later hl₅) (n := 1) (by decide)
  obtain ⟨fr₇, w₇, hc2⟩ := select_ran fl inp s₂.proc h₇ hP (hsign.later w₆.later) hc1
    (hc₁.later (hl₅.trans w₆.later))
  rw [← apply_ite Datum.text] at hc2
  have w₃₇ := w₃.trans (w₄.trans (w₅.trans (w₆.trans w₇)))
  have hl₇ := w₁.later.trans (hl₂.trans w₃₇.later)
  refine .after w₃₇.steps ((digits_follows h₈ hP (hp.later hl₇) hc2 hbound).bind ?_)
  rintro ⟨k', n⟩ s₈ c₈ ⟨fr₈, rfl, hl₈, hn, hcend, hval⟩
  have hneg₈ := hneg.later ((w₄.trans (w₅.trans (w₆.trans w₇))).later.trans hl₈)
  obtain ⟨fr₉, w₉, hr⟩ := negated_ran fl inp s₈.proc h₉ hP hneg₈ hval hn
  exact .after w₉.steps (.done ⟨fr₉, rfl, hl₇.trans (hl₈.trans w₉.later), hr, hcend.later w₉.later⟩)

end Integers

end Emitter

end Bilbo
