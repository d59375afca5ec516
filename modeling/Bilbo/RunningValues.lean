import Mathlib.Tactic.IntervalCases
import Bilbo.RunningKeys

/-!
# Running the emitted stores and the parsers of single values

What goes to the destination is stored by the same stores on both sides. `Emits` says that what emits
a parser writes code that follows it; here it is shown for the types without parts, and passed on by
`Box` and `Option`.
-/

namespace Bilbo

open Base Base.Cfg Comp

namespace Emitter

open Clif

variable {fl : FloatOps} {inp : Input} {P : Program Op} {code : Code Op} {x : Ctx Datum Scratch}
  {b b' : Builder Op} {fr : Frame Datum Scratch} {s : State} {N : ℕ} {p : Pctx} {u : Unit}

/-! ## Stores -/

theorem storeWidth_eq (n : ℕ) : (widthOf n).bytes = storeWidth n := by
  rw [widthOf, storeWidth]
  split_ifs <;> simp_all [Ssa.Width.bytes]

theorem storeImm_follows {dst a off v size : ℕ} (h : Wrote code (storeImm dst off v size) b u b')
    (hP : P x.func = some code) (ha : Carries b fr dst (.heap a)) :
    (system fl inp P).Follows N (x.point b fr s.proc) ((Bilbo.storeImm a off v size).run s)
      (Lands x b fr b' fun _ _ => True) := by
  obtain ⟨w, b₁, h₁, h₂⟩ := wrote_bind.1 h
  obtain ⟨fr₁, w₁, hw⟩ := iconst_ran fl inp s.proc fr h₁ hP
  rw [Bilbo.storeImm, ← storeWidth_eq]
  exact .after w₁.steps ((storeInt_follows h₂ hP hw (ha.later w₁.later) (le_word _ v)).mono
    fun _ _ _ hl => hl.after w₁.later)

theorem narrow_ran (fl : FloatOps) (inp : Input) (g : Process) {ty : Width} {v r n : ℕ}
    (h : Wrote code (narrow ty v) b r b') (hP : P x.func = some code)
    (hv : Carries b fr v (.nat n)) :
    ∃ fr' m, Went (system fl inp P) x g b fr b' fr' ∧ Carries b' fr' r (.int m) ∧
      le ty.bytes m.toNat = le ty.bytes n := by
  rcases h.ite with ⟨rfl, h⟩ | ⟨-, h⟩
  · obtain ⟨rfl, rfl, -⟩ := wrote_pure.1 h
    exact ⟨fr, _, .refl, hv, le_word .i64 n⟩
  · obtain ⟨fr', hwent, hr, -⟩ := op_ran fl inp g h hP (.cons hv .nil) rfl
    refine ⟨fr', _, hwent, hr, ?_⟩
    rw [le_word, le_mod, le_word]

theorem storeSized_follows {dst v a n size : ℕ} (h : Wrote code (storeSized dst v size) b u b')
    (hP : P x.func = some code) (hv : Carries b fr v (.nat n)) (ha : Carries b fr dst (.heap a)) :
    (system fl inp P).Follows N (x.point b fr s.proc) ((Bilbo.storeSized a n size).run s)
      (Lands x b fr b' fun _ _ => True) := by
  obtain ⟨w, b₁, h₁, h₂⟩ := wrote_bind.1 h
  obtain ⟨fr₁, m, w₁, hw, hm⟩ := narrow_ran fl inp s.proc h₁ hP hv
  rw [Bilbo.storeSized, ← storeWidth_eq]
  exact .after w₁.steps ((storeInt_zero_follows h₂ hP hw (ha.later w₁.later) hm).mono
    fun _ _ _ hl => hl.after w₁.later)

/-- Loops over one list. -/
theorem forM_follows {γ : Type} {ys : List γ} {f : γ → Build PUnit} {f' : γ → M PUnit} {u : PUnit}
    (h : Wrote code (ys.forM f) b u b')
    (hstep : ∀ y ∈ ys, ∀ {b₁ b₂ : Builder Op} {fr₁ : Frame Datum Scratch} {s₁ : State},
      Later b fr b₁ fr₁ → Wrote code (f y) b₁ ⟨⟩ b₂ →
        (system fl inp P).Follows N (x.point b₁ fr₁ s₁.proc) ((f' y).run s₁)
          (Lands x b₁ fr₁ b₂ fun _ _ => True)) :
    (system fl inp P).Follows N (x.point b fr s.proc) ((ys.forM f').run s)
      (Lands x b fr b' fun _ _ => True) := by
  induction ys generalizing b fr s with
  | nil =>
    obtain ⟨-, rfl, -⟩ := wrote_pure.1 h
    exact .done ⟨fr, rfl, .refl b fr, trivial⟩
  | cons y ys ih =>
    obtain ⟨⟨⟩, b₁, h₁, h₂⟩ := wrote_bind.1 h
    show (system fl inp P).Follows N _ ((f' y >>= fun _ => ys.forM f').run s) _
    refine (hstep y List.mem_cons_self (.refl b fr) h₁).bind ?_
    rintro ⟨⟩ s₁ c₁ ⟨fr₁, rfl, hl₁, -⟩
    exact (ih h₂ fun y hy _ _ _ _ hl => hstep y (List.mem_cons_of_mem _ hy) (hl₁.trans hl)).mono
      fun _ _ _ hl => hl.after hl₁

theorem forM_append {γ : Type} (ys zs : List γ) (f : γ → M PUnit) :
    (ys ++ zs).forM f = ys.forM f >>= fun _ => zs.forM f := by
  induction ys with
  | nil => rfl
  | cons y ys ih =>
    show (f y >>= fun _ => (ys ++ zs).forM f) = (f y >>= fun _ => ys.forM f) >>= fun _ => zs.forM f
    rw [ih, bind_assoc_run]

theorem forM_map {γ δ : Type} (ys : List γ) (k : γ → δ) (f : δ → M PUnit) :
    (ys.map k).forM f = ys.forM fun y => f (k y) := by
  induction ys with
  | nil => rfl
  | cons y ys ih =>
    show (f (k y) >>= fun _ => (ys.map k).forM f) = f (k y) >>= fun _ => ys.forM fun y => f (k y)
    rw [ih]

/-- The stores of `memsetTail`: offset and width. -/
def tailChunks : ℕ → ℕ → List Width → List (ℕ × ℕ)
  | _, _, [] => []
  | o, rem, ty :: tys =>
    if ty.bytes ≤ rem then (o, ty.bytes) :: tailChunks (o + ty.bytes) (rem - ty.bytes) tys
    else tailChunks o rem tys

theorem memset0Chunks_eq (size : ℕ) : memset0Chunks size =
    ((List.range (size / 8)).map fun k => (8 * k, 8)) ++
      tailChunks (size / 8 * 8) (size % 8) [.i32, .i16, .i8] := by
  have hrem : size % 8 < 8 := Nat.mod_lt _ (by decide)
  rw [memset0Chunks, List.append_assoc, List.append_assoc]
  congr 1
  generalize size / 8 * 8 = o
  generalize size % 8 = rem at hrem
  interval_cases rem <;> rfl

theorem memsetTail_follows {z dst a o rem : ℕ} {tys : List Width}
    (h : Wrote code (memsetTail z dst o rem tys) b u b') (hP : P x.func = some code)
    (hz : Carries b fr z (.nat 0)) (ha : Carries b fr dst (.heap a)) :
    (system fl inp P).Follows N (x.point b fr s.proc)
      (((tailChunks o rem tys).forM fun c => storeInt (disp a c.1) c.2 0).run s)
      (Lands x b fr b' fun _ _ => True) := by
  induction tys generalizing o rem b fr s with
  | nil =>
    obtain ⟨-, rfl, -⟩ := wrote_pure.1 h
    exact .done ⟨fr, rfl, .refl b fr, trivial⟩
  | cons ty tys ih =>
    rw [tailChunks]
    rcases h.ite with ⟨hle, h⟩ | ⟨hle, h⟩
    · simp only [wrote_bind] at h
      obtain ⟨zz, b₁, h₁, ⟨⟩, b₂, h₂, h₃⟩ := h
      obtain ⟨fr₁, w₁, hzz, -⟩ := op_ran fl inp s.proc h₁ hP (.cons hz .nil) rfl
      rw [if_pos hle]
      show (system fl inp P).Follows N _ ((storeInt (disp a o) ty.bytes 0 >>= fun _ =>
        (tailChunks (o + ty.bytes) (rem - ty.bytes) tys).forM _).run s) _
      refine .after w₁.steps ((storeInt_follows h₂ hP hzz (ha.later w₁.later) ?_).bind ?_)
      · rw [le_word, le_mod, le_word]
      · rintro ⟨⟩ s₂ c₂ ⟨fr₂, rfl, hl₂, -⟩
        have hl := w₁.later.trans hl₂
        exact (ih h₃ (hz.later hl) (ha.later hl)).mono fun _ _ _ hc => hc.after hl
    · rw [if_neg hle]
      exact ih h hz ha

theorem memset0_follows {dst a size : ℕ} (h : Wrote code (memset0 dst size) b u b')
    (hP : P x.func = some code) (ha : Carries b fr dst (.heap a)) :
    (system fl inp P).Follows N (x.point b fr s.proc) ((Bilbo.memset0 a size).run s)
      (Lands x b fr b' fun _ _ => True) := by
  simp only [memset0, wrote_bind] at h
  obtain ⟨z, b₁, h₁, ⟨⟩, b₂, h₂, h₃⟩ := h
  obtain ⟨fr₁, w₁, hz⟩ := iconst_ran fl inp s.proc fr h₁ hP
  have ha₁ := ha.later w₁.later
  rw [Bilbo.memset0, memset0Chunks_eq, forM_append]
  refine .after w₁.steps (.bind (Q := Lands x b₁ fr₁ b₂ fun _ _ => True) ?_ ?_)
  · rw [forM_map]
    refine forM_follows h₂ fun k _ _ _ _ _ hl hstore => ?_
    show (system fl inp P).Follows N _ ((storeInt (disp a (8 * k)) Ssa.Width.i64.bytes 0).run _) _
    exact storeInt_follows hstore hP (hz.later hl) (ha₁.later hl) (le_word .i64 0)
  · rintro ⟨⟩ s₂ c₂ ⟨fr₂, rfl, hl₂, -⟩
    have hl := w₁.later.trans hl₂
    exact (memsetTail_follows h₃ hP (hz.later hl₂) (ha.later hl)).mono fun _ _ _ hc => hc.after hl

/-! ## Values without parts -/

/-- What is emitted for a parser follows it, whatever it is emitted behind. -/
def Emits (fl : FloatOps) (inp : Input) (P : Program Op) (N : ℕ) (p : Pctx) (m : Emit)
    (f : ℕ → ℕ → M ℕ) : Prop :=
  ∀ ⦃x : Ctx Datum Scratch⦄ ⦃code : Code Op⦄ ⦃b b' : Builder Op⦄ ⦃fr : Frame Datum Scratch⦄ ⦃s : State⦄
    ⦃dst cur r a c : ℕ⦄, Wrote code (m dst cur) b r b' → P x.func = some code → p.Live inp b fr →
    Carries b fr dst (.heap a) → Carries b fr cur (.text c) →
    (system fl inp P).Follows N (x.point b fr s.proc) ((f a c).run s)
      (Lands x b fr b' fun c' fr' => Carries b' fr' r (.text c'))

section Emits

variable {env : Env} {n d : ℕ}

theorem parseBool_emits : Emits fl inp P N p (parseBool p) (Bilbo.parse env inp n (d + 1) .bool) := by
  intro x code b b' fr s dst cur r a k h hP hp ha hc
  simp only [parseBool, wrote_bind] at h
  obtain ⟨c, b₁, h₁, v, b₂, h₂, t, b₃, h₃, f, b₄, h₄, ⟨⟩, b₅, h₅, five, b₆, h₆, four, b₇, h₇, adv, b₈,
    h₈, h₉⟩ := h
  simp only [Bilbo.parse]
  obtain ⟨fr₁, w₁, hc₁⟩ := ws_ran fl s.proc h₁ hP hp hc
  refine .after w₁.steps ((loadU8_follows h₂ hP hc₁).bind ?_)
  rintro byte s₂ c₂ ⟨⟨rfl, rfl, -⟩, fr₂, rfl, hl₂, hv⟩
  obtain ⟨fr₃, w₃, ht⟩ := byteEq_ran fl inp s₂.proc h₃ hP hv
  obtain ⟨fr₄, w₄, hf⟩ := byteEq_ran fl inp s₂.proc h₄ hP (hv.later w₃.later)
  have hl₄ := w₁.later.trans (hl₂.trans (w₃.trans w₄).later)
  refine .after (w₃.trans w₄).steps ((storeInt_zero_follows (n := if inp.byte (Bilbo.ws inp k) == 0x74 then 1
    else 0) h₅ hP (ht.later w₄.later) (ha.later hl₄) ?_).bind ?_)
  · cases inp.byte (Bilbo.ws inp k) == 0x74 <;> rfl
  rintro ⟨⟩ s₅ c₅ ⟨fr₅, rfl, hl₅, -⟩
  obtain ⟨fr₆, w₆, hfive⟩ := iconst_ran fl inp s₅.proc fr₅ h₆ hP
  obtain ⟨fr₇, w₇, hfour⟩ := iconst_ran fl inp s₅.proc fr₆ h₇ hP
  have w₆₇ := w₆.trans w₇
  obtain ⟨fr₈, w₈, hadv⟩ := select_ran fl inp s₅.proc h₈ hP (hf.later (hl₅.trans w₆₇.later))
    (hfive.later w₇.later) hfour
  have w₆₈ := w₆₇.trans w₈
  have hc₈ := hc₁.later (hl₂.trans ((w₃.trans w₄).later.trans (hl₅.trans w₆₈.later)))
  rw [← apply_ite Datum.nat] at hadv
  obtain ⟨fr₉, w₉, hr, -⟩ := op_ran fl inp s₅.proc h₉ hP (.cons hc₈ (.cons hadv .nil)) rfl
  refine .after (w₆₈.trans w₉).steps (.done ⟨fr₉, rfl, hl₄.trans (hl₅.trans (w₆₈.trans w₉).later), ?_⟩)
  rw [toNat_ofNat (by split <;> decide)] at hr
  exact hr

/-- The two kinds of integers. -/
theorem intval_emits {signed : Bool} {size : ℕ} (hN : N ≤ n) : Emits fl inp P N p
    (fun dst cur => do
      let (v, c) ← intval cur p signed
      storeSized dst v size
      pure c)
    (fun dst cur => do
      let (v, c) ← Bilbo.intval inp n cur signed
      Bilbo.storeSized dst v size
      pure c) := by
  intro x code b b' fr s dst cur r a k h hP hp ha hc
  simp only [wrote_bind] at h
  obtain ⟨⟨v, c⟩, b₁, h₁, ⟨⟩, b₂, h₂, hr⟩ := h
  obtain ⟨rfl, rfl, -⟩ := wrote_pure.1 hr
  refine (intval_follows h₁ hP hp hc hN).bind ?_
  rintro ⟨m, k'⟩ s₁ c₁ ⟨fr₁, rfl, hl₁, hv, hc'⟩
  refine (storeSized_follows h₂ hP hv (ha.later hl₁)).bind ?_
  rintro ⟨⟩ s₂ c₂ ⟨fr₂, rfl, hl₂, -⟩
  exact .done ⟨fr₂, rfl, hl₁.trans hl₂, hc'.later hl₂⟩

/-- The store of a float in the parser. -/
def storeBits (fl : FloatOps) (single : Bool) (a m : ℕ) : M Unit :=
  if single then storeInt a 4 (fl.demote m) else storeInt a 8 m

theorem storeFloat_follows {single : Bool} {f dst a m : ℕ}
    (h : Wrote code (storeFloat single f dst) b u b') (hP : P x.func = some code)
    (hf : Carries b fr f (.nat m)) (ha : Carries b fr dst (.heap a)) (hm : m < 2 ^ 64) :
    (system fl inp P).Follows N (x.point b fr s.proc)
      ((storeBits fl single a m).run s)
      (Lands x b fr b' fun _ _ => True) := by
  cases single with
  | false => exact storeInt_zero_follows h hP hf ha (le_word .i64 m)
  | true =>
    obtain ⟨v, b₁, h₁, h₂⟩ := wrote_bind.1 h
    obtain ⟨fr₁, w₁, hv, -⟩ := op_ran fl inp s.proc h₁ hP (.cons hf .nil) rfl
    rw [toNat_ofNat hm] at hv
    exact .after w₁.steps ((storeInt_zero_follows h₂ hP hv (ha.later w₁.later)
      (le_word .i32 (fl.demote m))).mono fun _ _ _ hl => hl.after w₁.later)

/-- The two kinds of floats. -/
theorem parseFloat_emits {single : Bool} (hfl : Doubles env.float) :
    Emits env.float inp P N p (parseFloat p single) (fun dst cur => do
      let c ← Bilbo.rtF64v env.float inp cur
      let s ← get
      storeBits env.float single dst s.sc.1
      pure c) := by
  intro x code b b' fr s dst cur r a k h hP hp ha hc
  simp only [parseFloat, wrote_bind] at h
  obtain ⟨c, b₁, h₁, bits, b₂, h₂, f, b₃, h₃, ⟨⟩, b₄, h₄, hr⟩ := h
  obtain ⟨rfl, rfl, -⟩ := wrote_pure.1 hr
  refine (shim_follows h₁ hP (.cons hc (.cons hp.end_ (.cons hp.sc .nil))) (rtF64v_does hfl)).bind ?_
  rintro k' s₁ c₁ ⟨fr₁, w, rfl, hl₁, hc', rfl, hbits, hlt⟩
  obtain ⟨fr₂, w₂, hb, -⟩ := op_ran env.float inp s₁.proc h₂ hP (.cons (hp.sc.later hl₁) .nil) rfl
  obtain ⟨fr₃, w₃, hf, -⟩ := op_ran env.float inp s₁.proc h₃ hP (.cons hb .nil) rfl
  have w₂₃ := w₂.trans w₃
  have hl₃ := hl₁.trans w₂₃.later
  rw [hbits] at hf
  refine .after w₂₃.steps ((storeFloat_follows h₄ hP hf (ha.later hl₃) hlt).bind ?_)
  rintro ⟨⟩ s₄ c₄ ⟨fr₄, rfl, hl₄, -⟩
  exact .done ⟨fr₄, rfl, hl₃.trans hl₄, hc'.later (w₂₃.later.trans hl₄)⟩

theorem parseChar_emits : Emits fl inp P N p
    (fun dst cur => do
      let s ← strspan cur p
      let ch ← loadU8 s.start
      let ch ← ireduce .i32 ch
      store .i32 ch dst 0
      pure s.after)
    (fun dst cur => do
      let sp ← Bilbo.strspan inp cur
      let b ← Bilbo.loadU8 inp sp.start
      storeInt dst 4 b.toNat
      pure sp.after) := by
  intro x code b b' fr s dst cur r a k h hP hp ha hc
  simp only [wrote_bind] at h
  obtain ⟨sp, b₁, h₁, ch, b₂, h₂, ch', b₃, h₃, ⟨⟩, b₄, h₄, hr⟩ := h
  obtain ⟨rfl, rfl, -⟩ := wrote_pure.1 hr
  refine (strspan_follows h₁ hP hp hc).bind ?_
  rintro res s₁ c₁ ⟨fr₁, rfl, hl₁, hsp⟩
  refine (loadU8_follows h₂ hP hsp.start).bind ?_
  rintro byte s₂ c₂ ⟨-, fr₂, rfl, hl₂, hv⟩
  obtain ⟨fr₃, w₃, hv', -⟩ := op_ran fl inp s₂.proc h₃ hP (.cons hv .nil) rfl
  have hl₃ := hl₁.trans (hl₂.trans w₃.later)
  refine .after w₃.steps ((storeInt_zero_follows h₄ hP hv' (ha.later hl₃) ?_).bind ?_)
  · rw [le_word, le_mod, le_word]
  rintro ⟨⟩ s₄ c₄ ⟨fr₄, rfl, hl₄, -⟩
  exact .done ⟨fr₄, rfl, hl₃.trans hl₄, hsp.after.later (hl₂.trans (w₃.later.trans hl₄))⟩

/-- The words of an owned sequence. -/
theorem storeSeq_follows {dst a q m l : ℕ} {seq : SeqLayout} {vq vm vl : ℕ} {w : Datum}
    (h : Wrote code (do
      storeAt dst seq.ptrOff vq
      storeAt dst seq.capOff vm
      storeAt dst seq.lenOff vl) b u b')
    (hP : P x.func = some code) (ha : Carries b fr dst (.heap a)) (hq : Carries b fr vq w)
    (hw : w.bytes .i64 = some (le 8 q)) (hm : Carries b fr vm (.nat m))
    (hl : Carries b fr vl (.nat l)) :
    (system fl inp P).Follows N (x.point b fr s.proc) ((storeSeq a seq q m l).run s)
      (Lands x b fr b' fun _ _ => True) := by
  simp only [wrote_bind] at h
  obtain ⟨⟨⟩, b₁, h₁, ⟨⟩, b₂, h₂, h₃⟩ := h
  have hcells : w.bytes .i64 = some ((ptrCells q).map Cell.byte) := hw
  refine (store_follows h₁ hP hq ha hcells).bind ?_
  rintro ⟨⟩ s₁ c₁ ⟨fr₁, rfl, hl₁, -⟩
  refine (storeInt_follows h₂ hP (hm.later hl₁) (ha.later hl₁) (le_word .i64 m)).bind ?_
  rintro ⟨⟩ s₂ c₂ ⟨fr₂, rfl, hl₂, -⟩
  have hl₂ := hl₁.trans hl₂
  exact (storeInt_follows h₃ hP (hl.later hl₂) (ha.later hl₂) (le_word .i64 l)).mono
    fun _ _ _ hc => hc.after hl₂

theorem parseStr_emits {seq : SeqLayout} (hN : N ≤ n) : Emits fl inp P N p
    (fun dst cur => do
      let s ← strspan cur p
      let (buf, blen) ← buildStr s.start s.len s.esc p
      storeAt dst seq.ptrOff buf
      storeAt dst seq.capOff blen
      storeAt dst seq.lenOff blen
      pure s.after)
    (fun dst cur => do
      let sp ← Bilbo.strspan inp cur
      let (buf, blen) ← Bilbo.buildStr inp n sp
      storeSeq dst seq buf blen blen
      emitStr sp.start (dst + seq.ptrOff) (dst + seq.lenOff)
      pure sp.after) := by
  intro x code b b' fr s dst cur r a k h hP hp ha hc
  simp only [wrote_bind] at h
  obtain ⟨sp, b₁, h₁, ⟨buf, blen⟩, b₂, h₂, ⟨⟩, b₃, h₃, ⟨⟩, b₄, h₄, ⟨⟩, b₅, h₅, hr⟩ := h
  obtain ⟨rfl, rfl, -⟩ := wrote_pure.1 hr
  have hstores : Wrote code (do
      storeAt dst seq.ptrOff buf
      storeAt dst seq.capOff blen
      storeAt dst seq.lenOff blen) b₂ () b₅ :=
    wrote_bind.2 ⟨(), b₃, h₃, wrote_bind.2 ⟨(), b₄, h₄, h₅⟩⟩
  refine (strspan_follows h₁ hP hp hc).bind ?_
  rintro res s₁ c₁ ⟨fr₁, rfl, hl₁, hsp⟩
  refine (buildStr_follows h₂ hP (hp.later hl₁) hsp hN).bind ?_
  rintro ⟨q, l⟩ s₂ c₂ ⟨fr₂, rfl, hl₂, hbuf, hlen⟩
  have hl₂' := hl₁.trans hl₂
  refine (storeSeq_follows hstores hP (ha.later hl₂') hbuf rfl hlen hlen).bind ?_
  rintro ⟨⟩ s₃ c₃ ⟨fr₃, rfl, hl₃, -⟩
  -- the trace is no part of the process
  refine .bind (Q := fun _ s' c => s'.proc = s₃.proc ∧ c = x.point b₅ fr₃ s'.proc) (.done ⟨rfl, rfl⟩) ?_
  rintro ⟨⟩ s₄ c₄ ⟨-, rfl⟩
  exact .done ⟨fr₃, rfl, hl₂'.trans hl₃, hsp.after.later (hl₂.trans hl₃)⟩

theorem parseStrRef_emits {ptrOff lenOff : ℕ} (hN : N ≤ n) : Emits fl inp P N p
    (fun dst cur => do
      let s ← strspan cur p
      let (buf, blen) ← buildStr s.start s.len s.esc p
      storeAt dst ptrOff buf
      storeAt dst lenOff blen
      pure s.after)
    (fun dst cur => do
      let sp ← Bilbo.strspan inp cur
      let (buf, blen) ← Bilbo.buildStr inp n sp
      storeStrRef dst ptrOff lenOff buf blen
      emitStr sp.start (dst + ptrOff) (dst + lenOff)
      pure sp.after) := by
  intro x code b b' fr s dst cur r a k h hP hp ha hc
  simp only [wrote_bind] at h
  obtain ⟨sp, b₁, h₁, ⟨buf, blen⟩, b₂, h₂, ⟨⟩, b₃, h₃, ⟨⟩, b₄, h₄, hr⟩ := h
  obtain ⟨rfl, rfl, -⟩ := wrote_pure.1 hr
  refine (strspan_follows h₁ hP hp hc).bind ?_
  rintro res s₁ c₁ ⟨fr₁, rfl, hl₁, hsp⟩
  refine (buildStr_follows h₂ hP (hp.later hl₁) hsp hN).bind ?_
  rintro ⟨q, l⟩ s₂ c₂ ⟨fr₂, rfl, hl₂, hbuf, hlen⟩
  have hl₂' := hl₁.trans hl₂
  simp only [storeStrRef, bind_assoc_run]
  refine (storePtr_follows h₃ hP hbuf (ha.later hl₂')).bind ?_
  rintro ⟨⟩ s₃ c₃ ⟨fr₃, rfl, hl₃, -⟩
  refine (storeInt_follows h₄ hP (hlen.later hl₃) (ha.later (hl₂'.trans hl₃)) (le_word .i64 l)).bind ?_
  rintro ⟨⟩ s₄ c₄ ⟨fr₄, rfl, hl₄, -⟩
  have hl₃₄ := hl₃.trans hl₄
  -- the trace is no part of the process
  refine .bind (Q := fun _ s' c => s'.proc = s₄.proc ∧ c = x.point b₄ fr₄ s'.proc) (.done ⟨rfl, rfl⟩) ?_
  rintro ⟨⟩ s₅ c₅ ⟨-, rfl⟩
  exact .done ⟨fr₄, rfl, hl₂'.trans hl₃₄, hsp.after.later (hl₂.trans hl₃₄)⟩

theorem parseUnit_emits : Emits fl inp P N p (fun _ cur => callShim .skip [cur, p.end_])
    (fun _ cur => pure (rtSkip inp cur)) := by
  intro x code b b' fr s dst cur r a k h hP hp ha hc
  have hcall : ∀ sc, Clif.callShim fl inp sc s.proc .skip [.text k, .text inp.stop] =
      some (.ok (.text (rtSkip inp k), sc, s.proc)) := fun _ => if_pos rfl
  obtain ⟨fr', hwent, hr⟩ := shim_ran h hP (.cons hc (.cons hp.end_ .nil)) (hcall _)
  exact .after hwent.steps (.done ⟨fr', rfl, hwent.later, hr⟩)

/-! ## `Box` and `Option` -/

variable {m : Emit} {f : ℕ → ℕ → M ℕ}

theorem parseBoxed_emits {size align : ℕ} (hm : Emits fl inp P N p m f) (hsize : size < 2 ^ 64)
    (halign : align < 2 ^ 64) : Emits fl inp P N p
    (fun dst cur => do
      let sz ← iconst size
      let al ← iconst align
      let bp ← callShim .boxAlloc [sz, al]
      let after ← m bp cur
      store .i64 bp dst 0
      pure after)
    (fun dst cur => do
      let bp ← Bilbo.rtBoxAlloc size align
      let after ← f bp cur
      storePtr dst bp
      pure after) := by
  intro x code b b' fr s dst cur r a k h hP hp ha hc
  simp only [wrote_bind] at h
  obtain ⟨sz, b₁, h₁, al, b₂, h₂, bp, b₃, h₃, after, b₄, h₄, ⟨⟩, b₅, h₅, hr⟩ := h
  obtain ⟨rfl, rfl, -⟩ := wrote_pure.1 hr
  obtain ⟨fr₁, w₁, hsz⟩ := iconst_ran fl inp s.proc fr h₁ hP
  obtain ⟨fr₂, w₂, hal⟩ := iconst_ran fl inp s.proc fr₁ h₂ hP
  have w₁₂ := w₁.trans w₂
  refine .after w₁₂.steps ((shim_follows h₃ hP (.cons (hsz.later w₂.later) (.cons hal .nil))
    (rtBoxAlloc_does (toNat_ofNat hsize) (toNat_ofNat halign))).bind ?_)
  rintro q s₃ c₃ ⟨fr₃, w, rfl, hl₃, hbp, rfl⟩
  have hl₃ := w₁₂.later.trans hl₃
  refine (hm h₄ hP (hp.later hl₃) hbp (hc.later hl₃)).bind ?_
  rintro k' s₄ c₄ ⟨fr₄, rfl, hl₄, hk⟩
  have hl₄' := hl₃.trans hl₄
  have hstore : (system fl inp P).Follows N (x.point b₄ fr₄ s₄.proc) ((storePtr a q).run s₄)
      (Lands x b₄ fr₄ b₅ fun _ _ => True) := by
    rw [← shift_zero a]
    exact storePtr_follows h₅ hP (hbp.later hl₄) (ha.later hl₄')
  refine hstore.bind ?_
  rintro ⟨⟩ s₅ c₅ ⟨fr₅, rfl, hl₅, -⟩
  exact .done ⟨fr₅, rfl, hl₄'.trans hl₅, hk.later hl₅⟩

theorem storeSome_follows {dst a discOff discSize : ℕ} {someDiscr : Option ℕ}
    (h : Wrote code (storeSome dst discOff discSize someDiscr) b u b') (hP : P x.func = some code)
    (ha : Carries b fr dst (.heap a)) : (system fl inp P).Follows N (x.point b fr s.proc)
      ((Bilbo.storeSome a discOff discSize someDiscr).run s) (Lands x b fr b' fun _ _ => True) := by
  cases someDiscr with
  | none =>
    obtain ⟨-, rfl, -⟩ := wrote_pure.1 h
    exact .done ⟨fr, rfl, .refl b fr, trivial⟩
  | some sd => exact storeImm_follows h hP ha

/-- The address of a part. -/
theorem part_ran (fl : FloatOps) (inp : Input) (g : Process) {dst off r a o : ℕ}
    (h : Wrote code (iadd dst off) b r b') (hP : P x.func = some code)
    (ha : Carries b fr dst (.heap a)) (ho : Carries b fr off (.nat o)) (hlt : o < 2 ^ 64) :
    ∃ fr', Went (system fl inp P) x g b fr b' fr' ∧ Carries b' fr' r (.heap (a + o)) := by
  obtain ⟨fr', hwent, hr, -⟩ := op_ran fl inp g h hP (.cons ha (.cons ho .nil)) rfl
  rw [toNat_ofNat hlt] at hr
  exact ⟨fr', hwent, hr⟩

theorem parseOpt_emits {discOff discSize noneDiscr payloadOff size : ℕ} {someDiscr : Option ℕ}
    (hm : Emits fl inp P N p m f) (hoff : payloadOff < 2 ^ 64) : Emits fl inp P N p
    (parseOpt p discOff discSize noneDiscr someDiscr payloadOff size m)
    (fun dst cur => do
      let b ← Bilbo.loadU8 inp (Bilbo.ws inp cur)
      if b == 0x6E then do
        Bilbo.memset0 dst size
        Bilbo.storeImm dst discOff noneDiscr discSize
        pure (Bilbo.ws inp cur + 4)
      else do
        let cc ← f (dst + payloadOff) (Bilbo.ws inp cur)
        Bilbo.storeSome dst discOff discSize someDiscr
        pure cc) := by
  intro x code b b' fr s dst cur r a k h hP hp ha hc
  simp only [parseOpt, wrote_bind] at h
  obtain ⟨c, b₁, h₁, v, b₂, h₂, isNull, b₃, h₃, noneB, b₄, h₄, someB, b₅, h₅, cont, b₆, h₆, ⟨⟩, b₇, h₇,
    ⟨⟩, b₈, h₈, ⟨⟩, b₉, h₉, ⟨⟩, b₁₀, h₁₀, c4, b₁₁, h₁₁, ⟨⟩, b₁₂, h₁₂, ⟨⟩, b₁₃, h₁₃, off, b₁₄, h₁₄,
    pdst, b₁₅, h₁₅, cc, b₁₆, h₁₆, ⟨⟩, b₁₇, h₁₇, ⟨⟩, b₁₈, h₁₈, ⟨⟩, b₁₉, h₁₉, hr⟩ := h
  obtain ⟨rfl, rfl, -⟩ := wrote_pure.1 hr
  have hcont := (wrote_switchToBlock h₁₉).2
  have hv₆ := h₆.block_params
  obtain ⟨fr₁, w₁, hc₁⟩ := ws_ran fl s.proc h₁ hP hp hc
  refine .after w₁.steps ((loadU8_follows h₂ hP hc₁).bind ?_)
  rintro byte s₂ c₂ ⟨⟨rfl, rfl, -⟩, fr₂, rfl, hl₂, hv⟩
  obtain ⟨fr₃, w₃, hnull⟩ := byteEq_ran fl inp s₂.proc h₃ hP hv
  have w₆ : Went (system fl inp P) x s₂.proc b₃ fr₃ b₆ fr₃ :=
    h₄.created.trans (h₅.created.trans h₆.created)
  have hbranch := branch_nil fl inp s₂.proc h₇ hP (wrote_switchToBlock h₈).2
    (wrote_switchToBlock h₁₃).2 (hnull.later w₆.later)
  have w₃₆ := w₃.trans w₆
  have hl₆ := w₁.later.trans (hl₂.trans w₃₆.later)
  have hc₆ := hc₁.later (hl₂.trans w₃₆.later)
  have hle₅ : b.values ≤ b₅.values :=
    (w₁.later.trans (hl₂.trans w₃.later)).values.trans (h₄.values.trans h₅.values)
  have hle₁₃ : b₆.values ≤ b₁₃.values := h₇.values.trans (h₈.values.trans (h₉.values.trans
    (h₁₀.values.trans (h₁₁.values.trans (h₁₂.values.trans h₁₃.values)))))
  have hle₁₉ : b₁₃.values ≤ b₁₉.values := h₁₄.values.trans (h₁₅.values.trans (h₁₆.values.trans
    (h₁₇.values.trans (h₁₈.values.trans h₁₉.values))))
  refine .after (w₃₆.steps.tail hbranch) (System.Follows.mono
    (Q := Leads x b fr cont fun c' : ℕ => [.text c']) ?_ ?_)
  · rw [ite_run]
    by_cases hn : (inp.byte (Bilbo.ws inp k) == 0x6E) = true
    · rw [if_pos hn, if_pos hn, h₈.start_eq, Frame.bind_nil]
      have hl₆₈ : Later b₆ fr₃ b₈ fr₃ := (Later.refl b₆ fr₃).widen (h₇.values.trans h₈.values)
      have hl₈ := hl₆.trans hl₆₈
      refine (memset0_follows h₉ hP (ha.later hl₈)).bind ?_
      rintro ⟨⟩ s₉ c₉ ⟨fr₉, rfl, hl₉, -⟩
      refine (storeImm_follows h₁₀ hP (ha.later (hl₈.trans hl₉))).bind ?_
      rintro ⟨⟩ s₁₀ c₁₀ ⟨fr₁₀, rfl, hl₁₀, -⟩
      have hl₆₁₀ := hl₆₈.trans (hl₉.trans hl₁₀)
      obtain ⟨fr₁₁, w₁₁, hc4⟩ :=
        advance_ran fl inp s₁₀.proc h₁₁ hP (hc₆.later hl₆₁₀) (n := 4) (by decide)
      have hgoes := goes fl inp s₁₀.proc h₁₂ hP hcont (.cons hc4 .nil)
      exact .after (w₁₁.steps.tail hgoes) (.done ⟨fr₁₁, rfl,
        (hl₆.trans (hl₆₁₀.trans w₁₁.later)).agree⟩)
    · rw [if_neg hn, if_neg hn, h₁₃.start_eq, Frame.bind_nil]
      have hl₆₁₃ : Later b₆ fr₃ b₁₃ fr₃ := (Later.refl b₆ fr₃).widen hle₁₃
      have hl₁₃ := hl₆.trans hl₆₁₃
      obtain ⟨fr₁₄, w₁₄, hoff'⟩ := iconst_ran fl inp s₂.proc fr₃ h₁₄ hP
      obtain ⟨fr₁₅, w₁₅, hpdst⟩ := part_ran fl inp s₂.proc h₁₅ hP
        (ha.later (hl₁₃.trans w₁₄.later)) hoff' hoff
      have w₁₄₁₅ := w₁₄.trans w₁₅
      have hl₁₅ := hl₁₃.trans w₁₄₁₅.later
      refine .after w₁₄₁₅.steps ((hm h₁₆ hP (hp.later hl₁₅) hpdst
        (hc₆.later (hl₆₁₃.trans w₁₄₁₅.later))).bind ?_)
      rintro k' s₁₆ c₁₆ ⟨fr₁₆, rfl, hl₁₆, hcc⟩
      have hl₁₆' := hl₁₅.trans hl₁₆
      refine (storeSome_follows h₁₇ hP (ha.later hl₁₆')).bind ?_
      rintro ⟨⟩ s₁₇ c₁₇ ⟨fr₁₇, rfl, hl₁₇, -⟩
      have hgoes := goes fl inp s₁₇.proc h₁₈ hP hcont (.cons (hcc.later hl₁₇) .nil)
      exact .of_step hgoes (.done ⟨fr₁₇, rfl, (hl₁₆'.trans hl₁₇).agree⟩)
  · rintro k' s' c' ⟨fr', rfl, hagree⟩
    rw [h₁₉.start_eq]
    refine ⟨_, rfl, .enter hagree hv₆.1 hle₅ (by omega) _, ?_⟩
    exact Carries.param fr' hv₆.1 (by omega) rfl rfl

end Emits

end Emitter

end Bilbo
