import Bilbo.RunningValues
import Bilbo.Vectors

/-!
# Running the emitted parsers of tuples, structs and vectors

The code for a container follows the parser of the container when the code for its parts follows their
parsers. A loop of the code starts at a block with the state of the loop as its parameters.
-/

namespace Bilbo

open Base Base.Cfg Comp

namespace Emitter

open Clif

variable {fl : FloatOps} {inp : Input} {P : Program Op} {code : Code Op} {x : Ctx Datum Scratch}
  {b b' : Builder Op} {fr : Frame Datum Scratch} {s : State} {N n : ℕ} {p : Pctx} {u : Unit}
  {f : Ty → ℕ → ℕ → M ℕ} {fields : List (FieldTy × Emit)}

/-- What the code of a container relies on for its fields. -/
def FieldsEmit (fl : FloatOps) (inp : Input) (P : Program Op) (N : ℕ) (p : Pctx)
    (f : Ty → ℕ → ℕ → M ℕ) (fields : List (FieldTy × Emit)) : Prop :=
  ∀ y ∈ fields, Emits fl inp P N p y.2 (f y.1.ty) ∧ y.1.offset < 2 ^ 64

/-! ## Tuples -/

theorem parseFields_follows {dst a c k r : ℕ} (hfields : FieldsEmit fl inp P N p f fields)
    (h : Wrote code (parseFields p dst fields c) b r b') (hP : P x.func = some code)
    (hp : p.Live inp b fr) (ha : Carries b fr dst (.heap a)) (hc : Carries b fr c (.text k)) :
    (system fl inp P).Follows N (x.point b fr s.proc)
      ((Bilbo.parseFields inp f a (fields.map Prod.fst) k).run s)
      (Lands x b fr b' fun c' fr' => Carries b' fr' r (.text c')) := by
  induction fields generalizing b fr s c k with
  | nil =>
    obtain ⟨rfl, rfl, -⟩ := wrote_pure.1 h
    exact .done ⟨fr, rfl, .refl b fr, hc⟩
  | cons y fields ih =>
    obtain ⟨hy, hoff⟩ := hfields y List.mem_cons_self
    simp only [parseFields, wrote_bind] at h
    obtain ⟨off, b₁, h₁, fdst, b₂, h₂, c₃, b₃, h₃, c₄, b₄, h₄, h₅⟩ := h
    obtain ⟨fr₁, w₁, ho⟩ := iconst_ran fl inp s.proc fr h₁ hP
    obtain ⟨fr₂, w₂, hd⟩ := part_ran fl inp s.proc h₂ hP (ha.later w₁.later) ho hoff
    have w₁₂ := w₁.trans w₂
    refine .after w₁₂.steps ((hy h₃ hP (hp.later w₁₂.later) hd (hc.later w₁₂.later)).bind ?_)
    rintro k₃ s₃ cfg₃ ⟨fr₃, rfl, hl₃, hc₃⟩
    have hl₃ := w₁₂.later.trans hl₃
    refine (pastComma_follows h₄ hP (hp.later hl₃) hc₃).bind ?_
    rintro k₄ s₄ cfg₄ ⟨fr₄, rfl, hl₄, hc₄⟩
    have hl₄ := hl₃.trans hl₄
    exact (ih (fun z hz => hfields z (List.mem_cons_of_mem _ hz)) h₅ (hp.later hl₄) (ha.later hl₄)
      hc₄).mono fun _ _ _ hc => hc.after hl₄

theorem parseTuple_emits (hfields : FieldsEmit fl inp P N p f fields) : Emits fl inp P N p
    (parseTuple p fields) (Bilbo.parseTuple inp f (fields.map Prod.fst)) := by
  intro x code b b' fr s dst cur r a k h hP hp ha hc
  simp only [parseTuple, wrote_bind] at h
  obtain ⟨c₁, b₁, h₁, c₂, b₂, h₂, c₃, b₃, h₃, c₄, b₄, h₄, h₅⟩ := h
  obtain ⟨fr₁, w₁, hc₁⟩ := ws_ran fl s.proc h₁ hP hp hc
  obtain ⟨fr₂, w₂, hc₂⟩ := advance_ran fl inp s.proc h₂ hP hc₁ (n := 1) (by decide)
  have w₁₂ := w₁.trans w₂
  refine .after w₁₂.steps ((parseFields_follows hfields h₃ hP (hp.later w₁₂.later)
    (ha.later w₁₂.later) hc₂).bind ?_)
  rintro k₃ s₃ cfg₃ ⟨fr₃, rfl, hl₃, hc₃⟩
  have hl₃ := w₁₂.later.trans hl₃
  obtain ⟨fr₄, w₄, hc₄⟩ := ws_ran fl s₃.proc h₄ hP (hp.later hl₃) hc₃
  obtain ⟨fr₅, w₅, hr⟩ := advance_ran fl inp s₃.proc h₅ hP hc₄ (n := 1) (by decide)
  have w₄₅ := w₄.trans w₅
  exact .after w₄₅.steps (.done ⟨fr₅, rfl, hl₃.trans w₄₅.later, hr⟩)

/-! ## Structs -/

theorem defaultNone_follows {dst a : ℕ} {y : FieldTy} (h : Wrote code (defaultNone dst y) b u b')
    (hP : P x.func = some code) (ha : Carries b fr dst (.heap a)) (hoff : y.offset < 2 ^ 64) :
    (system fl inp P).Follows N (x.point b fr s.proc) ((Bilbo.defaultNone a y).run s)
      (Lands x b fr b' fun _ _ => True) := by
  unfold defaultNone at h
  unfold Bilbo.defaultNone
  cases hty : y.ty with
  | opt discOff discSize noneDiscr someDiscr payloadOff size inner =>
    simp only [hty, wrote_bind] at h ⊢
    obtain ⟨off, b₁, h₁, fdst, b₂, h₂, ⟨⟩, b₃, h₃, h₄⟩ := h
    obtain ⟨fr₁, w₁, ho⟩ := iconst_ran fl inp s.proc fr h₁ hP
    obtain ⟨fr₂, w₂, hd⟩ := part_ran fl inp s.proc h₂ hP (ha.later w₁.later) ho hoff
    have w₁₂ := w₁.trans w₂
    refine .after w₁₂.steps ((memset0_follows h₃ hP hd).bind ?_)
    rintro ⟨⟩ s₃ cfg₃ ⟨fr₃, rfl, hl₃, -⟩
    exact (storeImm_follows h₄ hP (hd.later hl₃)).mono fun _ _ _ hc =>
      hc.after (w₁₂.later.trans hl₃)
  | _ =>
    simp only [hty] at h ⊢
    obtain ⟨-, rfl, -⟩ := wrote_pure.1 h
    exact .done ⟨fr, rfl, .refl b fr, trivial⟩

/-- The start of an iteration: out where the container ends, else on to its body. -/
theorem untilEnd_follows {close : UInt8} {header cont body : Blk} {k : ℕ}
    (h : Wrote code (untilEnd p close header cont) b body b') (hP : P x.func = some code)
    (hp : p.Live inp b fr) (hc : Carries b fr (header.param 0) (.text k))
    (hcont : cont.Written code) (hbody : body.Written code) :
    (system fl inp P).Follows N (x.point b fr s.proc) ((Bilbo.loadU8 inp (Bilbo.ws inp k)).run s)
      fun y s' cfg => s' = s ∧ ∃ fr', Frame.Agree b.values fr fr' ∧
        cfg = if y == close then x.start cont [.text (Bilbo.ws inp k + 1)] fr' s.proc
          else x.start body [.text (Bilbo.ws inp k)] fr' s.proc := by
  simp only [untilEnd, wrote_bind] at h
  obtain ⟨hc', b₁, h₁, bch, b₂, h₂, isEnd, b₃, h₃, bdy, b₄, h₄, hc1, b₅, h₅, ⟨⟩, b₆, h₆, hr⟩ := h
  obtain ⟨rfl, rfl, -⟩ := wrote_pure.1 hr
  obtain ⟨fr₁, w₁, hk⟩ := ws_ran fl s.proc h₁ hP hp hc
  refine .after w₁.steps ((loadU8_follows h₂ hP hk).further ?_)
  rintro byte s₂ cfg₂ ⟨⟨rfl, -, -⟩, fr₂, rfl, hl₂, hv⟩
  obtain ⟨fr₃, w₃, hend⟩ := byteEq_ran fl inp s₂.proc h₃ hP hv
  have w₄ := w₃.trans h₄.created
  obtain ⟨fr₅, w₅, hk1⟩ := advance_ran fl inp s₂.proc h₅ hP (hk.later (hl₂.trans w₄.later)) (n := 1)
    (by decide)
  have w₅' := w₄.trans w₅
  have hend₅ := hend.later ((h₄.created (T := system fl inp P) (x := x) (g := s₂.proc)).trans w₅).later
  have hbranch := branch fl inp s₂.proc h₆ hP hcont hbody hend₅ (.cons hk1 .nil)
    (.cons (hk.later (hl₂.trans w₅'.later)) .nil)
  exact ⟨_, w₅'.steps.tail hbranch, rfl, fr₅, (w₁.later.trans (hl₂.trans w₅'.later)).agree, rfl⟩

/-- The block for the rest of an iteration has a new parameter. -/
theorem untilEnd_params {close : UInt8} {header cont body : Blk}
    (h : Wrote code (untilEnd p close header cont) b body b') :
    ∃ k, body.params = List.range' k 1 ∧ b.values ≤ k ∧ k + 1 ≤ b'.values := by
  simp only [untilEnd, wrote_bind] at h
  obtain ⟨hc', b₁, h₁, bch, b₂, h₂, isEnd, b₃, h₃, bdy, b₄, h₄, hc1, b₅, h₅, ⟨⟩, b₆, h₆, hr⟩ := h
  obtain ⟨rfl, rfl, -⟩ := wrote_pure.1 hr
  obtain ⟨hparams, hvalues⟩ := h₄.block_params
  have hle : b₄.values ≤ b₆.values := h₅.values.trans h₆.values
  exact ⟨_, hparams, h₁.values.trans (h₂.values.trans h₃.values), by omega⟩

theorem createArms_ran {T : System (Config Datum Scratch Process) Stop} {ys : List FieldTy}
    {arms : List Arm} (g : Process) (fr : Frame Datum Scratch) (h : Wrote code (createArms ys) b arms b') :
    Went T x g b fr b' fr ∧ arms.map Prod.fst = ys := by
  induction ys generalizing b arms with
  | nil =>
    obtain ⟨rfl, rfl, -⟩ := wrote_pure.1 h
    exact ⟨.refl, rfl⟩
  | cons y ys ih =>
    simp only [createArms, wrote_bind] at h
    obtain ⟨l, b₁, h₁, rest, b₂, h₂, hr⟩ := h
    obtain ⟨rfl, rfl, -⟩ := wrote_pure.1 hr
    obtain ⟨w₂, hmap⟩ := ih h₂
    exact ⟨h₁.created.trans w₂, by rw [List.map_cons, hmap]⟩

/-- Each block belongs to a field. -/
theorem mem_zip_arms {arms : List Arm} (h : arms.map Prod.fst = fields.map Prod.fst) {arm : Arm}
    (harm : arm ∈ arms) :
    ∃ m, (arm, m) ∈ arms.zip (fields.map Prod.snd) ∧ (arm.1, m) ∈ fields := by
  induction arms generalizing fields with
  | nil => exact absurd harm List.not_mem_nil
  | cons arm' arms ih =>
    cases fields with
    | nil => cases h
    | cons y fields =>
      rw [List.map_cons, List.map_cons, List.cons.injEq] at h
      rcases List.mem_cons.1 harm with rfl | harm
      · refine ⟨y.2, List.mem_cons_self, ?_⟩
        rw [h.1]
        exact List.mem_cons_self
      · obtain ⟨m, hzip, hmem⟩ := ih h.2 harm
        exact ⟨m, List.mem_cons_of_mem _ hzip, List.mem_cons_of_mem _ hmem⟩

/-- The value of a field. -/
theorem parseArm_follows {dst a c k : ℕ} {after : Blk} {arm : Arm} {m : Emit}
    (h : Wrote code (parseArm dst c after (arm, m)) b u b') (hP : P x.func = some code)
    (hp : p.Live inp b fr) (hafter : after.Written code) (ha : Carries b fr dst (.heap a))
    (hc : Carries b fr c (.text k)) (hm : Emits fl inp P N p m (f arm.1.ty))
    (hoff : arm.1.offset < 2 ^ 64) :
    (system fl inp P).Follows N (x.start arm.2 [] fr s.proc) ((f arm.1.ty (a + arm.1.offset) k).run s)
      (Leads x b fr after fun c' => [.text c']) := by
  simp only [parseArm, wrote_bind] at h
  obtain ⟨⟨⟩, b₁, h₁, off, b₂, h₂, fdst, b₃, h₃, cc, b₄, h₄, h₅⟩ := h
  rw [h₁.start_eq, Frame.bind_nil]
  have hl₁ : Later b fr b₁ fr := (Later.refl b fr).widen h₁.values
  obtain ⟨fr₂, w₂, ho⟩ := iconst_ran fl inp s.proc fr h₂ hP
  obtain ⟨fr₃, w₃, hd⟩ := part_ran fl inp s.proc h₃ hP (ha.later (hl₁.trans w₂.later)) ho hoff
  have w₂₃ := w₂.trans w₃
  have hl₃ := hl₁.trans w₂₃.later
  refine .after w₂₃.steps ((hm h₄ hP (hp.later hl₃) hd (hc.later hl₃)).further ?_)
  rintro k' s₄ cfg₄ ⟨fr₄, rfl, hl₄, hcc⟩
  exact ⟨_, .single (goes fl inp s₄.proc h₅ hP hafter (.cons hcc .nil)), fr₄, rfl,
    (hl₃.trans hl₄).agree⟩

theorem parseMember_follows {dst a bc k : ℕ} {header : Blk}
    {Q : ℕ → State → Config Datum Scratch Process → Prop} (hfields : FieldsEmit fl inp P N p f fields)
    (hkeys : ∀ y ∈ fields, y.1.key.length < maxSize)
    (h : Wrote code (parseMember p fields dst bc header) b u b') (hP : P x.func = some code)
    (hp : p.Live inp b fr) (hheader : header.Written code) (ha : Carries b fr dst (.heap a))
    (hc : Carries b fr bc (.text k)) :
    (system fl inp P).Follows N (x.point b fr s.proc)
      ((do
        let sp ← Bilbo.strspan inp k
        let ac ← Bilbo.parseMember inp f (fields.map Prod.fst) a sp (Bilbo.ws inp sp.after + 1)
        let ac ← Bilbo.pastComma inp ac
        pure (.inl ac) : M (ℕ ⊕ ℕ)).run s)
      ((system fl inp P).Round (Leads x b fr header fun c' : ℕ => [.text c']) Q) := by
  simp only [parseMember, wrote_bind] at h
  obtain ⟨sp, b₁, h₁, c₂, b₂, h₂, c₃, b₃, h₃, after, b₄, h₄, arms, b₅, h₅, skip, b₆, h₆, ⟨⟩, b₇, h₇,
    ⟨⟩, b₈, h₈, ⟨⟩, b₉, h₉, skipped, b₁₀, h₁₀, ⟨⟩, b₁₁, h₁₁, ⟨⟩, b₁₂, h₁₂, ac, b₁₃, h₁₃, h₁₄⟩ := h
  have hskip := (wrote_switchToBlock h₉).2
  have hafter := (wrote_switchToBlock h₁₂).2
  have hv₄ := h₄.block_params
  have hle₃ : b.values ≤ b₃.values := h₁.values.trans (h₂.values.trans h₃.values)
  have hle₆ : b₄.values ≤ b₆.values := h₅.values.trans h₆.values
  have hle₉ : b₆.values ≤ b₉.values := h₇.values.trans (h₈.values.trans h₉.values)
  have hle₁₂ : b₉.values ≤ b₁₂.values := h₁₀.values.trans (h₁₁.values.trans h₁₂.values)
  have hkey : ∀ arm ∈ arms, ∃ m b₁ b₂, Wrote code (parseArm dst c₃ after (arm, m)) b₁ ⟨⟩ b₂ ∧
      b₇.values ≤ b₁.values ∧ (arm.1, m) ∈ fields := by
    intro arm harm
    obtain ⟨m, hzip, hmem⟩ :=
      mem_zip_arms (createArms_ran (T := system fl inp P) (x := x) s.proc fr h₅).2 harm
    obtain ⟨b₁, b₂, hwrote, hle⟩ := h₈.forM_mem hzip
    exact ⟨m, b₁, b₂, hwrote, hle, hmem⟩
  refine (strspan_follows h₁ hP hp hc).bind ?_
  rintro r s₁ cfg₁ ⟨fr₁, rfl, hl₁, hsp⟩
  obtain ⟨fr₂, w₂, hc₂⟩ := ws_ran fl s₁.proc h₂ hP (hp.later hl₁) hsp.after
  obtain ⟨fr₃, w₃, hc₃⟩ := advance_ran fl inp s₁.proc h₃ hP hc₂ (n := 1) (by decide)
  obtain ⟨w₅, hmap⟩ := createArms_ran (T := system fl inp P) (x := x) s₁.proc fr₃ h₅
  have w₃₆ : Went (system fl inp P) x s₁.proc b₃ fr₃ b₆ fr₃ := h₄.created.trans (w₅.trans h₆.created)
  have w₂₆ := w₂.trans (w₃.trans w₃₆)
  have hl₆ := hl₁.trans w₂₆.later
  obtain ⟨l, fr₇, hagree, hrun, hchosen⟩ := dispatch_steps s₁.proc h₇ hP (hp.later hl₆) hskip
    (fun arm harm => by
      obtain ⟨m, _, _, hwrote, -⟩ := hkey arm harm
      obtain ⟨⟨⟩, _, hblock, -⟩ := wrote_bind.1 hwrote
      exact (wrote_switchToBlock hblock).2)
    (hsp.start.later w₂₆.later) (hsp.len.later w₂₆.later) hsp.len_lt
    (fun arm harm => by
      obtain ⟨m, _, _, -, -, hmem⟩ := hkey arm harm
      exact hkeys _ hmem)
  rw [hmap] at hchosen
  have hl₇ : Later b₆ fr₃ b₆ fr₇ := ⟨Nat.le_refl _, hagree⟩
  have hc₆ := hc₃.later (w₃₆.later.trans hl₇)
  have hl₆₇ := hl₆.trans hl₇
  refine .after (w₂₆.steps.trans hrun) (.bind (Q := Leads x b fr after fun c' : ℕ => [.text c']) ?_ ?_)
  · rw [Bilbo.parseMember]
    cases hdispatch : (Bilbo.dispatch inp r.start r.len (fields.map Prod.fst)).1 with
    | some y =>
      rw [hdispatch] at hchosen
      obtain ⟨m, b₁', b₂', hwrote, hle, hmem⟩ := hkey (y, l) hchosen
      obtain ⟨hm, hoff⟩ := hfields _ hmem
      have hle' : b₆.values ≤ b₁'.values := h₇.values.trans hle
      have hl := hl₆₇.widen hle'
      exact (parseArm_follows hwrote hP (hp.later hl) hafter (ha.later hl) (hc₆.widen hle') hm
        hoff).mono fun _ _ _ hc => hc.after hl
    | none =>
      rw [hdispatch] at hchosen
      obtain rfl : l = skip := hchosen
      rw [h₉.start_eq, Frame.bind_nil]
      have hl₉ := hl₆₇.widen hle₉
      have hcall : ∀ sc, Clif.callShim fl inp sc s₁.proc .skip
          [.text (Bilbo.ws inp r.after + 1), .text inp.stop] =
            some (.ok (.text (rtSkip inp (Bilbo.ws inp r.after + 1)), sc, s₁.proc)) :=
        fun _ => if_pos rfl
      obtain ⟨fr₁₀, w₁₀, hskipped⟩ := shim_ran h₁₀ hP
        (.cons (hc₆.widen hle₉) (.cons (hp.later hl₉).end_ .nil)) (hcall _)
      have hgoes := goes fl inp s₁.proc h₁₁ hP hafter (.cons hskipped .nil)
      exact .after (w₁₀.steps.tail hgoes) (.done ⟨fr₁₀, rfl, (hl₉.trans w₁₀.later).agree⟩)
  · rintro k' s' cfg' ⟨fr', rfl, hagree'⟩
    rw [h₁₂.start_eq]
    have hl₁₂ : Later b fr b₁₂ (fr'.bind after.params [.text k']) :=
      .enter hagree' hv₄.1 hle₃ (by omega) _
    have hc₁₂ : Carries b₁₂ (fr'.bind after.params [.text k']) (after.param 0) (.text k') :=
      Carries.param fr' hv₄.1 (by omega) rfl rfl
    refine (pastComma_follows h₁₃ hP (hp.later hl₁₂) hc₁₂).bind ?_
    rintro c' s₃ cfg₃ ⟨fr₃, rfl, hl₃, hac⟩
    exact .done ⟨_, goes fl inp s₃.proc h₁₄ hP hheader (.cons hac .nil), fr₃, rfl,
      (hl₁₂.trans hl₃).agree⟩

/-- One iteration of the loop of a struct. -/
theorem structBody_follows {dst a k : ℕ} {header cont body : Blk} {b₁ b₂ b₃ : Builder Op} {hv : ℕ}
    (hfields : FieldsEmit fl inp P N p f fields) (hkeys : ∀ y ∈ fields, y.1.key.length < maxSize)
    (h₁ : Wrote code (switchToBlock header) b u b₁)
    (h₂ : Wrote code (untilEnd p Ascii.rbrace header cont) b₁ body b₂)
    (h₃ : Wrote code (switchToBlock body) b₂ u b₃)
    (h₄ : Wrote code (parseMember p fields dst (body.param 0) header) b₃ u b')
    (hP : P x.func = some code) (hcont : cont.Written code) (hparams : header.params = List.range' hv 1)
    (hle : hv + 1 ≤ b.values) {b₀ : Builder Op} {fr₀ : Frame Datum Scratch} (hle₀ : b₀.values ≤ hv)
    (hp : p.Live inp b₀ fr₀) (ha : Carries b₀ fr₀ dst (.heap a)) {cfg : Config Datum Scratch Process}
    (hcfg : Leads x b₀ fr₀ header (fun c' : ℕ => [.text c']) k s cfg) :
    (system fl inp P).Follows N cfg
      ((structBody inp f (fields.map Prod.fst) a k).run s)
      ((system fl inp P).Round (Leads x b₀ fr₀ header fun c' : ℕ => [.text c'])
        (Leads x b₀ fr₀ cont fun c' : ℕ => [.text c'])) := by
  obtain ⟨fr, rfl, hagree⟩ := hcfg
  have hle₁ : b.values ≤ b₁.values := h₁.values
  rw [h₁.start_eq]
  have hl₁ : Later b₀ fr₀ b₁ (fr.bind header.params [.text k]) :=
    .enter hagree hparams hle₀ (by omega) _
  have hc₁ : Carries b₁ (fr.bind header.params [.text k]) (header.param 0) (.text k) :=
    Carries.param fr hparams (by omega) rfl rfl
  refine (untilEnd_follows h₂ hP (hp.later hl₁) hc₁ hcont (wrote_switchToBlock h₃).2).bind ?_
  rintro byte s₂ cfg₂ ⟨rfl, fr₂, hagree₂, rfl⟩
  have hagree₂ := hl₁.agree.trans hagree₂ hl₁.values
  rw [ite_run]
  by_cases hend : (byte == Ascii.rbrace) = true
  · rw [if_pos hend, if_pos hend]
    exact .done ⟨fr₂, rfl, hagree₂⟩
  · rw [if_neg hend, if_neg hend, h₃.start_eq]
    obtain ⟨v, hbody, hlo, hhi⟩ := untilEnd_params h₂
    have hle₃ : b₂.values ≤ b₃.values := h₃.values
    have hle₁' := hl₁.values
    have hl₃ : Later b₀ fr₀ b₃ (fr₂.bind body.params [.text (Bilbo.ws inp k)]) :=
      .enter hagree₂ hbody (by omega) (by omega) _
    have hc₃ : Carries b₃ (fr₂.bind body.params [.text (Bilbo.ws inp k)]) (body.param 0)
        (.text (Bilbo.ws inp k)) := Carries.param fr₂ hbody (by omega) rfl rfl
    exact (parseMember_follows hfields hkeys h₄ hP (hp.later hl₃) (wrote_switchToBlock h₁).2
      (ha.later hl₃) hc₃).mono fun _ _ _ hround => hround.mono fun _ _ _ hleads => hleads.after hl₃

theorem parseStruct_emits (hfields : FieldsEmit fl inp P N p f fields)
    (hkeys : ∀ y ∈ fields, y.1.key.length < maxSize) (hN : N ≤ n) : Emits fl inp P N p
    (parseStruct p fields) (Bilbo.parseStruct inp n f (fields.map Prod.fst)) := by
  intro x code b b' fr s dst cur r a k h hP hp ha hc
  simp only [parseStruct, wrote_bind] at h
  obtain ⟨c₁, b₁, h₁, c₂, b₂, h₂, ⟨⟩, b₃, h₃, header, b₄, h₄, cont, b₅, h₅, ⟨⟩, b₆, h₆, ⟨⟩, b₇, h₇,
    body, b₈, h₈, ⟨⟩, b₉, h₉, ⟨⟩, b₁₀, h₁₀, ⟨⟩, b₁₁, h₁₁, hr⟩ := h
  obtain ⟨rfl, rfl, -⟩ := wrote_pure.1 hr
  have hcont := (wrote_switchToBlock h₁₁).2
  have hv₄ := h₄.block_params
  have hv₅ := h₅.block_params
  have hle₁₁ : b₆.values ≤ b₁₁.values := h₇.values.trans (h₈.values.trans (h₉.values.trans
    (h₁₀.values.trans h₁₁.values)))
  have hle₆ : b₅.values ≤ b₆.values := h₆.values
  obtain ⟨fr₁, w₁, hc₁⟩ := ws_ran fl s.proc h₁ hP hp hc
  obtain ⟨fr₂, w₂, hc₂⟩ := advance_ran fl inp s.proc h₂ hP hc₁ (n := 1) (by decide)
  have hl₂ := (w₁.trans w₂).later
  refine .after (w₁.trans w₂).steps ?_
  rw [Bilbo.parseStruct, forM_map]
  refine (forM_follows h₃ fun y hy _ _ _ _ hl hdefault =>
    defaultNone_follows hdefault hP (ha.later (hl₂.trans hl)) (hfields y hy).2).bind ?_
  rintro ⟨⟩ s₃ cfg₃ ⟨fr₃, rfl, hl₃, -⟩
  have w₅ : Went (system fl inp P) x s₃.proc b₃ fr₃ b₅ fr₃ := h₄.created.trans h₅.created
  have hl₅ := hl₃.trans w₅.later
  have hgoes := goes fl inp s₃.proc h₆ hP (wrote_switchToBlock h₇).2 (.cons (hc₂.later hl₅) .nil)
  have hle₃ : b.values ≤ b₃.values := (hl₂.trans hl₃).values
  refine .after (w₅.steps.tail hgoes) (System.Follows.mono
    (Q := Leads x b fr cont fun c' : ℕ => [.text c']) ?_ ?_)
  · refine System.Follows.loop (fun _ => Leads x b fr header fun c' : ℕ => [.text c']) ?_ hN
      ⟨fr₃, rfl, (hl₂.trans hl₅).agree⟩
    intro _ k' s' cfg' hcfg
    exact structBody_follows hfields hkeys h₇ h₈ h₉ h₁₀ hP hcont hv₄.1 (by omega) hle₃ hp ha hcfg
  · rintro k' s' cfg' ⟨fr', rfl, hagree⟩
    rw [h₁₁.start_eq]
    refine ⟨_, rfl, .enter hagree hv₅.1 (by omega) (by omega) _, ?_⟩
    exact Carries.param fr' hv₅.1 (by omega) rfl rfl

/-! ## Vectors -/

/-- The word of the base. The dangling pointer of a vector that has not grown is an integer. -/
def VecBase (v : VecState) (w : Datum) : Prop :=
  w = .heap v.base ∨ w = .nat v.base ∧ v.cap = 0 ∧ v.len = 0

/-- The words of the loop state, the cursor apart. -/
def vecWords (c : ℕ) (w : Datum) (v : VecState) : List Datum := [.text c, w, .nat v.cap, .nat v.len]

/-- The code is at a block of the loop of a vector. -/
def VecLeads (x : Ctx Datum Scratch) (b : Builder Op) (fr : Frame Datum Scratch) (l : Blk) (v : VecState)
    (s : State) (cfg : Config Datum Scratch Process) : Prop :=
  v.cap < 2 ^ 64 ∧ ∃ w, VecBase v w ∧ Leads x b fr l (vecWords v.cur w) v s cfg

theorem mul_word (n m : ℕ) : (BitVec.ofNat 64 n * BitVec.ofNat 64 m).toNat = n * m % 2 ^ 64 := by
  rw [← BitVec.ofNat_mul, BitVec.toNat_ofNat]

section Vec

variable {elemSize align esz al : ℕ} {grow afterg head : Blk} {v : VecState} {w : Datum} {c : ℕ}
  {b₀ b₁ b₂ : Builder Op} {fr₀ : Frame Datum Scratch} {cfg : Config Datum Scratch Process} {elem : Ty}
  {m : Emit} {Q : VecState → State → Config Datum Scratch Process → Prop}

/-- A vector that is full grows. -/
theorem growVec_follows (h₁ : Wrote code (switchToBlock grow) b u b₁)
    (h₂ : Wrote code (growVec esz al grow afterg) b₁ u b₂) (hP : P x.func = some code)
    (hafterg : afterg.Written code) (hnew : grow.New 4 b₀ b) (hesz : Carries b₀ fr₀ esz (.nat elemSize))
    (hal : Carries b₀ fr₀ al (.nat align)) (halign : align < 2 ^ 64) (hcap : v.cap < 2 ^ 64)
    (hbase : VecBase v w) (hfull : v.len = v.cap)
    (hcfg : Leads x b₀ fr₀ grow (vecWords c w) v s cfg) :
    (system fl inp P).Follows N cfg ((Bilbo.grow elemSize align v).run s) fun v' s' cfg' =>
      v'.cap < 2 ^ 64 ∧ Leads x b₀ fr₀ afterg (fun v => vecWords c (.heap v.base) v) v' s' cfg' := by
  obtain ⟨fr₁, rfl, hl₁, hcarries⟩ := hcfg.entered h₁ hnew rfl
  have hc : Carries b₁ fr₁ (grow.param 0) (.text c) := hcarries rfl
  have hw : Carries b₁ fr₁ (grow.param 1) w := hcarries rfl
  have hcap' : Carries b₁ fr₁ (grow.param 2) (.nat v.cap) := hcarries rfl
  have hlen : Carries b₁ fr₁ (grow.param 3) (.nat v.len) := hcarries rfl
  simp only [growVec, wrote_bind] at h₂
  obtain ⟨is0, b₃, h₃, cap2, b₄, h₄, four, b₅, h₅, newcap, b₆, h₆, oldbytes, b₇, h₇, newbytes, b₈, h₈,
    nbase, b₉, h₉, h₁₀⟩ := h₂
  obtain ⟨fr₃, w₃, his0⟩ := icmpImm_ran fl inp s.proc h₃ hP hcap' hcap (n := 0) (by decide)
  obtain ⟨fr₄, w₄, hcap2, -⟩ := op_ran fl inp s.proc h₄ hP (.cons (hcap'.later w₃.later) .nil) rfl
  obtain ⟨fr₅, w₅, hfour⟩ := iconst_ran fl inp s.proc fr₄ h₅ hP
  obtain ⟨fr₆, w₆, hnew⟩ := select_ran fl inp s.proc h₆ hP (his0.later (w₄.trans w₅).later) hfour
    (hcap2.later w₅.later)
  have w₃₆ := w₃.trans (w₄.trans (w₅.trans w₆))
  have hl₆ := hl₁.trans w₃₆.later
  obtain ⟨fr₇, w₇, hold, -⟩ := op_ran fl inp s.proc h₇ hP
    (.cons (hcap'.later w₃₆.later) (.cons (hesz.later hl₆) .nil)) rfl
  have hword : (if IntCC.equal.holds v.cap 0 = true then Datum.nat 4
      else Datum.int (BitVec.ofNat 64 v.cap * BitVec.ofNat 64 2)) =
      .nat (if v.cap = 0 then 4 else v.cap * 2 % 2 ^ 64) := by
    by_cases h0 : v.cap = 0
    · rw [if_pos h0, IntCC.holds, beq_iff_eq.2 h0, if_pos rfl]
    · rw [if_neg h0, IntCC.holds, beq_false_of_ne h0, if_neg Bool.false_ne_true, nat_mod,
        ← BitVec.ofNat_mul]
      rfl
  rw [hword] at hnew
  obtain ⟨fr₈, w₈, hnewb, -⟩ := op_ran fl inp s.proc h₈ hP
    (.cons (hnew.later w₇.later) (.cons (hesz.later (hl₆.trans w₇.later)) .nil)) rfl
  have w₇₈ := w₇.trans w₈
  have w₃₈ := w₃₆.trans w₇₈
  refine .after w₃₈.steps ?_
  rw [Bilbo.grow, if_pos hfull]
  refine (shim_follows h₉ hP (.cons (hw.later w₃₈.later) (.cons (hold.later w₈.later) (.cons hnewb
    (.cons (hal.later (hl₁.trans w₃₈.later)) .nil)))) (rtRealloc_does (mul_word _ _) (mul_word _ _)
      (toNat_ofNat halign) fun hne => ?_)).bind ?_
  · -- only a vector that has grown has something to move
    rcases hbase with rfl | ⟨-, hcap0, -⟩
    · rfl
    · rw [hcap0, Nat.zero_mul] at hne
      exact absurd (Nat.zero_mod _) hne
  · rintro q s₉ cfg₉ ⟨fr₉, w', rfl, hl₉, hq, rfl⟩
    have hl := w₃₈.later.trans hl₉
    have hgoes := goes fl inp s₉.proc h₁₀ hP hafterg (.cons (hc.later hl) (.cons hq
      (.cons (hnew.later (w₇₈.later.trans hl₉)) (.cons (hlen.later hl) .nil))))
    refine .of_step hgoes (.done ⟨?_, fr₉, rfl, (hl₁.trans hl).agree⟩)
    show (if v.cap = 0 then 4 else v.cap * 2 % 2 ^ 64) < 2 ^ 64
    split
    · decide
    · exact Nat.mod_lt _ (Nat.two_pow_pos 64)

/-- The next element is parsed in its place, and the loop goes on. -/
theorem parseElem_follows (h₁ : Wrote code (switchToBlock afterg) b u b₁)
    (h₂ : Wrote code (parseElem p m esz afterg head) b₁ u b₂) (hP : P x.func = some code)
    (hhead : head.Written code) (hnew : afterg.New 4 b₀ b) (hesz : Carries b₀ fr₀ esz (.nat elemSize))
    (hp : p.Live inp b₀ fr₀) (hm : Emits fl inp P N p m (f elem)) (hcap : v.cap < 2 ^ 64)
    (hcfg : Leads x b₀ fr₀ afterg (fun v => vecWords c (.heap v.base) v) v s cfg) :
    (system fl inp P).Follows N cfg ((do
        let ac ← f elem (v.base + v.len * elemSize % 2 ^ 64) c
        let ac ← Bilbo.pastComma inp ac
        emit (.iter elem c ac)
        pure (.inl { v with cur := ac, len := v.len + 1 }) : M (VecState ⊕ VecState)).run s)
      ((system fl inp P).Round (VecLeads x b₀ fr₀ head) Q) := by
  obtain ⟨fr₁, rfl, hl₁, hcarries⟩ := hcfg.entered h₁ hnew rfl
  have hc : Carries b₁ fr₁ (afterg.param 0) (.text c) := hcarries rfl
  have hbase : Carries b₁ fr₁ (afterg.param 1) (.heap v.base) := hcarries rfl
  have hcap' : Carries b₁ fr₁ (afterg.param 2) (.nat v.cap) := hcarries rfl
  have hlen : Carries b₁ fr₁ (afterg.param 3) (.nat v.len) := hcarries rfl
  simp only [parseElem, wrote_bind] at h₂
  obtain ⟨aoff, b₃, h₃, edst, b₄, h₄, ac, b₅, h₅, ac', b₆, h₆, len1, b₇, h₇, h₈⟩ := h₂
  obtain ⟨fr₃, w₃, hoff, -⟩ :=
    op_ran fl inp s.proc h₃ hP (.cons hlen (.cons (hesz.later hl₁) .nil)) rfl
  obtain ⟨fr₄, w₄, hdst, -⟩ := op_ran fl inp s.proc h₄ hP (.cons (hbase.later w₃.later)
    (.cons hoff .nil)) rfl
  rw [mul_word] at hdst
  have w₃₄ := w₃.trans w₄
  have hl₄ := hl₁.trans w₃₄.later
  refine .after w₃₄.steps ((hm h₅ hP (hp.later hl₄) hdst (hc.later w₃₄.later)).bind ?_)
  rintro k₅ s₅ cfg₅ ⟨fr₅, rfl, hl₅, hac⟩
  have hl₁₅ := w₃₄.later.trans hl₅
  refine (pastComma_follows h₆ hP (hp.later (hl₁.trans hl₁₅)) hac).bind ?_
  rintro k₆ s₆ cfg₆ ⟨fr₆, rfl, hl₆, hac'⟩
  have hl₁₆ := hl₁₅.trans hl₆
  obtain ⟨fr₇, w₇, hlen1⟩ := iaddImm_ran fl inp s₆.proc h₇ hP (hlen.later hl₁₆) (n := 1)
  have hl₁₇ := hl₁₆.trans w₇.later
  have hgoes := goes fl inp s₆.proc h₈ hP hhead (.cons (hac'.later w₇.later)
    (.cons (hbase.later hl₁₇) (.cons (hcap'.later hl₁₇) (.cons hlen1 .nil))))
  exact .after w₇.steps (.done ⟨_, hgoes, hcap, _, .inl rfl, fr₇, rfl, (hl₁.trans hl₁₇).agree⟩)

end Vec

/-- One iteration of the loop of a vector. -/
theorem vecBody_follows {esz al elemSize align : ℕ} {head body grow afterg done : Blk} {v : VecState}
    {cfg : Config Datum Scratch Process} {elem : Ty} {m : Emit} {b₀ : Builder Op}
    {fr₀ : Frame Datum Scratch}
    (h : Wrote code (parseElems p m esz al head body grow afterg done) b u b')
    (hP : P x.func = some code) (hdone : done.Written code) (hhead : head.New 4 b₀ b)
    (hbody : body.New 4 b₀ b) (hgrow : grow.New 4 b₀ b) (hafterg : afterg.New 4 b₀ b)
    (hesz : Carries b₀ fr₀ esz (.nat elemSize)) (hal : Carries b₀ fr₀ al (.nat align))
    (halign : align < 2 ^ 64) (hp : p.Live inp b₀ fr₀) (hm : Emits fl inp P N p m (f elem))
    (hlen : v.len < 2 ^ 64) (hcfg : VecLeads x b₀ fr₀ head v s cfg) :
    (system fl inp P).Follows N cfg ((vecBody inp f elem elemSize align v).run s)
      ((system fl inp P).Round (VecLeads x b₀ fr₀ head) (VecLeads x b₀ fr₀ done)) := by
  obtain ⟨hcap, w, hbase, hcfg⟩ := hcfg
  simp only [parseElems, wrote_bind] at h
  obtain ⟨⟨⟩, b₁, h₁, hc, b₂, h₂, bch, b₃, h₃, isEnd, b₄, h₄, ⟨⟩, b₅, h₅, ⟨⟩, b₆, h₆, full, b₇, h₇,
    ⟨⟩, b₈, h₈, ⟨⟩, b₉, h₉, ⟨⟩, b₁₀, h₁₀, ⟨⟩, b₁₁, h₁₁, h₁₂⟩ := h
  have hle₁ : b.values ≤ b₁.values := h₁.values
  have hle₅ : b₁.values ≤ b₅.values := h₂.values.trans (h₃.values.trans (h₄.values.trans h₅.values))
  have hle₈ : b₅.values ≤ b₈.values := h₆.values.trans (h₇.values.trans h₈.values)
  have hle₁₀ : b₈.values ≤ b₁₀.values := h₉.values.trans h₁₀.values
  have hgrow' : grow.Written code := (wrote_switchToBlock h₉).2
  have hafterg' : afterg.Written code := (wrote_switchToBlock h₁₁).2
  obtain ⟨fr₁, rfl, hl₁, hcarries⟩ := hcfg.entered h₁ hhead rfl
  have hcur : Carries b₁ fr₁ (head.param 0) (.text v.cur) := hcarries rfl
  have hw : Carries b₁ fr₁ (head.param 1) w := hcarries rfl
  have hcap' : Carries b₁ fr₁ (head.param 2) (.nat v.cap) := hcarries rfl
  have hlen' : Carries b₁ fr₁ (head.param 3) (.nat v.len) := hcarries rfl
  obtain ⟨fr₂, w₂, hk⟩ := ws_ran fl s.proc h₂ hP (hp.later hl₁) hcur
  refine .after w₂.steps ((loadU8_follows h₃ hP hk).bind ?_)
  rintro byte s₃ cfg₃ ⟨⟨rfl, -, -⟩, fr₃, rfl, hl₃, hv⟩
  obtain ⟨fr₄, w₄, hend⟩ := byteEq_ran fl inp s₃.proc h₄ hP hv
  have hl₁₄ := w₂.later.trans (hl₃.trans w₄.later)
  have hl₄ := hl₁.trans hl₁₄
  have hargs : List.Forall₂ (Carries b₄ fr₄) [hc, head.param 1, head.param 2, head.param 3]
      (vecWords (Bilbo.ws inp v.cur) w v) :=
    .cons (hk.later (hl₃.trans w₄.later)) (.cons (hw.later hl₁₄) (.cons (hcap'.later hl₁₄)
      (.cons (hlen'.later hl₁₄) .nil)))
  have hbranch := branch fl inp s₃.proc h₅ hP hdone (wrote_switchToBlock h₆).2 hend hargs hargs
  refine .after (w₄.steps.tail hbranch) ?_
  rw [ite_run]
  by_cases hbracket : (byte == Ascii.rbracket) = true
  · rw [if_pos hbracket, if_pos hbracket]
    exact .done ⟨hcap, w, hbase, fr₄, rfl, hl₄.agree⟩
  rw [if_neg hbracket, if_neg hbracket]
  have hcfg₅ : Leads x b₀ fr₀ body (vecWords (Bilbo.ws inp v.cur) w) v s₃
      (x.start body (vecWords (Bilbo.ws inp v.cur) w v) fr₄ s₃.proc) := ⟨fr₄, rfl, hl₄.agree⟩
  obtain ⟨fr₆, hcfg₆, hl₆, hcarries₆⟩ := hcfg₅.entered h₆ (hbody.widen (Nat.le_refl _) (by omega)) rfl
  rw [hcfg₆]
  have hk₆ : Carries b₆ fr₆ (body.param 0) (.text (Bilbo.ws inp v.cur)) := hcarries₆ rfl
  have hw₆ : Carries b₆ fr₆ (body.param 1) w := hcarries₆ rfl
  have hcap₆ : Carries b₆ fr₆ (body.param 2) (.nat v.cap) := hcarries₆ rfl
  have hlen₆ : Carries b₆ fr₆ (body.param 3) (.nat v.len) := hcarries₆ rfl
  obtain ⟨fr₇, w₇, hfull⟩ := icmp_ran fl inp s₃.proc h₇ hP hlen₆ hcap₆ hlen hcap
  have hargs₇ : List.Forall₂ (Carries b₇ fr₇) [body.param 0, body.param 1, body.param 2, body.param 3]
      (vecWords (Bilbo.ws inp v.cur) w v) :=
    .cons (hk₆.later w₇.later) (.cons (hw₆.later w₇.later) (.cons (hcap₆.later w₇.later)
      (.cons (hlen₆.later w₇.later) .nil)))
  have hbranch₈ := branch fl inp s₃.proc h₈ hP hgrow' hafterg' hfull hargs₇ hargs₇
  have hagree₇ := (hl₆.trans w₇.later).agree
  refine .after (w₇.steps.tail hbranch₈) (.bind (Q := fun v' s' cfg' => v'.cap < 2 ^ 64 ∧
    Leads x b₀ fr₀ afterg (fun v' => vecWords (Bilbo.ws inp v.cur) (.heap v'.base) v') v' s' cfg') ?_ ?_)
  · by_cases hlc : v.len = v.cap
    · rw [IntCC.holds, beq_iff_eq.2 hlc, if_pos rfl]
      exact growVec_follows h₉ h₁₀ hP hafterg' (hgrow.widen (Nat.le_refl _) (by omega)) hesz hal halign
        hcap hbase hlc ⟨fr₇, rfl, hagree₇⟩
    · rw [IntCC.holds, beq_false_of_ne hlc, if_neg Bool.false_ne_true, Bilbo.grow, if_neg hlc]
      rcases hbase with rfl | ⟨-, hcap₀, hlen₀⟩
      · exact .done ⟨hcap, fr₇, rfl, hagree₇⟩
      · exact absurd (hlen₀.trans hcap₀.symm) hlc
  · rintro v' s' cfg' ⟨hcap', hcfg'⟩
    exact parseElem_follows h₁₁ h₁₂ hP (wrote_switchToBlock h₁).2
      (hafterg.widen (Nat.le_refl _) (by omega)) hesz hp hm hcap' hcfg'

theorem VecBase.bytes {v : VecState} {w : Datum} (h : VecBase v w) :
    w.bytes .i64 = some (le 8 v.base) := by
  rcases h with rfl | ⟨rfl, -, -⟩
  · rfl
  · rw [Datum.nat, Datum.bytes, le_word]
    rfl

/-! ### How many elements there are -/

/-- A vector whose elements are counted right: there are no more of them than rounds, or they take up
memory. -/
def Countable (n elemSize : ℕ) : Prop := n ≤ 2 ^ 64 ∨ 0 < elemSize ∧ elemSize < 2 ^ 62

/-- The state in front of a round, with `j` rounds left. -/
def Counted (n elemSize j : ℕ) (v : VecState) : Prop :=
  n ≤ 2 ^ 64 ∧ v.len + j = n ∨
    (0 < elemSize ∧ elemSize < 2 ^ 62) ∧ v.len ≤ v.cap ∧ v.cap * elemSize ≤ isizeMax

section Counted

variable {n elemSize j : ℕ} {v v' : VecState} {s' : State}

theorem Countable.start (h : Countable n elemSize) (c base : ℕ) :
    Counted n elemSize n ⟨c, base, 0, 0⟩ := by
  refine h.imp (fun h => ⟨h, Nat.zero_add n⟩) fun h => ⟨h, Nat.le_refl 0, ?_⟩
  rw [Nat.zero_mul]
  exact Nat.zero_le _

theorem Counted.lt (h : Counted n elemSize (j + 1) v) : v.len < 2 ^ 64 := by
  rcases h with ⟨hn, hlen⟩ | ⟨⟨hpos, -⟩, hle, hfit⟩
  · omega
  · have hcap : v.cap ≤ v.cap * elemSize := Nat.le_mul_of_pos_right _ hpos
    have hmax : isizeMax = 2 ^ 63 - 1 := rfl
    omega

theorem alloc_fits {size align p : ℕ} (h : (alloc size align).run s = (.done p, s')) :
    size ≤ isizeMax := by
  rw [alloc, ite_run] at h
  split at h
  · next hok =>
    rw [layoutOk, Bool.and_eq_true, decide_eq_true_eq] at hok
    exact hok.2.trans (Nat.sub_le _ _)
  · cases h

theorem rtRealloc_fits {ptr old new align p : ℕ}
    (h : (rtRealloc ptr old new align).run s = (.done p, s')) : new ≤ isizeMax := by
  rw [rtRealloc, ite_run, ite_run, ite_run] at h
  split_ifs at h with hold hnew hok
  · rw [hnew]
    exact Nat.zero_le _
  · exact alloc_fits h
  · obtain ⟨q, s₁, halloc, -⟩ := bind_eq_done h
    exact alloc_fits halloc
  · cases h

/-- Where elements take up memory, a vector has room for no more than the memory holds. -/
theorem grow_fits {align : ℕ} (hpos : 0 < elemSize) (hsize : elemSize < 2 ^ 62) (hle : v.len ≤ v.cap)
    (hfit : v.cap * elemSize ≤ isizeMax) (h : (Bilbo.grow elemSize align v).run s = (.done v', s')) :
    v'.len = v.len ∧ v.len < v'.cap ∧ v'.cap * elemSize ≤ isizeMax := by
  rw [Bilbo.grow, ite_run] at h
  split at h
  · next hfull =>
    obtain ⟨q, s₁, hrealloc, hrest⟩ := bind_eq_done h
    cases hrest
    have hnew := rtRealloc_fits hrealloc
    have hmax : isizeMax = 2 ^ 63 - 1 := rfl
    have hcap : v.cap ≤ v.cap * elemSize := Nat.le_mul_of_pos_right _ hpos
    -- neither product wraps
    have hmod : v.cap * 2 % 2 ^ 64 = v.cap * 2 := Nat.mod_eq_of_lt (by omega)
    rw [hmod] at hnew ⊢
    have hlt : (if v.cap = 0 then 4 else v.cap * 2) * elemSize < 2 ^ 64 := by
      split
      · omega
      · rw [Nat.mul_right_comm]
        omega
    rw [Nat.mod_eq_of_lt hlt] at hnew
    refine ⟨rfl, ?_, hnew⟩
    show v.len < if v.cap = 0 then 4 else v.cap * 2
    split <;> omega
  · next hroom =>
    cases h
    exact ⟨rfl, by omega, hfit⟩

theorem Counted.next {elem : Ty} {align : ℕ} (h : Counted n elemSize (j + 1) v)
    (hrun : (vecBody inp f elem elemSize align v).run s = (.done (.inl v'), s')) :
    Counted n elemSize j v' := by
  obtain ⟨-, -, w, g, c, e, hgrow, -, rfl, -⟩ := vecBody_inl hrun
  rcases h with ⟨hn, hlen⟩ | ⟨⟨hpos, hsize⟩, hle, hfit⟩
  · have hwlen : w.len = v.len := by
      rw [Bilbo.grow, ite_run] at hgrow
      split at hgrow
      · obtain ⟨q, s₁, -, hrest⟩ := bind_eq_done hgrow
        cases hrest
        rfl
      · cases hgrow
        rfl
    exact .inl ⟨hn, by show w.len + 1 + j = n; omega⟩
  · obtain ⟨hwlen, hlt, hfit'⟩ := grow_fits hpos hsize hle hfit hgrow
    exact .inr ⟨⟨hpos, hsize⟩, by show w.len + 1 ≤ w.cap; omega, hfit'⟩

end Counted

theorem parseVec_emits {elem : Ty} {m : Emit} {elemSize elemAlign : ℕ} {seq : SeqLayout}
    (hm : Emits fl inp P N p m (f elem)) (halign : elemAlign < 2 ^ 64) (hN : N ≤ n)
    (hn : Countable n elemSize) : Emits fl inp P N p (parseVec p m elemSize elemAlign seq)
    (Bilbo.parseVec inp n f elem elemSize elemAlign seq) := by
  intro x code b b' fr s dst cur r a k h hP hp ha hc
  simp only [parseVec, wrote_bind] at h
  obtain ⟨esz, b₁, h₁, al, b₂, h₂, c₃, b₃, h₃, c₄, b₄, h₄, z, b₅, h₅, head, b₆, h₆, body, b₇, h₇, grow,
    b₈, h₈, afterg, b₉, h₉, done, b₁₀, h₁₀, ⟨⟩, b₁₁, h₁₁, ⟨⟩, b₁₂, h₁₂, ⟨⟩, b₁₃, h₁₃, c₁₄, b₁₄, h₁₄,
    c₁₅, b₁₅, h₁₅, ⟨⟩, b₁₆, h₁₆, ⟨⟩, b₁₇, h₁₇, ⟨⟩, b₁₈, h₁₈, hr⟩ := h
  obtain ⟨rfl, rfl, -⟩ := wrote_pure.1 hr
  have hstores : Wrote code (do
      storeAt dst seq.ptrOff (done.param 1)
      storeAt dst seq.capOff (done.param 2)
      storeAt dst seq.lenOff (done.param 3)) b₁₅ () b₁₈ :=
    wrote_bind.2 ⟨(), b₁₆, h₁₆, wrote_bind.2 ⟨(), b₁₇, h₁₇, h₁₈⟩⟩
  have hdone := (wrote_switchToBlock h₁₃).2
  have hhead : head.Written code := by
    simp only [parseElems, wrote_bind] at h₁₂
    obtain ⟨⟨⟩, _, hswitch, -⟩ := h₁₂
    exact (wrote_switchToBlock hswitch).2
  obtain ⟨fr₁, w₁, hesz⟩ := iconst_ran fl inp s.proc fr h₁ hP
  obtain ⟨fr₂, w₂, hal⟩ := iconst_ran fl inp s.proc fr₁ h₂ hP
  have w₁₂ := w₁.trans w₂
  obtain ⟨fr₃, w₃, hc₃⟩ := ws_ran fl s.proc h₃ hP (hp.later w₁₂.later) (hc.later w₁₂.later)
  obtain ⟨fr₄, w₄, hc₄⟩ := advance_ran fl inp s.proc h₄ hP hc₃ (n := 1) (by decide)
  obtain ⟨fr₅, w₅, hz⟩ := iconst_ran fl inp s.proc fr₄ h₅ hP
  have w₃₅ := w₃.trans (w₄.trans w₅)
  have w₆ : Went (system fl inp P) x s.proc b₅ fr₅ b₁₀ fr₅ :=
    h₆.created.trans (h₇.created.trans (h₈.created.trans (h₉.created.trans h₁₀.created)))
  have w₁₅ := w₁₂.trans w₃₅
  have hesz₅ := hesz.later (w₂.trans w₃₅).later
  have hal₅ := hal.later w₃₅.later
  have hgoes := goes fl inp s.proc h₁₁ hP hhead (.cons (hc₄.later (w₅.trans w₆).later)
    (.cons (hal₅.later w₆.later) (.cons (hz.later w₆.later) (.cons (hz.later w₆.later) .nil))))
  have hle₆ : b₅.values ≤ b₆.values := h₆.values
  have hle₇ : b₆.values ≤ b₇.values := h₇.values
  have hle₈ : b₇.values ≤ b₈.values := h₈.values
  have hle₉ : b₈.values ≤ b₉.values := h₉.values
  have hle₁₀ : b₉.values ≤ b₁₀.values := h₁₀.values
  have hle₁₁ : b₁₀.values ≤ b₁₁.values := h₁₁.values
  have hle₁₂ : b₁₁.values ≤ b₁₂.values := h₁₂.values
  have hp₅ := hp.later w₁₅.later
  refine .after ((w₁₅.trans w₆).steps.tail hgoes) (.bind (Q := VecLeads x b₅ fr₅ done) ?_ ?_)
  · refine System.Follows.loop (fun j v s' cfg => Counted n elemSize j v ∧ VecLeads x b₅ fr₅ head v s' cfg)
      ?_ hN ⟨hn.start _ _, Nat.two_pow_pos 64, _, .inr ⟨rfl, rfl, rfl⟩, fr₅, rfl, .refl _ fr₅⟩
    rintro j v s' cfg ⟨hlen, hcfg⟩
    refine (vecBody_follows h₁₂ hP hdone (h₆.new.widen (Nat.le_refl _) (by omega))
      (h₇.new.widen hle₆ (by omega)) (h₈.new.widen (by omega) (by omega))
      (h₉.new.widen (by omega) (by omega)) hesz₅ hal₅ (max_lt halign (by decide)) hp₅ hm hlen.lt
      hcfg).with_result.mono ?_
    rintro (v' | v') s'' cfg' ⟨hround, hrun⟩
    · obtain ⟨cfg'', hstep, hleads⟩ := hround
      exact ⟨cfg'', hstep, hlen.next hrun, hleads⟩
    · exact hround
  · rintro v s' cfg ⟨hcap, w, hbase, hleads⟩
    obtain ⟨fr₁₃, rfl, hl₁₃, hcarries⟩ := hleads.entered h₁₃ (h₁₀.new.widen (by omega) (by omega)) rfl
    have hcur : Carries b₁₃ fr₁₃ (done.param 0) (.text v.cur) := hcarries rfl
    have hw : Carries b₁₃ fr₁₃ (done.param 1) w := hcarries rfl
    have hcap' : Carries b₁₃ fr₁₃ (done.param 2) (.nat v.cap) := hcarries rfl
    have hlen' : Carries b₁₃ fr₁₃ (done.param 3) (.nat v.len) := hcarries rfl
    obtain ⟨fr₁₄, w₁₄, hc₁₄⟩ := ws_ran fl s'.proc h₁₄ hP (hp₅.later hl₁₃) hcur
    obtain ⟨fr₁₅, w₁₅', hr⟩ := advance_ran fl inp s'.proc h₁₅ hP hc₁₄ (n := 1) (by decide)
    have w₁₄₁₅ := w₁₄.trans w₁₅'
    have hl := w₁₅.later.trans (hl₁₃.trans w₁₄₁₅.later)
    refine .after w₁₄₁₅.steps ((storeSeq_follows hstores hP (ha.later hl) (hw.later w₁₄₁₅.later)
      hbase.bytes (hcap'.later w₁₄₁₅.later) (hlen'.later w₁₄₁₅.later)).bind ?_)
    rintro ⟨⟩ s₁₈ cfg₁₈ ⟨fr₁₈, rfl, hl₁₈, -⟩
    exact .done ⟨fr₁₈, rfl, hl.trans hl₁₈, hr.later hl₁₈⟩

end Emitter

end Bilbo
