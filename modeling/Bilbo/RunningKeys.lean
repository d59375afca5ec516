import Bilbo.RunningTokens
import Bilbo.Stores

/-!
# Running the emitted dispatch

The tests of a key, the compare chain and the table of lengths lead to the block of the field that
the dispatch of the parser finds, or to the block that skips the value. No test can fail: the loads
of a comparison are not checked.
-/

namespace Bilbo

open Base Base.Cfg

namespace Emitter

open Clif

variable {fl : FloatOps} {inp : Input} {P : Program Op} {code : Code Op} {x : Ctx Datum Scratch}
  {b b' : Builder Op} {fr : Frame Datum Scratch} {p : Pctx} {u : Unit} {kp kl q n : ℕ} {name : Bytes}
  {skip : Blk} {arms : List Arm}

/-! ## Tests -/

/-- A conjunction of conditions. -/
theorem and_ran (fl : FloatOps) (inp : Input) (g : Process) {t t' : Bool} {r c c' : ℕ}
    (h : Wrote code (define .band [c, c']) b r b') (hP : P x.func = some code)
    (hc : Carries b fr c (.ofBool t)) (hc' : Carries b fr c' (.ofBool t')) :
    ∃ fr', Went (system fl inp P) x g b fr b' fr' ∧ Carries b' fr' r (.ofBool (t && t')) := by
  obtain ⟨fr', hwent, hr, -⟩ := op_ran fl inp g h hP (.cons hc (.cons hc' .nil)) rfl
  refine ⟨fr', hwent, ?_⟩
  cases t <;> cases t' <;> exact hr

/-- A load with an offset, whatever is there. -/
theorem loadU8Off_ran (fl : FloatOps) (inp : Input) (g : Process) {addr r c i : ℕ}
    (h : Wrote code (loadU8Off addr (wrapI32 i)) b r b') (hP : P x.func = some code)
    (ha : Carries b fr addr (.text c)) (hi : i < maxSize) :
    ∃ fr', Went (system fl inp P) x g b fr b' fr' ∧
      Carries b' fr' r (.nat (inp.byte (c + i)).toNat) := by
  obtain ⟨fr', hwent, hr, -⟩ := op_ran fl inp g h hP (.cons ha .nil) rfl
  have hshift : shift c (wrapI32 i) = c + i := disp_eq hi
  rw [hshift] at hr
  exact ⟨fr', hwent, hr⟩

theorem keyeqFrom_ran (fl : FloatOps) (inp : Input) (g : Process) {i acc r : ℕ} {t : Bool}
    (h : Wrote code (keyeqFrom kp i name acc) b r b') (hP : P x.func = some code)
    (hkp : Carries b fr kp (.text q)) (hacc : Carries b fr acc (.ofBool t))
    (hi : i + name.length ≤ maxSize) :
    ∃ fr', Went (system fl inp P) x g b fr b' fr' ∧ Carries b' fr' r (.ofBool (t &&
      (List.range name.length).all fun j => some (inp.byte (q + (i + j))) == name[j]?)) := by
  induction name generalizing i acc t b fr with
  | nil =>
    obtain ⟨rfl, rfl, -⟩ := wrote_pure.1 h
    refine ⟨fr, .refl, ?_⟩
    rw [List.length_nil, List.range_zero, List.all_nil, Bool.and_true]
    exact hacc
  | cons ch name ih =>
    rw [List.length_cons] at hi
    simp only [keyeqFrom, wrote_bind] at h
    obtain ⟨byte, b₁, h₁, eqi, b₂, h₂, acc', b₃, h₃, h₄⟩ := h
    obtain ⟨fr₁, w₁, hbyte⟩ := loadU8Off_ran fl inp g h₁ hP hkp (by omega)
    obtain ⟨fr₂, w₂, heqi⟩ := byteEq_ran fl inp g h₂ hP hbyte
    obtain ⟨fr₃, w₃, hacc'⟩ := and_ran fl inp g h₃ hP (hacc.later (w₁.trans w₂).later) heqi
    have w₁₃ := w₁.trans (w₂.trans w₃)
    obtain ⟨fr₄, w₄, hr⟩ := ih h₄ (hkp.later w₁₃.later) hacc' (i := i + 1) (by omega)
    refine ⟨fr₄, w₁₃.trans w₄, ?_⟩
    have hhead : (some (inp.byte (q + (i + 0))) == (ch :: name)[0]?) = (inp.byte (q + i) == ch) := by
      rw [Nat.add_zero]
      rfl
    have htail : ∀ j, (some (inp.byte (q + (i + (j + 1)))) == (ch :: name)[j + 1]?) =
        (some (inp.byte (q + (i + 1 + j))) == name[j]?) := by
      intro j
      rw [List.getElem?_cons_succ, Nat.add_right_comm i 1 j, Nat.add_assoc i j 1]
    rw [List.length_cons, List.range_succ_eq_map, List.all_cons, List.all_map, hhead, ← Bool.and_assoc]
    simp only [Function.comp_def, htail]
    exact hr

theorem keyeq_ran (fl : FloatOps) (inp : Input) (g : Process) {r : ℕ}
    (h : Wrote code (keyeq kp kl name) b r b') (hP : P x.func = some code)
    (hkp : Carries b fr kp (.text q)) (hkl : Carries b fr kl (.nat n)) (hn : n < 2 ^ 64)
    (hname : name.length < maxSize) :
    ∃ fr', Went (system fl inp P) x g b fr b' fr' ∧
      Carries b' fr' r (.ofBool (Bilbo.keyeq inp q n name)) := by
  have hmax : maxSize < 2 ^ 64 := by decide
  obtain ⟨acc, b₁, h₁, h₂⟩ := wrote_bind.1 h
  obtain ⟨fr₁, w₁, hacc⟩ := icmpImm_ran fl inp g h₁ hP hkl hn (by omega)
  obtain ⟨fr₂, w₂, hr⟩ := keyeqFrom_ran fl inp g h₂ hP (hkp.later w₁.later) hacc (i := 0) (by omega)
  simp only [Nat.zero_add] at hr
  exact ⟨fr₂, w₁.trans w₂, hr⟩

theorem ofLe_lt {bs : Bytes} (h : bs.length ≤ 8) : ofLe bs < 2 ^ 64 := by
  have heq := ofLe_le bs.length (ofLe bs)
  rw [le_ofLe] at heq
  rw [heq]
  calc ofLe bs % 256 ^ bs.length < 256 ^ bs.length := Nat.mod_lt _ (Nat.pow_pos (by decide))
    _ ≤ 256 ^ 8 := Nat.pow_le_pow_right (by decide) h
    _ = 2 ^ 64 := by norm_num

theorem keyWord_lt (inp : Input) (q : ℕ) : keyWord inp q < 2 ^ 64 :=
  ofLe_lt (by rw [List.length_map, List.length_range])

/-- The masked word is compared as a number. -/
theorem masked_word {w m v : ℕ} (hw : w < 2 ^ 64) (hm : m < 2 ^ 64) (hv : v < 2 ^ 64) :
    IntCC.equal.holds (BitVec.ofNat 64 w &&& BitVec.ofNat 64 m).toNat (BitVec.ofNat 64 v).toNat =
      (w &&& m == v) := by
  rw [IntCC.holds, BitVec.toNat_and, toNat_ofNat hw, toNat_ofNat hm, toNat_ofNat hv]

/-- The test of a word has the word in a value. -/
theorem wordeq_ran (fl : FloatOps) (inp : Input) (g : Process) {w r : ℕ}
    (h : Wrote code (wordeq w kp kl name) b r b') (hP : P x.func = some code)
    (hw : Carries b fr w (.nat (keyWord inp q))) (hkp : Carries b fr kp (.text q))
    (hkl : Carries b fr kl (.nat n)) (hn : n < 2 ^ 64) (hname : name.length < maxSize) :
    ∃ fr', Went (system fl inp P) x g b fr b' fr' ∧
      Carries b' fr' r (.ofBool (Bilbo.wordeq inp q n name)) := by
  rw [Bilbo.wordeq]
  rcases h.ite with ⟨h8, h⟩ | ⟨h8, h⟩
  · simp only [wrote_bind] at h
    obtain ⟨lc, b₁, h₁, wm, b₂, h₂, we, b₃, h₃, h₄⟩ := h
    obtain ⟨fr₁, w₁, hlc⟩ := icmpImm_ran fl inp g h₁ hP hkl hn (by omega)
    obtain ⟨fr₂, w₂, hwm, -⟩ := op_ran fl inp g h₂ hP (.cons (hw.later w₁.later) .nil) rfl
    obtain ⟨fr₃, w₃, hwe, -⟩ := op_ran fl inp g h₃ hP (.cons hwm .nil) rfl
    obtain ⟨fr₄, w₄, hr⟩ := and_ran fl inp g h₄ hP (hlc.later (w₂.trans w₃).later) hwe
    refine ⟨fr₄, w₁.trans (w₂.trans (w₃.trans w₄)), ?_⟩
    have hmask : (if name.length = 8 then 2 ^ 64 - 1 else 1 <<< (8 * name.length) - 1) < 2 ^ 64 := by
      rw [mask_eq]
      have hpow : 2 ^ (8 * name.length) ≤ 2 ^ 64 := Nat.pow_le_pow_right (by decide) (by omega)
      omega
    have hword : ofLe (name ++ List.replicate (8 - name.length) 0) < 2 ^ 64 :=
      ofLe_lt (by rw [List.length_append, List.length_replicate]; omega)
    rw [masked_word (keyWord_lt inp q) hmask hword] at hr
    rw [if_pos h8]
    exact hr
  · rw [if_neg h8]
    exact keyeq_ran fl inp g h hP hkp hkl hn hname

/-! ## Chains -/

/-- A chain leads to the block of the first field that passes. -/
theorem chain_steps {test : Bytes → Build Value} {t : Bytes → Bool} (g : Process)
    (h : Wrote code (chain test skip arms) b u b') (hP : P x.func = some code)
    (hskip : skip.Written code) (harms : ∀ arm ∈ arms, arm.2.Written code)
    (htest : ∀ arm ∈ arms, ∀ {b₁ : Builder Op} {r : ℕ} {b₂ : Builder Op} {fr₁ : Frame Datum Scratch},
      Later b fr b₁ fr₁ → Wrote code (test arm.1.key) b₁ r b₂ →
        ∃ fr₂, Went (system fl inp P) x g b₁ fr₁ b₂ fr₂ ∧
          Carries b₂ fr₂ r (.ofBool (t arm.1.key))) :
    ∃ fr', Frame.Agree b.values fr fr' ∧ (system fl inp P).Steps (x.point b fr g) (x.start
      (((arms.find? fun arm => t arm.1.key).map Prod.snd).getD skip) [] fr' g) := by
  induction arms generalizing b fr with
  | nil => exact ⟨fr, .refl _ fr, .single (goes fl inp g h hP hskip .nil)⟩
  | cons arm arms ih =>
    simp only [chain, wrote_bind] at h
    obtain ⟨cond, b₁, h₁, nxt, b₂, h₂, ⟨⟩, b₃, h₃, ⟨⟩, b₄, h₄, h₅⟩ := h
    obtain ⟨fr₁, w₁, hcond⟩ := htest arm List.mem_cons_self (.refl b fr) h₁
    have w₂ := w₁.trans h₂.created
    have hbranch := branch_nil fl inp g h₃ hP (harms arm List.mem_cons_self)
      (wrote_switchToBlock h₄).2 (hcond.widen h₂.values)
    have hrun := w₂.steps.tail hbranch
    rw [List.find?_cons]
    cases ht : t arm.1.key with
    | true =>
      rw [ht, if_pos rfl] at hrun
      exact ⟨fr₁, w₁.later.agree, hrun⟩
    | false =>
      rw [ht, if_neg Bool.false_ne_true, h₄.start_eq, Frame.bind_nil] at hrun
      have hl₄ : Later b fr b₄ fr₁ := w₂.later.widen (h₃.values.trans h₄.values)
      obtain ⟨fr₅, hagree, hrun₅⟩ := ih h₅ (fun a ha => harms a (List.mem_cons_of_mem _ ha))
        fun a ha _ _ _ _ hl => htest a (List.mem_cons_of_mem _ ha) (hl₄.trans hl)
      exact ⟨fr₅, hl₄.agree.trans hagree hl₄.values, hrun.trans hrun₅⟩

/-- A block for what a dispatch finds. -/
def Chosen (arms : List Arm) (skip l : Blk) : Option FieldTy → Prop
  | some f => (f, l) ∈ arms
  | none => l = skip

theorem Chosen.mono {arms' : List Arm} {l : Blk} {o : Option FieldTy} (h : Chosen arms skip l o)
    (hsub : ∀ arm ∈ arms, arm ∈ arms') : Chosen arms' skip l o := by
  cases o with
  | some f => exact hsub (f, l) h
  | none => exact h

theorem chosen_find? (arms : List Arm) (skip : Blk) (t : FieldTy → Bool) :
    Chosen arms skip (((arms.find? fun arm => t arm.1).map Prod.snd).getD skip)
      ((arms.map Prod.fst).find? t) := by
  rw [List.find?_map]
  cases hfind : arms.find? (t ∘ Prod.fst) with
  | none =>
    have hfind' : arms.find? (fun arm => t arm.1) = none := hfind
    rw [hfind']
    rfl
  | some arm =>
    have hfind' : arms.find? (fun arm => t arm.1) = some arm := hfind
    rw [hfind']
    exact List.mem_of_find?_eq_some hfind

/-! ## The dispatch -/

theorem dispatchNarrow_steps (fl : FloatOps) (g : Process)
    (h : Wrote code (dispatchNarrow kp kl p arms skip) b u b')
    (hP : P x.func = some code) (hp : p.Live inp b fr) (hskip : skip.Written code)
    (harms : ∀ arm ∈ arms, arm.2.Written code) (hkp : Carries b fr kp (.text q))
    (hkl : Carries b fr kl (.nat n)) (hn : n < 2 ^ 64)
    (hkeys : ∀ arm ∈ arms, arm.1.key.length < maxSize) :
    ∃ l fr', Frame.Agree b.values fr fr' ∧
      (system fl inp P).Steps (x.point b fr g) (x.start l [] fr' g) ∧
      Chosen arms skip l ((arms.map Prod.fst).find? fun f =>
        if q + 8 ≤ inp.stop then Bilbo.wordeq inp q n f.key else Bilbo.keyeq inp q n f.key) := by
  simp only [dispatchNarrow, wrote_bind] at h
  obtain ⟨kp8, b₁, h₁, fits, b₂, h₂, fast, b₃, h₃, slow, b₄, h₄, ⟨⟩, b₅, h₅, ⟨⟩, b₆, h₆, w, b₇, h₇,
    ⟨⟩, b₈, h₈, ⟨⟩, b₉, h₉, h₁₀⟩ := h
  obtain ⟨fr₁, w₁, hkp8⟩ := advance_ran fl inp g h₁ hP hkp (n := 8) (by decide)
  obtain ⟨fr₂, w₂, hfits⟩ := icmp_text_ran fl inp g h₂ hP hkp8 (hp.end_.later w₁.later)
  have w₄ : Went (system fl inp P) x g b₂ fr₂ b₄ fr₂ := h₃.created.trans h₄.created
  have w₁₄ := w₁.trans (w₂.trans w₄)
  have hbranch := branch_nil fl inp g h₅ hP (wrote_switchToBlock h₆).2 (wrote_switchToBlock h₉).2
    (hfits.later w₄.later)
  have hrun := w₁₄.steps.tail hbranch
  rw [IntCC.holds] at hrun
  by_cases h8 : q + 8 ≤ inp.stop
  · simp only [if_pos h8]
    rw [decide_eq_true h8, if_pos rfl, h₆.start_eq, Frame.bind_nil] at hrun
    have hl₆ : Later b fr b₆ fr₂ := w₁₄.later.widen (h₅.values.trans h₆.values)
    obtain ⟨fr₇, w₇, hw, -⟩ := op_ran fl inp g h₇ hP (.cons (hkp.later hl₆) .nil) rfl
    rw [shift_zero] at hw
    have hl₇ := hl₆.trans w₇.later
    obtain ⟨fr₈, hagree, hrun₈⟩ := chain_steps (t := Bilbo.wordeq inp q n) g h₈ hP hskip harms
      fun arm harm _ _ _ _ hl htest => wordeq_ran fl inp g htest hP (hw.later hl)
        (hkp.later (hl₇.trans hl)) (hkl.later (hl₇.trans hl)) hn (hkeys arm harm)
    exact ⟨_, fr₈, hl₇.agree.trans hagree hl₇.values, hrun.trans (w₇.steps.trans hrun₈),
      chosen_find? arms skip fun f => Bilbo.wordeq inp q n f.key⟩
  · simp only [if_neg h8]
    rw [decide_eq_false h8, if_neg Bool.false_ne_true, h₉.start_eq, Frame.bind_nil] at hrun
    have hl₉ : Later b fr b₉ fr₂ := w₁₄.later.widen (h₅.values.trans (h₆.values.trans
      (h₇.values.trans (h₈.values.trans h₉.values))))
    obtain ⟨fr₁₀, hagree, hrun₁₀⟩ := chain_steps (t := Bilbo.keyeq inp q n) g h₁₀ hP hskip harms
      fun arm harm _ _ _ _ hl htest => keyeq_ran fl inp g htest hP (hkp.later (hl₉.trans hl))
        (hkl.later (hl₉.trans hl)) hn (hkeys arm harm)
    exact ⟨_, fr₁₀, hl₉.agree.trans hagree hl₉.values, hrun.trans hrun₁₀,
      chosen_find? arms skip fun f => Bilbo.keyeq inp q n f.key⟩

/-- The blocks of the lengths have no parameters. -/
theorem createBuckets_ran {T : System (Config Datum Scratch Process) Stop} {m : List (ℕ × List Arm)}
    {buckets : List (ℕ × Blk × List Arm)} (g : Process) (fr : Frame Datum Scratch)
    (h : Wrote code (createBuckets m) b buckets b') :
    Went T x g b fr b' fr ∧ buckets.map (fun e => (e.1, e.2.2)) = m ∧
      ∀ e ∈ buckets, e.2.1.params = [] := by
  induction m generalizing b buckets with
  | nil =>
    obtain ⟨rfl, rfl, -⟩ := wrote_pure.1 h
    exact ⟨.refl, rfl, fun e he => absurd he List.not_mem_nil⟩
  | cons e m ih =>
    obtain ⟨len, bucket⟩ := e
    simp only [createBuckets, wrote_bind] at h
    obtain ⟨blk, b₁, h₁, rest, b₂, h₂, hr⟩ := h
    obtain ⟨rfl, rfl, -⟩ := wrote_pure.1 hr
    obtain ⟨w₂, hmap, hparams⟩ := ih h₂
    refine ⟨h₁.created.trans w₂, by rw [List.map_cons, hmap], fun e he => ?_⟩
    rcases List.mem_cons.1 he with rfl | he
    · exact h₁.block_params.1
    · exact hparams e he

theorem lookup_buckets (buckets : List (ℕ × Blk × List Arm)) (n : ℕ) :
    (buckets.map fun e => (e.1, e.2.1)).lookup n = (buckets.lookup n).map Prod.fst ∧
      (buckets.map fun e => (e.1, e.2.2)).lookup n = (buckets.lookup n).map Prod.snd := by
  induction buckets with
  | nil => exact ⟨rfl, rfl⟩
  | cons e buckets ih =>
    obtain ⟨len, blk, bucket⟩ := e
    simp only [List.map_cons, List.lookup_cons]
    cases n == len
    · exact ih
    · exact ⟨rfl, rfl⟩

theorem dispatchWide_steps (g : Process) (h : Wrote code (dispatchWide kp kl arms skip) b u b')
    (hP : P x.func = some code) (hskip : skip.Written code)
    (harms : ∀ arm ∈ arms, arm.2.Written code) (hkp : Carries b fr kp (.text q))
    (hkl : Carries b fr kl (.nat n)) (hn : n < 2 ^ 64)
    (hkeys : ∀ arm ∈ arms, arm.1.key.length < maxSize) :
    ∃ l fr', Frame.Agree b.values fr fr' ∧
      (system fl inp P).Steps (x.point b fr g) (x.start l [] fr' g) ∧
      Chosen arms skip l (((arms.map Prod.fst).filter fun f => f.key.length == n).find? fun f =>
        Bilbo.keyeq inp q n f.key) := by
  simp only [dispatchWide, wrote_bind] at h
  obtain ⟨buckets, b₁, h₁, ⟨⟩, b₂, h₂, h₃⟩ := h
  obtain ⟨w₁, hmap, -⟩ := createBuckets_ran (T := system fl inp P) (x := x) g fr h₁
  have hgroup := SortedMap.lookup_group (fun arm : Arm => arm.1.key.length) arms n
  obtain ⟨htable, hbucket⟩ := lookup_buckets buckets n
  have hindex : (semantics fl inp).index (fr.vals kl) = some n := by
    rw [hkl.2]
    exact congrArg some (toNat_ofNat hn)
  have hfilter : (arms.map Prod.fst).filter (fun f => f.key.length == n) =
      (arms.filter fun arm => arm.1.key.length == n).map Prod.fst := List.filter_map
  rw [hmap, byLen] at hbucket
  rw [hbucket] at hgroup
  rw [hfilter]
  cases hlookup : buckets.lookup n with
  | none =>
    -- no field has a name of this length
    rw [hlookup] at hgroup htable
    have htarget : (((buckets.map fun e => (e.1, e.2.1)).lookup n).getD skip).Written code := by
      rw [htable]
      exact hskip
    have hswitch := h₂.switch_step (S := semantics fl inp) (g := g) hP htarget hindex
    rw [htable] at hswitch
    refine ⟨skip, fr, .refl _ fr, w₁.steps.tail hswitch, ?_⟩
    rw [← hgroup]
    rfl
  | some e =>
    obtain ⟨blk, bucket⟩ := e
    rw [hlookup] at hgroup htable
    have hmem : (n, blk, bucket) ∈ buckets := by
      obtain ⟨l₁, l₂, hsplit, -⟩ := List.lookup_eq_some_iff.1 hlookup
      rw [hsplit]
      exact List.mem_append_right _ List.mem_cons_self
    obtain ⟨b₃, b₄, h₄, hle⟩ := h₃.forM_mem hmem
    obtain ⟨⟨⟩, b₅, h₅, h₆⟩ := wrote_bind.1 h₄
    have htarget : (((buckets.map fun e => (e.1, e.2.1)).lookup n).getD skip).Written code := by
      rw [htable]
      exact (wrote_switchToBlock h₅).2
    have hswitch := h₂.switch_step (S := semantics fl inp) (g := g) hP htarget hindex
    rw [htable] at hswitch
    have hrun := w₁.steps.tail hswitch
    have hstart : x.start ((Option.map Prod.fst (some (blk, bucket))).getD skip) [] fr g =
        x.point b₅ fr g := by
      show x.start blk [] fr g = _
      rw [h₅.start_eq, Frame.bind_nil]
    rw [hstart] at hrun
    have hl₅ : Later b fr b₅ fr := w₁.later.widen (h₂.values.trans (hle.trans h₅.values))
    have hsub : ∀ arm ∈ bucket, arm ∈ arms := by
      obtain rfl : bucket = _ := hgroup
      exact fun arm harm => List.mem_of_mem_filter harm
    obtain ⟨fr₆, hagree, hrun₆⟩ := chain_steps (t := Bilbo.keyeq inp q n) g h₆ hP hskip
      (fun arm harm => harms arm (hsub arm harm))
      fun arm harm _ _ _ _ hl htest => keyeq_ran fl inp g htest hP (hkp.later (hl₅.trans hl))
        (hkl.later (hl₅.trans hl)) hn (hkeys arm (hsub arm harm))
    refine ⟨_, fr₆, hl₅.agree.trans hagree hl₅.values, hrun.trans hrun₆, ?_⟩
    obtain rfl : bucket = _ := hgroup
    have hchosen := chosen_find? (arms.filter fun arm => arm.1.key.length == n) skip fun f =>
      Bilbo.keyeq inp q n f.key
    exact hchosen.mono fun arm harm => List.mem_of_mem_filter harm

/-- The code of the dispatch finds what the dispatch of the parser finds. -/
theorem dispatch_steps (g : Process) (h : Wrote code (dispatch kp kl p arms skip) b u b')
    (hP : P x.func = some code) (hp : p.Live inp b fr) (hskip : skip.Written code)
    (harms : ∀ arm ∈ arms, arm.2.Written code) (hkp : Carries b fr kp (.text q))
    (hkl : Carries b fr kl (.nat n)) (hn : n < 2 ^ 64)
    (hkeys : ∀ arm ∈ arms, arm.1.key.length < maxSize) :
    ∃ l fr', Frame.Agree b.values fr fr' ∧
      (system fl inp P).Steps (x.point b fr g) (x.start l [] fr' g) ∧
      Chosen arms skip l (Bilbo.dispatch inp q n (arms.map Prod.fst)).1 := by
  rw [Bilbo.dispatch, List.length_map]
  rcases h.ite with ⟨hwide, h⟩ | ⟨hnarrow, h⟩
  · rw [if_pos hwide, chain_fst]
    exact dispatchWide_steps g h hP hskip harms hkp hkl hn hkeys
  · rw [if_neg hnarrow]
    have hsteps := dispatchNarrow_steps fl g h hP hp hskip harms hkp hkl hn hkeys
    by_cases h8 : q + 8 ≤ inp.stop
    · simp only [if_pos h8] at hsteps ⊢
      rw [chain_fst]
      exact hsteps
    · simp only [if_neg h8] at hsteps ⊢
      rw [chain_fst]
      exact hsteps

end Emitter

end Bilbo
