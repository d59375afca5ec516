import Bilbo.Base.Building
import Bilbo.Emitter

/-!
# The emitter and the builder

Whatever the type is, the emitter never trips over the builder: it writes every block that it creates,
and no block twice, and gives each jump as many arguments as the block takes. It panics for the two
reasons that `nodeCalls` panics for, an unknown part and a cell without a function; otherwise the code
has just the calls that `nodeCalls` lists.
-/

namespace Bilbo

open Base Base.Cfg

namespace Emitter

open Clif

/-! ## Tokens -/

theorem peelWs_seals (c end_ : Value) {cont tail : Blk} (hcont : cont.params.length = 1)
    (htail : tail.params.length = 1) : Seals (peelWs c end_ cont tail) [cont, tail] := by
  intro sc todo cs b hout h
  refine (Neat.define _ _ h).bind fun inb b₁ h₁ => ?_
  refine (h₁.create 0).bind fun bchk b₂ ⟨hbchk, h₂⟩ => ?_
  refine .bind (h₂.brif List.mem_cons_self hbchk (by simp [hout]) hcont) fun _ b₃ h₃ => ?_
  refine (h₃.switch []).bind fun _ b₄ h₄ => ?_
  refine (Neat.define _ _ h₄).bind fun v b₅ h₅ => (Neat.define _ _ h₅).bind fun isWs b₆ h₆ =>
    (Neat.define _ _ h₆).bind fun c1 b₇ h₇ => ?_
  refine (h₇.brif (by simp [hout]) htail (by simp [hout]) hcont).mono fun _ b₈ h₈ => ?_
  exact h₈.weaken fun l hl => List.mem_cons_of_mem _ hl

theorem ws_neat (cur : Value) (p : Pctx) : Neat (ws cur p) := by
  intro sc todo cs b h
  refine (h.create 1).bind fun cont b₁ ⟨hcont, h₁⟩ => (h₁.create 1).bind fun b1 b₂ ⟨hb1, h₂⟩ =>
    (h₂.create 1).bind fun slow b₃ ⟨hslow, h₃⟩ => ?_
  refine (peelWs_seals cur p.end_ hcont hb1 (by simp) h₃).bind fun _ b₄ h₄ => ?_
  refine (h₄.switch [slow]).bind fun _ b₅ h₅ => ?_
  refine (peelWs_seals _ p.end_ hcont hslow (by simp) h₅).bind fun _ b₆ h₆ => ?_
  refine (h₆.switch []).bind fun _ b₇ h₇ => (Neat.define _ _ h₇).bind fun r b₈ h₈ => ?_
  refine .bind (h₈.jump (by simp) hcont) fun _ b₉ h₉ => (h₉.switch []).bind fun _ b₁₀ h₁₀ => .pure ?_
  exact h₁₀.weaken (by simp +contextual)

theorem strspan_neat (cur : Value) (p : Pctx) : Neat (strspan cur p) :=
  (ws_neat cur p).bind fun _ => (Neat.define _ _).bind fun _ => (Neat.define _ _).bind fun _ =>
    (Neat.define _ _).bind fun _ => (Neat.define _ _).bind fun _ => .pure _

theorem cp_neat (src dst : Value) (ty : Width) (off : Value) : Neat (cp src dst ty off) :=
  (Neat.define _ _).bind fun _ => (Neat.define _ _).bind fun _ => (Neat.define _ _).bind fun _ =>
    .effect _ _

theorem copyEnds_seals (dst src len z : Value) (ty : Width) {done : Blk} (hdone : done.params.length = 0) :
    Seals (copyEnds dst src len z ty done) [done] :=
  (cp_neat src dst ty z).seals fun _ => (Neat.define _ _).seals fun _ =>
    (cp_neat src dst ty _).seals fun _ => .jump hdone

theorem copyBig_seals (dst src len z : Value) {done : Blk} (hdone : done.params.length = 0) :
    Seals (copyBig dst src len z done) [done] := by
  intro sc todo cs b hout h
  refine (h.create 1).bind fun wh b₁ ⟨hwh, h₁⟩ => (h₁.create 1).bind fun wb b₂ ⟨hwb, h₂⟩ =>
    (h₂.create 0).bind fun tail b₃ ⟨htail, h₃⟩ => ?_
  refine .bind (h₃.jump (by simp) hwh) fun _ b₄ h₄ => (h₄.switch [tail, wb]).bind fun _ b₅ h₅ => ?_
  refine (Neat.define _ _ h₅).bind fun i8 b₆ h₆ => (Neat.define _ _ h₆).bind fun fits b₇ h₇ => ?_
  refine .bind (h₇.brif (by simp) hwb (by simp) htail) fun _ b₈ h₈ => ?_
  refine (h₈.switch [tail]).bind fun _ b₉ h₉ => (cp_neat _ _ _ _ h₉).bind fun _ b₁₀ h₁₀ => ?_
  refine (Neat.define _ _ h₁₀).bind fun i2 b₁₁ h₁₁ => .bind (h₁₁.jump (by simp) hwh) fun _ b₁₂ h₁₂ => ?_
  refine (h₁₂.switch []).bind fun _ b₁₃ h₁₃ => (Neat.define _ _ h₁₃).bind fun l8 b₁₄ h₁₄ => ?_
  refine (cp_neat _ _ _ _ h₁₄).bind fun _ b₁₅ h₁₅ => ?_
  refine (h₁₅.jump (by simp [hout]) hdone).mono fun _ b₁₆ h₁₆ => ?_
  exact h₁₆.weaken (by simp +contextual)

theorem copySmall_seals (dst src len z : Value) {done : Blk} (hdone : done.params.length = 0) :
    Seals (copySmall dst src len z done) [done] := by
  intro sc todo cs b hout h
  refine (h.create 0).bind fun s2 b₁ ⟨hs2, h₁⟩ => (h₁.create 0).bind fun s4 b₂ ⟨hs4, h₂⟩ => ?_
  refine (Neat.define _ _ h₂).bind fun ge4 b₃ h₃ =>
    .bind (h₃.brif (by simp) hs4 (by simp) hs2) fun _ b₄ h₄ => ?_
  refine (h₄.switch []).bind fun _ b₅ h₅ =>
    (copyEnds_seals dst src len z .i32 hdone (by simp [hout]) h₅).bind fun _ b₆ h₆ => ?_
  refine (h₆.switch []).bind fun _ b₇ h₇ => (h₇.create 0).bind fun do2 b₈ ⟨hdo2, h₈⟩ =>
    (h₈.create 0).bind fun s1 b₉ ⟨hs1, h₉⟩ => ?_
  refine (Neat.define _ _ h₉).bind fun ge2 b₁₀ h₁₀ =>
    .bind (h₁₀.brif (by simp) hdo2 (by simp) hs1) fun _ b₁₁ h₁₁ => ?_
  refine (h₁₁.switch [s1]).bind fun _ b₁₂ h₁₂ =>
    (copyEnds_seals dst src len z .i16 hdone (by simp [hout]) h₁₂).bind fun _ b₁₃ h₁₃ => ?_
  refine (h₁₃.switch []).bind fun _ b₁₄ h₁₄ => (h₁₄.create 0).bind fun one b₁₅ ⟨hone, h₁₅⟩ => ?_
  refine (Neat.define _ _ h₁₅).bind fun nz b₁₆ h₁₆ =>
    .bind (h₁₆.brif (by simp) hone (by simp [hout]) hdone) fun _ b₁₇ h₁₇ => ?_
  refine (h₁₇.switch []).bind fun _ b₁₈ h₁₈ => (cp_neat _ _ _ _ h₁₈).bind fun _ b₁₉ h₁₉ => ?_
  refine (h₁₉.jump (by simp [hout]) hdone).mono fun _ b₂₀ h₂₀ => ?_
  exact h₂₀.weaken (by simp +contextual)

theorem emitCopy_neat (dst src len : Value) : Neat (emitCopy dst src len) := by
  intro sc todo cs b h
  refine (Neat.define _ _ h).bind fun z b₁ h₁ => (h₁.create 0).bind fun big b₂ ⟨hbig, h₂⟩ =>
    (h₂.create 0).bind fun small b₃ ⟨hsmall, h₃⟩ => (h₃.create 0).bind fun done b₄ ⟨hdone, h₄⟩ => ?_
  refine (Neat.define _ _ h₄).bind fun ge8 b₅ h₅ =>
    .bind (h₅.brif (by simp) hbig (by simp) hsmall) fun _ b₆ h₆ => ?_
  refine (h₆.switch [done, small]).bind fun _ b₇ h₇ =>
    (copyBig_seals dst src len z hdone (by simp) h₇).bind fun _ b₈ h₈ => ?_
  refine (h₈.switch [done]).bind fun _ b₉ h₉ =>
    (copySmall_seals dst src len z hdone (by simp) h₉).bind fun _ b₁₀ h₁₀ => ?_
  refine (h₁₀.switch []).mono fun _ b₁₁ h₁₁ => ?_
  exact h₁₁.weaken (by simp +contextual)

theorem buildStr_neat (sp sl esc : Value) (p : Pctx) : Neat (buildStr sp sl esc p) := by
  intro sc todo cs b h
  refine (h.create 0).bind fun fast b₁ ⟨hfast, h₁⟩ => (h₁.create 0).bind fun slow b₂ ⟨hslow, h₂⟩ =>
    (h₂.create 2).bind fun cont b₃ ⟨hcont, h₃⟩ => ?_
  refine .bind (h₃.brif (by simp) hslow (by simp) hfast) fun _ b₄ h₄ => ?_
  refine (h₄.switch [cont, slow]).bind fun _ b₅ h₅ => (Neat.define _ _ h₅).bind fun buf b₆ h₆ =>
    (emitCopy_neat _ _ _ h₆).bind fun _ b₇ h₇ => .bind (h₇.jump (by simp) hcont) fun _ b₈ h₈ => ?_
  refine (h₈.switch [cont]).bind fun _ b₉ h₉ => (Neat.define _ _ h₉).bind fun buf b₁₀ h₁₀ =>
    (Neat.define _ _ h₁₀).bind fun dl b₁₁ h₁₁ => .bind (h₁₁.jump (by simp) hcont) fun _ b₁₂ h₁₂ => ?_
  refine (h₁₂.switch []).bind fun _ b₁₃ h₁₃ => .pure ?_
  exact h₁₃.weaken (by simp +contextual)

theorem digits_neat (cur : Value) (p : Pctx) : Neat (digits cur p) := by
  intro sc todo cs b h
  refine (h.create 2).bind fun head b₁ ⟨hhead, h₁⟩ => (h₁.create 2).bind fun chk b₂ ⟨hchk, h₂⟩ =>
    (h₂.create 2).bind fun done b₃ ⟨hdone, h₃⟩ => ?_
  refine (Neat.define _ _ h₃).bind fun z b₄ h₄ => .bind (h₄.jump (by simp) hhead) fun _ b₅ h₅ => ?_
  refine (h₅.switch [done, chk]).bind fun _ b₆ h₆ => (Neat.define _ _ h₆).bind fun inb b₇ h₇ =>
    .bind (h₇.brif (by simp) hchk (by simp) hdone) fun _ b₈ h₈ => ?_
  refine (h₈.switch [done]).bind fun _ b₉ h₉ => (Neat.define _ _ h₉).bind fun d b₁₀ h₁₀ =>
    (Neat.define _ _ h₁₀).bind fun _ b₁₁ h₁₁ => (Neat.define _ _ h₁₁).bind fun isDig b₁₂ h₁₂ =>
    (Neat.define _ _ h₁₂).bind fun v10 b₁₃ h₁₃ => (Neat.define _ _ h₁₃).bind fun vn b₁₄ h₁₄ =>
    (Neat.define _ _ h₁₄).bind fun c1 b₁₅ h₁₅ => ?_
  refine .bind (h₁₅.brif (by simp) hhead (by simp) hdone) fun _ b₁₆ h₁₆ => ?_
  refine (h₁₆.switch []).bind fun _ b₁₇ h₁₇ => .pure ?_
  exact h₁₇.weaken (by simp +contextual)

theorem intval_neat (cur : Value) (p : Pctx) (signed : Bool) : Neat (intval cur p signed) := by
  have hminus : ∀ b0, Neat (minusSign signed b0) := fun _ => .ite (.define _ _) (.define _ _)
  have hnegated : ∀ neg val, Neat (negated signed neg val) := fun _ _ =>
    .ite ((Neat.define _ _).bind fun _ => .define _ _) (.pure _)
  refine (ws_neat cur p).bind fun cur => (Neat.define _ _).bind fun b0 => (hminus b0).bind fun neg => ?_
  refine (Neat.define _ _).bind fun _ => (Neat.define _ _).bind fun _ => (Neat.define _ _).bind fun _ =>
    (Neat.define _ _).bind fun _ => (digits_neat _ p).bind fun x => ?_
  exact (hnegated neg x.2).bind fun _ => .pure _

theorem pastComma_neat (c : Value) (p : Pctx) : Neat (pastComma c p) :=
  (ws_neat c p).bind fun _ => (Neat.define _ _).bind fun _ => (Neat.define _ _).bind fun _ =>
    (Neat.define _ _).bind fun _ => .define _ _

/-! ## Key dispatch -/

theorem keyeqFrom_neat (kp : Value) (name : Bytes) (i : ℕ) (acc : Value) :
    Neat (keyeqFrom kp i name acc) := by
  induction name generalizing i acc with
  | nil => exact .pure _
  | cons ch name ih =>
    exact (Neat.define _ _).bind fun _ => (Neat.define _ _).bind fun _ =>
      (Neat.define _ _).bind fun _ => ih (i + 1) _

theorem keyeq_neat (kp kl : Value) (name : Bytes) : Neat (keyeq kp kl name) :=
  (Neat.define _ _).bind fun _ => keyeqFrom_neat kp name 0 _

theorem wordeq_neat (w kp kl : Value) (name : Bytes) : Neat (wordeq w kp kl name) := by
  refine .ite ?_ (keyeq_neat kp kl name)
  exact (Neat.define _ _).bind fun _ => (Neat.define _ _).bind fun _ =>
    (Neat.define _ _).bind fun _ => .define _ _

/-- Each arm leads to a block without parameters. -/
theorem chain_seals {test : Bytes → Build Value} (htest : ∀ name, Neat (test name)) {skip : Blk}
    (hskip : skip.params.length = 0) {arms : List Arm} (harms : ∀ arm ∈ arms, arm.2.params.length = 0) :
    Seals (chain test skip arms) (skip :: arms.map Prod.snd) := by
  induction arms with
  | nil => exact .jump hskip
  | cons arm arms ih =>
    obtain ⟨harm, harms⟩ := List.forall_mem_cons.1 harms
    intro sc todo cs b hout h
    refine (htest arm.1.key h).bind fun cond b₁ h₁ => (h₁.create 0).bind fun next b₂ ⟨hnext, h₂⟩ => ?_
    refine .bind (h₂.brif (by simp [hout]) harm (by simp) hnext) fun _ b₃ h₃ => ?_
    refine (h₃.switch []).bind fun _ b₄ h₄ => ?_
    refine (ih harms (fun l hl => ?_) h₄).mono fun _ b₅ h₅ => h₅.weaken (by simp +contextual)
    rw [List.map_cons] at hout
    rcases List.mem_cons.1 hl with rfl | hl
    · exact List.mem_cons_of_mem _ (hout _ List.mem_cons_self)
    · exact List.mem_cons_of_mem _ (hout _ (List.mem_cons_of_mem _ (List.mem_cons_of_mem _ hl)))

/-- The blocks of the buckets are created, and the other parts are there already. -/
theorem createBuckets_safe {sc todo : List Blk} {cs : List FuncRef} {o : Bool} {b : Builder Op}
    {groups : List (ℕ × List Arm)} (h : At sc todo o cs b) :
    Safe (createBuckets groups) b fun buckets b' => At (buckets.map (fun x => x.2.1) ++ sc)
      (buckets.map (fun x => x.2.1) ++ todo) o cs b' ∧ (∀ x ∈ buckets, x.2.1.params.length = 0) ∧
      buckets.map (fun x => (x.1, x.2.2)) = groups := by
  induction groups generalizing sc todo b with
  | nil => exact .pure ⟨h, fun _ hx => absurd hx List.not_mem_nil, rfl⟩
  | cons y groups ih =>
    obtain ⟨len, arms⟩ := y
    refine (h.create 0).bind fun blk b₁ ⟨hblk, h₁⟩ =>
      (ih h₁).bind fun buckets b₂ ⟨h₂, hlen, hgroups⟩ => .pure ⟨?_, ?_, ?_⟩
    · refine (h₂.perm List.perm_middle).weaken fun l hl => ?_
      exact List.perm_middle.symm.mem_iff.1 hl
    · exact List.forall_mem_cons.2 ⟨hblk, hlen⟩
    · rw [List.map_cons, hgroups]

/-- The chains of the buckets, one after the other. -/
theorem buckets_safe {sc todo : List Blk} {cs : List FuncRef} {b : Builder Op} {kp kl : Value} {skip : Blk}
    (hskip : skip ∈ sc ∧ skip.params.length = 0) {buckets : List (ℕ × Blk × List Arm)}
    (harms : ∀ x ∈ buckets, ∀ arm ∈ x.2.2, arm.2 ∈ sc ∧ arm.2.params.length = 0)
    (h : At sc (buckets.map (fun x => x.2.1) ++ todo) false cs b) :
    Safe (buckets.forM fun x => do
      switchToBlock x.2.1
      chain (keyeq kp kl) skip x.2.2) b fun _ => At sc todo false cs := by
  induction buckets generalizing b with
  | nil => exact .pure h
  | cons x buckets ih =>
    obtain ⟨hx, harms⟩ := List.forall_mem_cons.1 harms
    refine .bind (.bind (h.switch []) fun _ b₁ h₁ => ?_) fun _ b₂ h₂ => ih harms h₂
    refine chain_seals (keyeq_neat kp kl) hskip.2 (fun arm harm => (hx arm harm).2) ?_ h₁
    simp only [List.forall_mem_cons, List.forall_mem_map]
    exact ⟨hskip.1, fun arm harm => (hx arm harm).1⟩

theorem dispatch_seals (kp kl : Value) (p : Pctx) {arms : List Arm} {skip : Blk}
    (hskip : skip.params.length = 0) (harms : ∀ arm ∈ arms, arm.2.params.length = 0) :
    Seals (dispatch kp kl p arms skip) (skip :: arms.map Prod.snd) := by
  intro sc todo cs b hout h
  rw [dispatch]
  split
  · have hin : ∀ arm ∈ arms, arm.2 ∈ sc := fun arm harm =>
      hout _ (List.mem_cons_of_mem _ (List.mem_map_of_mem harm))
    refine (createBuckets_safe h).bind fun buckets b₁ ⟨h₁, hlen, hgroups⟩ => ?_
    refine .bind (h₁.dispatch ⟨List.mem_append_right _ (hout _ List.mem_cons_self), hskip⟩ ?_)
      fun _ b₂ h₂ => ?_
    · simp only [List.forall_mem_map]
      exact fun x hx => ⟨List.mem_append_left _ (List.mem_map_of_mem hx), hlen x hx⟩
    · refine (buckets_safe ⟨List.mem_append_right _ (hout _ List.mem_cons_self), hskip⟩ ?_ h₂).mono
        fun _ b₃ h₃ => h₃.weaken fun l hl => List.mem_append_right _ hl
      intro x hx arm harm
      have hmem : (x.1, x.2.2) ∈ byLen arms := by
        rw [← hgroups]
        exact List.mem_map_of_mem hx
      have harm := SortedMap.mem_group hmem harm
      exact ⟨List.mem_append_right _ (hin arm harm), harms arm harm⟩
  · refine (Neat.define _ _ h).bind fun kp8 b₁ h₁ => (Neat.define _ _ h₁).bind fun canWord b₂ h₂ =>
      (h₂.create 0).bind fun fast b₃ ⟨hfast, h₃⟩ => (h₃.create 0).bind fun slow b₄ ⟨hslow, h₄⟩ => ?_
    refine .bind (h₄.brif (by simp) hfast (by simp) hslow) fun _ b₅ h₅ => ?_
    refine (h₅.switch [slow]).bind fun _ b₆ h₆ => (Neat.define _ _ h₆).bind fun w b₇ h₇ => ?_
    refine (chain_seals (wordeq_neat w kp kl) hskip harms (by simp +contextual [hout]) h₇).bind
      fun _ b₈ h₈ => ?_
    refine (h₈.switch []).bind fun _ b₉ h₉ => ?_
    refine (chain_seals (keyeq_neat kp kl) hskip harms (by simp +contextual [hout]) h₉).mono
      fun _ b₁₀ h₁₀ => ?_
    exact h₁₀.weaken (by simp +contextual)

/-! ## Values -/

theorem storeSized_neat (dst v : Value) (n : ℕ) : Neat (storeSized dst v n) :=
  (Neat.ite (.pure _) (.define _ _)).bind fun _ => .effect _ _

theorem storeImm_neat (dst : Value) (off val size : ℕ) : Neat (storeImm dst off val size) :=
  (Neat.define _ _).bind fun _ => .effect _ _

theorem memsetTail_neat (z dst : Value) (o rem : ℕ) (tys : List Width) :
    Neat (memsetTail z dst o rem tys) := by
  induction tys generalizing o rem with
  | nil => exact .pure _
  | cons ty tys ih =>
    refine .ite ?_ (ih o rem)
    exact (Neat.define _ _).bind fun _ => (Neat.effect _ _).bind fun _ => ih _ _

theorem memset0_neat (dst : Value) (size : ℕ) : Neat (memset0 dst size) :=
  (Neat.define _ _).bind fun _ => (Neat.forM fun _ => .effect _ _).bind fun _ => memsetTail_neat _ _ _ _ _

section

variable (p : Pctx)

theorem defaultNone_neat (dst : Value) (f : FieldTy) : Neat (defaultNone dst f) := by
  rw [defaultNone]
  split
  · exact (Neat.define _ _).bind fun _ => (Neat.define _ _).bind fun _ =>
      (memset0_neat _ _).bind fun _ => storeImm_neat _ _ _ _
  · exact .pure _

theorem parseBool_neat (dst cur : Value) : Neat (parseBool p dst cur) :=
  (ws_neat cur p).bind fun _ => (Neat.define _ _).bind fun _ => (Neat.define _ _).bind fun _ =>
    (Neat.define _ _).bind fun _ => (Neat.effect _ _).bind fun _ => (Neat.define _ _).bind fun _ =>
    (Neat.define _ _).bind fun _ => (Neat.define _ _).bind fun _ => .define _ _

theorem parseFloat_neat (single : Bool) (dst cur : Value) : Neat (parseFloat p single dst cur) := by
  have hstore : ∀ f, Neat (storeFloat single f dst) := fun _ =>
    .ite ((Neat.define _ _).bind fun _ => .effect _ _) (.effect _ _)
  exact (Neat.define _ _).bind fun _ => (Neat.define _ _).bind fun _ => (Neat.define _ _).bind fun f =>
    (hstore f).bind fun _ => .pure _

theorem callAddr_neat (addr : ℕ) (args : List Value) : Neat (callAddr addr args) :=
  (Neat.define _ _).bind fun _ => .effect _ _

/-! ## Containers -/

variable {recs : List (RecCell × FuncId)} {fields : List (FieldTy × Emit)} {sc todo : List Blk}
  {cs : List FuncRef} {o : Bool} {b : Builder Op} {r : Except String (List FuncId)}

/-- What emits the parser of a field calls what `nodeCalls` lists for the type of the field. -/
def FieldsCall (recs : List (RecCell × FuncId)) (fields : List (FieldTy × Emit)) : Prop :=
  ∀ y ∈ fields, ∀ dst cur, Calls (y.2 dst cur) (nodeCalls recs y.1.ty)

theorem fieldCalls_eq (f : FieldTy) : fieldCalls recs f = nodeCalls recs f.ty := by
  cases f
  rw [fieldCalls]

theorem parseFields_calls (h : FieldsCall recs fields) (dst c : Value) :
    Calls (parseFields p dst fields c) (fieldsCalls recs (fields.map Prod.fst)) := by
  induction fields generalizing c with
  | nil =>
    rw [List.map_nil, fieldsCalls]
    exact (Neat.pure _).calls
  | cons y fields ih =>
    obtain ⟨hy, hfields⟩ := List.forall_mem_cons.1 h
    rw [List.map_cons, fieldsCalls, fieldCalls_eq]
    refine (Neat.define _ _).bind_calls fun _ => (Neat.define _ _).bind_calls fun fdst =>
      (hy fdst c).bind fun c => ?_
    exact (pastComma_neat c p).bind_calls fun c => ih hfields c

theorem parseTuple_calls (h : FieldsCall recs fields) (dst cur : Value) :
    Calls (parseTuple p fields dst cur) (fieldsCalls recs (fields.map Prod.fst)) :=
  (ws_neat cur p).bind_calls fun _ => (Neat.define _ _).bind_calls fun c =>
    (parseFields_calls p h dst c).bind_neat fun c => (ws_neat c p).bind fun _ => .define _ _

theorem createArms_safe {fields : List FieldTy} (h : At sc todo o cs b) :
    Safe (createArms fields) b fun arms b' => At (arms.map Prod.snd ++ sc) (arms.map Prod.snd ++ todo) o
      cs b' ∧ (∀ arm ∈ arms, arm.2.params.length = 0) ∧ arms.map Prod.fst = fields := by
  induction fields generalizing sc todo b with
  | nil => exact .pure ⟨h, fun _ hx => absurd hx List.not_mem_nil, rfl⟩
  | cons f fields ih =>
    refine (h.create 0).bind fun l b₁ ⟨hl, h₁⟩ =>
      (ih h₁).bind fun arms b₂ ⟨h₂, hlen, hfields⟩ => .pure ⟨?_, ?_, ?_⟩
    · refine (h₂.perm List.perm_middle).weaken fun l hl => ?_
      exact List.perm_middle.symm.mem_iff.1 hl
    · exact List.forall_mem_cons.2 ⟨hl, hlen⟩
    · rw [List.map_cons, hfields]

/-- The blocks of the fields. -/
theorem arms_yield (hfields : FieldsCall recs fields) {arms : List Arm}
    (harms : arms.map Prod.fst = fields.map Prod.fst) (dst c : Value) {after : Blk}
    (hafter : after ∈ sc ∧ after.params.length = 1) (h : At sc (arms.map Prod.snd ++ todo) false cs b) :
    Yields ((arms.zip (fields.map Prod.snd)).forM (parseArm dst c after)) b
      (fieldsCalls recs (fields.map Prod.fst)) fun fs _ => At sc todo false (cs ++ fs) := by
  induction fields generalizing arms cs b with
  | nil =>
    obtain rfl : arms = [] := List.map_eq_nil_iff.1 harms
    rw [List.map_nil, List.map_nil, fieldsCalls]
    refine Safe.pure ?_
    show At sc todo false (cs ++ []) b
    rwa [List.append_nil]
  | cons y fields ih =>
    obtain ⟨hy, hfields⟩ := List.forall_mem_cons.1 hfields
    cases arms with
    | nil => cases harms
    | cons arm arms =>
      obtain ⟨-, harms⟩ := List.cons.inj harms
      rw [List.map_cons, List.map_cons, fieldsCalls, fieldCalls_eq]
      have hone : Yields (parseArm dst c after (arm, y.2)) b (nodeCalls recs y.1.ty) fun fs _ =>
          At sc (arms.map Prod.snd ++ todo) false (cs ++ fs) := by
        refine (h.switch []).yields fun _ b₁ h₁ => (Neat.define _ _ h₁).yields fun _ b₂ h₂ =>
          (Neat.define _ _ h₂).yields fun fdst b₃ h₃ => ?_
        exact Yields.safe (hy fdst c h₃) fun fs cc b₄ h₄ => h₄.jump hafter.1 hafter.2
      refine Yields.bind hone fun fs _ b' h' => ?_
      have hrest := ih hfields harms h'
      revert hrest
      cases fieldsCalls recs (fields.map Prod.fst) with
      | error e => exact id
      | ok gs =>
        intro hrest
        refine Safe.mono hrest fun _ b'' h'' => ?_
        have hat : At sc todo false (cs ++ fs ++ gs) b'' := h''
        rwa [List.append_assoc] at hat

/-- Up to the block for the rest of an iteration. -/
theorem untilEnd_safe {close : UInt8} {header cont : Blk} (hcont : cont ∈ sc ∧ cont.params.length = 1)
    (h : At sc todo true cs b) : Safe (untilEnd p close header cont) b fun body b' =>
      body.params.length = 1 ∧ At (body :: sc) (body :: todo) false cs b' := by
  refine (ws_neat _ p h).bind fun hc b₁ h₁ => (Neat.define _ _ h₁).bind fun bch b₂ h₂ =>
    (Neat.define _ _ h₂).bind fun isEnd b₃ h₃ => (h₃.create 1).bind fun body b₄ ⟨hbody, h₄⟩ =>
    (Neat.define _ _ h₄).bind fun hc1 b₅ h₅ => ?_
  refine .bind (h₅.brif (List.mem_cons_of_mem _ hcont.1) hcont.2 List.mem_cons_self hbody)
    fun _ b₆ h₆ => .pure ⟨hbody, h₆⟩

theorem parseMember_yields (hfields : FieldsCall recs fields) (dst bc : Value) {header : Blk}
    (hheader : header ∈ sc ∧ header.params.length = 1) (h : At sc todo true cs b) :
    Yields (parseMember p fields dst bc header) b (fieldsCalls recs (fields.map Prod.fst)) fun fs _ =>
      At sc todo false (cs ++ fs) := by
  refine (strspan_neat bc p h).yields fun k b₁ h₁ => (ws_neat _ p h₁).yields fun c b₂ h₂ =>
    (Neat.define _ _ h₂).yields fun c b₃ h₃ => (h₃.create 1).yields fun after b₄ ⟨hafter, h₄⟩ =>
    (createArms_safe h₄).yields fun arms b₅ ⟨h₅, harms, hmap⟩ =>
    (h₅.create 0).yields fun skip b₆ ⟨hskip, h₆⟩ => ?_
  refine (dispatch_seals _ _ p hskip harms (by simp +contextual) h₆).yields fun _ b₇ h₇ => ?_
  have hperm : (skip :: (arms.map Prod.snd ++ after :: todo)).Perm
      (arms.map Prod.snd ++ skip :: after :: todo) := List.perm_middle.symm
  refine Yields.safe (arms_yield hfields hmap dst c ⟨by simp, hafter⟩ (h₇.perm hperm))
    fun fs _ b₈ h₈ => ?_
  refine (h₈.switch []).bind fun _ b₉ h₉ => (Neat.define _ _ h₉).bind fun _ b₁₀ h₁₀ => ?_
  refine .bind (h₁₀.jump (by simp) hafter) fun _ b₁₁ h₁₁ => (h₁₁.switch []).bind fun _ b₁₂ h₁₂ =>
    (pastComma_neat _ p h₁₂).bind fun ac b₁₃ h₁₃ => ?_
  refine (h₁₃.jump (by simp [hheader]) hheader.2).mono fun _ b₁₄ h₁₄ => ?_
  exact h₁₄.weaken (by simp +contextual)

theorem parseStruct_calls (hfields : FieldsCall recs fields) (dst cur : Value) :
    Calls (parseStruct p fields dst cur) (fieldsCalls recs (fields.map Prod.fst)) := by
  intro sc todo cs b h
  refine (ws_neat cur p h).yields fun cur b₁ h₁ => (Neat.define _ _ h₁).yields fun cur b₂ h₂ =>
    (Neat.forM (fun (f : FieldTy × Emit) => defaultNone_neat dst f.1) h₂).yields fun _ b₃ h₃ =>
    (h₃.create 1).yields fun header b₄ ⟨hheader, h₄⟩ => (h₄.create 1).yields fun cont b₅ ⟨hcont, h₅⟩ => ?_
  refine Safe.yields (h₅.jump (by simp) hheader) fun _ b₆ h₆ => (h₆.switch [cont]).yields fun _ b₇ h₇ => ?_
  refine (untilEnd_safe p ⟨by simp, hcont⟩ h₇).yields fun body b₈ ⟨hbody, h₈⟩ =>
    (h₈.switch []).yields fun _ b₉ h₉ => ?_
  refine Yields.safe (parseMember_yields p hfields dst _ ⟨by simp, hheader⟩ h₉) fun fs _ b₁₀ h₁₀ => ?_
  refine (h₁₀.switch []).bind fun _ b₁₁ h₁₁ => .pure ?_
  exact h₁₁.weaken (by simp +contextual)

theorem growVec_seals (esz align : Value) (grow : Blk) {afterg : Blk} (hafterg : afterg.params.length = 4) :
    Seals (growVec esz align grow afterg) [afterg] :=
  (Neat.define _ _).seals fun _ => (Neat.define _ _).seals fun _ => (Neat.define _ _).seals fun _ =>
    (Neat.define _ _).seals fun _ => (Neat.define _ _).seals fun _ => (Neat.define _ _).seals fun _ =>
    (Neat.define _ _).seals fun _ => .jump hafterg

theorem parseVec_calls {elem : Emit} (helem : ∀ dst cur, Calls (elem dst cur) r) (elemSize elemAlign : ℕ)
    (seq : SeqLayout) (dst cur : Value) :
    Calls (parseVec p elem elemSize elemAlign seq dst cur) r := by
  intro sc todo cs b h
  refine (Neat.define _ _ h).yields fun esz b₁ h₁ => (Neat.define _ _ h₁).yields fun align b₂ h₂ =>
    (ws_neat cur p h₂).yields fun cur b₃ h₃ => (Neat.define _ _ h₃).yields fun c0 b₄ h₄ =>
    (Neat.define _ _ h₄).yields fun z b₅ h₅ => (h₅.create 4).yields fun head b₆ ⟨hhead, h₆⟩ =>
    (h₆.create 4).yields fun body b₇ ⟨hbody, h₇⟩ => (h₇.create 4).yields fun grow b₈ ⟨hgrow, h₈⟩ =>
    (h₈.create 4).yields fun afterg b₉ ⟨hafterg, h₉⟩ => (h₉.create 4).yields fun done b₁₀ ⟨hdone, h₁₀⟩ => ?_
  refine Safe.yields (h₁₀.jump (by simp) hhead) fun _ b₁₁ h₁₁ => ?_
  have hloop : Yields (parseElems p elem esz align head body grow afterg done) b₁₁ r fun fs _ =>
      At sc (done :: todo) false (cs ++ fs) := by
    refine (h₁₁.switch [done, afterg, grow, body]).yields fun _ b₁₂ h₁₂ =>
      (ws_neat _ p h₁₂).yields fun hc b₁₃ h₁₃ => (Neat.define _ _ h₁₃).yields fun bch b₁₄ h₁₄ =>
      (Neat.define _ _ h₁₄).yields fun isEnd b₁₅ h₁₅ => ?_
    refine Safe.yields (h₁₅.brif (by simp) hdone (by simp) hbody) fun _ b₁₆ h₁₆ =>
      (h₁₆.switch [done, afterg, grow]).yields fun _ b₁₇ h₁₇ =>
      (Neat.define _ _ h₁₇).yields fun full b₁₈ h₁₈ => ?_
    refine Safe.yields (h₁₈.brif (by simp) hgrow (by simp) hafterg) fun _ b₁₉ h₁₉ =>
      (h₁₉.switch [done, afterg]).yields fun _ b₂₀ h₂₀ =>
      (growVec_seals esz align grow hafterg (by simp) h₂₀).yields fun _ b₂₁ h₂₁ =>
      (h₂₁.switch [done]).yields fun _ b₂₂ h₂₂ => ?_
    refine (Neat.define _ _ h₂₂).yields fun aoff b₂₃ h₂₃ => (Neat.define _ _ h₂₃).yields fun edst b₂₄ h₂₄ =>
      Yields.safe (helem edst _ h₂₄) fun fs ac b₂₅ h₂₅ => ?_
    refine (pastComma_neat ac p h₂₅).bind fun ac b₂₆ h₂₆ =>
      (Neat.define _ _ h₂₆).bind fun alen1 b₂₇ h₂₇ => ?_
    refine (h₂₇.jump (by simp) hhead).mono fun _ b₂₈ h₂₈ => ?_
    exact h₂₈.weaken (by simp +contextual)
  refine Yields.safe hloop fun fs _ b₁₂ h₁₂ => (h₁₂.switch []).bind fun _ b₁₃ h₁₃ =>
    (ws_neat _ p h₁₃).bind fun fc b₁₄ h₁₄ => (Neat.define _ _ h₁₄).bind fun fc b₁₅ h₁₅ =>
    (Neat.effect _ _ h₁₅).bind fun _ b₁₆ h₁₆ => (Neat.effect _ _ h₁₆).bind fun _ b₁₇ h₁₇ =>
    (Neat.effect _ _ h₁₇).bind fun _ b₁₈ h₁₈ => .pure h₁₈

theorem parseMap_calls {key val : Emit} {r' : Except String (List FuncId)}
    (hkey : ∀ dst cur, Calls (key dst cur) r) (hval : ∀ dst cur, Calls (val dst cur) r')
    (keySize valSize newAt insert : ℕ) (dst cur : Value) :
    Calls (parseMap p key keySize val valSize newAt insert dst cur) (do
      let ks ← r
      let vs ← r'
      pure (ks ++ vs)) := by
  intro sc todo cs b h
  refine (callAddr_neat newAt [dst] h).yields fun _ b₁ h₁ =>
    (Neat.createStackSlot _ h₁).yields fun ks b₂ h₂ => (Neat.createStackSlot _ h₂).yields fun vs b₃ h₃ =>
    (ws_neat cur p h₃).yields fun cur b₄ h₄ => (Neat.define _ _ h₄).yields fun cur b₅ h₅ =>
    (h₅.create 1).yields fun header b₆ ⟨hheader, h₆⟩ => (h₆.create 1).yields fun cont b₇ ⟨hcont, h₇⟩ => ?_
  refine Safe.yields (h₇.jump (by simp) hheader) fun _ b₈ h₈ => (h₈.switch [cont]).yields fun _ b₉ h₉ => ?_
  refine (untilEnd_safe p ⟨by simp, hcont⟩ h₉).yields fun body b₁₀ ⟨hbody, h₁₀⟩ =>
    (h₁₀.switch []).yields fun _ b₁₁ h₁₁ => (Neat.define _ _ h₁₁).yields fun kaddr b₁₂ h₁₂ =>
    (Neat.define _ _ h₁₂).yields fun vaddr b₁₃ h₁₃ => ?_
  refine Yields.bind (hkey kaddr _ h₁₃) fun fs c b₁₄ h₁₄ => (ws_neat c p h₁₄).yields fun c b₁₅ h₁₅ =>
    (Neat.define _ _ h₁₅).yields fun c b₁₆ h₁₆ => Yields.bind (hval vaddr c h₁₆) fun gs c b₁₇ h₁₇ => ?_
  refine Safe.bind (callAddr_neat insert [dst, kaddr, vaddr] h₁₇) fun _ b₁₈ h₁₈ =>
    (pastComma_neat c p h₁₈).bind fun c b₁₉ h₁₉ => ?_
  refine .bind (h₁₉.jump (by simp) hheader) fun _ b₂₀ h₂₀ => (h₂₀.switch []).bind fun _ b₂₁ h₂₁ => .pure ?_
  have hat : At sc todo true (cs ++ fs ++ gs) b₂₁ := h₂₁.weaken (by simp +contextual)
  rwa [List.append_assoc] at hat

theorem storeSome_neat (dst : Value) (discOff discSize : ℕ) (someDiscr : Option ℕ) :
    Neat (storeSome dst discOff discSize someDiscr) := by
  cases someDiscr with
  | none => exact .pure _
  | some sd => exact storeImm_neat dst discOff sd discSize

theorem parseOpt_calls (discOff discSize noneDiscr : ℕ) (someDiscr : Option ℕ) (payloadOff size : ℕ)
    {inner : Emit} (hinner : ∀ dst cur, Calls (inner dst cur) r) (dst cur : Value) :
    Calls (parseOpt p discOff discSize noneDiscr someDiscr payloadOff size inner dst cur) r := by
  intro sc todo cs b h
  refine (ws_neat cur p h).yields fun c b₁ h₁ => (Neat.define _ _ h₁).yields fun byte b₂ h₂ =>
    (Neat.define _ _ h₂).yields fun isNull b₃ h₃ => (h₃.create 0).yields fun noneB b₄ ⟨hnone, h₄⟩ =>
    (h₄.create 0).yields fun someB b₅ ⟨hsome, h₅⟩ => (h₅.create 1).yields fun cont b₆ ⟨hcont, h₆⟩ => ?_
  refine Safe.yields (h₆.brif (by simp) hnone (by simp) hsome) fun _ b₇ h₇ =>
    (h₇.switch [cont, someB]).yields fun _ b₈ h₈ => (memset0_neat dst size h₈).yields fun _ b₉ h₉ =>
    (storeImm_neat dst discOff noneDiscr discSize h₉).yields fun _ b₁₀ h₁₀ =>
    (Neat.define _ _ h₁₀).yields fun c4 b₁₁ h₁₁ => ?_
  refine Safe.yields (h₁₁.jump (by simp) hcont) fun _ b₁₂ h₁₂ =>
    (h₁₂.switch [cont]).yields fun _ b₁₃ h₁₃ => (Neat.define _ _ h₁₃).yields fun _ b₁₄ h₁₄ =>
    (Neat.define _ _ h₁₄).yields fun pdst b₁₅ h₁₅ => ?_
  refine Yields.safe (hinner pdst c h₁₅) fun fs cc b₁₆ h₁₆ =>
    (storeSome_neat dst discOff discSize someDiscr h₁₆).bind fun _ b₁₇ h₁₇ => ?_
  refine .bind (h₁₇.jump (by simp) hcont) fun _ b₁₈ h₁₈ => (h₁₈.switch []).bind fun _ b₁₉ h₁₉ => .pure ?_
  exact h₁₉.weaken (by simp +contextual)

end

/-! ## Types -/

section

variable {recs : List (RecCell × FuncId)}

theorem withEmit_call {p : Pctx} {fields : List FieldTy}
    (h : ∀ f ∈ fields, ∀ dst cur, Calls (parse recs p f.ty dst cur) (nodeCalls recs f.ty)) :
    FieldsCall recs (withEmit recs p fields) := by
  intro y hy
  obtain ⟨hmem, hemit⟩ := mem_withEmit hy
  rw [hemit]
  exact h y.1 hmem

/-- What `parse` emits for a type calls what `nodeCalls` lists, and panics where it has an error. -/
theorem parse_calls (recs : List (RecCell × FuncId)) (p : Pctx) (ty : Ty) (dst cur : Value) :
    Calls (parse recs p ty dst cur) (nodeCalls recs ty) := by
  induction ty using Ty.induct generalizing dst cur with
  | bool => exact (parseBool_neat p dst cur).calls
  | u size =>
    exact ((intval_neat cur p false).bind fun _ => (storeSized_neat dst _ size).bind fun _ =>
      .pure _).calls
  | i size =>
    exact ((intval_neat cur p true).bind fun _ => (storeSized_neat dst _ size).bind fun _ =>
      .pure _).calls
  | f32 => exact (parseFloat_neat p true dst cur).calls
  | f64 => exact (parseFloat_neat p false dst cur).calls
  | char =>
    exact ((strspan_neat cur p).bind fun _ => (Neat.define _ _).bind fun _ =>
      (Neat.define _ _).bind fun _ => (Neat.effect _ _).bind fun _ => .pure _).calls
  | str seq =>
    exact ((strspan_neat cur p).bind fun _ => (buildStr_neat _ _ _ p).bind fun _ =>
      (Neat.effect _ _).bind fun _ => (Neat.effect _ _).bind fun _ =>
      (Neat.effect _ _).bind fun _ => .pure _).calls
  | strRef ptrOff lenOff =>
    exact ((strspan_neat cur p).bind fun _ => (buildStr_neat _ _ _ p).bind fun _ =>
      (Neat.effect _ _).bind fun _ => (Neat.effect _ _).bind fun _ => .pure _).calls
  | unit => exact (Neat.define _ _).calls
  | struct name fields ih =>
    have hcalls := parseStruct_calls p (withEmit_call (p := p) ih) dst cur
    rw [withEmit_fst] at hcalls
    exact hcalls
  | tuple fields ih =>
    have hcalls := parseTuple_calls p (withEmit_call (p := p) ih) dst cur
    rw [withEmit_fst] at hcalls
    exact hcalls
  | vec elem elemSize elemAlign seq ih => exact parseVec_calls p ih elemSize elemAlign seq dst cur
  | boxed inner size align ih =>
    exact (Neat.define _ _).bind_calls fun _ => (Neat.define _ _).bind_calls fun _ =>
      (Neat.define _ _).bind_calls fun bp => (ih bp cur).bind_neat fun _ =>
      (Neat.effect _ _).bind fun _ => .pure _
  | opt discOff discSize noneDiscr someDiscr payloadOff size inner ih =>
    exact parseOpt_calls p discOff discSize noneDiscr someDiscr payloadOff size ih dst cur
  | map key keySize val valSize newAt insert ihkey ihval =>
    exact parseMap_calls p ihkey ihval keySize valSize newAt insert dst cur
  | ref cell =>
    rw [parse, nodeCalls]
    cases recs.lookup cell with
    | none => exact .panic _
    | some fid => exact .call _ _
  | unknown why => exact .panic _

theorem emitOne_yields (recs : List (RecCell × FuncId)) (body : Ty) (isNode : Bool) :
    Yields (emitOne recs body isNode) .empty (nodeCalls recs body) fun fs _ => At [] [] false fs := by
  have hend : ∀ entry, Neat (entryEnd entry isNode) := fun _ => .ite (.pure _) (.define _ _)
  refine (At.empty.create 3).yields fun entry b₁ ⟨hentry, h₁⟩ => (h₁.switch []).yields fun _ b₂ h₂ =>
    (hend entry h₂).yields fun end_ b₃ h₃ => (Neat.createStackSlot 16 h₃).yields fun slot b₄ h₄ =>
    (Neat.define _ _ h₄).yields fun sc b₅ h₅ => ?_
  refine Yields.safe (parse_calls recs ⟨end_, sc⟩ body _ _ h₅) fun fs nc b₆ h₆ => ?_
  refine (h₆.terminate fun t ht => absurd ht List.not_mem_nil).mono fun _ b₇ h₇ => ?_
  exact h₇.weaken fun l hl => absurd hl List.not_mem_nil

end

end Emitter

end Bilbo
