import Bilbo.Frames
import Bilbo.Spans
import Bilbo.Vectors

/-!
# The strings in memory

A string is stored as a pointer and a length. What these two words designate when both are in place is
what the span decodes to, because the header lies in memory that was in use and the bytes in a block
that was not. So whether it is UTF-8 is up to where the scan started and to the escapes in the span.
-/

namespace Bilbo

open Base Comp

variable {inp : Input} {n b : ℕ}

/-! ## What is said of a string -/

/-- The stored words designate a byte string, which is UTF-8 exactly when the scan started at a
character and no escape in the span cuts one. -/
def StrOk (inp : Input) (start : ℕ) (cells : Option (List Cell)) : Prop :=
  ∃ bs, cells = some (ints bs) ∧
    (Utf8 bs ↔ Boundary (inp.rest start) ∧ ¬ CutsChar (strBody (inp.rest start)))

/-- Runs store strings of which that holds. -/
def storedLogic (inp : Input) : Logic State where
  rel s s' := ∀ start cells, .str start cells ∈ s'.trace →
    .str start cells ∈ s.trace ∨ StrOk inp start cells
  refl _ _ _ := Or.inl
  trans h h' start cells he := (h' start cells he).elim (h start cells) Or.inr
  guard _ := False
  anti _ h := h
  bound := .calls

/-- At least `b` bytes are in use. -/
abbrev InUse (b : ℕ) : State → Prop := fun s => b ≤ s.brk

/-- A run that returns frees none of the memory in use. -/
def Retains {α : Type} (x : M α) : Prop := ∀ b, Maintains (InUse b) x fun _ => True

section

variable {α : Type} {x : M α} {P : State → Prop}

theorem retains_of_maintains {dst k : ℕ} {V : α → Prop} (h : ∀ s₀, Maintains (Confined s₀ · dst k) x V) :
    Retains x :=
  fun _ s hs a s' hrun => ⟨hs.trans (h s s (.refl s dst k) a s' hrun).1.brk, trivial⟩

theorem stored_of_trace (htrace : ∀ s, (x.run s).2.trace = s.trace) (hretains : Retains x) :
    Triple (storedLogic inp) (InUse b) x fun _ s => InUse b s := by
  refine fun s hs => ⟨fun start cells he => .inl ?_, fun a ha => ?_, fun hg => hg.elim⟩
  · rwa [htrace] at he
  · exact (hretains b s hs a _ (Prod.ext ha rfl)).1

/-- A quiet step stores no string. -/
theorem Quiet.stored (h : Quiet x) (hretains : Retains x) :
    Triple (storedLogic inp) (InUse b) x fun _ s => InUse b s :=
  stored_of_trace (fun s => (h s).1) hretains

theorem stored_stateless (h : Stateless x) :
    Triple (storedLogic inp) (InUse b) x fun _ s => InUse b s := by
  apply stored_of_trace
  · intro s
    obtain ⟨o, ho⟩ := h
    rw [ho s]
  · exact @retains_of_maintains _ _ 0 0 _ fun _ => maintains_stateless h

/-- A run that needs no more than what is in use keeps what goes on holding when more is. -/
theorem stored_kept (h : ∀ s, P s → Triple (storedLogic inp) (InUse s.brk) x fun _ s' => InUse s.brk s')
    (hP : ∀ s s' : State, P s → s.brk ≤ s'.brk → P s') :
    Triple (storedLogic inp) P x fun _ s => P s := by
  intro s hs
  obtain ⟨hrel, hval, hend⟩ := h s hs s (Nat.le_refl _)
  exact ⟨hrel, fun a ha => hP s _ hs (hval a ha), hend⟩

end

/-! ## Steps that grow -/

theorem retains_storeCells (a : ℕ) (cs : List Cell) : Retains (storeCells a cs) :=
  fun _ => .modify fun _ h => h

theorem retains_storeInt (a k v : ℕ) : Retains (storeInt a k v) := retains_storeCells _ _

theorem retains_storePtr (a p : ℕ) : Retains (storePtr a p) := retains_storeCells _ _

theorem retains_storeImm (dst off v size : ℕ) : Retains (storeImm dst off v size) := retains_storeInt _ _ _

theorem retains_storeSeq (dst : ℕ) (seq : SeqLayout) (ptr cap len : ℕ) :
    Retains (storeSeq dst seq ptr cap len) :=
  fun b => (retains_storePtr _ _ b).bind fun _ _ => (retains_storeInt _ _ _ b).bind fun _ _ =>
    retains_storeInt _ _ _ b

theorem retains_memset0 (dst size : ℕ) : Retains (memset0 dst size) :=
  fun b => .forM fun _ _ => retains_storeInt _ _ _ b

theorem retains_defaultNone (dst : ℕ) (f : FieldTy) : Retains (defaultNone dst f) := by
  intro b
  rw [defaultNone]
  split
  · exact (retains_memset0 _ _ b).bind fun _ _ => retains_storeImm _ _ _ _ b
  · exact .pure trivial

theorem retains_storeSome (dst discOff discSize : ℕ) (someDiscr : Option ℕ) :
    Retains (storeSome dst discOff discSize someDiscr) := by
  cases someDiscr with
  | none => exact fun _ => .pure trivial
  | some sd => exact retains_storeImm _ _ _ _

theorem retains_callNewAt (env : Env) (addr dst : ℕ) : Retains (callNewAt env addr dst) := by
  rw [callNewAt]
  split
  · exact @retains_of_maintains _ _ dst 24 _ fun _ => maintains_mapNewAt (Nat.le_refl _)
  · exact fun _ => .fail _

theorem retains_callInsert (env : Env) (addr dst k v : ℕ) : Retains (callInsert env addr dst k v) := by
  rw [callInsert]
  split
  · exact @retains_of_maintains _ _ 0 0 _ fun _ => maintains_mapInsert _ _ _ _ _
  · exact fun _ => .fail _

theorem retains_strspan (inp : Input) (c : ℕ) : Retains (strspan inp c) :=
  @retains_of_maintains _ _ 0 0 _ fun _ => maintains_strspan inp c

theorem retains_rtF64v (fl : FloatOps) (inp : Input) (c : ℕ) : Retains (rtF64v fl inp c) :=
  fun _ => Maintains.bind (V := fun _ => True) (.modify fun _ h => h) fun _ _ => .pure trivial

/-! ## One string -/

/-- `emit_copy` leaves the trace alone, also when it does not return. -/
theorem trace_emitCopy (dst src len : ℕ) (s : State) :
    ((emitCopy inp n dst src len).run s).2.trace = s.trace := by
  let L : Logic State := ⟨fun s s' => s'.trace = s.trace, fun _ => rfl, fun h h' => h'.trans h,
    fun _ => False, fun _ h => h, .calls⟩
  have hquiet : ∀ {α : Type} {x : M α}, Quiet x → Triple L (fun _ => True) x fun _ _ => True :=
    fun h => h.triple fun _ _ heq => heq
  have hcp : ∀ w off, Quiet (cp inp src dst w off) := fun _ _ => quiet_cp _ _ _ _ _
  have hcopy : Triple L (fun _ => True) (emitCopy inp n dst src len) fun _ _ => True := by
    rw [emitCopy]
    split
    · refine Triple.bind (V := fun _ _ => True) ?_ fun _ => hquiet (hcp _ _)
      refine Triple.loop_calls rfl (fun _ _ => True) (fun i => ?_) n 0
      split
      · exact (hquiet (hcp _ _)).bind fun _ => Triple.pure fun _ _ => trivial
      · exact Triple.pure fun _ _ => trivial
    · refine hquiet ?_
      split
      · exact (hcp _ _).bind fun _ => hcp _ _
      · split
        · exact (hcp _ _).bind fun _ => hcp _ _
        · exact Quiet.ite (hcp _ _) (Quiet.pure _)
  exact (hcopy s trivial).1

theorem trace_buildStr (sp : StrSpan) (s : State) :
    ((buildStr inp n sp).run s).2.trace = s.trace := by
  rw [buildStr]
  split
  · exact (((quiet_rtUnescape _ _ _).bind fun _ => Quiet.get.bind fun _ => Quiet.pure _) s).1
  · have halloc := (quiet_rtAlloc sp.len s).1
    rw [bind_run]
    split
    · rename_i p s₁ hrun
      rw [hrun] at halloc
      have hcopy := @trace_emitCopy inp n p sp.start sp.len s₁
      rw [bind_run]
      split
      · rename_i hrun₁
        rw [hrun₁] at hcopy
        exact hcopy.trans halloc
      all_goals
        rename_i hrun₁
        rw [hrun₁] at hcopy
        exact hcopy.trans halloc
    all_goals
      rename_i hrun
      rw [hrun] at halloc
      exact halloc

/-- The bytes that `build_str` returns lie in a new block, and their number is no wrapped one. -/
theorem buildStr_new {sp : StrSpan} {buf blen : ℕ} {s s' : State}
    (h : (buildStr inp n sp).run s = (.done (buf, blen), s')) :
    (blen = 0 ∨ s.brk ≤ buf) ∧ blen < 2 ^ 64 := by
  have halloc : ∀ {len p : ℕ} {g : State}, (rtAlloc len).run s = (.done p, g) →
      (len = 0 ∨ s.brk ≤ p) ∧ len < 2 ^ 64 := by
    intro len p g hrun
    have hmax : isizeMax = 2 ^ 63 - 1 := rfl
    rw [rtAlloc, ite_run] at hrun
    split at hrun
    · omega
    · have hp := (@maintains_alloc s 0 0 len 1 s (.refl s 0 0) p g hrun).2
      omega
  rw [buildStr] at h
  split at h
  · cases hu : unescape (inp.span sp.start sp.len) with
    | none =>
      rw [rtUnescape, hu] at h
      cases h
    | some out =>
      rw [rtUnescape, hu] at h
      rw [bind_assoc_run, bind_run] at h
      split at h
      · rename_i hrun
        cases h
        exact halloc hrun
      all_goals cases h
  · rw [bind_run] at h
    split at h
    · rename_i hrun
      rw [bind_run] at h
      split at h
      · cases h
        exact halloc hrun
      all_goals cases h
    all_goals cases h

theorem stored_buildStr (sp : StrSpan) :
    Triple (storedLogic inp) (InUse b) (buildStr inp n sp) fun r s =>
      InUse b s ∧ (r.2 = 0 ∨ b ≤ r.1) ∧ r.2 < 2 ^ 64 ∧
        ∃ bs, decodeSpan inp sp = some bs ∧ readCells s.mem r.1 r.2 = ints bs := by
  have hretains : Retains (buildStr inp n sp) :=
    @retains_of_maintains _ _ 0 0 _ fun _ => maintains_buildStr inp n sp
  intro s hs
  obtain ⟨hrel, hval, hend⟩ := stored_of_trace (trace_buildStr sp) hretains s hs
  refine ⟨hrel, fun r hr => ?_, hend⟩
  obtain ⟨hnew, hlen⟩ := buildStr_new (Prod.ext hr rfl)
  exact ⟨hval r hr, hnew.imp_right fun h => hs.trans h, hlen, buildStr_designates (Prod.ext hr rfl)⟩

theorem stored_strspan (c : ℕ) :
    Triple (storedLogic inp) (InUse b) (strspan inp c) fun sp s =>
      sp = ⟨ws inp c + 1, (strscan inp (ws inp c)).len, (strscan inp (ws inp c)).after,
        (strscan inp (ws inp c)).esc⟩ ∧ InUse b s := by
  have hretains : Triple (storedLogic inp) (InUse b) (strspan inp c) fun _ s => InUse b s :=
    (quiet_strspan inp c).stored (retains_strspan inp c)
  refine (triple_strspan fun s s' htrace start cells he => .inl ?_).and hretains
  rwa [htrace] at he

/-- A string type with `k` bytes in use for the words: what they designate afterwards. -/
theorem stored_string (ht : Utf8 inp.text) {c dst k ptrOff lenOff : ℕ} (hroom : dst + k ≤ b)
    (store : ℕ → ℕ → M Unit) (hstore : ∀ p l s, ∃ m, (store p l).run s = (.done (), { s with mem := m }) ∧
      Overwrites s.mem m dst k ∧ readPtr m (dst + ptrOff) = some p ∧
      readNat m (dst + lenOff) 8 = some (l % 256 ^ 8)) :
    Triple (storedLogic inp) (InUse b) (do
      let sp ← strspan inp c
      let (buf, blen) ← buildStr inp n sp
      store buf blen
      emitStr sp.start (dst + ptrOff) (dst + lenOff)
      pure sp.after) fun _ s => InUse b s := by
  refine (stored_strspan c).bind fun sp => Triple.assume fun hsp => ?_
  subst hsp
  refine (stored_buildStr _).bind fun r => ?_
  rintro s ⟨hs, hnew, hlen, bs, hdec, hcells⟩
  obtain ⟨m, hrun, hout, hptr, hword⟩ := hstore r.1 r.2 s
  -- the words are in place, and the bytes have not moved
  have hdesignated : designated m (dst + ptrOff) (dst + lenOff) = some (ints bs) := by
    have hpow : (256 : ℕ) ^ 8 = 2 ^ 64 := by decide
    rw [hpow, Nat.mod_eq_of_lt hlen] at hword
    have hkept : readCells m r.1 r.2 = readCells s.mem r.1 r.2 := by
      apply readCells_congr
      intro i hi
      exact hout _ (by omega)
    rw [designated, hptr, hword, ← hcells, ← hkept]
    rfl
  have hstored : ((store r.1 r.2 >>= fun _ => emitStr (ws inp c + 1) (dst + ptrOff) (dst + lenOff) >>=
      fun _ => pure (strscan inp (ws inp c)).after : M ℕ)).run s =
      (.done (strscan inp (ws inp c)).after,
        { s with mem := m, trace := .str (ws inp c + 1) (some (ints bs)) :: s.trace }) := by
    rw [bind_done hrun, ← hdesignated]
    rfl
  rw [hstored]
  refine ⟨fun start cells he => ?_, fun a ha => ?_, fun hg => hg.elim⟩
  · rcases List.mem_cons.1 he with heq | he
    · cases heq
      exact .inr ⟨bs, rfl, decodeSpan_utf8_iff ht hdec⟩
    · exact .inl he
  · exact hs

/-! ## Room for the containers -/

/-- Between two iterations of `parse_vec`: the buffer is in use, and its size in bytes has not wrapped.
Elements of size zero need none. -/
def HasRoom (size : ℕ) (v : VecState) (s : State) : Prop :=
  size = 0 ∨ v.len ≤ v.cap ∧ v.cap * size < 2 ^ 63 ∧ (v.cap = 0 ∨ v.base + v.cap * size ≤ s.brk)

/-- There is room for one more element. -/
def HasSlot (size : ℕ) (v : VecState) (s : State) : Prop :=
  size = 0 ∨ v.len < v.cap ∧ v.cap * size < 2 ^ 63 ∧ v.base + v.cap * size ≤ s.brk

theorem HasSlot.grown {size : ℕ} {v : VecState} {s s' : State} (h : HasSlot size v s)
    (hbrk : s.brk ≤ s'.brk) : HasSlot size v s' :=
  h.imp_right fun h => ⟨h.1, h.2.1, h.2.2.trans hbrk⟩

/-- The slot is in use, and its address has not wrapped. -/
theorem HasSlot.room {size : ℕ} {v : VecState} {s : State} (h : HasSlot size v s) :
    size = 0 ∨ v.base + v.len * size % 2 ^ 64 + size ≤ s.brk := by
  rcases h with hzero | ⟨hlt, hsmall, hle⟩
  · exact .inl hzero
  · have hmul : (v.len + 1) * size ≤ v.cap * size := Nat.mul_le_mul_right size hlt
    rw [Nat.succ_mul] at hmul
    rw [Nat.mod_eq_of_lt (by omega)]
    omega

theorem rtRealloc_room {ptr old new align p : ℕ} {s g : State}
    (h : (rtRealloc ptr old new align).run s = (.done p, g)) :
    s.brk ≤ g.brk ∧ (new = 0 ∨ p + new ≤ g.brk) ∧ new ≤ isizeMax := by
  have halloc : ∀ {q : ℕ} {g : State}, (alloc new (max align 1)).run s = (.done q, g) →
      s.brk ≤ g.brk ∧ q + new ≤ g.brk ∧ new ≤ isizeMax := by
    intro q g hrun
    have hsmall := (@maintains_alloc s 0 0 new _ s (.refl s 0 0) q g hrun).2.2
    obtain ⟨-, hle, rfl⟩ := alloc_done hrun
    exact ⟨hle.trans (Nat.le_add_right _ _), Nat.le_refl _, hsmall⟩
  rw [rtRealloc, ite_run] at h
  split at h
  · rw [ite_run] at h
    split at h
    · cases h
      omega
    · obtain ⟨h₁, h₂, h₃⟩ := halloc h
      exact ⟨h₁, .inr h₂, h₃⟩
  · rw [ite_run] at h
    split at h
    · obtain ⟨q, s₁, hrun, hrest⟩ := bind_eq_done h
      obtain ⟨h₁, h₂, h₃⟩ := halloc hrun
      cases hrest
      exact ⟨h₁, .inr h₂, h₃⟩
    · cases h

theorem grow_room {size align : ℕ} {v w : VecState} {s g : State} (hsize : size < 2 ^ 62)
    (hv : HasRoom size v s) (h : (grow size align v).run s = (.done w, g)) :
    s.brk ≤ g.brk ∧ HasSlot size w g := by
  rw [grow, ite_run] at h
  split at h
  · rename_i hfull
    obtain ⟨p, s₁, hrun, hrest⟩ := bind_eq_done h
    cases hrest
    obtain ⟨hbrk, hroom, hsmall⟩ := rtRealloc_room hrun
    refine ⟨hbrk, ?_⟩
    rcases hv with hzero | ⟨hlen, hlt, -⟩
    · exact .inl hzero
    · by_cases hzero : size = 0
      · exact .inl hzero
      · right
        have hpos : 0 < size := Nat.pos_of_ne_zero hzero
        have hcap : v.cap ≤ v.cap * size := Nat.le_mul_of_pos_right _ hpos
        have hmax : isizeMax = 2 ^ 63 - 1 := rfl
        have hmul : v.cap * 2 * size = v.cap * size * 2 := Nat.mul_right_comm _ _ _
        have hnext : v.cap * 2 % 2 ^ 64 = v.cap * 2 := Nat.mod_eq_of_lt (by omega)
        rw [hnext] at hroom hsmall ⊢
        -- the new capacity is larger, and its size in bytes has not wrapped
        have hmore : v.len < if v.cap = 0 then 4 else v.cap * 2 := by
          split <;> omega
        have hnew : (if v.cap = 0 then 4 else v.cap * 2) * size % 2 ^ 64 =
            (if v.cap = 0 then 4 else v.cap * 2) * size := by
          apply Nat.mod_eq_of_lt
          split <;> omega
        rw [hnew] at hroom hsmall
        have hne : (if v.cap = 0 then 4 else v.cap * 2) * size ≠ 0 :=
          Nat.ne_of_gt (Nat.mul_pos (by omega) hpos)
        exact ⟨hmore, by show (if v.cap = 0 then 4 else v.cap * 2) * size < 2 ^ 63; omega,
          hroom.resolve_left hne⟩
  · rename_i hroom
    cases h
    refine ⟨Nat.le_refl _, hv.imp_right fun hcap => ?_⟩
    obtain ⟨hlen, hlt, hbase⟩ := hcap
    exact ⟨by omega, hlt, hbase.resolve_left (by omega)⟩

/-! ## Containers -/

section

variable {env : Env} {sz : RecCell → Option ℕ} {parse : Ty → ℕ → ℕ → M ℕ} {fields : List FieldTy}
  {size : FieldTy → ℕ} {k dst : ℕ}
  (hp : ∀ ty k dst c b, ty.Fits sz k → k = 0 ∨ dst + k ≤ b →
    Triple (storedLogic inp) (InUse b) (parse ty dst c) fun _ s => InUse b s)
include hp

/-- A part of a destination in use. -/
theorem stored_part {ty : Ty} {off j : ℕ} (hfits : ty.Fits sz j) (hoff : off + j ≤ k)
    (hroom : k = 0 ∨ dst + k ≤ b) (c : ℕ) :
    Triple (storedLogic inp) (InUse b) (parse ty (dst + off) c) fun _ s => InUse b s :=
  hp ty j (dst + off) c b hfits (by omega)

theorem stored_parseStruct (hsize : ∀ f ∈ fields, f.offset + size f ≤ k)
    (hfits : ∀ f ∈ fields, f.ty.Fits sz (size f)) (hroom : k = 0 ∨ dst + k ≤ b) (c : ℕ) :
    Triple (storedLogic inp) (InUse b) (parseStruct inp n parse fields dst c) fun _ s => InUse b s := by
  refine ((Quiet.forM (quiet_defaultNone dst) fields).stored fun b =>
    .forM fun f _ => retains_defaultNone dst f b).bind fun _ => ?_
  refine Triple.loop_calls rfl (fun _ => InUse b) (fun hc => ?_) n _
  refine (triple_loadU8 inp _).bind fun _ => Triple.assume fun _ => ?_
  split
  · exact Triple.pure fun _ h => h
  · refine ((quiet_strspan inp _).stored (retains_strspan inp _)).bind fun key => ?_
    refine Triple.bind (V := fun _ => InUse b) ?_ fun ac => ?_
    · rw [parseMember]
      split
      · rename_i f hf
        have hmem := dispatch_mem hf
        exact stored_part hp (hfits f hmem) (hsize f hmem) hroom _
      · exact Triple.pure fun _ h => h
    · exact (triple_pastComma inp ac).bind fun _ => Triple.assume fun _ => Triple.pure fun _ h => h

theorem stored_parseFields (hsize : ∀ f ∈ fields, f.offset + size f ≤ k)
    (hfits : ∀ f ∈ fields, f.ty.Fits sz (size f)) (hroom : k = 0 ∨ dst + k ≤ b) (c : ℕ) :
    Triple (storedLogic inp) (InUse b) (parseFields inp parse dst fields c) fun _ s => InUse b s := by
  induction fields generalizing c with
  | nil => exact Triple.pure fun _ h => h
  | cons f fields ih =>
    have hf := List.mem_cons_self (a := f) (l := fields)
    refine (stored_part hp (hfits f hf) (hsize f hf) hroom c).bind fun c => ?_
    refine (triple_pastComma inp c).bind fun c => Triple.assume fun _ => ?_
    exact ih (fun g hg => hsize g (List.mem_cons_of_mem _ hg))
      (fun g hg => hfits g (List.mem_cons_of_mem _ hg)) c

theorem stored_parseVec {elem : Ty} {size elemAlign : ℕ} {seq : SeqLayout} (helem : elem.Fits sz size)
    (hsize : size < 2 ^ 62) (c : ℕ) :
    Triple (storedLogic inp) (InUse b) (parseVec inp n parse elem size elemAlign seq dst c)
      fun _ s => InUse b s := by
  refine Triple.bind (V := fun _ => InUse b) ?_ fun v =>
    ((quiet_storeSeq _ _ _ _ _).stored (retains_storeSeq _ _ _ _ _)).bind fun _ =>
      Triple.pure fun _ h => h
  refine (Triple.loop_calls rfl (fun v s => InUse b s ∧ HasRoom size v s) (fun v => ?_) n _).conseq
    (fun s hs => ⟨hs, .inr ⟨Nat.le_refl _, ?_, .inl rfl⟩⟩) fun _ _ h => h
  · refine (triple_loadU8 inp _).bind fun _ => Triple.assume fun _ => ?_
    split
    · exact Triple.pure fun _ h => h.1
    -- room, the element, the comma, the event
    refine Triple.bind (V := fun w s => InUse b s ∧ HasSlot size w s) ?_ fun w => ?_
    · intro s hs
      obtain ⟨htrace, hend⟩ := quiet_grow size (max elemAlign 1) v s
      refine ⟨fun start cells he => .inl (htrace ▸ he), fun w hw => ?_, fun hg => hg.elim⟩
      obtain ⟨hbrk, hslot⟩ := grow_room hsize hs.2 (Prod.ext hw rfl)
      exact ⟨hs.1.trans hbrk, hslot⟩
    refine (stored_kept (fun s hs => hp _ _ _ _ _ helem hs.2.room)
      fun s s' hs hbrk => ⟨hs.1.trans hbrk, hs.2.grown hbrk⟩).bind fun ac => ?_
    refine (triple_pastComma inp ac).bind fun ac => Triple.assume fun _ => ?_
    refine Triple.bind (V := fun _ s => InUse b s ∧ HasSlot size w s) ?_ fun _ => ?_
    · refine Triple.modify (fun s _ start cells he => .inl ?_) fun _ h => h
      rcases List.mem_cons.1 he with heq | he
      · cases heq
      · exact he
    · refine Triple.pure fun s hs => ⟨hs.1, hs.2.imp_right fun ⟨hlt, hsmall, hle⟩ => ?_⟩
      exact ⟨hlt, hsmall, .inr hle⟩
  · show 0 * size < 2 ^ 63
    omega

theorem stored_parseMap {key val : Ty} {keySize valSize newAt insert : ℕ} (hkey : key.Fits sz keySize)
    (hval : val.Fits sz valSize) (c : ℕ) :
    Triple (storedLogic inp) (InUse b)
      (parseMap env inp n parse key keySize val valSize newAt insert dst c) fun _ s => InUse b s := by
  have hslot : ∀ (b : ℕ) (size : ℕ), Triple (storedLogic inp) (InUse b) (stackSlot size)
      fun p s => InUse b s ∧ p + size ≤ s.brk := by
    intro b size s hs
    have hle := le_alignUp s.brk (by decide : 0 < 8)
    refine ⟨fun start cells he => .inl he, fun p h => ?_, fun hg => hg.elim⟩
    cases h
    refine ⟨?_, Nat.le_refl _⟩
    show b ≤ alignUp s.brk 8 + size
    omega
  refine (hslot b _).bind fun kaddr => ?_
  intro s₁ hs₁
  -- the slots of the frame stay in use
  have hrest : Triple (storedLogic inp) (InUse s₁.brk) (do
      let vaddr ← stackSlot (max valSize 1)
      callNewAt env newAt dst
      loop (mapBody env inp parse key val insert dst kaddr vaddr) n (ws inp c + 1))
      fun _ s => InUse s₁.brk s := by
    refine (hslot s₁.brk _).bind fun vaddr => ?_
    intro s₂ hs₂
    have hloop : Triple (storedLogic inp) (InUse s₂.brk) (do
        callNewAt env newAt dst
        loop (mapBody env inp parse key val insert dst kaddr vaddr) n (ws inp c + 1))
        fun _ s => InUse s₂.brk s := by
      refine ((quiet_callNewAt env _ _).stored (retains_callNewAt env _ _)).bind fun _ => ?_
      refine Triple.loop_calls rfl (fun _ => InUse s₂.brk) (fun hc => ?_) n _
      refine (triple_loadU8 inp _).bind fun _ => Triple.assume fun _ => ?_
      split
      · exact Triple.pure fun _ h => h
      · refine (hp key keySize kaddr _ _ hkey ?_).bind fun c => ?_
        · have := hs₁.2
          have := hs₂.1
          right
          omega
        refine (hp val valSize vaddr _ _ hval ?_).bind fun c => ?_
        · have := hs₂.2
          right
          omega
        refine ((quiet_callInsert env _ _ _ _).stored (retains_callInsert env _ _ _ _)).bind fun _ => ?_
        exact (triple_pastComma inp c).bind fun _ => Triple.assume fun _ => Triple.pure fun _ h => h
    obtain ⟨hrel, hval, hend⟩ := hloop s₂ (Nat.le_refl _)
    exact ⟨hrel, fun a ha => hs₂.1.trans (hval a ha), hend⟩
  obtain ⟨hrel, hval, hend⟩ := hrest s₁ (Nat.le_refl _)
  exact ⟨hrel, fun a ha => hs₁.1.trans (hval a ha), hend⟩

end

/-! ## Every run of the emitted parser -/

/-- Every string that a run of the emitted parser stores is as the text says, whatever the type, if the
destination is in use. -/
theorem stored_parse {env : Env} {sz : RecCell → Option ℕ} (hcells : CellsFit env.cells sz)
    (ht : Utf8 inp.text) (d : ℕ) {ty : Ty} {k : ℕ} (hfits : ty.Fits sz k) {dst : ℕ}
    (hroom : k = 0 ∨ dst + k ≤ b) (c : ℕ) :
    Triple (storedLogic inp) (InUse b) (parse env inp n d ty dst c) fun _ s => InUse b s := by
  induction d generalizing ty k dst c b with
  | zero =>
    exact fun s hs => ⟨fun _ _ he => .inl he, nofun, fun hg => hg.elim⟩
  | succ d ih =>
    have hp : ∀ ty k dst c b, ty.Fits sz k → k = 0 ∨ dst + k ≤ b → Triple (storedLogic inp) (InUse b)
        (parse env inp n d ty dst c) fun _ s => InUse b s :=
      fun ty k dst c b hfits hroom => ih hfits hroom c
    have hint : ∀ {a k v : ℕ} {c' : ℕ}, Triple (storedLogic inp) (InUse b)
        (storeInt a k v >>= fun _ => pure c') fun _ s => InUse b s :=
      ((quiet_storeInt _ _ _).stored (retains_storeInt _ _ _)).bind fun _ => Triple.pure fun _ h => h
    have hfloat : ∀ {f : State → ℕ} {a k : ℕ}, Triple (storedLogic inp) (InUse b) (do
        let c ← rtF64v env.float inp c
        let s ← get
        storeInt a k (f s)
        pure c) fun _ s => InUse b s := by
      intro f a k
      refine ((quiet_rtF64v _ _ _).stored (retains_rtF64v _ _ _)).bind fun c => ?_
      exact Triple.get.bind fun s => hint.conseq (fun _ h => h.2) fun _ _ h => h
    cases hfits with
    | bool _ => exact (triple_loadU8 inp _).bind fun _ => Triple.assume fun _ => hint
    | char _ =>
      refine ((quiet_strspan inp c).stored (retains_strspan inp c)).bind fun sp => ?_
      exact (triple_loadU8 inp _).bind fun _ => Triple.assume fun _ => hint
    | u _ => exact (stored_stateless (stateless_intval inp n c false)).bind fun _ => hint
    | i _ => exact (stored_stateless (stateless_intval inp n c true)).bind fun _ => hint
    | f32 _ => exact hfloat
    | f64 _ => exact hfloat
    | struct size hsize hall => exact stored_parseStruct hp hsize hall hroom c
    | tuple size hsize hall =>
      exact (stored_parseFields hp hsize hall hroom _).bind fun _ => Triple.pure fun _ h => h
    | @str seq _ hseq =>
      have hinside := hseq.inside
      have hwords : dst + (max (max seq.ptrOff seq.capOff) seq.lenOff + 8) ≤ b := by omega
      refine stored_string ht hwords (fun p l => storeSeq dst seq p l l) fun p l s => ?_
      obtain ⟨m, hrun, hout, hptr, -, hlen⟩ := storeSeq_run hseq.ok dst p l l s
      exact ⟨m, hrun, hout, hptr, hlen⟩
    | vec helem hsize _ => exact stored_parseVec hp helem hsize c
    | @strRef ptrOff lenOff _ hptrOff hlenOff hapart hp' hl' =>
      have hwords : dst + (max ptrOff lenOff + 8) ≤ b := by omega
      exact stored_string ht hwords (storeStrRef dst ptrOff lenOff) fun p l s =>
        storeStrRef_run hptrOff hlenOff hapart dst p l s
    | unit => exact Triple.pure fun _ h => h
    | @boxed inner size align _ hinner _ =>
      refine Triple.bind (V := fun p s => InUse b s ∧ (size = 0 ∨ p + size ≤ s.brk)) ?_ fun p => ?_
      · intro s hs
        obtain ⟨htrace, -⟩ := quiet_rtBoxAlloc size align s
        refine ⟨fun start cells he => .inl (htrace ▸ he), fun p h => ?_, fun hg => hg.elim⟩
        have hrun : (rtBoxAlloc size align).run s = (.done p, ((rtBoxAlloc size align).run s).2) :=
          Prod.ext h rfl
        generalize ((rtBoxAlloc size align).run s).2 = g at hrun
        rw [rtBoxAlloc, ite_run] at hrun
        split at hrun
        · cases hrun
          exact ⟨hs, .inl (by assumption)⟩
        · obtain ⟨-, hle, rfl⟩ := alloc_done hrun
          refine ⟨?_, .inr (Nat.le_refl _)⟩
          show b ≤ p + size
          omega
      refine (stored_kept (fun s hs => ih hinner hs.2 c) fun s s' hs hbrk =>
        ⟨hs.1.trans hbrk, hs.2.imp_right fun h => h.trans hbrk⟩).bind fun after => ?_
      refine Triple.conseq ?_ (fun s (hs : InUse b s ∧ _) => hs.1) fun _ _ h => h
      exact ((quiet_storePtr _ _).stored (retains_storePtr _ _)).bind fun _ => Triple.pure fun _ h => h
    | opt _ _ _ _ hinner hpay =>
      refine (triple_loadU8 inp _).bind fun _ => Triple.assume fun _ => ?_
      split
      · refine ((quiet_memset0 _ _).stored (retains_memset0 _ _)).bind fun _ => ?_
        exact ((quiet_storeImm _ _ _ _).stored (retains_storeImm _ _ _ _)).bind fun _ =>
          Triple.pure fun _ h => h
      · refine (stored_part hp hinner hpay hroom _).bind fun cc => ?_
        exact ((quiet_storeSome _ _ _ _).stored (retains_storeSome _ _ _ _)).bind fun _ =>
          Triple.pure fun _ h => h
    | map hkey hval _ => exact stored_parseMap hp hkey hval c
    | @ref cell j _ hj hk =>
      cases hc : env.cells cell with
      | none =>
        rw [parse_ref_none hc]
        exact Triple.fail _
      | some body =>
        rw [parse_ref hc]
        refine Triple.get.bind fun s => ?_
        refine Triple.conseq ?_ (fun s' (hs : s = s' ∧ InUse b s') => hs.2) fun _ _ h => h
        refine (ih (hcells cell j body hj hc) (by omega) c).bind fun c' => ?_
        exact Triple.bind (V := fun _ => InUse b) (Triple.modify (fun _ _ _ _ he => .inl he)
          fun _ h => h) fun _ => Triple.pure fun _ h => h
    | unknown => exact Triple.fail _

/-- What the pointer and the length designate that a run stores for a string, read back from memory when
both are in place, is UTF-8 exactly when the scan started at a character and no escape in the span cuts
one. -/
theorem stored_string_utf8_iff (env : Env) (inp : Input) (n d : ℕ) (sz : RecCell → Option ℕ)
    (hcells : CellsFit env.cells sz) (ty : Ty) (k : ℕ) (hfits : ty.Fits sz k) (dst : ℕ) (s : State)
    (hroom : Room s dst k) (hs : s.trace = []) (ht : Utf8 inp.text) (start : ℕ)
    (words : Option (List Cell))
    (he : .str start words ∈ ((parse env inp n d ty dst 0).run s).2.trace) :
    ∃ bs, words = some (ints bs) ∧
      (Utf8 bs ↔ Boundary (inp.rest start) ∧ ¬ CutsChar (strBody (inp.rest start))) := by
  obtain ⟨hstored, -⟩ := stored_parse hcells ht d hfits hroom 0 s (Nat.le_refl _)
  rcases hstored start words he with he | he
  · rw [hs] at he
    cases he
  · exact he

theorem stringTy_fits (sz : RecCell → Option ℕ) : stringTy.Fits sz 24 := by
  refine .str ⟨?_, by decide⟩
  constructor <;> first | decide | (unfold Apart; decide)

theorem stored_string_quotedE : Utf8 quotedE.text ∧
    ∃ bs, some (ints [0xC3, 0xA9]) = some (ints bs) ∧
      (Utf8 bs ↔ Boundary (quotedE.rest 1) ∧ ¬ CutsChar (strBody (quotedE.rest 1))) :=
  ⟨by decide, stored_string_utf8_iff .bare quotedE 5 5 (fun _ => none) nofun stringTy 24 (stringTy_fits _)
    0 (.initial 24) (.inr (by decide)) rfl (by decide) 1 (some (ints [0xC3, 0xA9])) List.mem_cons_self⟩

/-- `é"`, which is no string: the scan takes the first byte of `é` for the quote. -/
def unquotedE : Input := ⟨[0xC3, 0xA9, 0x22], fun _ => 0, by decide⟩

/-- The parser of a `String` returns on `é"`, and the string in memory is not UTF-8. -/
theorem stored_string_unquotedE : Utf8 unquotedE.text ∧
    ((parse .bare unquotedE 5 5 stringTy 0 0).run (.initial 24)).1 = .done 3 ∧
    designated ((parse .bare unquotedE 5 5 stringTy 0 0).run (.initial 24)).2.mem 0 16 =
      some (ints [0xA9]) ∧
    ((parse .bare unquotedE 5 5 stringTy 0 0).run (.initial 24)).2.trace =
      [.str 1 (some (ints [0xA9]))] ∧
    ¬ Utf8 [0xA9] :=
  ⟨by decide, by decide, rfl, rfl, by decide⟩

end Bilbo
