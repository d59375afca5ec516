import Bilbo.Quiet

/-!
# Progress of the emitted loops

`parse_struct` and `parse_map` scan a key in every iteration, so their cursors move. An
iteration of `parse_vec` moves only if its element does or a comma follows: some types
can be parsed without taking a single byte. `Stalls` says when, in terms of the byte at
the cursor; every event of a run is then judged by the state before the iteration.
-/

namespace Bilbo

open Base Comp

/-! ## Elements that take no byte -/

/-- The length of the float token at a cursor. -/
def floatLen (fl : FloatOps) (inp : Input) (c : ℕ) : ℕ :=
  ((fl.parsePartial (inp.rest (rtWs inp c))).getD (0, 0)).2

/-- At the token at `c`, a value of the type is parsed without taking a byte. -/
inductive Stalls (env : Env) (inp : Input) (c : ℕ) : Ty → Prop
  | u {size : ℕ} : ¬ Ascii.isDigit (inp.byte c) → inp.byte c ≠ Ascii.plus →
      Stalls env inp c (.u size)
  | i {size : ℕ} : ¬ Ascii.isDigit (inp.byte c) → inp.byte c ≠ Ascii.plus →
      inp.byte c ≠ Ascii.minus → Stalls env inp c (.i size)
  | f32 : floatLen env.float inp c = 0 → Stalls env inp c .f32
  | f64 : floatLen env.float inp c = 0 → Stalls env inp c .f64
  | unit : endsScalar (inp.byte c) → Stalls env inp c .unit
  | boxed {inner : Ty} {size align : ℕ} : Stalls env inp c inner →
      Stalls env inp c (.boxed inner size align)
  | opt {discOff discSize noneDiscr : ℕ} {someDiscr : Option ℕ} {payloadOff size : ℕ}
      {inner : Ty} : inp.byte c ≠ 0x6E → Stalls env inp c inner →
      Stalls env inp c (.opt discOff discSize noneDiscr someDiscr payloadOff size inner)
  | ref {cell : RecCell} {body : Ty} : env.cells cell = some body → Stalls env inp c body →
      Stalls env inp c (.ref cell)

section Stalls

variable {env : Env} {inp : Input} {c : ℕ}

theorem stalls_u {size : ℕ} : Stalls env inp c (.u size) ↔
    ¬ Ascii.isDigit (inp.byte c) ∧ inp.byte c ≠ Ascii.plus := by
  constructor
  · intro h
    cases h with
    | u hdigit hplus => exact ⟨hdigit, hplus⟩
  · exact fun h => .u h.1 h.2

theorem stalls_i {size : ℕ} : Stalls env inp c (.i size) ↔
    ¬ Ascii.isDigit (inp.byte c) ∧ inp.byte c ≠ Ascii.plus ∧ inp.byte c ≠ Ascii.minus := by
  constructor
  · intro h
    cases h with
    | i hdigit hplus hminus => exact ⟨hdigit, hplus, hminus⟩
  · exact fun h => .i h.1 h.2.1 h.2.2

theorem stalls_f32 : Stalls env inp c .f32 ↔ floatLen env.float inp c = 0 := by
  constructor
  · intro h
    cases h with
    | f32 h => exact h
  · exact .f32

theorem stalls_f64 : Stalls env inp c .f64 ↔ floatLen env.float inp c = 0 := by
  constructor
  · intro h
    cases h with
    | f64 h => exact h
  · exact .f64

theorem stalls_unit : Stalls env inp c .unit ↔ endsScalar (inp.byte c) := by
  constructor
  · intro h
    cases h with
    | unit h => exact h
  · exact .unit

theorem stalls_boxed {inner : Ty} {size align : ℕ} :
    Stalls env inp c (.boxed inner size align) ↔ Stalls env inp c inner := by
  constructor
  · intro h
    cases h with
    | boxed h => exact h
  · exact .boxed

theorem stalls_opt {discOff discSize noneDiscr : ℕ} {someDiscr : Option ℕ} {payloadOff size : ℕ}
    {inner : Ty} :
    Stalls env inp c (.opt discOff discSize noneDiscr someDiscr payloadOff size inner) ↔
      inp.byte c ≠ 0x6E ∧ Stalls env inp c inner := by
  constructor
  · intro h
    cases h with
    | opt hbyte h => exact ⟨hbyte, h⟩
  · exact fun h => .opt h.1 h.2

theorem stalls_ref {cell : RecCell} {body : Ty} (hc : env.cells cell = some body) :
    Stalls env inp c (.ref cell) ↔ Stalls env inp c body := by
  constructor
  · intro h
    cases h with
    | ref hc' h =>
      obtain rfl : body = _ := Option.some.inj (hc.symm.trans hc')
      exact h
  · exact .ref hc

end Stalls

/-- An iteration of `parse_vec` that starts at `c` takes at least one byte. -/
def Advances (env : Env) (inp : Input) (elem : Ty) (c : ℕ) : Prop :=
  inp.byte c = Ascii.comma ∨ ¬ Stalls env inp c elem

/-! ## What is said of an event -/

/-- An event is as the state before it predicts. -/
def EventOk (env : Env) (inp : Input) : Event → Prop
  | .iter elem before after =>
    AtToken inp before ∧ before ≤ after ∧ (before < after ↔ Advances env inp elem before)
  | .str _ _ => True

/-- Every iteration so far advances, and loops may iterate once for each byte. -/
def AllAdvance (env : Env) (inp : Input) (n : ℕ) (s : State) : Prop :=
  inp.stop + 2 ≤ n ∧
    ∀ elem before after, .iter elem before after ∈ s.trace → Advances env inp elem before

/-- Runs extend the trace by events that are as predicted; when all iterations advance, no
loop runs out of iterations. -/
def progressLogic (env : Env) (inp : Input) (n : ℕ) : Logic State where
  rel s s' := s.trace <:+ s'.trace ∧ ∀ e ∈ s'.trace, e ∈ s.trace ∨ EventOk env inp e
  refl _ := ⟨List.suffix_rfl, fun _ h => Or.inl h⟩
  trans h h' := ⟨h.1.trans h'.1, fun e he => (h'.2 e he).elim (h.2 e) Or.inr⟩
  guard := AllAdvance env inp n
  anti h hg := ⟨hg.1, fun elem a b he => hg.2 elem a b (h.1.subset he)⟩
  bound := .iterations

variable {env : Env} {inp : Input} {n : ℕ}

theorem progressLogic_rel (s s' : State) (h : s'.trace = s.trace) :
    (progressLogic env inp n).rel s s' := by
  refine ⟨h ▸ List.suffix_rfl, fun e he => Or.inl ?_⟩
  rwa [h] at he

/-! ## Moving the cursor -/

/-- The cursor `c'` is not behind the smaller of `c` and `end`. -/
def Past (inp : Input) (c c' : ℕ) : Prop := min c inp.stop ≤ c'

theorem Past.of_le {c c' : ℕ} (h : c ≤ c') : Past inp c c' := (Nat.min_le_left _ _).trans h

theorem Past.trans {a b c : ℕ} (h : Past inp a b) (h' : Past inp b c) : Past inp a c := by
  simp only [Past] at *
  omega

theorem Past.of_succ {a b : ℕ} (h : Past inp (a + 1) b) : Past inp a b := by
  simp only [Past] at *
  omega

theorem Past.lt {a b : ℕ} (h : Past inp (a + 1) b) (ha : a < inp.stop) : a < b := by
  simp only [Past] at h
  omega

/-- What parsing a value of a type does to the cursor. -/
structure Moves (env : Env) (inp : Input) (ty : Ty) (c c' : ℕ) : Prop where
  past : Past inp c c'
  eq_iff : AtToken inp c → (c' = c ↔ Stalls env inp c ty)

/-- Most types take a byte. -/
theorem Moves.of_past {ty : Ty} {c c' : ℕ} (h : Past inp (c + 1) c')
    (hty : ¬ Stalls env inp c ty) : Moves env inp ty c c' :=
  ⟨h.of_succ, fun ht => iff_of_false (Nat.ne_of_gt (h.lt ht.lt)) hty⟩

/-- What stalls when a part does moves as the part does. -/
theorem Moves.of_part {ty part : Ty} {c c' : ℕ} (h : Moves env inp part c c')
    (hpart : Stalls env inp c ty ↔ Stalls env inp c part) : Moves env inp ty c c' :=
  ⟨h.past, fun ht => (h.eq_iff ht).trans hpart.symm⟩

/-! ## Tokens -/

/-- A state predicate that says nothing. -/
abbrev Any : State → Prop := fun _ => True

theorem Quiet.progress {α : Type} {x : M α} (h : Quiet x) :
    Triple (progressLogic env inp n) Any x fun _ _ => True :=
  h.triple progressLogic_rel

/-- The digit loop moves exactly over a digit. -/
theorem triple_digits (c v : ℕ) :
    Triple (progressLogic env inp n) Any (digits inp n (c, v)) fun r _ =>
      c ≤ r.1 ∧ (r.1 = c ↔ ¬ (c < inp.stop ∧ Ascii.isDigit (inp.byte c))) := by
  -- either nothing was read yet, or the first byte was a digit
  let J : ℕ × ℕ → Prop := fun b =>
    c ≤ b.1 ∧ (b.1 = c ∨ c < b.1 ∧ c < inp.stop ∧ Ascii.isDigit (inp.byte c))
  have hbody : ∀ b : ℕ × ℕ, Triple (progressLogic env inp n) (fun _ => J b)
      (if b.1 < inp.stop ∧ Ascii.isDigit (inp.byte b.1) then
        pure (.inl (b.1 + 1, (b.2 * 10 + ((inp.byte b.1).toNat - 0x30)) % 2 ^ 64))
      else pure (.inr b) : M ((ℕ × ℕ) ⊕ (ℕ × ℕ)))
      (Iterates (fun b' s => J b' ∧
          ((progressLogic env inp n).guard s → inp.stop - b'.1 < inp.stop - b.1))
        fun a _ => c ≤ a.1 ∧ (a.1 = c ↔ ¬ (c < inp.stop ∧ Ascii.isDigit (inp.byte c)))) := by
    intro b
    refine Triple.assume' fun ⟨hle, hcase⟩ => ?_
    split
    · next hd =>
      refine Triple.pure fun s _ => ⟨⟨by omega, Or.inr ⟨by omega, ?_⟩⟩, fun _ => by omega⟩
      rcases hcase with h | h
      · rwa [h] at hd
      · exact h.2
    · next hd =>
      refine Triple.pure fun s _ => ⟨hle, ?_⟩
      rcases hcase with h | h
      · rw [h] at hd
        exact iff_of_true h hd
      · exact iff_of_false (by omega) (by simpa using h.2)
  refine (Triple.loop (fun b _ => J b) (fun b => inp.stop - b.1) hbody n (c, v)).conseq
    (fun s _ => ⟨⟨Nat.le_refl _, Or.inl rfl⟩, fun hg => ?_⟩) fun _ _ h => h
  have := hg.1
  omega

/-- `intval` moves unless the byte is neither a digit nor a sign it knows. -/
theorem triple_intval (c : ℕ) (signed : Bool) :
    Triple (progressLogic env inp n) Any (intval inp n c signed) fun r _ =>
      Past inp c r.2 ∧ (AtToken inp c → (r.2 = c ↔ ¬ Ascii.isDigit (inp.byte c) ∧
        inp.byte c ≠ Ascii.plus ∧ (signed → inp.byte c ≠ Ascii.minus))) := by
  refine (triple_loadU8 inp (ws inp c)).bind fun b0 => Triple.assume fun ⟨hlt, hb0⟩ => ?_
  subst hb0
  refine (triple_digits _ 0).bind fun r => Triple.assume' fun ⟨hle, heq⟩ => ?_
  refine Triple.pure fun s _ => ⟨?_, fun ht => ?_⟩
  · refine Past.of_le ((le_ws inp c).trans (le_trans ?_ hle))
    split <;> omega
  · show r.1 = c ↔ _
    rw [ht.ws_eq] at hle heq
    by_cases hsign : (signed && inp.byte c == Ascii.minus || inp.byte c == Ascii.plus) = true
    · rw [if_pos hsign] at hle
      refine iff_of_false (fun h => ?_) (fun h => ?_)
      · rw [h] at hle
        exact absurd hle (Nat.not_succ_le_self c)
      · simp only [Bool.or_eq_true, Bool.and_eq_true, beq_iff_eq] at hsign
        exact hsign.elim (fun hs => h.2.2 hs.1 hs.2) h.2.1
    · rw [if_neg hsign] at heq
      rw [heq]
      simp only [Bool.or_eq_true, Bool.and_eq_true, beq_iff_eq, not_or, not_and] at hsign
      simp only [ht.lt, true_and]
      exact ⟨fun h => ⟨h, hsign.2, hsign.1⟩, fun h => h.1⟩

/-- The cursor behind a string. -/
theorem past_strscan (c : ℕ) : Past inp (c + 1) (strscan inp (ws inp c)).after := by
  have h1 := le_strscan_after inp (ws inp c)
  have h2 := le_ws inp c
  simp only [Past]
  omega

/-- `rt_f64v` moves over the token. -/
theorem triple_rtF64v (fl : FloatOps) (c : ℕ) :
    Triple (progressLogic env inp n) Any (rtF64v fl inp c) fun c' _ =>
      c' = rtWs inp c + floatLen fl inp c := by
  refine fun s _ => ⟨progressLogic_rel _ _ rfl, fun c' h => ?_, fun _ => id⟩
  cases h
  rfl

theorem past_float (fl : FloatOps) (c : ℕ) : Past inp c (rtWs inp c + floatLen fl inp c) :=
  Past.of_le ((le_rtWs _ _).trans (Nat.le_add_right _ _))

theorem AtToken.float_eq_iff {c : ℕ} (h : AtToken inp c) (fl : FloatOps) :
    rtWs inp c + floatLen fl inp c = c ↔ floatLen fl inp c = 0 := by
  rw [h.rtWs_eq]
  omega

/-! ## Strings -/

/-- The word loop of the copy ends, since each word lies inside the input. -/
theorem triple_copyWords (dst src len i : ℕ) :
    Triple (progressLogic env inp n) Any (copyWords inp dst src len n i) fun _ _ => True := by
  refine (Triple.loop (fun _ _ => True) (fun i => inp.stop - (src + i)) (fun i => ?_) n i).conseq
    (fun s _ => ⟨trivial, fun hg => ?_⟩) fun _ _ h => h
  · split
    · rw [cp]
      split
      · exact ((quiet_storeCells _ _).progress).bind fun _ => Triple.pure fun s _ =>
          ⟨trivial, fun _ => by omega⟩
      · exact (Triple.fail (V := fun _ _ => False) _).bind fun _ => fun s hs => hs.elim
    · exact Triple.pure fun s _ => trivial
  · have := hg.1
    omega

theorem triple_emitCopy (dst src len : ℕ) :
    Triple (progressLogic env inp n) Any (emitCopy inp n dst src len) fun _ _ => True := by
  rw [emitCopy]
  split
  · exact (triple_copyWords dst src len 0).bind fun _ => (quiet_cp _ _ _ _ _).progress
  · refine Quiet.progress ?_
    split
    · exact (quiet_cp _ _ _ _ _).bind fun _ => quiet_cp _ _ _ _ _
    · split
      · exact (quiet_cp _ _ _ _ _).bind fun _ => quiet_cp _ _ _ _ _
      · exact Quiet.ite (quiet_cp _ _ _ _ _) (Quiet.pure _)

theorem triple_buildStr (sp : StrSpan) :
    Triple (progressLogic env inp n) Any (buildStr inp n sp) fun _ _ => True := by
  rw [buildStr]
  split
  · exact ((quiet_rtUnescape _ _ _).bind fun _ => Quiet.get.bind fun _ => Quiet.pure _).progress
  · exact (quiet_rtAlloc _).progress.bind fun _ => (triple_emitCopy _ _ _).bind fun _ =>
      Triple.pure fun _ _ => trivial

/-- Logging what went as predicted. -/
theorem triple_emit {e : Event} (h : EventOk env inp e) :
    Triple (progressLogic env inp n) Any (emit e) fun _ s => e ∈ s.trace := by
  refine Triple.modify (fun s _ => ⟨List.suffix_cons _ _, fun e' he => ?_⟩)
    fun s _ => List.mem_cons_self
  rcases List.mem_cons.1 he with rfl | he
  · exact Or.inr h
  · exact Or.inl he

theorem triple_emitStr (start p l : ℕ) :
    Triple (progressLogic env inp n) Any (emitStr start p l) fun _ _ => True :=
  Quiet.get.progress.bind fun s =>
    (triple_emit (e := .str start (designated s.mem p l)) trivial).post fun _ _ _ => trivial

/-- A string type: scan, build, store the words, log. -/
theorem triple_string (c p l : ℕ) (store : ℕ → ℕ → M Unit) (hstore : ∀ p l, Quiet (store p l)) :
    Triple (progressLogic env inp n) Any (do
      let sp ← strspan inp c
      let (buf, blen) ← buildStr inp n sp
      store buf blen
      emitStr sp.start p l
      pure sp.after) fun c' _ => Past inp (c + 1) c' := by
  refine (triple_strspan progressLogic_rel).bind fun sp => Triple.assume' fun hsp => ?_
  subst hsp
  refine (triple_buildStr _).bind fun r => (hstore r.1 r.2).progress.bind fun _ => ?_
  exact (triple_emitStr _ p l).bind fun _ => Triple.pure fun s _ => past_strscan c

/-! ## Containers -/

section Containers

variable {parse : Ty → ℕ → ℕ → M ℕ}
  (hp : ∀ ty dst c, Triple (progressLogic env inp n) Any (parse ty dst c)
    fun c' _ => Moves env inp ty c c')

include hp

/-- A member's value moves the cursor or leaves it. -/
theorem triple_parseMember (fields : List FieldTy) (dst : ℕ) (k : StrSpan) (c : ℕ) :
    Triple (progressLogic env inp n) Any (parseMember inp parse fields dst k c)
      fun c' _ => Past inp c c' := by
  rw [parseMember]
  split
  · exact (hp _ _ _).post fun c' _ hm => hm.past
  · exact Triple.pure fun _ _ => Past.of_le (le_rtSkip _ _)

omit hp in
/-- A comma behind a cursor. -/
theorem triple_pastComma_le (c : ℕ) :
    Triple (progressLogic env inp n) Any (pastComma inp c) fun c' _ => c ≤ c' := by
  refine (triple_pastComma inp c).post fun c' _ h => ?_
  rw [h.1.2]
  have := le_ws inp c
  split <;> omega

/-- An iteration of `parse_struct` moves over the key. -/
theorem triple_structBody (fields : List FieldTy) (dst c0 hc : ℕ) (hc0 : Past inp c0 hc) :
    Triple (progressLogic env inp n) Any (structBody inp parse fields dst hc)
      (Iterates (fun c s => Past inp c0 c ∧
          ((progressLogic env inp n).guard s → inp.stop - c < inp.stop - hc))
        fun c _ => Past inp c0 c) := by
  have hle := le_ws inp hc
  have hpast : Past inp c0 (ws inp hc) := hc0.trans (Past.of_le hle)
  refine (triple_loadU8 _ _).bind fun b => Triple.assume fun ⟨hlt, _⟩ => ?_
  split
  · exact Triple.pure fun _ _ => hpast.trans (Past.of_le (Nat.le_succ _))
  · refine (triple_strspan progressLogic_rel).bind fun k => Triple.assume' fun hk => ?_
    have hval : Past inp (ws inp hc + 1) (ws inp k.after + 1) := by
      rw [hk]
      exact (past_strscan _).trans (Past.of_le ((le_ws _ _).trans (Nat.le_succ _)))
    refine (triple_parseMember hp _ _ _ _).bind fun ac => Triple.assume' fun hac => ?_
    refine (triple_pastComma_le ac).bind fun c => Triple.assume' fun hc' => ?_
    have h1 := (hval.trans hac).lt hlt
    exact Triple.pure fun _ _ => ⟨hpast.trans (Past.of_le (by omega)), fun _ => by omega⟩

theorem triple_parseStruct (fields : List FieldTy) (dst c : ℕ) :
    Triple (progressLogic env inp n) Any (parseStruct inp n parse fields dst c)
      fun c' _ => Past inp (c + 1) c' := by
  have hdef : Quiet (fields.forM (defaultNone dst)) := Quiet.forM (quiet_defaultNone dst) fields
  refine hdef.progress.bind fun _ => ?_
  refine (Triple.loop (fun c' _ => Past inp (ws inp c + 1) c') (fun c' => inp.stop - c')
    (fun c' => Triple.assume' fun hc' => triple_structBody hp fields dst _ c' hc')
    n (ws inp c + 1)).conseq (fun s _ => ⟨Past.of_le (Nat.le_refl _), fun hg => ?_⟩)
    fun c' _ h => (Past.of_le ?_).trans h
  · have := hg.1
    omega
  · have := le_ws inp c
    omega

theorem triple_parseFields (dst : ℕ) (fields : List FieldTy) (c : ℕ) :
    Triple (progressLogic env inp n) Any (parseFields inp parse dst fields c)
      fun c' _ => Past inp c c' := by
  induction fields generalizing c with
  | nil => exact Triple.pure fun _ _ => Past.of_le (Nat.le_refl _)
  | cons f fs ih =>
    refine (hp f.ty _ c).bind fun c1 => Triple.assume' fun hm => ?_
    refine (triple_pastComma_le c1).bind fun c2 => Triple.assume' fun hc2 => ?_
    exact (ih c2).post fun c' _ h => (hm.past.trans (Past.of_le hc2)).trans h

theorem triple_parseTuple (fields : List FieldTy) (dst c : ℕ) :
    Triple (progressLogic env inp n) Any (parseTuple inp parse fields dst c)
      fun c' _ => Past inp (c + 1) c' := by
  refine (triple_parseFields hp dst fields _).bind fun c1 => Triple.assume' fun h1 => ?_
  refine Triple.pure fun _ _ => (Past.of_le ?_).trans (h1.trans (Past.of_le ?_))
  · have := le_ws inp c
    omega
  · have := le_ws inp c1
    omega

/-- An iteration of `parse_map` moves over the colon. -/
theorem triple_mapBody (key val : Ty) (insert dst kaddr vaddr c0 hc : ℕ)
    (hc0 : Past inp c0 hc) :
    Triple (progressLogic env inp n) Any
      (mapBody env inp parse key val insert dst kaddr vaddr hc)
      (Iterates (fun c s => Past inp c0 c ∧
          ((progressLogic env inp n).guard s → inp.stop - c < inp.stop - hc))
        fun c _ => Past inp c0 c) := by
  have hle := le_ws inp hc
  have hpast : Past inp c0 (ws inp hc) := hc0.trans (Past.of_le hle)
  refine (triple_loadU8 _ _).bind fun b => Triple.assume fun ⟨hlt, _⟩ => ?_
  split
  · exact Triple.pure fun _ _ => hpast.trans (Past.of_le (Nat.le_succ _))
  · refine (hp key kaddr _).bind fun c1 => Triple.assume' fun hkey => ?_
    refine (hp val vaddr _).bind fun c2 => Triple.assume' fun hval => ?_
    refine (quiet_callInsert _ _ _ _ _).progress.bind fun _ => ?_
    refine (triple_pastComma_le c2).bind fun c3 => Triple.assume' fun hc3 => ?_
    have h1 := hkey.past
    have h2 := hval.past
    have h3 := le_ws inp c1
    simp only [Past] at h1 h2
    exact Triple.pure fun _ _ => ⟨hpast.trans (Past.of_le (by omega)), fun _ => by omega⟩

theorem triple_parseMap (key : Ty) (keySize : ℕ) (val : Ty) (valSize newAt insert dst c : ℕ) :
    Triple (progressLogic env inp n) Any
      (parseMap env inp n parse key keySize val valSize newAt insert dst c)
      fun c' _ => Past inp (c + 1) c' := by
  refine (quiet_stackSlot _).progress.bind fun kaddr => ?_
  refine (quiet_stackSlot _).progress.bind fun vaddr => ?_
  refine (quiet_callNewAt _ _ _).progress.bind fun _ => ?_
  refine (Triple.loop (fun c' _ => Past inp (ws inp c + 1) c') (fun c' => inp.stop - c')
    (fun c' => Triple.assume' fun hc' => triple_mapBody hp key val insert dst kaddr vaddr _ c' hc')
    n (ws inp c + 1)).conseq (fun s _ => ⟨Past.of_le (Nat.le_refl _), fun hg => ?_⟩)
    fun c' _ h => (Past.of_le ?_).trans h
  · have := hg.1
    omega
  · have := le_ws inp c
    omega

/-- An iteration of `parse_vec` moves when it advances. -/
theorem triple_vecBody (elem : Ty) (elemSize align c0 : ℕ) (v : VecState)
    (hc0 : Past inp c0 v.cur) :
    Triple (progressLogic env inp n) Any (vecBody inp parse elem elemSize align v)
      (Iterates (fun v' s => Past inp c0 v'.cur ∧
          ((progressLogic env inp n).guard s → inp.stop - v'.cur < inp.stop - v.cur))
        fun v' _ => Past inp c0 v'.cur) := by
  have hle := le_ws inp v.cur
  have hpast : Past inp c0 (ws inp v.cur) := hc0.trans (Past.of_le hle)
  refine (triple_loadU8 _ _).bind fun b => Triple.assume fun ⟨hlt, _⟩ => ?_
  split
  · exact Triple.pure fun _ _ => hpast
  · refine (quiet_grow _ _ _).progress.bind fun v' => ?_
    refine (hp elem _ _).bind fun c1 => Triple.assume' fun hm => ?_
    refine (triple_pastComma inp c1).bind fun c2 => Triple.assume fun ⟨hw, hc2⟩ => ?_
    have ht := ws_atToken hlt
    have h1 : ws inp v.cur ≤ c1 := by
      have := hm.past
      simp only [Past] at this
      omega
    have h2 := le_ws inp c1
    have hstall := hm.eq_iff ht
    -- it moves if the element does, or over the comma behind an element that stalls
    have hmove : ws inp v.cur < c2 ↔ Advances env inp elem (ws inp v.cur) := by
      rcases Nat.eq_or_lt_of_le h1 with rfl | hlt'
      · rw [ht.ws_eq] at hc2
        rw [Advances, ← hstall, hc2]
        split
        · next hcomma => exact iff_of_true (Nat.lt_succ_self _) (Or.inl hcomma)
        · next hcomma => exact iff_of_false (Nat.lt_irrefl _) (by simp [hcomma])
      · refine iff_of_true ?_ (Or.inr fun hst => Nat.ne_of_gt hlt' (hstall.2 hst))
        rw [hc2]
        split <;> omega
    have hge : ws inp v.cur ≤ c2 := by
      rw [hc2]
      split <;> omega
    refine (triple_emit (e := .iter _ _ _) ⟨ht, hge, hmove⟩).bind fun _ => ?_
    refine Triple.pure fun s hs => ⟨hpast.trans (Past.of_le hge), fun hg => ?_⟩
    have := hmove.2 (hg.2 _ _ _ hs)
    simp only
    omega

theorem triple_parseVec (elem : Ty) (elemSize elemAlign : ℕ) (seq : SeqLayout) (dst c : ℕ) :
    Triple (progressLogic env inp n) Any
      (parseVec inp n parse elem elemSize elemAlign seq dst c)
      fun c' _ => Past inp (c + 1) c' := by
  have hloop := (Triple.loop (L := progressLogic env inp n)
    (fun (v : VecState) _ => Past inp (ws inp c + 1) v.cur) (fun v => inp.stop - v.cur)
    (fun v => Triple.assume' fun hv =>
      triple_vecBody hp elem elemSize (max elemAlign 1) _ v hv)
    n ⟨ws inp c + 1, max elemAlign 1, 0, 0⟩)
  refine Triple.bind (hloop.conseq (fun s _ => ⟨Past.of_le (Nat.le_refl _), fun hg => ?_⟩)
    fun _ _ h => h) fun v => Triple.assume' fun hv => ?_
  · have := hg.1
    simp only
    omega
  · refine (quiet_storeSeq _ _ _ _ _).progress.bind fun _ => ?_
    refine Triple.pure fun _ _ => (Past.of_le ?_).trans (hv.trans (Past.of_le ?_))
    · have := le_ws inp c
      omega
    · have := le_ws inp v.cur
      omega

end Containers

/-! ## Every run of the emitted parser -/

/-- `Emit::parse` of any type: the cursor moves as `Stalls` says, events are as predicted,
and no loop runs out of iterations when all iterations of vectors advance. -/
theorem triple_parse (d : ℕ) (ty : Ty) (dst c : ℕ) :
    Triple (progressLogic env inp n) Any (parse env inp n d ty dst c)
      fun c' _ => Moves env inp ty c c' := by
  induction d generalizing ty dst c with
  | zero => exact Triple.deep rfl
  | succ d ih =>
    cases ty with
    | bool =>
      refine (triple_loadU8 _ _).bind fun b => Triple.assume fun _ => ?_
      refine (quiet_storeInt _ _ _).progress.bind fun _ => Triple.pure fun _ _ => ?_
      refine Moves.of_past (Past.of_le ?_) nofun
      have := le_ws inp c
      split <;> omega
    | char =>
      refine (triple_strspan progressLogic_rel).bind fun sp => Triple.assume' fun hsp => ?_
      refine (triple_loadU8 _ _).bind fun b => Triple.assume fun _ => ?_
      refine (quiet_storeInt _ _ _).progress.bind fun _ => Triple.pure fun _ _ => ?_
      rw [hsp]
      exact Moves.of_past (past_strscan c) nofun
    | u size =>
      refine (triple_intval c false).bind fun r => Triple.assume' fun ⟨h1, h2⟩ => ?_
      refine (quiet_storeInt _ _ _).progress.bind fun _ => Triple.pure fun _ _ => ⟨h1, fun ht => ?_⟩
      rw [h2 ht, stalls_u]
      exact ⟨fun h => ⟨h.1, h.2.1⟩, fun h => ⟨h.1, h.2, nofun⟩⟩
    | i size =>
      refine (triple_intval c true).bind fun r => Triple.assume' fun ⟨h1, h2⟩ => ?_
      refine (quiet_storeInt _ _ _).progress.bind fun _ => Triple.pure fun _ _ => ⟨h1, fun ht => ?_⟩
      rw [h2 ht, stalls_i]
      exact ⟨fun h => ⟨h.1, h.2.1, h.2.2 rfl⟩, fun h => ⟨h.1, h.2.1, fun _ => h.2.2⟩⟩
    | f32 =>
      refine (triple_rtF64v env.float c).bind fun c' => Triple.assume' fun hc' => ?_
      refine Quiet.get.progress.bind fun s => (quiet_storeInt _ _ _).progress.bind fun _ => ?_
      refine Triple.pure fun _ _ => hc' ▸ ⟨past_float _ _, fun ht => ?_⟩
      rw [ht.float_eq_iff, stalls_f32]
    | f64 =>
      refine (triple_rtF64v env.float c).bind fun c' => Triple.assume' fun hc' => ?_
      refine Quiet.get.progress.bind fun s => (quiet_storeInt _ _ _).progress.bind fun _ => ?_
      refine Triple.pure fun _ _ => hc' ▸ ⟨past_float _ _, fun ht => ?_⟩
      rw [ht.float_eq_iff, stalls_f64]
    | struct name fields =>
      exact (triple_parseStruct ih fields dst c).post fun _ _ h => Moves.of_past h nofun
    | tuple fields =>
      exact (triple_parseTuple ih fields dst c).post fun _ _ h => Moves.of_past h nofun
    | str seq =>
      exact (triple_string c _ _ (fun p l => storeSeq dst seq p l l)
        fun _ _ => quiet_storeSeq _ _ _ _ _).post fun _ _ h => Moves.of_past h nofun
    | vec elem elemSize elemAlign seq =>
      exact (triple_parseVec ih elem elemSize elemAlign seq dst c).post
        fun _ _ h => Moves.of_past h nofun
    | strRef ptrOff lenOff =>
      exact (triple_string c _ _ (storeStrRef dst ptrOff lenOff)
        fun _ _ => quiet_storeStrRef _ _ _ _ _).post fun _ _ h => Moves.of_past h nofun
    | unit =>
      refine Triple.pure fun _ _ => ⟨Past.of_le (le_rtSkip _ _), fun ht => ?_⟩
      rw [ht.rtSkip_eq_iff, stalls_unit]
    | boxed inner size align =>
      refine (quiet_rtBoxAlloc _ _).progress.bind fun bp => ?_
      refine (ih inner bp c).bind fun c' => Triple.assume' fun hm => ?_
      refine (quiet_storePtr _ _).progress.bind fun _ => Triple.pure fun _ _ => ?_
      exact hm.of_part stalls_boxed
    | opt discOff discSize noneDiscr someDiscr payloadOff size inner =>
      refine (triple_loadU8 _ _).bind fun b => Triple.assume fun ⟨_, hb⟩ => ?_
      have hle := le_ws inp c
      -- `None` is recognised by the `n` of `null`
      split
      · next hn =>
        refine (quiet_memset0 _ _).progress.bind fun _ => ?_
        refine (quiet_storeImm _ _ _ _).progress.bind fun _ => Triple.pure fun _ _ => ?_
        refine ⟨Past.of_le (by omega), fun ht => iff_of_false (by omega) fun h => ?_⟩
        have hbyte : inp.byte c = 0x6E := by
          rw [← ht.ws_eq, ← hb, beq_iff_eq.1 hn]
        exact (stalls_opt.1 h).1 hbyte
      · next hn =>
        refine (ih inner _ _).bind fun c' => Triple.assume' fun hm => ?_
        refine (quiet_storeSome _ _ _ _).progress.bind fun _ => Triple.pure fun _ _ => ?_
        refine ⟨(Past.of_le hle).trans hm.past, fun ht => ?_⟩
        rw [ht.ws_eq] at hm hb
        have hbyte : inp.byte c ≠ 0x6E := by
          simpa [hb] using hn
        rw [hm.eq_iff ht, stalls_opt, and_iff_right hbyte]
    | map key keySize val valSize newAt insert =>
      exact (triple_parseMap ih key keySize val valSize newAt insert dst c).post
        fun _ _ h => Moves.of_past h nofun
    | ref cell =>
      cases hc : env.cells cell with
      | none =>
        rw [parse_ref_none hc]
        exact Triple.fail _
      | some body =>
        rw [parse_ref hc]
        refine Quiet.get.progress.bind fun s => ?_
        refine (ih body dst c).bind fun c' => Triple.assume' fun hm => ?_
        have hsc : Quiet (Comp.modify fun s' : State => { s' with sc := s.sc }) :=
          Quiet.modify fun _ => rfl
        exact hsc.progress.bind fun _ => Triple.pure fun _ _ => hm.of_part (stalls_ref hc)
    | unknown what => exact Triple.fail _

/-- In a run from the start of the input, an iteration of a vector's loop moves the cursor
exactly when it advances; and when all of them do, every loop ends within `end + 2`
iterations, however often it is entered. -/
theorem loops_end (env : Env) (inp : Input) (n d : ℕ) (ty : Ty) (dst : ℕ) (s : State)
    (hs : s.trace = []) (hn : inp.stop + 2 ≤ n) :
    (∀ elem before after,
      .iter elem before after ∈ ((parse env inp n d ty dst 0).run s).2.trace →
        (before < after ↔ Advances env inp elem before)) ∧
    ((∀ elem before after,
      .iter elem before after ∈ ((parse env inp n d ty dst 0).run s).2.trace →
        Advances env inp elem before) →
      ((parse env inp n d ty dst 0).run s).1 ≠ .spent) := by
  obtain ⟨⟨-, hok⟩, -, hend⟩ := triple_parse d ty dst 0 s trivial
  constructor
  · intro elem a b he
    rcases hok _ he with he | he
    · rw [hs] at he
      cases he
    · exact he.2.2
  · intro hall hsp
    exact hend ⟨hn, hall⟩ (hsp ▸ trivial)

/-- `[1]` as a `Vec<u64>`. -/
def oneInt : Input := ⟨[0x5B, 0x31, 0x5D], fun _ => 0, by decide⟩

/-- The layout of a `Vec<u64>`. -/
def vecU64 : Ty := .vec (.u 8) 8 8 ⟨0, 8, 16⟩

theorem loops_end_oneInt :
    ((parse .bare oneInt 5 5 vecU64 0 0).run (.initial 24)).1 ≠ .spent := by
  refine (loops_end .bare oneInt 5 5 vecU64 0 (.initial 24) rfl (by decide)).2 fun elem a b he => ?_
  have htrace : ((parse .bare oneInt 5 5 vecU64 0 0).run (.initial 24)).2.trace =
      [.iter (.u 8) 1 2] := rfl
  rw [htrace, List.mem_singleton] at he
  cases he
  refine Or.inr fun hst => ?_
  cases hst with
  | u h _ => exact h rfl

/-- `[null`, which is no array of integers. -/
def nullInt : Input := ⟨[0x5B, 0x6E, 0x75, 0x6C, 0x6C], fun _ => 0, by decide⟩

/-- An ending that neither loads behind the input nor returns a value outside `P`. -/
def Stuck {α : Type} (P : α → Prop) : Outcome Stop α → State → Prop
  | .done a, _ => P a
  | .stop (.load _), _ => False
  | _, _ => True

theorem Stuck.bind {α β : Type} {P : α → Prop} {Q : β → Prop} {x : M α} {f : α → M β}
    {s : State} (hx : Ensures x s (Stuck P))
    (hf : ∀ a s', P a → Ensures (f a) s' (Stuck Q)) : Ensures (x >>= f) s (Stuck Q) := by
  refine hx.bind fun o s' ho => ?_
  match o, ho with
  | .done a, ha => exact hf a s' ha
  | .stop (.panic _), _ => trivial
  | .stop .undefined, _ => trivial
  | .deep, _ => trivial
  | .spent, _ => trivial

theorem stuck_alloc (size align : ℕ) (s : State) :
    Ensures (alloc size align) s (Stuck fun _ => True) := by
  rw [alloc]
  split <;> trivial

theorem stuck_grow (elemSize align : ℕ) (v : VecState) (s : State) :
    Ensures (grow elemSize align v) s (Stuck fun _ => True) := by
  have hre : ∀ ptr old new s, Ensures (rtRealloc ptr old new align) s (Stuck fun _ => True) := by
    intro ptr old new s
    rw [rtRealloc]
    split
    · split
      · trivial
      · exact stuck_alloc _ _ s
    · split
      · exact Stuck.bind (stuck_alloc _ _ s) fun _ _ _ => trivial
      · trivial
  rw [grow]
  split
  · exact Stuck.bind (hre _ _ _ s) fun _ _ _ => trivial
  · trivial

/-- An integer takes no byte at `null`. -/
theorem stuck_parse_nullInt (n d dst : ℕ) (s : State) :
    Ensures (parse .bare nullInt n d (.u 8) dst 1) s (Stuck fun c => c = 1) := by
  cases d with
  | zero => trivial
  | succ d =>
    cases n with
    | zero => trivial
    | succ n => exact rfl

/-- An iteration at `null` ends where it started. -/
theorem stuck_vecBody_nullInt (n d : ℕ) (v : VecState) (s : State) (hv : v.cur = 1) :
    Ensures (vecBody nullInt (parse .bare nullInt n d) (.u 8) 8 8 v) s
      (Stuck fun r => ∃ v', r = .inl v' ∧ v'.cur = 1) := by
  have hws : ws nullInt v.cur = 1 := by rw [hv]; decide
  rw [vecBody, hws]
  show Ensures (grow 8 8 v >>= _) s _
  refine Stuck.bind (stuck_grow 8 8 v s) fun v' s' _ => ?_
  refine Stuck.bind (stuck_parse_nullInt n d _ s') fun c s' hc => ?_
  subst hc
  exact ⟨_, rfl, rfl⟩

theorem stuck_parse_vecU64 (n d : ℕ) :
    Ensures (parse .bare nullInt n d vecU64 0 0) (.initial 24) (Stuck fun _ => False) := by
  cases d with
  | zero => trivial
  | succ d =>
    refine Stuck.bind (P := fun _ => False) ?_ fun _ _ h => h.elim
    refine ensures_loop (fun _ v _ => v.cur = 1) (fun _ _ _ => trivial) (fun k v s hv => ?_)
      n _ _ rfl
    refine (stuck_vecBody_nullInt n d v s hv).mono fun o s' ho => ?_
    match o, ho with
    | .done _, ⟨v', rfl, hv'⟩ => exact hv'
    | .stop (.panic _), _ => trivial
    | .stop .undefined, _ => trivial
    | .deep, _ => trivial
    | .spent, _ => trivial

/-- On `[null` the parser of a `Vec<u64>` neither returns nor loads behind the input, under
any bounds: the loop goes round at `null`. -/
theorem parse_nullInt :
    ¬ ∃ n d,
      (∃ c, ((parse .bare nullInt n d vecU64 0 0).run (.initial 24)).1 = .done c) ∨
        ∃ a, ((parse .bare nullInt n d vecU64 0 0).run (.initial 24)).1 = .stop (.load a) := by
  rintro ⟨n, d, h⟩
  have hstuck := stuck_parse_vecU64 n d
  rcases h with ⟨c, hc⟩ | ⟨a, ha⟩
  · rw [Ensures, hc] at hstuck
    exact hstuck
  · rw [Ensures, ha] at hstuck
    exact hstuck

end Bilbo
