import Bilbo.Stores

/-!
# Parsers that bind a text to a value

`ParsesTo` says of a type, a value and a text that the emitted parser, in front of that text,
returns behind it and leaves the value at its destination. This is shown for one constructor
of types after the other; here for the scalars, the strings and the types around one other.
-/

namespace Bilbo

open Base Comp

/-- The `n` bytes at `dst` are in use. -/
def Room (s : State) (dst n : ℕ) : Prop := n = 0 ∨ dst + n ≤ s.brk

/-- From `s` to `s'` a parser has put the value at `dst`, and what it points to above the old
break. -/
structure Puts (cells : Cells) (sz : RecCell → Option ℕ) (s s' : State) (ty : Ty) (v : Val)
    (dst : ℕ) : Prop where
  writes : Writes s s' dst (ty.span sz)
  holds : Holds cells sz s' s.brk s'.brk ty v dst

/-- The parser of the type binds the text to the value, wherever the text stands in the input
and whatever is behind its delimiter. -/
def ParsesTo (env : Env) (sz : RecCell → Option ℕ) (inp : Input) (ty : Ty) (v : Val)
    (t : Bytes) : Prop :=
  ∀ ⦃c dst : ℕ⦄ ⦃s : State⦄ ⦃tail : Bytes⦄, inp.rest c = t ++ tail → Delim tail →
    Room s dst (ty.span sz) →
    ∃ s', Runs (fun n d => parse env inp n d ty dst c) s (c + t.length) s' ∧
      Puts env.cells sz s s' ty v dst

/-- The same with any white space in front. -/
def Binds (env : Env) (sz : RecCell → Option ℕ) (inp : Input) (ty : Ty) (v : Val)
    (t : Bytes) : Prop :=
  ∀ w, IsWs w → ParsesTo env sz inp ty v (w ++ token t)

theorem Binds.parsesTo {env : Env} {sz : RecCell → Option ℕ} {inp : Input} {ty : Ty} {v : Val}
    {t : Bytes} (h : Binds env sz inp ty v t) : ParsesTo env sz inp ty v t := by
  have hself : ParsesTo env sz inp ty v (lead t ++ token t) := h (lead t) (isWs_lead t)
  rwa [lead_append_token] at hself

/-- In front of an item of a document. -/
theorem Binds.at_item {env : Env} {sz : RecCell → Option ℕ} {inp : Input} {ty : Ty} {v : Val}
    {x r : Bytes} {b : UInt8} {p k dst : ℕ} {s : State} (hx : Binds env sz inp ty v x)
    (hb : Starts x b) (h : inp.rest p = x ++ r) (hr : Delim r) (hk : Near inp k p)
    (hroom : Room s dst (ty.span sz)) :
    ∃ s', Runs (fun n d => parse env inp n d ty dst k) s (p + x.length) s' ∧
      Puts env.cells sz s s' ty v dst := by
  obtain ⟨hlead, htoken, hst⟩ := hb.append r
  obtain ⟨hws, hrest⟩ := hst.ws_eq h
  obtain ⟨w, hw, hkw, hlen⟩ := hk
  rw [hrest, htoken, ← List.append_assoc] at hkw
  obtain ⟨s', hrun, hputs⟩ := hx w hw hkw hr hroom
  have hend : k + (w ++ token x).length = p + x.length := by
    rw [List.length_append, ← length_lead_add_token x]
    rw [hws, hlead] at hlen
    omega
  rw [hend] at hrun
  exact ⟨s', hrun, hputs⟩

/-! ## Frames -/

theorem Writes.chain {s s₁ s₂ : State} {dst n : ℕ} (h : Writes s s₁ dst n)
    (h' : Writes s₁ s₂ dst n) : Writes s s₂ dst n :=
  h.trans h' (fun _ _ hlo hhi => ⟨hlo, hhi⟩) fun _ _ hlo hhi => ⟨hlo, hhi⟩

/-- What writes nothing in particular writes any bytes at most. -/
theorem Writes.widen {s s' : State} {d : ℕ} (h : Writes s s' d 0) (dst n : ℕ) :
    Writes s s' dst n := h.mono (under_fresh (.inl rfl))

/-- The scratch slot and the trace do not count. -/
theorem writes_of_eq {s s' : State} (hbrk : s'.brk = s.brk) (hmem : s'.mem = s.mem)
    (hmaps : s'.maps = s.maps) (hblocks : s'.blocks = s.blocks) (dst n : ℕ) :
    Writes s s' dst n :=
  ⟨Nat.le_of_eq hbrk.symm, fun x _ _ => by rw [hmem], fun h _ => by rw [hmaps],
    fun b hb _ => by rwa [hblocks]⟩

theorem Room.mono {s s' : State} {dst n : ℕ} (h : Room s dst n) (hbrk : s.brk ≤ s'.brk) :
    Room s' dst n := by
  unfold Room at *
  omega

theorem Room.part {s : State} {dst n off k : ℕ} (h : Room s dst n) (hk : off + k ≤ n) :
    Room s (dst + off) k := by
  unfold Room at *
  omega

theorem Held.room {s : State} {lo p n align : ℕ} (h : Held s lo s.brk p n align) :
    Room s p n := h.imp_right fun h => h.2.1

/-- Bytes in an allocation above the old break survive a write below it. -/
theorem Held.readCells_eq {s s₁ : State} {m : Memory} {dst n p k align : ℕ}
    (h : Held s₁ s.brk s₁.brk p k align) (hroom : Room s dst n)
    (hm : Overwrites s₁.mem m dst n) : readCells m p k = readCells s₁.mem p k := by
  apply readCells_congr
  intro i hi
  apply hm
  have ⟨hlo, _⟩ := h.resolve_left (by omega)
  unfold Room at hroom
  omega

/-- An allocation outlives what is written later. -/
theorem Held.keep {s s' : State} {lo hi hi' p n align d k : ℕ} (h : Held s lo hi p n align)
    (hw : Writes s s' d k) (hbelow : hi ≤ s.brk) (hhi : hi ≤ hi') : Held s' lo hi' p n align := by
  by_cases hn : n = 0
  · exact .inl hn
  · have ⟨h₁, h₂, h₃⟩ := h.resolve_left hn
    have hlt : p < s.brk := by omega
    exact .inr ⟨h₁, by omega, hw.blocks _ h₃ hlt⟩

/-- A value keeps its meaning when bytes apart from it, and apart from what it points to, are
written. -/
theorem Holds.frame {cells : Cells} {sz : RecCell → Option ℕ} {s s' : State}
    {lo hi lo' hi' dst n a : ℕ} {ty : Ty} {v : Val} (h : Holds cells sz s lo hi ty v a)
    (hw : Writes s s' dst n) (hbelow : hi ≤ s.brk) (hheap : Apart lo (hi - lo) dst n)
    (hroom : Room s a (ty.span sz)) (hown : Apart a (ty.span sz) dst n) (hlo : lo' ≤ lo)
    (hhi : hi ≤ hi') : Holds cells sz s' lo' hi' ty v a := by
  apply h.move (hw.same hbelow hheap) hlo hhi
  intro i hi'
  unfold Apart Room at *
  apply hw.mem
  · omega
  · omega

/-- Only the scratch slot and the trace have changed. -/
theorem Holds.of_eq {cells : Cells} {sz : RecCell → Option ℕ} {s s' : State} {lo hi a : ℕ}
    {ty : Ty} {v : Val} (h : Holds cells sz s lo hi ty v a) (hmem : s'.mem = s.mem)
    (hmaps : s'.maps = s.maps) (hblocks : s'.blocks = s.blocks) :
    Holds cells sz s' lo hi ty v a := by
  apply h.move _ (Nat.le_refl _) (Nat.le_refl _)
  · intro i _
    rw [hmem]
  · constructor
    · intro x _ _
      rw [hmem]
    · intro x _ _
      rw [hmaps]
    · intro b hb _ _
      rwa [hblocks]

/-! ## Scalars -/

section

variable {env : Env} {sz : RecCell → Option ℕ} {inp : Input} {w : Bytes}

/-- The byte of a `bool`. -/
theorem puts_bool (cells : Cells) (s : State) (dst : ℕ) (b : Bool) :
    Puts cells sz s { s with mem := writeCells s.mem dst (ints (le 1 (if b then 1 else 0))) } .bool
      (.bool b) dst := by
  have hout : Overwrites s.mem (writeCells s.mem dst (ints (le 1 (if b then 1 else 0)))) dst 1 :=
    overwrites_writeCells s.mem (Nat.le_refl _) (Nat.le_refl _)
  refine ⟨hout.writes, Holds.bool ?_⟩
  have hbyte := writeCells_apply s.mem dst (ints (le 1 (if b then 1 else 0))) 0 Nat.one_pos
  rw [Nat.add_zero] at hbyte
  apply hbyte.trans
  cases b <;> rfl

theorem parsesTo_bool (hw : IsWs w) (b : Bool) :
    ParsesTo env sz inp .bool (.bool b) (w ++ boolText b) := by
  intro c dst s tail h _ _
  rw [List.append_assoc] at h
  refine ⟨_, ?_, puts_bool env.cells s dst b⟩
  apply Runs.call (x := fun _ _ => do
    let b ← loadU8 inp (ws inp c)
    storeInt dst 1 (if b == 0x74 then 1 else 0)
    pure (ws inp c + if b == 0x66 then 5 else 4)) (fun _ _ => rfl)
  apply Runs.of_eq
  rw [List.length_append, ← Nat.add_assoc]
  cases b with
  | true =>
    have hws := ws_eq hw h (by decide)
    rw [hws, bind_done (loadU8_run (Input.rest_append h) s)]
    rfl
  | false =>
    have hws := ws_eq hw h (by decide)
    rw [hws, bind_done (loadU8_run (Input.rest_append h) s)]
    rfl

/-- The bytes of an integer. -/
theorem puts_int {cells : Cells} {ty : Ty} {z : ℤ} {k x : ℕ} (s : State) (dst : ℕ)
    (hspan : ty.span sz = k)
    (hholds : ∀ s lo hi a, readNat s.mem a k = some (x % 256 ^ k) →
      Holds cells sz s lo hi ty (.int z) a) :
    Puts cells sz s { s with mem := writeCells s.mem dst (ints (le k x)) } ty (.int z) dst := by
  have hout : Overwrites s.mem (writeCells s.mem dst (ints (le k x))) dst k := by
    apply overwrites_writeCells s.mem (Nat.le_refl _)
    rw [length_ints, length_le]
  constructor
  · rw [hspan]
    exact hout.writes
  · exact hholds _ _ _ _ (readNat_write_le _ _ _ _)

/-- The two integer parsers. -/
theorem parsesTo_int (signed neg : Bool) {n : ℕ} {ds : Bytes} {ty : Ty} {z : ℤ}
    (hneg : neg = true → signed = true) (hw : IsWs w) (hds : Digits ds)
    (hparse : ∀ k d dst c, parse env inp k (d + 1) ty dst c = (do
      let (v, c) ← intval inp k c signed
      storeSized dst v n
      pure c))
    (hspan : ty.span sz = storeWidth n)
    (hholds : ∀ s lo hi a,
      readNat s.mem a (storeWidth n) =
        some ((if neg then wrapSub 0 (decimal ds % 2 ^ 64) else decimal ds % 2 ^ 64) %
          256 ^ storeWidth n) →
      Holds env.cells sz s lo hi ty (.int z) a) :
    ParsesTo env sz inp ty (.int z) (w ++ signedText neg ds) := by
  intro c dst s tail h htail _
  rw [List.append_assoc] at h
  have hsign : Sign.ofNeg neg = .minus ↔ neg = true := by cases neg <;> decide
  rw [signedText_eq] at h
  have hint := intval_runs (fun h => hneg (hsign.1 h)) hw hds h htail.digitsEnd s
  simp only [hsign] at hint
  refine ⟨_, ?_, puts_int s dst hspan hholds⟩
  apply Runs.call (fun k d => hparse k d dst c)
  rw [List.length_append, signedText_eq]
  exact hint.bind (Runs.of_eq rfl)

theorem parsesTo_u {n : ℕ} {ds : Bytes} (hn : IntSize n) (hw : IsWs w) (hds : Digits ds)
    (hlt : decimal ds < 256 ^ n) :
    ParsesTo env sz inp (.u n) (.int (decimal ds)) (w ++ ds) := by
  apply parsesTo_int false false nofun hw hds (fun _ _ _ _ => rfl) rfl
  intro s lo hi a hread
  apply Holds.u hlt
  have hle : 256 ^ n ≤ 256 ^ 8 := by
    rcases hn with rfl | rfl | rfl | rfl <;> decide
  have hbig : (256 : ℕ) ^ 8 = 2 ^ 64 := by decide
  rw [hread, hn.storeWidth, if_neg (by decide), Nat.mod_eq_of_lt (a := decimal ds) (by omega),
    Nat.mod_eq_of_lt hlt]

theorem parsesTo_i {n : ℕ} {ds : Bytes} {neg : Bool} (hn : IntSize n) (hw : IsWs w)
    (hds : Digits ds) (hlo : -(256 ^ n : ℕ) ≤ 2 * signedVal neg ds)
    (hhi : 2 * signedVal neg ds < (256 ^ n : ℕ)) :
    ParsesTo env sz inp (.i n) (.int (signedVal neg ds)) (w ++ signedText neg ds) := by
  apply parsesTo_int true neg (fun _ => rfl) hw hds (fun _ _ _ _ => rfl) rfl
  intro s lo hi a hread
  apply Holds.i hlo hhi
  rw [hread, hn.storeWidth]
  congr 1
  unfold signedVal wrapSub at *
  rcases hn with rfl | rfl | rfl | rfl <;> cases neg <;>
    simp only [Bool.false_eq_true, if_false, if_true] at hlo hhi ⊢ <;> omega

theorem parsesTo_unit (hw : IsWs w) : ParsesTo env sz inp .unit .unit (w ++ nullText) := by
  intro c dst s tail h htail _
  rw [List.append_assoc] at h
  refine ⟨s, ?_, Writes.refl s dst 0, Holds.unit⟩
  apply Runs.call (x := fun _ _ => pure (rtSkip inp c)) (fun _ _ => rfl)
  rw [rtSkip_scalar hw (List.cons_ne_nil _ _) rfl h htail, List.length_append]
  exact Runs.pure _ _

/-! ## Strings -/

/-- The scratch word that says whether there are escapes. -/
def escFlag (raw : Bytes) : ℕ := if Ascii.backslash ∈ raw then 1 else 0

theorem strspan_quoted {raw r : Bytes} {c : ℕ} (hw : IsWs w) (hraw : RawBody raw)
    (h : inp.rest c = w ++ (quoted raw ++ r)) (s : State) :
    inp.rest (c + w.length + 1) = raw ++ Ascii.quote :: r ∧
      (strspan inp c).run s =
        (.done ⟨c + w.length + 1, raw.length, c + (w.length + (quoted raw).length), escFlag raw⟩,
          { s with sc := (raw.length, escFlag raw) }) := by
  have hws : ws inp c = c + w.length := ws_eq hw h (by decide)
  have hrest := Input.rest_append h
  have hscan := strscan_quoted hraw hrest
  constructor
  · rw [(Input.rest_cons hrest).2.2]
    exact List.append_assoc raw [Ascii.quote] r
  · rw [strspan_run, hws, hscan, Nat.add_assoc c w.length (quoted raw).length]
    rfl

/-- A new block that a string is written into. -/
theorem Fresh.fill {s s₁ s' : State} {p : ℕ} {bs : Bytes} (h : Fresh s s₁ p bs.length 1)
    (hmem : s'.mem = writeCells s₁.mem p (ints bs)) (hbrk : s'.brk = s₁.brk)
    (hmaps : s'.maps = s₁.maps) (hblocks : s'.blocks = s₁.blocks) :
    Writes s s' 0 0 ∧ Held s' s.brk s'.brk p bs.length 1 ∧
      readCells s'.mem p bs.length = ints bs := by
  have hread := readCells_writeCells s₁.mem p (ints bs)
  rw [length_ints] at hread
  refine ⟨?_, ?_, by rw [hmem, hread]⟩
  · constructor
    · rw [hbrk]
      exact h.brk
    · intro x hx _
      rw [hmem, ← h.mem]
      apply writeCells_outside
      rw [length_ints]
      rcases h.held with hz | ⟨hlo, -⟩ <;> omega
    · intro x _
      rw [hmaps, h.maps]
    · intro b hb _
      rw [hblocks]
      exact h.blocks hb
  · rw [hbrk]
    exact h.held.imp_right fun hin => ⟨hin.1, hin.2.1, hblocks ▸ hin.2.2⟩

/-- `rt_unescape` leaves its output in a block of exactly that size, and reports the size. -/
theorem rtUnescape_run {src len : ℕ} {out : Bytes} (h : unescape (inp.span src len) = some out)
    (s : State) :
    ∃ p s', (rtUnescape inp src len).run s = (.done p, s') ∧ s'.sc.1 = out.length ∧
      Writes s s' 0 0 ∧ Held s' s.brk s'.brk p out.length 1 ∧
      readCells s'.mem p out.length = ints out := by
  have hshort : out.length ≤ isizeMax := by
    have hle := length_unescape_le h
    have hstop := inp.short
    have htext : inp.stop = inp.text.length := rfl
    rw [Input.span, List.length_take, Input.length_rest] at hle
    omega
  obtain ⟨p, s₁, halloc, hfresh⟩ := rtAlloc_run hshort s
  refine ⟨p, { s₁ with mem := writeCells s₁.mem p (ints out), sc := (out.length, s₁.sc.2) }, ?_, rfl,
    hfresh.fill rfl rfl rfl rfl⟩
  rw [rtUnescape, h]
  show (rtAlloc out.length >>= fun buf => _).run s = _
  rw [bind_done halloc]
  rfl

/-- `build_str` leaves the string in an allocation of its own. -/
theorem buildStr_runs {raw bs r : Bytes} {q : ℕ} (hun : unescape raw = some bs)
    (h : inp.rest q = raw ++ Ascii.quote :: r) (after : ℕ) (s : State) :
    ∃ p s', Runs (fun n _ => buildStr inp n ⟨q, raw.length, after, escFlag raw⟩) s
        (p, bs.length) s' ∧
      Writes s s' 0 0 ∧ Held s' s.brk s'.brk p bs.length 1 ∧
      readCells s'.mem p bs.length = ints bs := by
  have hspan : inp.span q raw.length = raw := Input.span_append h
  -- with an escape the body is decoded, without one it is copied
  by_cases hmem : Ascii.backslash ∈ raw
  · have hesc : escFlag raw ≠ 0 := by
      rw [escFlag, if_pos hmem]
      decide
    rw [← hspan] at hun
    obtain ⟨p, s', hrun, hlen, hout⟩ := rtUnescape_run hun s
    refine ⟨p, s', ?_, hout⟩
    apply Runs.of_eq (x := buildStr inp 0 ⟨q, raw.length, after, escFlag raw⟩) _ |>.congr
    · intro n _
      rw [buildStr, buildStr, if_pos hesc, if_pos hesc]
    · rw [buildStr, if_pos hesc, bind_done hrun, ← hlen]
      rfl
  · have hesc : ¬ escFlag raw ≠ 0 := by
      rw [escFlag, if_neg hmem]
      decide
    obtain rfl := unescape_plain hmem hun
    have hstop := inp.short
    have htext : inp.stop = inp.text.length := rfl
    have hrest := congrArg List.length h
    rw [Input.length_rest, List.length_append, List.length_cons] at hrest
    obtain ⟨p, s₁, halloc, hfresh⟩ := rtAlloc_run (n := bs.length) (by omega) s
    refine ⟨p, copied inp s₁ p q bs.length, ?_, hfresh.fill ?_ rfl rfl rfl⟩
    · refine ⟨bs.length, fun n hn _ _ => ?_⟩
      show (buildStr inp n ⟨q, bs.length, after, escFlag bs⟩).run s = _
      have hcopy : (emitCopy inp n p q bs.length).run s₁ = (.done (), copied inp s₁ p q bs.length) :=
        emitCopy_run (by omega) (by omega)
      rw [buildStr, if_neg hesc, bind_done halloc, bind_done hcopy]
      rfl
    · rw [copied, hspan]

/-- The words that designate a string in a new block. -/
theorem puts_string {cells : Cells} {ty : Ty} {bs : Bytes} {p dst : ℕ} {s s₁ : State} {m : Memory}
    (hwrites : Writes s s₁ 0 0) (hheld : Held s₁ s.brk s₁.brk p bs.length 1)
    (hcells : readCells s₁.mem p bs.length = ints bs) (hroom : Room s dst (ty.span sz))
    (hout : Overwrites s₁.mem m dst (ty.span sz))
    (hholds : ∀ lo hi, Held { s₁ with mem := m } lo hi p bs.length 1 →
      readCells m p bs.length = ints bs →
      Holds cells sz { s₁ with mem := m } lo hi ty (.str bs) dst) :
    Puts cells sz s { s₁ with mem := m } ty (.str bs) dst := by
  constructor
  · exact (hwrites.widen _ _).chain hout.writes
  · apply hholds
    · exact hheld
    · rw [hheld.readCells_eq hroom hout, hcells]

/-- The two string parsers, whatever is behind the string: a new block, and the words that
designate it. -/
theorem parse_string_runs {ty : Ty} {raw bs tail : Bytes} {c dst : ℕ} {s : State} (hw : IsWs w)
    (hraw : RawBody raw) (hun : unescape raw = some bs)
    (h : inp.rest c = w ++ (quoted raw ++ tail)) (store : ℕ → ℕ → ℕ → M Unit) {ptrOff lenOff : ℕ}
    (hparse : ∀ n d dst c, parse env inp n (d + 1) ty dst c = (do
      let sp ← strspan inp c
      let (buf, blen) ← buildStr inp n sp
      store dst buf blen
      emitStr sp.start (dst + ptrOff) (dst + lenOff)
      pure sp.after))
    (hstore : ∀ dst p s, bs.length ≤ isizeMax →
      ∃ m, (store dst p bs.length).run s = (.done (), { s with mem := m }) ∧
        Overwrites s.mem m dst (ty.span sz) ∧
        ∀ lo hi, Held { s with mem := m } lo hi p bs.length 1 →
          readCells m p bs.length = ints bs →
          Holds env.cells sz { s with mem := m } lo hi ty (.str bs) dst)
    (hroom : Room s dst (ty.span sz)) :
    ∃ s', Runs (fun n d => parse env inp n d ty dst c) s (c + (w ++ quoted raw).length) s' ∧
      Puts env.cells sz s s' ty (.str bs) dst := by
  -- scan, build, store and log
  obtain ⟨hbody, hspan⟩ := strspan_quoted hw hraw h s
  obtain ⟨p, s₁, hbuild, hwrites, hheld, hcells⟩ := buildStr_runs hun hbody
    (c + (w.length + (quoted raw).length)) { s with sc := (raw.length, escFlag raw) }
  have hshort : bs.length ≤ isizeMax := by
    have hle := length_unescape_le hun
    have hlen := congrArg List.length hbody
    rw [Input.length_rest, List.length_append] at hlen
    have hstop := inp.short
    have htext : inp.stop = inp.text.length := rfl
    omega
  obtain ⟨m, hrun, hout, hholds⟩ := hstore dst p s₁ hshort
  refine ⟨{ s₁ with
    mem := m
    trace := .str (c + w.length + 1) (designated m (dst + ptrOff) (dst + lenOff)) :: s₁.trace },
    ?_, ?_⟩
  · apply Runs.call (fun n d => hparse n d dst c)
    rw [List.length_append]
    apply Runs.bind_eq hspan
    apply hbuild.bind
    apply Runs.of_eq
    show (store dst p bs.length >>= fun _ => _).run _ = _
    rw [bind_done hrun]
    rfl
  · have hscan : Writes s { s with sc := (raw.length, escFlag raw) } 0 0 := by
      apply writes_of_eq <;> rfl
    have hputs := puts_string (hscan.chain hwrites) hheld hcells hroom hout hholds
    refine ⟨hputs.writes.chain ?_, hputs.holds.of_eq rfl rfl rfl⟩
    apply writes_of_eq <;> rfl

/-- A `String`, also as a key. -/
theorem parse_str_runs {seq : SeqLayout} {raw bs tail : Bytes} {c dst : ℕ} {s : State}
    (hseq : seq.Ok) (hw : IsWs w) (hq : Quoted raw bs)
    (h : inp.rest c = w ++ (quoted raw ++ tail)) (hroom : Room s dst ((Ty.str seq).span sz)) :
    ∃ s', Runs (fun n d => parse env inp n d (.str seq) dst c) s (c + (w ++ quoted raw).length) s' ∧
      Puts env.cells sz s s' (.str seq) (.str bs) dst := by
  apply parse_string_runs hw hq.rawBody hq.unescape_eq h (fun dst p n => storeSeq dst seq p n n)
    (fun _ _ _ _ => rfl) _
    hroom
  intro dst p s hshort
  obtain ⟨m, hrun, hout, hptr, hcap, hlen⟩ := storeSeq_run hseq dst p bs.length bs.length s
  have hmod : bs.length % 256 ^ 8 = bs.length := by
    have hmax : isizeMax = 2 ^ 63 - 1 := rfl
    have hpow : (256 : ℕ) ^ 8 = 2 ^ 64 := by decide
    apply Nat.mod_eq_of_lt
    omega
  rw [hmod] at hcap hlen
  exact ⟨m, hrun, hout, fun lo hi hheld hcells => Holds.str hshort hptr hcap hlen hheld hcells⟩

theorem parsesTo_str {seq : SeqLayout} {raw bs : Bytes} (hseq : seq.Ok) (hw : IsWs w)
    (hq : Quoted raw bs) : ParsesTo env sz inp (.str seq) (.str bs) (w ++ quoted raw) := by
  intro c dst s tail h _ hroom
  rw [List.append_assoc] at h
  exact parse_str_runs hseq hw hq h hroom

theorem parsesTo_strRef {ptrOff lenOff : ℕ} {raw bs : Bytes} (hp : ptrOff < maxSize)
    (hl : lenOff < maxSize) (hpl : Apart ptrOff 8 lenOff 8) (hw : IsWs w) (hq : Quoted raw bs) :
    ParsesTo env sz inp (.strRef ptrOff lenOff) (.str bs) (w ++ quoted raw) := by
  intro c dst s tail h _ hroom
  rw [List.append_assoc] at h
  apply parse_string_runs hw hq.rawBody hq.unescape_eq h
    (fun dst p n => storeStrRef dst ptrOff lenOff p n)
    (fun _ _ _ _ => rfl) _ hroom
  intro dst p s hshort
  obtain ⟨m, hrun, hout, hptr, hlen⟩ := storeStrRef_run hp hl hpl dst p bs.length s
  have hmod : bs.length % 256 ^ 8 = bs.length := by
    have hmax : isizeMax = 2 ^ 63 - 1 := rfl
    have hpow : (256 : ℕ) ^ 8 = 2 ^ 64 := by decide
    apply Nat.mod_eq_of_lt
    omega
  rw [hmod] at hlen
  exact ⟨m, hrun, hout, fun lo hi hheld hcells => Holds.strRef hshort hptr hlen hheld hcells⟩

/-! ## Types around one other -/

theorem Fresh.room {s s' : State} {p n k align : ℕ} (h : Fresh s s' p n align) (hk : k ≤ n) :
    Room s' p k := by
  have hheld := h.held.room
  unfold Room at *
  omega

/-- The pointer to a value in a new block. -/
theorem Puts.boxed {cells : Cells} {inner : Ty} {size align p dst : ℕ} {v : Val} {s s₁ s₂ : State}
    (hfresh : Fresh s s₁ p size (max align 1)) (hspan : inner.span sz ≤ size)
    (hputs : Puts cells sz s₁ s₂ inner v p) (hroom : Room s dst 8) :
    Puts cells sz s { s₂ with mem := writeCells s₂.mem dst (ptrCells p) }
      (.boxed inner size align) (.boxed v) dst := by
  have hdst : dst + 8 ≤ s.brk := hroom.resolve_left (Nat.succ_ne_zero 7)
  have hp := hfresh.room hspan
  -- the box is fresh, so storing its pointer does not touch it
  have habove : inner.span sz = 0 ∨ s.brk ≤ p := by
    rcases hfresh.held with hz | ⟨hlo, -⟩
    · exact .inl (by omega)
    · exact .inr hlo
  have hbrk := hfresh.brk
  have hbrk₂ := hputs.writes.brk
  have hout : Overwrites s₂.mem (writeCells s₂.mem dst (ptrCells p)) dst 8 :=
    overwrites_writeCells s₂.mem (Nat.le_refl _) (by rw [length_ptrCells])
  constructor
  · apply Writes.chain _ hout.writes
    exact (hfresh.writes dst 8).trans hputs.writes (fun _ _ hlo hhi => ⟨hlo, hhi⟩)
      (under_fresh habove)
  · apply Holds.boxed (readPtr_writeCells _ _ _) hspan
    · apply (hfresh.held.keep hputs.writes (Nat.le_refl _) hbrk₂).keep hout.writes
        (Nat.le_refl _) (Nat.le_refl _)
    · apply hputs.holds.frame hout.writes (Nat.le_refl _) _ (hp.mono hbrk₂) _ hbrk (Nat.le_refl _)
      · unfold Apart
        omega
      · unfold Apart
        omega

theorem parsesTo_boxed {inner : Ty} {size align : ℕ} {v : Val} {t : Bytes}
    (hinner : ParsesTo env sz inp inner v t) (hspan : inner.span sz ≤ size)
    (halloc : layoutOk size (max align 1) = true) :
    ParsesTo env sz inp (.boxed inner size align) (.boxed v) t := by
  intro c dst s tail h htail hroom
  obtain ⟨p, s₁, hbox, hfresh⟩ := rtBoxAlloc_run halloc s
  obtain ⟨s₂, hrun, hputs⟩ := hinner h htail (hfresh.room hspan)
  refine ⟨_, ?_, Puts.boxed hfresh hspan hputs hroom⟩
  apply Runs.call (x := fun n d => do
    let bp ← rtBoxAlloc size align
    let after ← parse env inp n d inner bp c
    storePtr dst bp
    pure after) (fun _ _ => rfl)
  apply Runs.bind_eq hbox
  apply hrun.bind
  exact Runs.of_eq rfl

section

variable {discOff discSize noneDiscr payloadOff size : ℕ} {someDiscr : Option ℕ} {inner : Ty}

/-- What the emitted code does at an option. -/
theorem parse_opt_run (env : Env) (inp : Input) (dst c n d : ℕ) :
    parse env inp n (d + 1)
      (.opt discOff discSize noneDiscr someDiscr payloadOff size inner) dst c = (do
      let b ← loadU8 inp (ws inp c)
      if b == 0x6E then do
        memset0 dst size
        storeImm dst discOff noneDiscr discSize
        pure (ws inp c + 4)
      else do
        let cc ← parse env inp n d inner (dst + payloadOff) (ws inp c)
        storeSome dst discOff discSize someDiscr
        pure cc) := rfl

/-- It clears the option at an `n`, ... -/
theorem parse_opt_null {dst c : ℕ} {r : Bytes} {s s' : State}
    (h : inp.rest (ws inp c) = 0x6E :: r)
    (hclear : (memset0 dst size >>= fun _ => storeImm dst discOff noneDiscr discSize).run s =
      (.done (), s')) :
    Runs (fun n d => parse env inp n d
      (.opt discOff discSize noneDiscr someDiscr payloadOff size inner) dst c) s (ws inp c + 4)
      s' := by
  apply Runs.call (parse_opt_run env inp dst c)
  apply Runs.bind_eq (loadU8_run h s)
  apply Runs.of_eq (x := memset0 dst size >>= fun _ => storeImm dst discOff noneDiscr discSize >>=
    fun _ => pure (ws inp c + 4))
  rw [← bind_assoc_run, bind_done hclear]
  rfl

/-- ... and parses a payload at anything else. -/
theorem parse_opt_payload {dst c e : ℕ} {b : UInt8} {r : Bytes} {s s₁ s' : State}
    (h : inp.rest (ws inp c) = b :: r) (hb : b ≠ 0x6E)
    (hinner : Runs (fun n d => parse env inp n d inner (dst + payloadOff) (ws inp c)) s e s₁)
    (hstore : (storeSome dst discOff discSize someDiscr).run s₁ = (.done (), s')) :
    Runs (fun n d => parse env inp n d
      (.opt discOff discSize noneDiscr someDiscr payloadOff size inner) dst c) s e s' := by
  apply Runs.call (parse_opt_run env inp dst c)
  apply Runs.bind_eq (loadU8_run h s)
  have hsome : (b == 0x6E) = false := by simpa using hb
  simp only [hsome, Bool.false_eq_true, if_false]
  apply hinner.bind
  apply Runs.of_eq
  rw [bind_done hstore]
  rfl

theorem parsesTo_none
    (hdisc : DiscOk discOff discSize noneDiscr someDiscr payloadOff size (inner.span sz))
    (hw : IsWs w) :
    ParsesTo env sz inp (.opt discOff discSize noneDiscr someDiscr payloadOff size inner) .none
      (w ++ nullText) := by
  intro c dst s tail h _ _
  rw [List.append_assoc] at h
  have hws : ws inp c = c + w.length := ws_eq hw h (by decide)
  obtain ⟨m, hrun, hout, hread⟩ := storeNone_run hdisc dst s
  refine ⟨{ s with mem := m }, ?_, ?_, Holds.none hread⟩
  · have hrest := Input.rest_append h
    rw [← hws] at hrest
    rw [List.length_append, ← Nat.add_assoc, ← hws]
    exact parse_opt_null hrest hrun
  · apply hout.writes.mono
    intro x _ hlo hhi
    show dst ≤ x ∧ x < dst + max size _
    omega

/-- The store behind a payload: the discriminant of `Some`, apart from the payload. -/
theorem storeSome_run {payload : ℕ}
    (hdisc : DiscOk discOff discSize noneDiscr someDiscr payloadOff size payload)
    (dst : ℕ) (s : State) :
    ∃ m, (storeSome dst discOff discSize someDiscr).run s = (.done (), { s with mem := m }) ∧
      (someDiscr = none → m = s.mem) ∧
      (∀ sd ∈ someDiscr, Overwrites s.mem m (dst + discOff) discSize ∧
        readNat m (dst + discOff) (storeWidth discSize) = some (discWord discSize sd)) := by
  cases someDiscr with
  | none => exact ⟨s.mem, rfl, fun _ => rfl, nofun⟩
  | some sd =>
    have hin := hdisc.disc
    have hsmall := hdisc.small
    refine ⟨writeCells s.mem (dst + discOff) (ints (le (storeWidth discSize) sd)), ?_, nofun, ?_⟩
    · rw [storeSome, storeImm, disp_eq (by omega)]
      rfl
    · intro x hx
      cases hx
      refine ⟨overwrites_writeCells s.mem (Nat.le_refl _) ?_, readNat_write_le _ _ _ _⟩
      rw [length_ints, length_le, hdisc.width.storeWidth]

/-- The payload has room where the option has. -/
theorem DiscOk.room {s : State} {dst : ℕ}
    (hdisc : DiscOk discOff discSize noneDiscr someDiscr payloadOff size (inner.span sz))
    (h : Room s dst ((Ty.opt discOff discSize noneDiscr someDiscr payloadOff size inner).span sz)) :
    Room s (dst + payloadOff) (inner.span sz) :=
  h.part (hdisc.inside.trans (Nat.le_max_left _ _))

/-- A payload, and the discriminant of `Some` behind it. -/
theorem puts_some {cells : Cells} {v : Val} {dst : ℕ} {s s₁ : State} {m : Memory}
    (hdisc : DiscOk discOff discSize noneDiscr someDiscr payloadOff size (inner.span sz))
    (hniche : someDiscr = none → ∀ s lo hi v a,
      Holds cells sz s lo hi inner v (a + payloadOff) →
        readNat s.mem (a + discOff) (storeWidth discSize) ≠ some (discWord discSize noneDiscr))
    (hroom : Room s dst
      ((Ty.opt discOff discSize noneDiscr someDiscr payloadOff size inner).span sz))
    (hputs : Puts cells sz s s₁ inner v (dst + payloadOff)) (hniche' : someDiscr = none → m = s₁.mem)
    (htag : ∀ sd ∈ someDiscr, Overwrites s₁.mem m (dst + discOff) discSize ∧
      readNat m (dst + discOff) (storeWidth discSize) = some (discWord discSize sd)) :
    Puts cells sz s { s₁ with mem := m }
      (.opt discOff discSize noneDiscr someDiscr payloadOff size inner) (.some v) dst := by
  have hin := hdisc.inside
  have hdin := hdisc.disc
  have hsize : ∀ {k}, k ≤ size →
      k ≤ (Ty.opt discOff discSize noneDiscr someDiscr payloadOff size inner).span sz :=
    fun hk => hk.trans (Nat.le_max_left _ _)
  have hbrk := hputs.writes.brk
  constructor
  -- what is written: the payload, then the discriminant if there is one
  · apply (hputs.writes.mono (under_part (hsize hin))).chain
    cases someDiscr with
    | none =>
      rw [hniche' rfl]
      exact Writes.refl s₁ _ _
    | some sd =>
      apply (htag sd rfl).1.writes.mono
      exact under_part (hsize hdin)
  -- what is there: with a niche the payload tells `Some` apart, else the discriminant
  · cases someDiscr with
    | none =>
      rw [hniche' rfl]
      exact Holds.some (hniche rfl _ _ _ _ _ hputs.holds) nofun hputs.holds
    | some sd =>
      obtain ⟨hout, hread⟩ := htag sd rfl
      obtain ⟨hne, hapart⟩ := hdisc.tagged sd rfl
      apply Holds.some
      · show readNat m _ _ ≠ _
        rw [hread]
        exact fun heq => hne (Option.some.inj heq)
      · intro x hx
        cases hx
        exact hread
      · apply hputs.holds.frame hout.writes (Nat.le_refl _) _ _ _ (Nat.le_refl _) (Nat.le_refl _)
        · have hd := hroom.part (hsize hdin)
          unfold Apart Room at *
          omega
        · exact (hroom.part (hsize hin)).mono hbrk
        · unfold Apart at *
          omega

theorem parsesTo_some {v : Val} {t : Bytes} {b : UInt8}
    (hdisc : DiscOk discOff discSize noneDiscr someDiscr payloadOff size (inner.span sz))
    (hniche : someDiscr = none → ∀ s lo hi v a,
      Holds env.cells sz s lo hi inner v (a + payloadOff) →
        readNat s.mem (a + discOff) (storeWidth discSize) ≠ some (discWord discSize noneDiscr))
    (hstarts : Starts t b) (hb : b ≠ 0x6E) (hinner : ParsesTo env sz inp inner v (token t)) :
    ParsesTo env sz inp (.opt discOff discSize noneDiscr someDiscr payloadOff size inner)
      (.some v) t := by
  intro c dst s tail h htail hroom
  obtain ⟨-, htok, hst⟩ := hstarts.append tail
  have hlead : lead (t ++ tail) = lead t := (hstarts.append tail).1
  obtain ⟨hws, hrest⟩ := hst.ws_eq h
  rw [hlead] at hws
  rw [htok] at hrest
  obtain ⟨r, hr⟩ := hstarts.2
  obtain ⟨s₁, hrun, hputs⟩ := hinner hrest htail (hdisc.room hroom)
  obtain ⟨m, hstore, hniche', htag⟩ := storeSome_run hdisc dst s₁
  refine ⟨{ s₁ with mem := m }, ?_, puts_some hdisc hniche hroom hputs hniche' htag⟩
  rw [hr, List.cons_append] at hrest
  rw [← length_lead_add_token t, ← Nat.add_assoc, ← hws]
  exact parse_opt_payload hrest hb hrun hstore

end

/-- What a cell stands for. -/
theorem Puts.ref {cells : Cells} {cell : RecCell} {body : Ty} {v : Val} {dst : ℕ} {s s₁ : State}
    (hc : cells cell = some body) (hspan : body.span sz ≤ (Ty.ref cell).span sz)
    (hputs : Puts cells sz s s₁ body v dst) : Puts cells sz s s₁ (.ref cell) v dst := by
  refine ⟨hputs.writes.mono ?_, Holds.ref hc hspan hputs.holds⟩
  intro x _ hlo hhi
  omega

/-- Only the scratch slot and the trace have changed behind it. -/
theorem Puts.of_eq {cells : Cells} {ty : Ty} {v : Val} {dst : ℕ} {s s₁ s₂ : State}
    (h : Puts cells sz s s₁ ty v dst) (hbrk : s₂.brk = s₁.brk) (hmem : s₂.mem = s₁.mem)
    (hmaps : s₂.maps = s₁.maps) (hblocks : s₂.blocks = s₁.blocks) : Puts cells sz s s₂ ty v dst := by
  constructor
  · exact h.writes.chain (writes_of_eq hbrk hmem hmaps hblocks _ _)
  · rw [hbrk]
    exact h.holds.of_eq hmem hmaps hblocks

/-- The function of a cell binds what its body binds. -/
theorem parsesTo_ref {cell : RecCell} {body : Ty} {v : Val} {t : Bytes}
    (hc : env.cells cell = some body) (hspan : body.span sz ≤ (Ty.ref cell).span sz)
    (hbody : ParsesTo env sz inp body v t) : ParsesTo env sz inp (.ref cell) v t := by
  intro c dst s tail h htail hroom
  have hroom' : Room s dst (body.span sz) := by
    unfold Room at *
    omega
  obtain ⟨s₁, hrun, hputs⟩ := hbody h htail hroom'
  refine ⟨{ s₁ with sc := s.sc }, ?_, (Puts.ref hc hspan hputs).of_eq rfl rfl rfl rfl⟩
  apply Runs.call (fun n d => parse_ref hc inp n d dst c)
  have hget : (get : M State).run s = (.done s, s) := rfl
  apply Runs.bind_eq hget
  apply hrun.bind
  exact Runs.of_eq rfl

end

end Bilbo
