import Bilbo.Interp
import Bilbo.Reading
import Bilbo.Sequences

/-!
# The interpreter backend on documents

`interp::run` puts the value that a text spells in place, from what `json.rs` reads: one
constructor of types after the other, with the same account of memory as for the emitted parser.
-/

namespace Bilbo

open Base Comp

variable {env : Env} {sz : RecCell → Option ℕ}

/-- From the JSON value, `interp::run` puts the value of the type in place. -/
def Interprets (env : Env) (sz : RecCell → Option ℕ) (ty : Ty) (v : Val) (j : Json) : Prop :=
  ∀ ⦃dst : ℕ⦄ ⦃s : State⦄, Room s dst (ty.span sz) →
    ∃ s', Runs (fun _ d => run env d dst ty j) s () s' ∧ Puts env.cells sz s s' ty v dst

/-! ## Scalars -/

theorem writeBytes_eq {k : ℕ} (hk : IntSize k) (dst v : ℕ) : writeBytes dst k v = storeInt dst k v := by
  have hle : k ≤ 16 := by
    unfold IntSize at hk
    omega
  rw [writeBytes, if_pos hle]

theorem parseDigits_eq {ds : Bytes} (hds : Digits ds) : Json.parseDigits ds = some (decimal ds) := by
  rw [Json.parseDigits, if_pos ⟨hds.nonempty, List.all_eq_true.2 hds.digits⟩]
  rfl

theorem asU128_eq (sign : Sign) {ds : Bytes} (hsign : sign ≠ .minus) (hds : Digits ds)
    (h : decimal ds < 2 ^ 128) : (Json.num (sign.text ++ ds)).asU128 = .ok (decimal ds) := by
  have hfilter : (some (decimal ds)).filter (· < 2 ^ 128) = some (decimal ds) := by
    rw [Option.filter_some, if_pos (decide_eq_true h)]
  have hparse : Json.parseU128 (sign.text ++ ds) = some (decimal ds) := by
    cases sign with
    | minus => exact absurd rfl hsign
    | plus =>
      unfold Json.parseU128
      show Option.filter _ (Json.parseDigits ds) = _
      rw [parseDigits_eq hds, hfilter]
    | none =>
      obtain ⟨b, r, hb⟩ := List.exists_cons_of_ne_nil hds.nonempty
      -- no sign: the first byte is a digit, so it is not taken for one
      have hplus := (isDigit_visible (hds.digits b (by rw [hb]; exact List.mem_cons_self))).2.2
      have hdigits := parseDigits_eq hds
      rw [hb] at hdigits hfilter ⊢
      unfold Json.parseU128
      show Option.filter _ (if (b == Ascii.plus) = true then _ else Json.parseDigits (b :: r)) = _
      rw [if_neg (by simpa using hplus), hdigits, hfilter]
  rw [Json.asU128, hparse]
  rfl

theorem asI128_eq (sign : Sign) {ds : Bytes} (hds : Digits ds)
    (hlo : -2 ^ 127 ≤ sign.apply (decimal ds)) (hhi : sign.apply (decimal ds) < 2 ^ 127) :
    (Json.num (sign.text ++ ds)).asI128 = .ok (sign.apply (decimal ds)) := by
  -- a value in range is not filtered out
  have hfilter : (some (sign.apply (decimal ds))).filter (fun v => -2 ^ 127 ≤ v ∧ v < 2 ^ 127) =
      some (sign.apply (decimal ds)) := by
    rw [Option.filter_some, if_pos (decide_eq_true ⟨hlo, hhi⟩)]
  have hparse : Json.parseI128 (sign.text ++ ds) = some (sign.apply (decimal ds)) := by
    cases sign with
    | minus =>
      unfold Json.parseI128 Sign.text
      simp only [List.singleton_append, beq_self_eq_true, if_true]
      rw [parseDigits_eq hds]
      exact hfilter
    | plus =>
      have hminus : (Ascii.plus == Ascii.minus) = false := rfl
      unfold Json.parseI128 Sign.text
      simp only [List.singleton_append, hminus, Bool.false_eq_true, beq_self_eq_true, if_true,
        if_false]
      rw [parseDigits_eq hds]
      exact hfilter
    | none =>
      obtain ⟨b, r, hb⟩ := List.exists_cons_of_ne_nil hds.nonempty
      have hdig := isDigit_visible (hds.digits b (by rw [hb]; exact List.mem_cons_self))
      have hdigits := parseDigits_eq hds
      rw [hb] at hdigits hfilter ⊢
      unfold Json.parseI128 Sign.text
      simp only [List.nil_append, beq_eq_false_iff_ne.2 hdig.2.1, beq_eq_false_iff_ne.2 hdig.2.2,
        Bool.false_eq_true, if_false]
      rw [hdigits]
      exact hfilter
  rw [Json.asI128, hparse]
  rfl

theorem interprets_u {n : ℕ} {ds : Bytes} (hn : IntSize n) (hds : Digits ds)
    (hlt : decimal ds < 256 ^ n) : Interprets env sz (.u n) (.int (decimal ds)) (.num ds) := by
  intro dst s _
  have hle : 256 ^ n ≤ 256 ^ 8 := by
    rcases hn with rfl | rfl | rfl | rfl <;> decide
  have hbig : (256 : ℕ) ^ 8 < 2 ^ 128 := by decide
  have hputs : Puts env.cells sz s
      { s with mem := writeCells s.mem dst (ints (le n (decimal ds))) } (.u n)
      (.int (decimal ds)) dst := by
    have hspan : (Ty.u n).span sz = n := hn.storeWidth
    apply puts_int s dst hspan
    intro s lo hi a hread
    apply Holds.u hlt
    rw [hn.storeWidth, hread, Nat.mod_eq_of_lt hlt]
  refine ⟨_, ?_, hputs⟩
  apply Runs.call (x := fun _ _ => do
    let v ← orPanic (Json.num ds).asU128
    writeBytes dst n v) (fun _ _ => rfl)
  -- the number is below `2 ^ 128` as it fits `n` bytes
  have has : (Json.num ds).asU128 = .ok (decimal ds) :=
    asU128_eq .none (by decide) hds (by omega)
  rw [has]
  apply Runs.of_eq
  show (writeBytes dst n (decimal ds)).run s = _
  rw [writeBytes_eq hn]
  rfl

theorem run_boxed (env : Env) (d dst : ℕ) (inner : Ty) (size align : ℕ) (j : Json) :
    run env (d + 1) dst (.boxed inner size align) j = (do
      let p ← rtBoxAlloc size align
      run env d p inner j
      storePtr dst p) := by
  rw [run, rtBoxAlloc]
  split
  · rfl
  · rfl

section

variable {discOff discSize noneDiscr payloadOff size : ℕ} {someDiscr : Option ℕ} {inner : Ty}

/-- `interp::run` stores a value that is not `null` as the emitted code does a payload. -/
theorem run_opt_payload {j : Json} {dst : ℕ} {s s₁ s' : State} (hwidth : IntSize discSize)
    (hoff : discOff < maxSize) (hj : j ≠ .null)
    (hinner : Runs (fun _ d => run env d (dst + payloadOff) inner j) s () s₁)
    (hstore : (storeSome dst discOff discSize someDiscr).run s₁ = (.done (), s')) :
    Runs (fun _ d => run env d dst
      (.opt discOff discSize noneDiscr someDiscr payloadOff size inner) j) s () s' := by
  have hstep : ∀ d, run env (d + 1) dst
      (.opt discOff discSize noneDiscr someDiscr payloadOff size inner) j = (do
        run env d (dst + payloadOff) inner j
        storeSome dst discOff discSize someDiscr) := by
    intro d
    have hsome : ∀ sd ∈ someDiscr, writeBytes (dst + discOff) discSize sd =
        storeImm dst discOff sd discSize := by
      intro sd _
      rw [writeBytes_eq hwidth, storeImm, disp_eq hoff, hwidth.storeWidth]
    -- every value but `null` takes the same branch
    cases j with
    | null => exact absurd rfl hj
    | _ =>
      cases someDiscr with
      | none => rfl
      | some sd =>
        rw [storeSome, ← hsome sd rfl]
        rfl
  apply Runs.call (fun _ d => hstep d)
  exact hinner.bind (Runs.of_eq hstore)

theorem interprets_none
    (hdisc : DiscOk discOff discSize noneDiscr someDiscr payloadOff size (inner.span sz)) :
    Interprets env sz (.opt discOff discSize noneDiscr someDiscr payloadOff size inner) .none
      .null := by
  intro dst s _
  have hin := hdisc.disc
  have hzeros : Overwrites s.mem (writeCells s.mem dst (List.replicate size (.int 0))) dst size := by
    apply overwrites_writeCells s.mem (Nat.le_refl _)
    rw [List.length_replicate]
  refine ⟨{ s with
    mem := writeCells (writeCells s.mem dst (List.replicate size (.int 0))) (dst + discOff)
      (ints (le discSize noneDiscr)) }, ?_, ?_, Holds.none ?_⟩
  · apply Runs.call (x := fun _ _ => do
      storeCells dst (List.replicate size (.int 0))
      writeBytes (dst + discOff) discSize noneDiscr) (fun _ _ => rfl)
    rw [writeBytes_eq hdisc.width]
    exact Runs.of_eq rfl
  -- first the zeros, then the discriminant over them
  · have hdisc' : Overwrites (writeCells s.mem dst (List.replicate size (.int 0)))
        (writeCells (writeCells s.mem dst (List.replicate size (.int 0))) (dst + discOff)
          (ints (le discSize noneDiscr))) (dst + discOff) discSize := by
      apply overwrites_writeCells _ (Nat.le_refl _)
      rw [length_ints, length_le]
    have hout := hzeros.trans hdisc' (Nat.le_add_right _ _) (by omega)
    apply hout.writes.mono
    intro x _ hlo hhi
    show dst ≤ x ∧ x < dst + max size _
    omega
  · rw [discWord, hdisc.width.storeWidth]
    exact readNat_write_le _ _ _ _

end

/-! ## Several parts -/

section

variable {fields : List FieldTy}

/-- Parts put in place one after the other. -/
theorem parts_run {α : Type} (act : ℕ → α → M Unit) (items : List α) (vs : List Val) {s : State}
    {dst : ℕ} (hapart : FieldsApart sz fields) (hroom : Room s dst (Ty.fieldsSpan sz fields))
    (hitems : items.length = fields.length) (hvs : vs.length = fields.length)
    (hact : ∀ (i : ℕ) (a : α) (f : FieldTy) (v : Val), items[i]? = some a → fields[i]? = some f →
      vs[i]? = some v → ∀ s, Room s (dst + f.offset) (f.ty.span sz) →
      ∃ s', Runs (fun _ d => act d a) s () s' ∧ Puts env.cells sz s s' f.ty v (dst + f.offset)) :
    ∃ s', Runs (fun _ d => items.forM (act d)) s () s' ∧
      Filled env.cells sz fields s s' dst fun i v => vs[i]? = some v := by
  -- by induction on the parts that are left, of which the first is the `k`-th
  have hall : ∀ (l : List α) (k : ℕ) (s₁ : State), items.drop k = l →
      Filled env.cells sz fields s s₁ dst (fun i v => i < k ∧ vs[i]? = some v) →
      ∃ s', Runs (fun _ d => l.forM (act d)) s₁ () s' ∧
        Filled env.cells sz fields s s' dst fun i v => vs[i]? = some v := by
    intro l
    induction l with
    | nil =>
      intro k s₁ hl hfill
      refine ⟨s₁, Runs.pure _ _, hfill.weaken ?_⟩
      intro i v hv
      have hk := List.drop_eq_nil_iff.1 hl
      have hi := (List.getElem?_eq_some_iff.1 hv).1
      exact ⟨by omega, hv⟩
    | cons a l ih =>
      intro k s₁ hl hfill
      obtain ⟨ha, hrest⟩ := of_drop_eq_cons hl
      have hk := (List.getElem?_eq_some_iff.1 ha).1
      obtain ⟨f, hf⟩ : ∃ f, fields[k]? = some f := ⟨_, List.getElem?_eq_getElem (by omega)⟩
      obtain ⟨v, hv⟩ : ∃ v, vs[k]? = some v := ⟨_, List.getElem?_eq_getElem (by omega)⟩
      have hspan := Ty.le_fieldsSpan sz (List.mem_of_getElem? hf)
      obtain ⟨s₂, hrun, hputs⟩ :=
        hact k a f v ha hf hv s₁ ((hroom.part hspan).mono hfill.writes.brk)
      have hfill₂ := hfill.next hapart hroom hf hv hputs
      obtain ⟨s', hrun', hfill'⟩ := ih (k + 1) s₂ hrest hfill₂
      refine ⟨s', ?_, hfill'⟩
      show Runs (fun _ d => act d a >>= fun _ => l.forM (act d)) s₁ () s'
      exact hrun.bind hrun'
  apply hall items 0 s rfl
  apply (filled_start env.cells s dst).weaken
  rintro i v ⟨hi, -⟩
  omega

/-- What a struct takes from an object. -/
structure Supplies (env : Env) (sz : RecCell → Option ℕ) (fields : List FieldTy)
    (bind : Bytes → Val) (kvs : List (Bytes × Json)) : Prop where
  known : ∀ kv ∈ kvs, ∀ f ∈ fields, f.key = kv.1 → Interprets env sz f.ty (bind f.key) kv.2
  absent : ∀ f ∈ fields, (∀ kv ∈ kvs, f.key ≠ kv.1) → f.ty.isOpt = true ∧ bind f.key = .none

/-- An option without a value is none. -/
theorem interprets_absent {ty : Ty} (hty : Ty.Ok env sz ty) (hopt : ty.isOpt = true) :
    Interprets env sz ty .none .null := by
  cases hty with
  | opt _ hdisc _ => exact interprets_none hdisc
  | _ => cases hopt

/-- A field takes the value from the first member with its key, or it is an option that takes
`None` when there is none. -/
def TakesFirst (env : Env) (sz : RecCell → Option ℕ) (kvs : List (Bytes × Json)) (f : FieldTy)
    (v : Val) : Prop :=
  match (Json.object kvs).get f.key with
  | some fv => Interprets env sz f.ty v fv
  | none => f.ty.isOpt = true ∧ v = .none

theorem runField_run {kvs : List (Bytes × Json)} {f : FieldTy} {v : Val}
    (hok : Ty.Ok env sz f.ty) (h : TakesFirst env sz kvs f v) {dst : ℕ}
    {s : State} (hroom : Room s (dst + f.offset) (f.ty.span sz)) :
    ∃ s', Runs (fun _ d => runField env dst (.object kvs) d f) s () s' ∧
      Puts env.cells sz s s' f.ty v (dst + f.offset) := by
  unfold TakesFirst at h
  unfold runField
  cases hget : (Json.object kvs).get f.key with
  | some fv =>
    simp only [hget] at h
    exact h hroom
  | none =>
    simp only [hget] at h
    obtain ⟨hopt, rfl⟩ := h
    obtain ⟨s', hrun, hputs⟩ := interprets_absent hok hopt hroom
    refine ⟨s', ?_, hputs⟩
    simp only [hopt, if_true]
    exact hrun

theorem interprets_fields {name : String} {vs : List Val} {kvs : List (Bytes × Json)}
    (hok : ∀ f ∈ fields, Ty.Ok env sz f.ty) (hapart : FieldsApart sz fields)
    (hvs : vs.length = fields.length)
    (h : ∀ (i : ℕ) (f : FieldTy) (v : Val), fields[i]? = some f → vs[i]? = some v →
      TakesFirst env sz kvs f v) :
    Interprets env sz (.struct name fields) (.record vs) (.object kvs) := by
  intro dst s hroom
  obtain ⟨s', hrun, hfill⟩ := parts_run (runField env dst (.object kvs)) fields vs hapart hroom
    rfl hvs (by
      intro i a f v ha hf hv s hs
      obtain rfl : a = f := Option.some.inj (ha.symm.trans hf)
      exact runField_run (hok a (List.mem_of_getElem? hf)) (h i a v hf hv) hs)
  refine ⟨s', ?_, hfill.struct hvs fun i v hv => hv⟩
  exact Runs.call (fun _ _ => rfl) hrun

/-- The first member with a key is one of the members with it. -/
theorem Supplies.takesFirst {bind : Bytes → Val} {kvs : List (Bytes × Json)} {f : FieldTy}
    (h : Supplies env sz fields bind kvs) (hf : f ∈ fields) :
    TakesFirst env sz kvs f (bind f.key) := by
  unfold TakesFirst
  cases hget : (Json.object kvs).get f.key with
  | some fv =>
    -- the member that `Json::get` finds has the key
    obtain ⟨kv, hfind, rfl⟩ := Option.map_eq_some_iff.1 hget
    have hsome := List.find?_some hfind
    have hkey : kv.1 = f.key := by simpa using hsome
    exact h.known kv (List.mem_of_find?_eq_some hfind) f hf hkey.symm
  | none =>
    have hfind := List.find?_eq_none.1 (Option.map_eq_none_iff.1 hget)
    exact h.absent f hf fun kv hkv heq => hfind kv hkv (by simpa using heq.symm)

end

/-! ## Vectors -/

section

variable {elem : Ty} {size align : ℕ}

/-- The elements in a buffer, as fields. -/
def slots (elem : Ty) (size n : ℕ) : List FieldTy :=
  (List.range n).map fun i => ⟨"", i * size, elem⟩

/-- The buffer that `interp::run` makes for an array. -/
def runBuffer (env : Env) (elem : Ty) (size align : ℕ) (js : List Json) (d : ℕ) : M ℕ :=
  if js.length = 0 then pure (max align 1)
  else do
    let p ← alloc (size * js.length % 2 ^ 64) (max align 1)
    forEach (fun i item => run env d (p + i * size) elem item) 0 js
    pure p

theorem run_vec (env : Env) (elem : Ty) (size align : ℕ) (seq : SeqLayout) (js : List Json)
    (dst d : ℕ) :
    run env (d + 1) dst (.vec elem size align seq) (.array js) = (do
      let p ← runBuffer env elem size align js d
      writeSeq dst seq p js.length js.length) := by
  rw [run, runBuffer]
  split
  · rfl
  · simp only [bind_assoc_run]

end

end Bilbo
