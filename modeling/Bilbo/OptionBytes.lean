import Bilbo.Interpreting
import Bilbo.Progress

/-!
# The bytes of an option

Both binders store `None` as zeros with the discriminant among them, and `Some` as the
payload with the discriminant of `Some` behind it, or with none when the discriminant lies
in the payload. What the option itself stores is the same in both, whatever was there before.
-/

namespace Bilbo

open Base Comp

/-- A layout of an option around `payload` bytes. Without a discriminant for `Some`, the
discriminant lies in the payload. -/
structure OptLayout where
  discOff : ℕ
  discSize : ℕ
  noneDiscr : ℕ
  someDiscr : Option ℕ
  payloadOff : ℕ
  size : ℕ
  payload : ℕ
  width : IntSize discSize
  small : size ≤ maxSize
  disc : discOff + discSize ≤ size
  inside : payloadOff + payload ≤ size
  fits : noneDiscr < 256 ^ discSize
  tagged : ∀ sd ∈ someDiscr, sd < 256 ^ discSize ∧ sd ≠ noneDiscr ∧
    Apart discOff discSize payloadOff payload
  niche : someDiscr = none → payloadOff ≤ discOff ∧ discOff + discSize ≤ payloadOff + payload

namespace OptLayout

variable (l : OptLayout)

/-- The option of a type with this layout. -/
def ty (inner : Ty) : Ty :=
  .opt l.discOff l.discSize l.noneDiscr l.someDiscr l.payloadOff l.size inner

/-- The memory with `None` stored at `dst`. -/
def noneMem (dst : ℕ) (m : Memory) : Memory :=
  writeCells (writeCells m dst (List.replicate l.size (.int 0))) (dst + l.discOff)
    (ints (le l.discSize l.noneDiscr))

/-- The memory with the discriminant of `Some` stored, when there is one. -/
def someMem (dst : ℕ) (m : Memory) : Memory :=
  l.someDiscr.elim m fun sd => writeCells m (dst + l.discOff) (ints (le l.discSize sd))

/-- `None` lies at `dst`: the discriminant, and zeros around it. -/
structure NoneAt (dst : ℕ) (m : Memory) : Prop where
  disc : readNat m (dst + l.discOff) l.discSize = some l.noneDiscr
  zeros : ∀ i < l.size, i < l.discOff ∨ l.discOff + l.discSize ≤ i → m (dst + i) = .int 0

/-- `Some` lies at `dst`, with the payload as it lies in `m₁`. -/
structure SomeAt (dst : ℕ) (m₁ m : Memory) : Prop where
  payload : ∀ i < l.payload, m (dst + l.payloadOff + i) = m₁ (dst + l.payloadOff + i)
  tag : ∀ sd ∈ l.someDiscr, readNat m (dst + l.discOff) l.discSize = some sd
  disc : readNat m (dst + l.discOff) l.discSize ≠ some l.noneDiscr

/-- No valid payload carries the discriminant of `None`. -/
def Niche (Valid : Memory → ℕ → Prop) : Prop :=
  ∀ m a, Valid m (a + l.payloadOff) → l.someDiscr = none →
    readNat m (a + l.discOff) l.discSize ≠ some l.noneDiscr

/-! ## What is stored -/

theorem length_disc (v : ℕ) : (ints (le l.discSize v)).length = l.discSize := by
  rw [length_ints, length_le]

theorem readNat_disc {v : ℕ} (h : v < 256 ^ l.discSize) (m : Memory) (dst : ℕ) :
    readNat (writeCells m (dst + l.discOff) (ints (le l.discSize v))) (dst + l.discOff)
      l.discSize = some v := by
  rw [readNat_write_le, Nat.mod_eq_of_lt h]

theorem noneMem_at (dst : ℕ) (m : Memory) : l.NoneAt dst (l.noneMem dst m) := by
  constructor
  · exact l.readNat_disc l.fits _ dst
  · intro i hi hout
    unfold noneMem
    rw [writeCells_outside _ _ (by rw [length_disc]; omega),
      writeCells_apply _ _ _ i (by rw [List.length_replicate]; exact hi), List.getElem_replicate]

theorem noneMem_overwrites (dst : ℕ) (m : Memory) : Overwrites m (l.noneMem dst m) dst l.size := by
  have hdisc := l.disc
  unfold noneMem
  apply Overwrites.trans (overwrites_writeCells m (Nat.le_refl dst) _)
    (overwrites_writeCells _ (Nat.le_refl (dst + l.discOff)) (Nat.le_refl _))
  · omega
  · rw [length_disc]
    omega
  · rw [List.length_replicate]

theorem someMem_overwrites (dst : ℕ) (m : Memory) : Overwrites m (l.someMem dst m) dst l.size := by
  have hdisc := l.disc
  unfold someMem
  cases l.someDiscr with
  | none => exact Overwrites.refl m dst l.size
  | some sd =>
    apply overwrites_writeCells m (Nat.le_add_right dst l.discOff)
    rw [length_disc]
    omega

/-- The discriminant of `Some` is stored apart from the payload. -/
theorem someMem_payload (dst : ℕ) (m : Memory) {i : ℕ} (hi : i < l.payload) :
    l.someMem dst m (dst + l.payloadOff + i) = m (dst + l.payloadOff + i) := by
  unfold someMem
  cases hsome : l.someDiscr with
  | none => rfl
  | some sd =>
    have hapart := (l.tagged sd hsome).2.2
    apply writeCells_outside
    rw [length_disc]
    unfold Apart at hapart
    omega

theorem someMem_at {Valid : Memory → ℕ → Prop} (hniche : l.Niche Valid) {dst : ℕ} {m : Memory}
    (h : Valid m (dst + l.payloadOff)) : l.SomeAt dst m (l.someMem dst m) := by
  have hread : ∀ sd ∈ l.someDiscr,
      readNat (l.someMem dst m) (dst + l.discOff) l.discSize = some sd := by
    intro sd hsd
    rw [someMem, Option.mem_def.1 hsd]
    exact l.readNat_disc (l.tagged sd hsd).1 m dst
  refine ⟨fun i hi => l.someMem_payload dst m hi, hread, ?_⟩
  cases hsome : l.someDiscr with
  | none =>
    rw [someMem, hsome]
    exact hniche m dst h hsome
  | some sd =>
    rw [hread sd hsome]
    intro heq
    exact (l.tagged sd hsome).2.1 (Option.some.inj heq)

/-- The same payload gets the same discriminant. -/
theorem someMem_congr {dst : ℕ} {m₁ m₂ : Memory}
    (h : ∀ i < l.payload, m₁ (dst + l.payloadOff + i) = m₂ (dst + l.payloadOff + i)) :
    (∀ i < l.payload, l.someMem dst m₁ (dst + l.payloadOff + i) =
      l.someMem dst m₂ (dst + l.payloadOff + i)) ∧
    ∀ i < l.discSize, l.someMem dst m₁ (dst + l.discOff + i) =
      l.someMem dst m₂ (dst + l.discOff + i) := by
  constructor
  · intro i hi
    rw [l.someMem_payload dst m₁ hi, l.someMem_payload dst m₂ hi, h i hi]
  · intro i hi
    unfold someMem
    cases hsome : l.someDiscr with
    | none =>
      obtain ⟨hlo, hhi⟩ := l.niche hsome
      have hin := h (l.discOff + i - l.payloadOff) (by omega)
      rw [show dst + l.payloadOff + (l.discOff + i - l.payloadOff) = dst + l.discOff + i by omega]
        at hin
      exact hin
    | some sd =>
      show writeCells m₁ _ _ _ = writeCells m₂ _ _ _
      rw [writeCells_apply _ _ _ i (by rw [length_disc]; exact hi),
        writeCells_apply _ _ _ i (by rw [length_disc]; exact hi)]

/-! ## The binders -/

variable {l} {env : Env} {inp : Input} {inner : Ty} {dst c : ℕ}

theorem discOff_lt (l : OptLayout) : l.discOff < maxSize := by
  have hdisc := l.disc
  have hsmall := l.small
  have hwidth := l.width
  unfold IntSize at hwidth
  omega

theorem storeImm_disc (l : OptLayout) (dst v : ℕ) :
    storeImm dst l.discOff v l.discSize = storeInt (dst + l.discOff) l.discSize v := by
  rw [storeImm, disp_eq l.discOff_lt, l.width.storeWidth]

/-- The two stores of `None` in the emitted code. -/
theorem clear_run (l : OptLayout) (dst : ℕ) (s : State) :
    (memset0 dst l.size >>= fun _ => storeImm dst l.discOff l.noneDiscr l.discSize).run s =
      (.done (), { s with mem := l.noneMem dst s.mem }) := by
  rw [bind_done (memset0_run l.small dst s), storeImm_disc]
  rfl

theorem storeSome_eq (l : OptLayout) (dst : ℕ) (s : State) :
    (storeSome dst l.discOff l.discSize l.someDiscr).run s =
      (.done (), { s with mem := l.someMem dst s.mem }) := by
  unfold someMem
  cases l.someDiscr with
  | none => rfl
  | some sd =>
    rw [storeSome, storeImm_disc]
    rfl

/-- `parse_struct` stores `None` up front. -/
theorem default_run {base : ℕ} {f : FieldTy} (hf : f.ty = l.ty inner)
    (hdst : base + f.offset = dst) (s : State) :
    (defaultNone base f).run s = (.done (), { s with mem := l.noneMem dst s.mem }) := by
  rw [defaultNone, hf, hdst]
  exact l.clear_run dst s

/-- The emitted code on `null`. -/
theorem parse_null_runs {r : Bytes} (h : inp.rest (ws inp c) = 0x6E :: r) (s : State) :
    Runs (fun n d => parse env inp n d (l.ty inner) dst c) s (ws inp c + 4)
      { s with mem := l.noneMem dst s.mem } :=
  parse_opt_null h (l.clear_run dst s)

/-- `interp::run` on `null`. -/
theorem run_null_runs (s : State) :
    Runs (fun _ d => run env d dst (l.ty inner) .null) s () { s with mem := l.noneMem dst s.mem } := by
  apply Runs.call (x := fun _ _ => do
    storeCells dst (List.replicate l.size (.int 0))
    writeBytes (dst + l.discOff) l.discSize l.noneDiscr) (fun _ _ => rfl)
  rw [writeBytes_eq l.width]
  exact Runs.of_eq rfl

/-- The emitted code on a payload. -/
theorem parse_payload_runs {b : UInt8} {r : Bytes} {e : ℕ} {s s₁ : State}
    (h : inp.rest (ws inp c) = b :: r) (hb : b ≠ 0x6E)
    (hinner : Runs (fun n d => parse env inp n d inner (dst + l.payloadOff) (ws inp c)) s e s₁) :
    Runs (fun n d => parse env inp n d (l.ty inner) dst c) s e
      { s₁ with mem := l.someMem dst s₁.mem } :=
  parse_opt_payload h hb hinner (l.storeSome_eq dst s₁)

/-- `interp::run` on a payload. -/
theorem run_payload_runs {j : Json} {s s₁ : State} (hj : j ≠ .null)
    (hinner : Runs (fun _ d => run env d (dst + l.payloadOff) inner j) s () s₁) :
    Runs (fun _ d => run env d dst (l.ty inner) j) s () { s₁ with mem := l.someMem dst s₁.mem } :=
  run_opt_payload l.width l.discOff_lt hj hinner (l.storeSome_eq dst s₁)

/-! ## Assignments -/

/-- One assignment to the option at `dst`, from a state to a state: of `None`, or of a payload that
its own binder leaves valid in the memory given. The payload's binder does not touch the cells of
`Far`. -/
inductive Assigns (l : OptLayout) (env : Env) (inner : Ty) (Valid : Memory → ℕ → Prop)
    (Far : ℕ → Prop) (dst : ℕ) : Option Memory → State → State → Prop
  | default {base : ℕ} {f : FieldTy} {s s' : State} : f.ty = l.ty inner → base + f.offset = dst →
      (defaultNone base f).run s = (.done (), s') → Assigns l env inner Valid Far dst none s s'
  | parseNull {inp : Input} {c e : ℕ} {r : Bytes} {s s' : State} :
      inp.rest (ws inp c) = 0x6E :: r →
      Runs (fun n d => parse env inp n d (l.ty inner) dst c) s e s' →
      Assigns l env inner Valid Far dst none s s'
  | runNull {s s' : State} : Runs (fun _ d => run env d dst (l.ty inner) .null) s () s' →
      Assigns l env inner Valid Far dst none s s'
  | parsePayload {inp : Input} {c e e' : ℕ} {b : UInt8} {r : Bytes} {s s₁ s' : State} :
      inp.rest (ws inp c) = b :: r → b ≠ 0x6E →
      Runs (fun n d => parse env inp n d inner (dst + l.payloadOff) (ws inp c)) s e s₁ →
      Valid s₁.mem (dst + l.payloadOff) → (∀ x, Far x → s₁.mem x = s.mem x) →
      Runs (fun n d => parse env inp n d (l.ty inner) dst c) s e' s' →
      Assigns l env inner Valid Far dst (some s₁.mem) s s'
  | runPayload {j : Json} {s s₁ s' : State} : j ≠ .null →
      Runs (fun _ d => run env d (dst + l.payloadOff) inner j) s () s₁ →
      Valid s₁.mem (dst + l.payloadOff) → (∀ x, Far x → s₁.mem x = s.mem x) →
      Runs (fun _ d => run env d dst (l.ty inner) j) s () s' →
      Assigns l env inner Valid Far dst (some s₁.mem) s s'

/-- Assignments one after the other; the last one comes first. -/
inductive AssignsAll (l : OptLayout) (env : Env) (inner : Ty) (Valid : Memory → ℕ → Prop)
    (Far : ℕ → Prop) (dst : ℕ) : Option Memory → State → State → Prop
  | one {x : Option Memory} {s s' : State} : Assigns l env inner Valid Far dst x s s' →
      AssignsAll l env inner Valid Far dst x s s'
  | next {x y : Option Memory} {s s₁ s' : State} : AssignsAll l env inner Valid Far dst y s s₁ →
      Assigns l env inner Valid Far dst x s₁ s' → AssignsAll l env inner Valid Far dst x s s'

/-- What lies at `dst` after an assignment. -/
def Encodes (l : OptLayout) (dst : ℕ) : Option Memory → Memory → Prop
  | none, m => l.NoneAt dst m
  | some m₁, m => l.SomeAt dst m₁ m

section

variable {Valid : Memory → ℕ → Prop} {Far : ℕ → Prop} {x : Option Memory} {s s' : State}

/-- One assignment encodes its value, whatever was there before, and stores nowhere else. -/
theorem Assigns.encodes (hniche : l.Niche Valid) (h : Assigns l env inner Valid Far dst x s s') :
    l.Encodes dst x s'.mem ∧
      ∀ a, Far a → a < dst ∨ dst + l.size ≤ a → s'.mem a = s.mem a := by
  -- `None` and `Some` each leave one memory, by whatever way they are stored
  have hnull : s' = { s with mem := l.noneMem dst s.mem } →
      l.Encodes dst none s'.mem ∧
        ∀ a, Far a → a < dst ∨ dst + l.size ≤ a → s'.mem a = s.mem a := by
    rintro rfl
    exact ⟨l.noneMem_at dst s.mem, fun a _ ha => l.noneMem_overwrites dst s.mem a ha⟩
  have hsome : ∀ {s₁ : State}, Valid s₁.mem (dst + l.payloadOff) → (∀ a, Far a → s₁.mem a = s.mem a) →
      s' = { s₁ with mem := l.someMem dst s₁.mem } →
      l.Encodes dst (some s₁.mem) s'.mem ∧
        ∀ a, Far a → a < dst ∨ dst + l.size ≤ a → s'.mem a = s.mem a := by
    rintro s₁ hvalid hfar rfl
    refine ⟨l.someMem_at hniche hvalid, fun a ha hout => ?_⟩
    rw [← hfar a ha]
    exact l.someMem_overwrites dst s₁.mem a hout
  cases h with
  | default hf hdst hrun =>
    apply hnull
    rw [default_run hf hdst s] at hrun
    cases hrun
    rfl
  | parseNull hrest hrun => exact hnull (hrun.unique (parse_null_runs hrest s)).2
  | runNull hrun => exact hnull (hrun.unique (run_null_runs s)).2
  | parsePayload hrest hb hinner hvalid hfar hrun =>
    exact hsome hvalid hfar (hrun.unique (parse_payload_runs hrest hb hinner)).2
  | runPayload hj hinner hvalid hfar hrun =>
    exact hsome hvalid hfar (hrun.unique (run_payload_runs hj hinner)).2

/-- After several assignments the last value is encoded, and nothing else has been stored. -/
theorem AssignsAll.encodes (hniche : l.Niche Valid)
    (h : AssignsAll l env inner Valid Far dst x s s') :
    l.Encodes dst x s'.mem ∧
      ∀ a, Far a → a < dst ∨ dst + l.size ≤ a → s'.mem a = s.mem a := by
  induction h with
  | one h => exact h.encodes hniche
  | next _ h ih =>
    obtain ⟨henc, hout⟩ := h.encodes hniche
    refine ⟨henc, fun a ha hlt => ?_⟩
    rw [hout a ha hlt, ih.2 a ha hlt]

end

/-- How both binders store an option. -/
structure Binds (l : OptLayout) (env : Env) (inner : Ty) (Valid : Memory → ℕ → Prop) (dst : ℕ) :
    Prop where
  /-- `null`, in the emitted code -/
  parseNull : ∀ (inp : Input) (c : ℕ) (r : Bytes) (s : State), inp.rest (ws inp c) = 0x6E :: r →
    Runs (fun n d => parse env inp n d (l.ty inner) dst c) s (ws inp c + 4)
      { s with mem := l.noneMem dst s.mem }
  /-- `null`, in the interpreter: the same memory -/
  runNull : ∀ s : State,
    Runs (fun _ d => run env d dst (l.ty inner) .null) s () { s with mem := l.noneMem dst s.mem }
  /-- a payload, in the emitted code: what its own code leaves, and the discriminant -/
  parsePayload : ∀ (inp : Input) (c e : ℕ) (b : UInt8) (r : Bytes) (s s₁ : State),
    inp.rest (ws inp c) = b :: r → b ≠ 0x6E →
    Runs (fun n d => parse env inp n d inner (dst + l.payloadOff) (ws inp c)) s e s₁ →
    Runs (fun n d => parse env inp n d (l.ty inner) dst c) s e
      { s₁ with mem := l.someMem dst s₁.mem }
  /-- a payload, in the interpreter: the same discriminant -/
  runPayload : ∀ (j : Json) (s s₁ : State), j ≠ .null →
    Runs (fun _ d => run env d (dst + l.payloadOff) inner j) s () s₁ →
    Runs (fun _ d => run env d dst (l.ty inner) j) s () { s₁ with mem := l.someMem dst s₁.mem }
  /-- `None` reads back, and the other bytes are zero -/
  noneAt : ∀ m, l.NoneAt dst (l.noneMem dst m) ∧ Overwrites m (l.noneMem dst m) dst l.size
  /-- `Some` reads back, and the payload is intact -/
  someAt : ∀ m, Valid m (dst + l.payloadOff) →
    l.SomeAt dst m (l.someMem dst m) ∧ Overwrites m (l.someMem dst m) dst l.size
  /-- where the payloads have the same bytes, so have the options -/
  same : ∀ m₁ m₂ : Memory,
    (∀ i < l.payload, m₁ (dst + l.payloadOff + i) = m₂ (dst + l.payloadOff + i)) →
    (∀ i < l.payload, l.someMem dst m₁ (dst + l.payloadOff + i) =
      l.someMem dst m₂ (dst + l.payloadOff + i)) ∧
    ∀ i < l.discSize, l.someMem dst m₁ (dst + l.discOff + i) =
      l.someMem dst m₂ (dst + l.discOff + i)
  /-- after any assignments, the default among them, the last value reads back -/
  last : ∀ (Far : ℕ → Prop) (x : Option Memory) (s s' : State),
    AssignsAll l env inner Valid Far dst x s s' →
    l.Encodes dst x s'.mem ∧ ∀ a, Far a → a < dst ∨ dst + l.size ≤ a → s'.mem a = s.mem a

/-- Both binders store every option alike, byte by byte. -/
theorem option_binds (l : OptLayout) (env : Env) (inner : Ty) {Valid : Memory → ℕ → Prop}
    (hniche : l.Niche Valid) (dst : ℕ) : Binds l env inner Valid dst where
  parseNull _ _ _ s h := parse_null_runs h s
  runNull s := run_null_runs s
  parsePayload _ _ _ _ _ _ _ h hb hinner := parse_payload_runs h hb hinner
  runPayload _ _ _ hj hinner := run_payload_runs hj hinner
  noneAt m := ⟨l.noneMem_at dst m, l.noneMem_overwrites dst m⟩
  someAt m h := ⟨l.someMem_at hniche h, l.someMem_overwrites dst m⟩
  same _ _ h := l.someMem_congr h
  last _ _ _ _ h := h.encodes hniche

/-- An `Option<bool>` whose `None` is a byte that no `bool` has. -/
def boolNiche : OptLayout where
  discOff := 0
  discSize := 1
  noneDiscr := 2
  someDiscr := none
  payloadOff := 0
  size := 1
  payload := 1
  width := .inl rfl
  small := by decide
  disc := by decide
  inside := by decide
  fits := by decide
  tagged := nofun
  niche _ := by decide

theorem option_binds_bool :
    Binds boolNiche Env.bare .bool (fun m a => readNat m a 1 = some 0 ∨ readNat m a 1 = some 1) 0 := by
  apply option_binds
  intro m a hvalid _
  show readNat m (a + 0) 1 ≠ some 2
  rcases hvalid with h | h
  · rw [show readNat m (a + 0) 1 = some 0 from h]
    decide
  · rw [show readNat m (a + 0) 1 = some 1 from h]
    decide

/-- An `Option<Vec<u64>>` whose `None` is a capacity that no vector has. -/
def vecNiche : OptLayout where
  discOff := 8
  discSize := 8
  noneDiscr := 2 ^ 63
  someDiscr := none
  payloadOff := 0
  size := 24
  payload := 24
  width := .inr (.inr (.inr rfl))
  small := by decide
  disc := by decide
  inside := by decide
  fits := by decide
  tagged := nofun
  niche _ := by decide

/-- A tag `2 ^ 31` bytes behind a `bool`. -/
def farTag : Ty := .opt (2 ^ 31) 8 0 (some 1) 0 (2 ^ 31 + 8) .bool

/-- `true` -/
def trueInput : Input := ⟨boolText true, fun _ => 0, by decide⟩

/-- On `[1]` the emitted code leaves a vector with room for four and the interpreter one with room
for one, and the block of the items lies outside the option. A tag `2 ^ 31` bytes behind the start
is stored in front of the option, where `None` keeps reading back. -/
theorem option_differs :
    (((parse .bare oneInt 5 5 (vecNiche.ty vecU64) 0 0).run (.initial 24)).1 = .done 3 ∧
      readNat ((parse .bare oneInt 5 5 (vecNiche.ty vecU64) 0 0).run (.initial 24)).2.mem 8 8 =
        some 4 ∧
      readNat ((parse .bare oneInt 5 5 (vecNiche.ty vecU64) 0 0).run (.initial 24)).2.mem 24 8 =
        some 1 ∧
      ((run .bare 5 0 (vecNiche.ty vecU64) (.array [.num [0x31]])).run (.initial 24)).1 = .done () ∧
      readNat ((run .bare 5 0 (vecNiche.ty vecU64) (.array [.num [0x31]])).run
        (.initial 24)).2.mem 8 8 = some 1) ∧
    ((parse .bare trueInput 5 5 farTag (2 ^ 31) 0).run (.initial (2 ^ 33))).1 = .done 4 ∧
      readNat ((parse .bare trueInput 5 5 farTag (2 ^ 31) 0).run (.initial (2 ^ 33))).2.mem
        (2 ^ 31 + 2 ^ 31) 8 = some 0 ∧
      readNat ((parse .bare trueInput 5 5 farTag (2 ^ 31) 0).run (.initial (2 ^ 33))).2.mem 0 8 =
        some 1 := by
  refine ⟨⟨rfl, rfl, rfl, rfl, rfl⟩, rfl, ?_, ?_⟩
  · decide
  · decide

end OptLayout

/-- The layout of `Option<Box<Node>>`. -/
def nodeOpt : OptLayout where
  discOff := 0
  discSize := 8
  noneDiscr := 0
  someDiscr := none
  payloadOff := 0
  size := 8
  payload := 8
  width := .inr (.inr (.inr rfl))
  small := by decide
  disc := by decide
  inside := by decide
  fits := by decide
  tagged := nofun
  niche _ := by decide

end Bilbo
