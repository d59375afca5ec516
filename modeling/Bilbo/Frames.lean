import Bilbo.Base.Invariant
import Bilbo.Dispatch
import Bilbo.Interp
import Bilbo.Stores

/-!
# What the binders leave alone

A type fits in `n` bytes when what either binder stores for a value of it, at its destination, lies in
these bytes. Then a binder that returns has changed, of the memory in use, only these bytes, and it has
freed no block that was there: everything else it stores lies in what it has allocated.
-/

namespace Bilbo

open Base Comp

/-! ## Bytes of a type's own -/

/-- The bytes stored for an integer of `n` bytes: the emitted code stores `storeWidth n`, the
interpreter `n`. -/
def intExtent (n : ℕ) : ℕ := max (storeWidth n) n

/-- The words of a sequence lie in the first `k` bytes. -/
structure SeqLayout.Fits (seq : SeqLayout) (k : ℕ) : Prop where
  ok : seq.Ok
  inside : seq.ptrOff + 8 ≤ k ∧ seq.capOff + 8 ≤ k ∧ seq.lenOff + 8 ≤ k

/-- What is stored for a value of the type at its destination lies in the first `k` bytes, and the sizes
recorded for inner types are enough for theirs. -/
inductive Ty.Fits (sz : RecCell → Option ℕ) : Ty → ℕ → Prop
  | bool {k : ℕ} : 1 ≤ k → Fits sz .bool k
  | char {k : ℕ} : 4 ≤ k → Fits sz .char k
  | u {n k : ℕ} : intExtent n ≤ k → Fits sz (.u n) k
  | i {n k : ℕ} : intExtent n ≤ k → Fits sz (.i n) k
  | f32 {k : ℕ} : 4 ≤ k → Fits sz .f32 k
  | f64 {k : ℕ} : 8 ≤ k → Fits sz .f64 k
  | struct {name : String} {fields : List FieldTy} {k : ℕ} (size : FieldTy → ℕ) :
      (∀ f ∈ fields, f.offset + size f ≤ k) → (∀ f ∈ fields, Fits sz f.ty (size f)) →
      Fits sz (.struct name fields) k
  | tuple {fields : List FieldTy} {k : ℕ} (size : FieldTy → ℕ) :
      (∀ f ∈ fields, f.offset + size f ≤ k) → (∀ f ∈ fields, Fits sz f.ty (size f)) →
      Fits sz (.tuple fields) k
  | str {seq : SeqLayout} {k : ℕ} : seq.Fits k → Fits sz (.str seq) k
  | vec {elem : Ty} {size align k : ℕ} {seq : SeqLayout} : Fits sz elem size → size < 2 ^ 62 →
      seq.Fits k → Fits sz (.vec elem size align seq) k
  | strRef {ptrOff lenOff k : ℕ} : ptrOff < maxSize → lenOff < maxSize → Apart ptrOff 8 lenOff 8 →
      ptrOff + 8 ≤ k → lenOff + 8 ≤ k → Fits sz (.strRef ptrOff lenOff) k
  | unit {k : ℕ} : Fits sz .unit k
  | boxed {inner : Ty} {size align k : ℕ} : Fits sz inner size → 8 ≤ k →
      Fits sz (.boxed inner size align) k
  | opt {discOff discSize noneDiscr payloadOff size payload k : ℕ} {someDiscr : Option ℕ}
      {inner : Ty} : size ≤ maxSize → discOff < maxSize → size ≤ k →
      discOff + intExtent discSize ≤ k → Fits sz inner payload → payloadOff + payload ≤ k →
      Fits sz (.opt discOff discSize noneDiscr someDiscr payloadOff size inner) k
  | map {key val : Ty} {keySize valSize newAt insert k : ℕ} :
      Fits sz key keySize → Fits sz val valSize → 24 ≤ k →
      Fits sz (.map key keySize val valSize newAt insert) k
  | ref {c : RecCell} {j k : ℕ} : sz c = some j → j ≤ k → Fits sz (.ref c) k
  | unknown {what : String} {k : ℕ} : Fits sz (.unknown what) k

/-- What the cells hold fits. -/
def CellsFit (cells : Cells) (sz : RecCell → Option ℕ) : Prop :=
  ∀ c j body, sz c = some j → cells c = some body → Ty.Fits sz body j

/-! ## States -/

/-- Of the memory in use only the `n` bytes at `dst` have changed, and no block has been freed. -/
structure Confined (s s' : State) (dst n : ℕ) : Prop where
  brk : s.brk ≤ s'.brk
  mem : ∀ x < s.brk, x < dst ∨ dst + n ≤ x → s'.mem x = s.mem x
  blocks : ∀ b ∈ s.blocks, b.base < s.brk → b ∈ s'.blocks

/-- The `k` bytes at `a` are new, or among the `n` bytes at `dst`. -/
def Own (s : State) (dst n a k : ℕ) : Prop := k = 0 ∨ s.brk ≤ a ∨ dst ≤ a ∧ a + k ≤ dst + n

theorem Confined.refl (s : State) (dst n : ℕ) : Confined s s dst n :=
  ⟨Nat.le_refl _, fun _ _ _ => rfl, fun _ hb _ => hb⟩

section

variable {s₀ s s' : State} {dst n a k : ℕ}

theorem Confined.trans (h : Confined s₀ s dst n) (h' : Confined s s' a k) (hown : Own s₀ dst n a k) :
    Confined s₀ s' dst n := by
  have hbrk := h.brk
  refine ⟨hbrk.trans h'.brk, fun x hx hout => ?_, fun b hb hlt => ?_⟩
  · rw [h'.mem x (by omega) (by unfold Own at hown; omega), h.mem x hx hout]
  · exact h'.blocks b (h.blocks b hb hlt) (by omega)

theorem confined_store {cs : List Cell} (h : cs.length = k) :
    Confined s { s with mem := writeCells s.mem a cs } a k :=
  ⟨Nat.le_refl _, fun _ _ hout => writeCells_outside _ _ (h.symm ▸ hout), fun _ hb _ => hb⟩

/-- The scratch slot, the maps and the trace do not count. -/
theorem Confined.of_eq (h : Confined s₀ s dst n) (hmem : s'.mem = s.mem) (hbrk : s'.brk = s.brk)
    (hblocks : s'.blocks = s.blocks) : Confined s₀ s' dst n :=
  ⟨hbrk ▸ h.brk, fun x hx hout => (congrFun hmem x).trans (h.mem x hx hout),
    fun b hb hlt => hblocks ▸ h.blocks b hb hlt⟩

end

/-- The computation, when it returns, has changed only the `n` bytes at `dst`. -/
def Stays {α : Type} (x : M α) (dst n : ℕ) : Prop :=
  ∀ s, Maintains (Confined s · dst n) x fun _ => True

section

variable {α : Type} {s₀ : State} {dst n a k : ℕ}

theorem Stays.maintains {x : M α} (h : Stays x a k) (hown : Own s₀ dst n a k) :
    Maintains (Confined s₀ · dst n) x fun _ => True :=
  fun s hs b s' hrun => ⟨hs.trans (h s s (.refl s a k) b s' hrun).1 hown, trivial⟩

theorem Stays.confined {x : M α} (h : Stays x dst n) {s s' : State} {b : α}
    (hrun : x.run s = (.done b, s')) : Confined s s' dst n := (h s s (.refl s dst n) b s' hrun).1

/-- Under bounds as large as one likes. -/
theorem confined_of_runs {x : ℕ → ℕ → M α} (h : ∀ m d, Stays (x m d) dst n) {s s' : State} {b : α}
    (hrun : Runs x s b s') : Confined s s' dst n := by
  obtain ⟨N, hN⟩ := hrun
  exact (h N N).confined (hN N (Nat.le_refl N) N (Nat.le_refl N))

theorem maintains_stateless {x : M α} (h : Stateless x) :
    Maintains (Confined s₀ · dst n) x fun _ => True := by
  intro s hs b s' hrun
  obtain ⟨o, ho⟩ := h
  rw [ho s] at hrun
  cases hrun
  exact ⟨hs, trivial⟩

theorem maintains_modify {f : State → State} (hmem : ∀ s, (f s).mem = s.mem)
    (hbrk : ∀ s, (f s).brk = s.brk) (hblocks : ∀ s, (f s).blocks = s.blocks) :
    Maintains (Confined s₀ · dst n) (modify f : M Unit) fun _ => True :=
  .modify fun s hs => hs.of_eq (hmem s) (hbrk s) (hblocks s)

theorem maintains_emit (e : Event) : Maintains (Confined s₀ · dst n) (emit e) fun _ => True :=
  maintains_modify (fun _ => rfl) (fun _ => rfl) fun _ => rfl

theorem maintains_storeCells {cs : List Cell} (h : cs.length = k) (hown : Own s₀ dst n a k) :
    Maintains (Confined s₀ · dst n) (storeCells a cs) fun _ => True :=
  .modify fun _ hs => hs.trans (confined_store h) hown

theorem maintains_storeInt (v : ℕ) (hown : Own s₀ dst n a k) :
    Maintains (Confined s₀ · dst n) (storeInt a k v) fun _ => True :=
  maintains_storeCells (by rw [length_ints, length_le]) hown

theorem maintains_storePtr (p : ℕ) (hown : Own s₀ dst n a 8) :
    Maintains (Confined s₀ · dst n) (storePtr a p) fun _ => True :=
  maintains_storeCells (length_ptrCells p) hown

theorem maintains_emitStr (start p l : ℕ) :
    Maintains (Confined s₀ · dst n) (emitStr start p l) fun _ => True :=
  Maintains.get.bind fun _ _ => maintains_emit _

/-! ## Allocation -/

theorem maintains_alloc (size align : ℕ) : Maintains (Confined s₀ · dst n) (alloc size align)
    fun p => s₀.brk ≤ p ∧ size ≤ isizeMax := by
  intro s hs p s' hrun
  rw [alloc, ite_run] at hrun
  split at hrun
  · rename_i hok
    rw [layoutOk, Bool.and_eq_true, decide_eq_true_eq] at hok
    have hle := le_alignUp s.brk (isPow2_pos hok.1)
    have hbrk := hs.brk
    cases hrun
    refine ⟨⟨?_, hs.mem, fun b hb hlt => List.mem_cons_of_mem _ (hs.blocks b hb hlt)⟩, ?_, ?_⟩
    · show s₀.brk ≤ alignUp s.brk align + size
      omega
    · omega
    · omega
  · cases hrun

theorem maintains_stackSlot (size : ℕ) :
    Maintains (Confined s₀ · dst n) (stackSlot size) fun p => s₀.brk ≤ p := by
  intro s hs p s' hrun
  have hle := le_alignUp s.brk (by decide : 0 < 8)
  have hbrk := hs.brk
  cases hrun
  refine ⟨⟨?_, hs.mem, hs.blocks⟩, by omega⟩
  show s₀.brk ≤ alignUp s.brk 8 + size
  omega

theorem maintains_rtAlloc (len : ℕ) :
    Maintains (Confined s₀ · dst n) (rtAlloc len) fun p => len = 0 ∨ s₀.brk ≤ p :=
  .ite (fun h => .pure (.inl h)) fun _ => (maintains_alloc len 1).weaken fun _ h => .inr h.1

theorem maintains_rtBoxAlloc (size align : ℕ) :
    Maintains (Confined s₀ · dst n) (rtBoxAlloc size align) fun p => size = 0 ∨ s₀.brk ≤ p :=
  .ite (fun h => .pure (.inl h)) fun _ => (maintains_alloc size _).weaken fun _ h => .inr h.1

/-- A buffer that is given back has been allocated on the way. -/
theorem maintains_rtRealloc {ptr old : ℕ} (new align : ℕ) (hptr : old = 0 ∨ s₀.brk ≤ ptr) :
    Maintains (Confined s₀ · dst n) (rtRealloc ptr old new align)
      fun p => (new = 0 ∨ s₀.brk ≤ p) ∧ new ≤ isizeMax := by
  refine .ite (fun _ => .ite (fun h => .pure ⟨.inl h, by omega⟩) fun _ => ?_) fun hold => ?_
  · exact (maintains_alloc new _).weaken fun _ h => ⟨.inr h.1, h.2⟩
  · refine .ite (fun _ => ?_) fun _ => .fail _
    refine (maintains_alloc new _).bind fun p hp => ?_
    refine Maintains.bind (V := fun _ => True) (.modify fun s hs => ?_) fun _ _ =>
      .pure ⟨.inr hp.1, hp.2⟩
    refine ⟨hs.brk, fun x hx hout => ?_, fun b hb hlt => ?_⟩
    · rw [← hs.mem x hx hout]
      exact writeCells_outside _ _ (.inl (by omega))
    · refine List.mem_filter.2 ⟨hs.blocks b hb hlt, ?_⟩
      rw [bne_iff_ne]
      omega

/-! ## Tokens -/

theorem stateless_loadU8 (inp : Input) (c : ℕ) : Stateless (loadU8 inp c) :=
  (Stateless.pure _).ite (Stateless.fail _)

theorem stateless_intval (inp : Input) (n c : ℕ) (signed : Bool) :
    Stateless (intval inp n c signed) := by
  apply (stateless_loadU8 inp (ws inp c)).bind
  intro b
  apply Stateless.bind
  · apply Stateless.loop
    intro r
    exact (Stateless.pure _).ite (Stateless.pure _)
  · exact fun _ => Stateless.pure _

theorem stateless_pastComma (inp : Input) (c : ℕ) : Stateless (pastComma inp c) :=
  (stateless_loadU8 inp (ws inp c)).bind fun _ => Stateless.pure _

/-- What `strspan` returns is up to the input. -/
theorem exists_strspan (inp : Input) (c : ℕ) :
    ∃ sp, ∀ s, (strspan inp c).run s = (.done sp, { s with sc := (sp.len, sp.esc) }) :=
  let r := strscan inp (ws inp c)
  ⟨⟨ws inp c + 1, r.len, r.after, r.esc⟩, fun _ => rfl⟩

theorem maintains_strspan (inp : Input) (c : ℕ) :
    Maintains (Confined s₀ · dst n) (strspan inp c) fun _ => True := by
  obtain ⟨sp, hsp⟩ := exists_strspan inp c
  intro s hs b s' hrun
  rw [hsp s] at hrun
  cases hrun
  exact ⟨hs.of_eq rfl rfl rfl, trivial⟩

theorem maintains_cp (inp : Input) {p src w off : ℕ} (hp : s₀.brk ≤ p) :
    Maintains (Confined s₀ · dst n) (cp inp src p w off) fun _ => True := by
  refine .ite (fun _ => maintains_storeCells rfl (.inr (.inl ?_))) fun _ => .fail _
  omega

theorem maintains_emitCopy (inp : Input) {m p src len : ℕ} (hp : len = 0 ∨ s₀.brk ≤ p) :
    Maintains (Confined s₀ · dst n) (emitCopy inp m p src len) fun _ => True := by
  have hcp : len ≠ 0 → ∀ w off, Maintains (Confined s₀ · dst n) (cp inp src p w off) fun _ => True :=
    fun hlen _ _ => maintains_cp inp (hp.resolve_left hlen)
  refine .ite (fun h => ?_) fun _ => .ite (fun h => ?_) fun _ => .ite (fun h => ?_) fun _ =>
    .ite (fun h => hcp h _ _) fun _ => .pure trivial
  · refine Maintains.bind (V := fun _ => True) ?_ fun _ _ => hcp (by omega) _ _
    refine .loop (fun _ => True) (fun i _ => ?_) m trivial
    refine .ite (fun _ => ?_) fun _ => .pure trivial
    exact (hcp (by omega) _ _).bind fun _ _ => .pure trivial
  · exact (hcp (by omega) _ _).bind fun _ _ => hcp (by omega) _ _
  · exact (hcp (by omega) _ _).bind fun _ _ => hcp (by omega) _ _

theorem maintains_rtUnescape (inp : Input) (src len : ℕ) :
    Maintains (Confined s₀ · dst n) (rtUnescape inp src len) fun _ => True := by
  unfold rtUnescape
  split
  · exact .fail _
  · rename_i out _
    refine (maintains_rtAlloc out.length).bind fun p hp => ?_
    refine (maintains_storeCells (length_ints out) ?_).bind fun _ _ => ?_
    · rcases hp with hlen | hp
      · exact .inl hlen
      · exact .inr (.inl hp)
    · exact Maintains.bind (maintains_modify (fun _ => rfl) (fun _ => rfl) fun _ => rfl)
        fun _ _ => .pure trivial

theorem maintains_buildStr (inp : Input) (m : ℕ) (sp : StrSpan) :
    Maintains (Confined s₀ · dst n) (buildStr inp m sp) fun _ => True := by
  refine .ite (fun _ => ?_) fun _ => ?_
  · refine (maintains_rtUnescape inp _ _).bind fun buf _ => ?_
    exact Maintains.get.bind fun _ _ => .pure trivial
  · refine (maintains_rtAlloc _).bind fun buf hbuf => ?_
    exact (maintains_emitCopy inp hbuf).bind fun _ _ => .pure trivial

/-! ## Stores of one value -/

theorem own_part {off : ℕ} (h : off + k ≤ n) : Own s₀ dst n (dst + off) k :=
  .inr (.inr ⟨Nat.le_add_right dst off, by omega⟩)

theorem maintains_storeSeq {seq : SeqLayout} (h : seq.Fits n) (ptr cap len : ℕ) :
    Maintains (Confined s₀ · dst n) (storeSeq dst seq ptr cap len) fun _ => True := by
  obtain ⟨hok, hptr', hcap', hlen'⟩ := h
  unfold storeSeq
  rw [disp_eq hok.ptr, disp_eq hok.cap, disp_eq hok.len]
  exact (maintains_storePtr ptr (own_part hptr')).bind fun _ _ =>
    (maintains_storeInt cap (own_part hcap')).bind fun _ _ => maintains_storeInt len (own_part hlen')

theorem maintains_storeImm {off size : ℕ} (v : ℕ) (hoff : off < maxSize)
    (hown : Own s₀ dst n (a + off) (storeWidth size)) :
    Maintains (Confined s₀ · dst n) (storeImm a off v size) fun _ => True := by
  unfold storeImm
  rw [disp_eq hoff]
  exact maintains_storeInt v hown

theorem maintains_memset0 {size : ℕ} (hsize : size ≤ maxSize) (hown : Own s₀ dst n a size) :
    Maintains (Confined s₀ · dst n) (memset0 a size) fun _ => True := by
  intro s hs b s' hrun
  rw [memset0_run hsize] at hrun
  cases hrun
  exact ⟨hs.trans (confined_store List.length_replicate) hown, trivial⟩

/-- `None` is stored among the bytes of the option. -/
theorem maintains_storeNone {discOff discSize size : ℕ} (noneDiscr : ℕ) (hsize : size ≤ maxSize)
    (hoff : discOff < maxSize) (hown : Own s₀ dst n a k) (hk : size ≤ k)
    (hdisc : discOff + storeWidth discSize ≤ k) :
    Maintains (Confined s₀ · dst n) (do
      memset0 a size
      storeImm a discOff noneDiscr discSize) fun _ => True := by
  unfold Own at hown
  refine (maintains_memset0 hsize ?_).bind fun _ _ => maintains_storeImm noneDiscr hoff ?_
  · unfold Own
    omega
  · unfold Own
    omega

end

/-! ## The emitted code -/

section

variable {env : Env} {inp : Input} {m : ℕ} {sz : RecCell → Option ℕ} {parse : Ty → ℕ → ℕ → M ℕ}
  {s₀ : State} {dst n : ℕ}

theorem le_intExtent (k : ℕ) : storeWidth k ≤ intExtent k ∧ k ≤ intExtent k :=
  ⟨Nat.le_max_left _ _, Nat.le_max_right _ _⟩

theorem stays_defaultNone {f : FieldTy} {k : ℕ} (hfits : f.ty.Fits sz k) (dst : ℕ) :
    Stays (defaultNone dst f) (dst + f.offset) k := by
  intro s₀
  obtain ⟨name, off, ty⟩ := f
  cases hfits with
  | @opt _ discSize noneDiscr _ _ _ _ _ _ hsize hoff hle hdisc _ _ =>
    have hwidth := le_intExtent discSize
    exact maintains_storeNone noneDiscr hsize hoff (.inr (.inr ⟨Nat.le_refl _, Nat.le_refl _⟩)) hle
      (by omega)
  | _ => exact .pure trivial

theorem maintains_defaultNone {f : FieldTy} {k : ℕ} (hfits : f.ty.Fits sz k) (hk : f.offset + k ≤ n) :
    Maintains (Confined s₀ · dst n) (defaultNone dst f) fun _ => True :=
  (stays_defaultNone hfits dst).maintains (own_part hk)

variable (hparse : ∀ ty k dst c, ty.Fits sz k → Stays (parse ty dst c) dst k)
include hparse

theorem maintains_parseMember {fields : List FieldTy} {size : FieldTy → ℕ}
    (hsize : ∀ f ∈ fields, f.offset + size f ≤ n) (hfits : ∀ f ∈ fields, f.ty.Fits sz (size f))
    (k : StrSpan) (c : ℕ) :
    Maintains (Confined s₀ · dst n) (parseMember inp parse fields dst k c) fun _ => True := by
  unfold parseMember
  split
  · rename_i f hf
    have hmem := dispatch_mem hf
    exact (hparse _ _ _ _ (hfits f hmem)).maintains (own_part (hsize f hmem))
  · exact .pure trivial

theorem maintains_parseStruct {fields : List FieldTy} {size : FieldTy → ℕ}
    (hsize : ∀ f ∈ fields, f.offset + size f ≤ n) (hfits : ∀ f ∈ fields, f.ty.Fits sz (size f)) (c : ℕ) :
    Maintains (Confined s₀ · dst n) (parseStruct inp m parse fields dst c) fun _ => True := by
  refine Maintains.bind (Maintains.forM fun f hf => ?_) fun _ _ => ?_
  · exact maintains_defaultNone (hfits f hf) (hsize f hf)
  refine .loop (fun _ => True) (fun hc _ => ?_) m trivial
  refine (maintains_stateless (stateless_loadU8 inp _)).bind fun b _ => ?_
  refine .ite (fun _ => .pure trivial) fun _ => ?_
  refine (maintains_strspan inp _).bind fun k _ => ?_
  refine (maintains_parseMember hparse hsize hfits k _).bind fun c _ => ?_
  exact (maintains_stateless (stateless_pastComma inp c)).bind fun _ _ => .pure trivial

theorem maintains_parseFields {fields : List FieldTy} {size : FieldTy → ℕ}
    (hsize : ∀ f ∈ fields, f.offset + size f ≤ n) (hfits : ∀ f ∈ fields, f.ty.Fits sz (size f)) (c : ℕ) :
    Maintains (Confined s₀ · dst n) (parseFields inp parse dst fields c) fun _ => True := by
  induction fields generalizing c with
  | nil => exact .pure trivial
  | cons f fields ih =>
    have hf := hfits f List.mem_cons_self
    refine ((hparse _ _ _ c hf).maintains (own_part (hsize f List.mem_cons_self))).bind fun c _ => ?_
    refine (maintains_stateless (stateless_pastComma inp c)).bind fun c _ => ?_
    exact ih (fun g hg => hsize g (List.mem_cons_of_mem _ hg))
      (fun g hg => hfits g (List.mem_cons_of_mem _ hg)) c

/-- Between two iterations of `parse_vec`: a buffer with room has been allocated on the way, and its
size in bytes has not wrapped. Elements of size zero need none. -/
def BufferNew (s₀ : State) (size : ℕ) (v : VecState) : Prop :=
  size = 0 ∨ (v.cap = 0 → v.len = 0) ∧ v.cap * size < 2 ^ 63 ∧ (v.cap = 0 ∨ s₀.brk ≤ v.base)

omit hparse in
theorem maintains_grow {size : ℕ} (align : ℕ) {v : VecState} (hsize : size < 2 ^ 62)
    (hv : BufferNew s₀ size v) : Maintains (Confined s₀ · dst n) (grow size align v) fun w =>
      size = 0 ∨ 0 < w.cap ∧ w.cap * size < 2 ^ 63 ∧ s₀.brk ≤ w.base := by
  refine .ite (fun hfull => ?_) fun hroom => .pure ?_
  · rcases hv with hzero | ⟨-, hlt, hbase⟩
    · refine (maintains_rtRealloc _ _ (.inl ?_)).bind fun p _ => .pure (.inl hzero)
      rw [hzero, Nat.mul_zero, Nat.zero_mod]
    · by_cases hzero : size = 0
      · refine (maintains_rtRealloc _ _ (.inl ?_)).bind fun p _ => .pure (.inl hzero)
        rw [hzero, Nat.mul_zero, Nat.zero_mod]
      · have hpos : 0 < size := Nat.pos_of_ne_zero hzero
        have hcap : v.cap ≤ v.cap * size := Nat.le_mul_of_pos_right _ hpos
        have hnext : v.cap * 2 % 2 ^ 64 = v.cap * 2 := Nat.mod_eq_of_lt (by omega)
        have hmul : v.cap * 2 * size = v.cap * size * 2 := Nat.mul_right_comm _ _ _
        -- the new size does not wrap either
        have hnew : (if v.cap = 0 then 4 else v.cap * 2 % 2 ^ 64) * size % 2 ^ 64 =
            (if v.cap = 0 then 4 else v.cap * 2 % 2 ^ 64) * size := by
          apply Nat.mod_eq_of_lt
          split
          · omega
          · rw [hnext]
            omega
        have hcap' : 0 < if v.cap = 0 then 4 else v.cap * 2 % 2 ^ 64 := by
          split
          · omega
          · rw [hnext]
            omega
        refine (maintains_rtRealloc _ _ ?_).bind fun p hp => .pure (.inr ⟨hcap', ?_, ?_⟩)
        · rcases hbase with hcap₀ | hbase
          · left
            rw [hcap₀, Nat.zero_mul, Nat.zero_mod]
          · exact .inr hbase
        · have hle := hp.2
          have hmax : isizeMax = 2 ^ 63 - 1 := rfl
          rw [hnew] at hle
          show (if v.cap = 0 then 4 else v.cap * 2 % 2 ^ 64) * size < 2 ^ 63
          omega
        · have hne : (if v.cap = 0 then 4 else v.cap * 2 % 2 ^ 64) * size ≠ 0 :=
            Nat.ne_of_gt (Nat.mul_pos hcap' hpos)
          have hp := hp.1
          rw [hnew] at hp
          exact hp.resolve_left hne
  · rcases hv with hzero | ⟨hlen, hlt, hbase⟩
    · exact .inl hzero
    · have hpos : v.cap ≠ 0 := fun h => hroom ((hlen h).trans h.symm)
      exact .inr ⟨Nat.pos_of_ne_zero hpos, hlt, hbase.resolve_left hpos⟩

theorem maintains_parseVec {elem : Ty} {size : ℕ} (elemAlign : ℕ) {seq : SeqLayout}
    (helem : elem.Fits sz size) (hsize : size < 2 ^ 62) (hseq : seq.Fits n) (c : ℕ) :
    Maintains (Confined s₀ · dst n) (parseVec inp m parse elem size elemAlign seq dst c)
      fun _ => True := by
  refine Maintains.bind (V := fun _ => True) ?_ fun v _ =>
    (maintains_storeSeq hseq _ _ _).bind fun _ _ => .pure trivial
  refine .loop (BufferNew s₀ size) (fun v hv => ?_) m (.inr ⟨fun _ => rfl, ?_, .inl rfl⟩)
  · refine (maintains_stateless (stateless_loadU8 inp _)).bind fun b _ => ?_
    refine .ite (fun _ => .pure trivial) fun _ => ?_
    refine (maintains_grow _ hsize hv).bind fun w hw => ?_
    -- the element lies in the buffer, or has no bytes
    refine ((hparse _ _ _ _ helem).maintains ?_).bind fun c _ => ?_
    · rcases hw with hzero | ⟨-, -, hbase⟩
      · exact .inl hzero
      · exact .inr (.inl (by omega))
    refine (maintains_stateless (stateless_pastComma inp c)).bind fun c _ => ?_
    refine (maintains_emit _).bind fun _ _ => .pure ?_
    rcases hw with hzero | ⟨hcap, hlt, hbase⟩
    · exact .inl hzero
    · exact .inr ⟨fun h => absurd h (Nat.ne_of_gt hcap), hlt, .inr hbase⟩
  · show 0 * size < 2 ^ 63
    omega

omit hparse in
theorem maintains_mapNewAt (h : 24 ≤ n) :
    Maintains (Confined s₀ · dst n) (mapNewAt dst) fun _ => True := by
  intro s hs b s' hrun
  have hbrk := hs.brk
  cases hrun
  refine ⟨⟨?_, fun x hx hout => ?_, hs.blocks⟩, trivial⟩
  · show s₀.brk ≤ s.brk + 1
    omega
  · rw [← hs.mem x hx hout]
    apply writeCells_outside
    rw [List.length_append, length_ptrCells, length_ints, length_le]
    omega

omit hparse in
theorem maintains_mapInsert (key : SeqLayout) (valSize map k v : ℕ) :
    Maintains (Confined s₀ · dst n) (mapInsert key valSize map k v) fun _ => True := by
  refine Maintains.get.bind fun s hs => ?_
  split
  · split
    · refine .modify fun s' hs' => ⟨?_, fun x hx hout => ?_, hs'.blocks⟩
      · exact hs.brk.trans (Nat.le_add_right _ _)
      · rw [← hs'.mem x hx hout]
        exact writeCells_of_lt _ _ (hx.trans_le hs.brk)
    · exact .fail _
  · exact .fail _

theorem maintains_parseMap {key val : Ty} {keyBytes valBytes : ℕ} (keySize valSize newAt insert : ℕ)
    (hkey : key.Fits sz keyBytes) (hval : val.Fits sz valBytes) (hn : 24 ≤ n) (c : ℕ) :
    Maintains (Confined s₀ · dst n)
      (parseMap env inp m parse key keySize val valSize newAt insert dst c) fun _ => True := by
  refine (maintains_stackSlot _).bind fun kaddr hk => (maintains_stackSlot _).bind fun vaddr hv => ?_
  refine Maintains.bind (V := fun _ => True) ?_ fun _ _ => ?_
  · unfold callNewAt
    split
    · exact maintains_mapNewAt hn
    · exact .fail _
  refine .loop (fun _ => True) (fun hc _ => ?_) m trivial
  refine (maintains_stateless (stateless_loadU8 inp _)).bind fun b _ => ?_
  refine .ite (fun _ => .pure trivial) fun _ => ?_
  -- the key and the value lie in the frame
  refine ((hparse _ _ _ _ hkey).maintains (.inr (.inl hk))).bind fun c _ => ?_
  refine ((hparse _ _ _ _ hval).maintains (.inr (.inl hv))).bind fun c _ => ?_
  refine Maintains.bind (V := fun _ => True) ?_ fun _ _ => ?_
  · unfold callInsert
    split
    · exact maintains_mapInsert _ _ _ _ _
    · exact .fail _
  exact (maintains_stateless (stateless_pastComma inp c)).bind fun _ _ => .pure trivial

end

/-- The emitted code, when it returns, has changed only the bytes of its destination. -/
theorem parse_stays {env : Env} {sz : RecCell → Option ℕ} (hcells : CellsFit env.cells sz) (inp : Input)
    (m d : ℕ) {ty : Ty} {k : ℕ} (hfits : ty.Fits sz k) (dst c : ℕ) :
    Stays (parse env inp m d ty dst c) dst k := by
  induction d generalizing ty k dst c with
  | zero => exact fun _ => .deep
  | succ d ih =>
    intro s₀
    have hown : ∀ {w}, w ≤ k → Own s₀ dst k dst w := fun hw => .inr (.inr ⟨Nat.le_refl _, by omega⟩)
    have hparse : ∀ ty k dst c, ty.Fits sz k → Stays (parse env inp m d ty dst c) dst k :=
      fun ty k dst c h => ih h dst c
    cases hfits with
    | bool hk =>
      exact (maintains_stateless (stateless_loadU8 inp _)).bind fun b _ =>
        (maintains_storeInt _ (hown hk)).bind fun _ _ => .pure trivial
    | char hk =>
      exact (maintains_strspan inp c).bind fun sp _ =>
        (maintains_stateless (stateless_loadU8 inp _)).bind fun b _ =>
          (maintains_storeInt _ (hown hk)).bind fun _ _ => .pure trivial
    | u hk =>
      have hwidth := (le_intExtent _).1.trans hk
      exact (maintains_stateless (stateless_intval inp m c false)).bind fun x _ =>
        (maintains_storeInt _ (hown hwidth)).bind fun _ _ => .pure trivial
    | i hk =>
      have hwidth := (le_intExtent _).1.trans hk
      exact (maintains_stateless (stateless_intval inp m c true)).bind fun x _ =>
        (maintains_storeInt _ (hown hwidth)).bind fun _ _ => .pure trivial
    | f32 hk =>
      refine Maintains.bind (V := fun _ => True) ?_ fun c _ => Maintains.get.bind fun s _ =>
        (maintains_storeInt _ (hown hk)).bind fun _ _ => .pure trivial
      exact Maintains.bind (maintains_modify (fun _ => rfl) (fun _ => rfl) fun _ => rfl)
        fun _ _ => .pure trivial
    | f64 hk =>
      refine Maintains.bind (V := fun _ => True) ?_ fun c _ => Maintains.get.bind fun s _ =>
        (maintains_storeInt _ (hown hk)).bind fun _ _ => .pure trivial
      exact Maintains.bind (maintains_modify (fun _ => rfl) (fun _ => rfl) fun _ => rfl)
        fun _ _ => .pure trivial
    | struct size hsize hall => exact maintains_parseStruct hparse hsize hall c
    | tuple size hsize hall =>
      exact (maintains_parseFields hparse hsize hall _).bind fun _ _ => .pure trivial
    | str hseq =>
      exact (maintains_strspan inp c).bind fun sp _ => (maintains_buildStr inp m sp).bind fun x _ =>
        (maintains_storeSeq hseq _ _ _).bind fun _ _ =>
          (maintains_emitStr _ _ _).bind fun _ _ => .pure trivial
    | vec helem hsize hseq => exact maintains_parseVec hparse _ helem hsize hseq c
    | strRef hp hl _ hp' hl' =>
      refine (maintains_strspan inp c).bind fun sp _ => (maintains_buildStr inp m sp).bind fun x _ =>
        Maintains.bind (V := fun _ => True) ?_ fun _ _ =>
          (maintains_emitStr _ _ _).bind fun _ _ => .pure trivial
      unfold storeStrRef
      rw [disp_eq hp, disp_eq hl]
      exact (maintains_storePtr _ (own_part hp')).bind fun _ _ => maintains_storeInt _ (own_part hl')
    | unit => exact .pure trivial
    | boxed hinner hk =>
      refine (maintains_rtBoxAlloc _ _).bind fun p hp => ?_
      refine ((hparse _ _ p c hinner).maintains ?_).bind fun after _ =>
        (maintains_storePtr _ (hown hk)).bind fun _ _ => .pure trivial
      rcases hp with hzero | hp
      · exact .inl hzero
      · exact .inr (.inl hp)
    | @opt _ discSize noneDiscr _ _ _ _ someDiscr _ hsize hoff hle hdisc hinner hpay =>
      have hwidth := (le_intExtent discSize).1
      refine (maintains_stateless (stateless_loadU8 inp _)).bind fun b _ => .ite (fun _ => ?_) fun _ => ?_
      · refine Maintains.bind (maintains_memset0 hsize (hown hle)) fun _ _ =>
          (maintains_storeImm noneDiscr hoff (own_part ?_)).bind fun _ _ => .pure trivial
        omega
      · refine ((hparse _ _ _ _ hinner).maintains (own_part hpay)).bind fun cc _ => ?_
        refine Maintains.bind (V := fun _ => True) ?_ fun _ _ => .pure trivial
        cases someDiscr with
        | none => exact .pure trivial
        | some sd => exact maintains_storeImm sd hoff (own_part (by omega))
    | map hkey hval hk => exact maintains_parseMap hparse _ _ _ _ hkey hval hk c
    | @ref cell j _ hj hk =>
      cases hc : env.cells cell with
      | none =>
        rw [parse_ref_none hc]
        exact .fail _
      | some body =>
        rw [parse_ref hc]
        refine Maintains.get.bind fun s _ => ?_
        refine ((hparse _ _ _ _ (hcells cell j body hj hc)).maintains (hown hk)).bind fun c' _ => ?_
        exact Maintains.bind (maintains_modify (fun _ => rfl) (fun _ => rfl) fun _ => rfl)
          fun _ _ => .pure trivial
    | unknown => exact .fail _

/-! ## Where the emitted code ends -/

section

variable {env : Env} {inp : Input} {m : ℕ} {parse parse' : Ty → ℕ → ℕ → M ℕ}
  (hparse : ∀ ty dst dst' c, Matches Eq (parse ty dst c) (parse ty dst' c))
include hparse

end

section

variable {α : Type} {s₀ : State} {dst n a k : ℕ}

theorem maintains_orPanic (x : Except String α) :
    Maintains (Confined s₀ · dst n) (orPanic x) fun _ => True := by
  cases x with
  | ok a => exact .pure trivial
  | error e => exact .fail _

theorem maintains_writeBytes (v : ℕ) (hown : Own s₀ dst n a k) :
    Maintains (Confined s₀ · dst n) (writeBytes a k v) fun _ => True :=
  .ite (fun _ => maintains_storeInt v hown) fun _ => .fail _

theorem maintains_writeSeq {seq : SeqLayout} (h : seq.Fits n) (ptr cap len : ℕ) :
    Maintains (Confined s₀ · dst n) (writeSeq dst seq ptr cap len) fun _ => True := by
  obtain ⟨-, hptr, hcap, hlen⟩ := h
  exact (maintains_storePtr ptr (own_part hptr)).bind fun _ _ =>
    (maintains_storeInt cap (own_part hcap)).bind fun _ _ => maintains_storeInt len (own_part hlen)

theorem maintains_allocCopy (bytes : Bytes) (align : ℕ) :
    Maintains (Confined s₀ · dst n) (allocCopy bytes align) fun _ => True := by
  refine .ite (fun _ => .pure trivial) fun _ => (maintains_alloc _ _).bind fun p hp => ?_
  exact (maintains_storeCells rfl (.inr (.inl hp.1))).bind fun _ _ => .pure trivial

/-- Elements that lie in a new buffer. -/
theorem maintains_forEach {β : Type} {f : ℕ → β → M Unit}
    (h : ∀ i b, Maintains (Confined s₀ · dst n) (f i b) fun _ => True) (i : ℕ) (l : List β) :
    Maintains (Confined s₀ · dst n) (forEach f i l) fun _ => True := by
  induction l generalizing i with
  | nil => exact .pure trivial
  | cons b l ih => exact (h i b).bind fun _ _ => ih (i + 1)

end

/-- The interpreter, when it returns, has changed only the bytes of its destination. -/
theorem run_stays {env : Env} {sz : RecCell → Option ℕ} (hcells : CellsFit env.cells sz) (d : ℕ) {ty : Ty}
    {k : ℕ} (hfits : ty.Fits sz k) (dst : ℕ) (val : Json) : Stays (run env d dst ty val) dst k := by
  induction d generalizing ty k dst val with
  | zero => exact fun _ => .deep
  | succ d ih =>
    intro s₀
    have hown : ∀ {w}, w ≤ k → Own s₀ dst k dst w := fun hw => .inr (.inr ⟨Nat.le_refl _, by omega⟩)
    cases hfits with
    | bool hk => exact maintains_storeInt _ (hown hk)
    | char hk =>
      exact (maintains_orPanic _).bind fun _ _ => maintains_storeInt _ (hown hk)
    | u hk =>
      exact (maintains_orPanic _).bind fun _ _ =>
        maintains_writeBytes _ (hown ((le_intExtent _).2.trans hk))
    | i hk =>
      exact (maintains_orPanic _).bind fun _ _ =>
        maintains_writeBytes _ (hown ((le_intExtent _).2.trans hk))
    | f32 hk => exact (maintains_orPanic _).bind fun _ _ => maintains_storeInt _ (hown hk)
    | f64 hk => exact (maintains_orPanic _).bind fun _ _ => maintains_storeInt _ (hown hk)
    | struct size hsize hall =>
      rw [run_struct]
      refine .forM fun f hf => ?_
      have hfield : ∀ j, Maintains (Confined s₀ · dst k) (run env d (dst + f.offset) f.ty j) fun _ => True :=
        fun j => (ih (hall f hf) _ j).maintains (own_part (hsize f hf))
      unfold runField
      split
      · exact hfield _
      · exact .ite (fun _ => hfield _) fun _ => .fail _
    | tuple size hsize hall =>
      cases val with
      | array items =>
        refine Maintains.forM fun x hx => ?_
        have hf := (List.of_mem_zip hx).1
        exact (ih (hall x.1 hf) _ _).maintains (own_part (hsize x.1 hf))
      | _ => exact .fail _
    | str hseq =>
      exact (maintains_orPanic _).bind fun _ _ => (maintains_allocCopy _ _).bind fun _ _ =>
        maintains_writeSeq hseq _ _ _
    | strRef hp hl _ hp' hl' =>
      exact (maintains_orPanic _).bind fun _ _ => (maintains_allocCopy _ _).bind fun _ _ =>
        (maintains_storePtr _ (own_part hp')).bind fun _ _ => maintains_storeInt _ (own_part hl')
    | vec helem hsize hseq =>
      cases val with
      | array items =>
        refine .ite (fun _ => maintains_writeSeq hseq _ _ _) fun _ => ?_
        refine (maintains_alloc _ _).bind fun p hp => ?_
        refine (maintains_forEach (fun i item => ?_) 0 items).bind fun _ _ =>
          maintains_writeSeq hseq _ _ _
        exact (ih helem _ item).maintains (.inr (.inl (hp.1.trans (Nat.le_add_right _ _))))
      | _ => exact .fail _
    | unit => exact .pure trivial
    | @boxed inner size align _ hinner hk =>
      have hbox : ∀ p, size = 0 ∨ s₀.brk ≤ p → Maintains (Confined s₀ · dst k)
          (run env d p inner val >>= fun _ => storePtr dst p) fun _ => True := by
        intro p hp
        refine ((ih hinner p val).maintains ?_).bind fun _ _ => maintains_storePtr _ (hown hk)
        rcases hp with hzero | hp
        · exact .inl hzero
        · exact .inr (.inl hp)
      refine .ite (fun h => hbox _ (.inl h)) fun _ => ?_
      exact (maintains_alloc _ _).bind fun p hp => hbox p (.inr hp.1)
    | @opt discOff discSize _ _ _ _ _ someDiscr _ hsize hoff hle hdisc hinner hpay =>
      have hwidth := (le_intExtent discSize).2
      have hsome : ∀ j, Maintains (Confined s₀ · dst k) (run env d (dst + _) _ j) fun _ => True :=
        fun j => (ih hinner _ j).maintains (own_part hpay)
      cases val with
      | null =>
        exact Maintains.bind (maintains_storeCells List.length_replicate (hown hle)) fun _ _ =>
          maintains_writeBytes _ (own_part (by omega))
      | _ =>
        refine (hsome _).bind fun _ _ => ?_
        cases someDiscr with
        | none => exact .pure trivial
        | some sd => exact maintains_writeBytes sd (own_part (by omega))
    | map => exact .fail _
    | @ref cell j _ hj hk =>
      rw [run]
      split
      · exact .fail _
      · rename_i body hc
        exact (ih (hcells cell j body hj hc) dst val).maintains (hown hk)
    | unknown => exact .fail _

theorem runField_stays {env : Env} {sz : RecCell → Option ℕ} (hcells : CellsFit env.cells sz) {f : FieldTy}
    {k : ℕ} (hfits : f.ty.Fits sz k) (dst : ℕ) (val : Json) (d : ℕ) :
    Stays (runField env dst val d f) (dst + f.offset) k := by
  intro s
  unfold runField
  split
  · exact run_stays hcells d hfits _ _ s
  · exact .ite (fun _ => run_stays hcells d hfits _ _ s) fun _ => .fail _

end Bilbo
