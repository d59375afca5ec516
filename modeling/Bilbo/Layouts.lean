import Bilbo.Values

/-!
# Well-formed layouts, and what a parser may write

A layout is well formed when fields lie inside their parent and apart from each other, field
names are distinct, and no valid payload of a niche option carries the discriminant of
`None`. Sizes stay below 2 GiB: displacements in the emitted code have 32 bits, and a buffer
for the elements of a text of that length can be allocated.
-/

namespace Bilbo

open Base Comp

/-! ## Well-formed layouts -/

/-- The sizes that a layout may have. -/
def maxSize : ℕ := 2 ^ 31

/-- The integer widths of the emitted code. -/
def IntSize (n : ℕ) : Prop := n = 1 ∨ n = 2 ∨ n = 4 ∨ n = 8

theorem IntSize.storeWidth {n : ℕ} (h : IntSize n) : storeWidth n = n := by
  rcases h with rfl | rfl | rfl | rfl <;> rfl

/-- The `n` bytes at `a` and the `k` bytes at `b` do not overlap. -/
def Apart (a n b k : ℕ) : Prop := n = 0 ∨ k = 0 ∨ a + n ≤ b ∨ b + k ≤ a

theorem Apart.symm {a n b k : ℕ} (h : Apart a n b k) : Apart b k a n := by
  unfold Apart at *
  omega

/-- The three words of a `Vec`-like value. -/
structure SeqLayout.Ok (seq : SeqLayout) : Prop where
  ptr : seq.ptrOff < maxSize
  cap : seq.capOff < maxSize
  len : seq.lenOff < maxSize
  ptrCap : Apart seq.ptrOff 8 seq.capOff 8
  ptrLen : Apart seq.ptrOff 8 seq.lenOff 8
  capLen : Apart seq.capOff 8 seq.lenOff 8

/-- The size and the alignment of the elements of a vector. -/
structure AllocOk (size align : ℕ) : Prop where
  small : size < maxSize
  pow2 : isPow2 (max align 1) = true
  alignSmall : align ≤ maxSize

/-- The discriminant and the payload of an option, of `size` bytes; `payload` is how many the
payload takes. -/
structure DiscOk (discOff discSize noneDiscr : ℕ) (someDiscr : Option ℕ)
    (payloadOff size payload : ℕ) : Prop where
  width : IntSize discSize
  small : size < maxSize
  disc : discOff + discSize ≤ size
  inside : payloadOff + payload ≤ size
  tagged : ∀ sd ∈ someDiscr, discWord discSize sd ≠ discWord discSize noneDiscr ∧
    Apart discOff discSize payloadOff payload

/-- Fields that do not overlap. -/
def FieldsApart (sz : RecCell → Option ℕ) (fields : List FieldTy) : Prop :=
  fields.Pairwise fun f g => Apart f.offset (f.ty.span sz) g.offset (g.ty.span sz)

/-- A type of the kinds that the parser binds, with a well-formed layout. -/
inductive Ty.Ok (env : Env) (sz : RecCell → Option ℕ) : Ty → Prop
  | bool : Ok env sz .bool
  | u {n : ℕ} : IntSize n → Ok env sz (.u n)
  | i {n : ℕ} : IntSize n → Ok env sz (.i n)
  | str {seq : SeqLayout} : seq.Ok → Ok env sz (.str seq)
  | strRef {ptrOff lenOff : ℕ} : ptrOff < maxSize → lenOff < maxSize →
      Apart ptrOff 8 lenOff 8 → Ok env sz (.strRef ptrOff lenOff)
  | struct {name : String} {fields : List FieldTy} : (∀ f ∈ fields, Ok env sz f.ty) →
      FieldsApart sz fields → (fields.map FieldOf.name).Nodup → Ok env sz (.struct name fields)
  | tuple {fields : List FieldTy} : (∀ f ∈ fields, Ok env sz f.ty) → FieldsApart sz fields →
      Ok env sz (.tuple fields)
  | vec {elem : Ty} {size align : ℕ} {seq : SeqLayout} : Ok env sz elem → elem.span sz ≤ size →
      AllocOk size align → seq.Ok → Ok env sz (.vec elem size align seq)
  | unit : Ok env sz .unit
  | boxed {inner : Ty} {size align : ℕ} : Ok env sz inner → inner.span sz ≤ size →
      layoutOk size (max align 1) = true → Ok env sz (.boxed inner size align)
  | opt {discOff discSize noneDiscr payloadOff size : ℕ} {someDiscr : Option ℕ} {inner : Ty} :
      Ok env sz inner →
      DiscOk discOff discSize noneDiscr someDiscr payloadOff size (inner.span sz) →
      -- a valid payload does not carry the niche
      (someDiscr = none → ∀ s lo hi v a, Holds env.cells sz s lo hi inner v (a + payloadOff) →
        readNat s.mem (a + discOff) (storeWidth discSize) ≠
          some (discWord discSize noneDiscr)) →
      Ok env sz (.opt discOff discSize noneDiscr someDiscr payloadOff size inner)
  | map {seq : SeqLayout} {keySize : ℕ} {val : Ty} {valSize newAt insert : ℕ} : seq.Ok →
      (Ty.str seq).span sz ≤ keySize → Ok env sz val → val.span sz ≤ valSize →
      env.tramps newAt = some .mapNewAt → env.tramps insert = some (.mapInsert seq valSize) →
      Ok env sz (.map (.str seq) keySize val valSize newAt insert)
  | ref {c : RecCell} {k : ℕ} : sz c = some k → Ok env sz (.ref c)

/-- Every cell in use is set, to a type with a well-formed layout. -/
def CellsOk (env : Env) (sz : RecCell → Option ℕ) : Prop :=
  ∀ c k, sz c = some k →
    ∃ body, env.cells c = some body ∧ Ty.Ok env sz body ∧ body.span sz ≤ k

/-! ## What a parser may write -/

/-- What happens to the memory that was in use when a parser writes `n` bytes at `dst`: nothing
else changes. -/
structure Writes (s s' : State) (dst n : ℕ) : Prop where
  brk : s.brk ≤ s'.brk
  mem : ∀ x < s.brk, x < dst ∨ dst + n ≤ x → s'.mem x = s.mem x
  maps : ∀ h < s.brk, s'.maps h = s.maps h
  blocks : ∀ b ∈ s.blocks, b.base < s.brk → b ∈ s'.blocks

theorem Writes.refl (s : State) (dst n : ℕ) : Writes s s dst n :=
  ⟨Nat.le_refl _, fun _ _ _ => rfl, fun _ _ => rfl, fun _ hb _ => hb⟩

/-- Of what was in use, the `k` bytes at `d` lie among the `n` bytes at `dst`. -/
def Under (s : State) (dst n d k : ℕ) : Prop :=
  ∀ x < s.brk, d ≤ x → x < d + k → dst ≤ x ∧ x < dst + n

theorem Writes.trans {s s₁ s₂ : State} {dst n d k d' k' : ℕ} (h : Writes s s₁ d k)
    (h' : Writes s₁ s₂ d' k') (hd : Under s dst n d k) (hd' : Under s dst n d' k') :
    Writes s s₂ dst n := by
  have hbrk := h.brk
  constructor
  · exact hbrk.trans h'.brk
  · intro x hx hout
    have h₁ : x < d ∨ d + k ≤ x := by
      by_contra hin
      have := hd x hx (by omega) (by omega)
      omega
    have h₂ : x < d' ∨ d' + k' ≤ x := by
      by_contra hin
      have := hd' x hx (by omega) (by omega)
      omega
    rw [h'.mem x (by omega) h₂, h.mem x hx h₁]
  · intro m hm
    rw [h'.maps m (by omega), h.maps m hm]
  · intro b hb hlt
    exact h'.blocks b (h.blocks b hb hlt) (by omega)

theorem Writes.mono {s s' : State} {dst n d k : ℕ} (h : Writes s s' d k)
    (hd : Under s dst n d k) : Writes s s' dst n :=
  h.trans (Writes.refl s' d k) hd hd

theorem under_part {s : State} {dst n off k : ℕ} (h : off + k ≤ n) :
    Under s dst n (dst + off) k :=
  fun _ _ _ _ => ⟨by omega, by omega⟩

theorem under_fresh {s : State} {dst n d k : ℕ} (h : k = 0 ∨ s.brk ≤ d) : Under s dst n d k :=
  fun _ _ _ _ => by omega

/-- The heap below the break and apart from the destination stays the same. -/
theorem Writes.same {s s' : State} {dst n lo hi : ℕ} (h : Writes s s' dst n)
    (hhi : hi ≤ s.brk) (hapart : Apart lo (hi - lo) dst n) : Same lo hi s s' := by
  constructor
  · intro x hlo hx
    apply h.mem x (by omega)
    unfold Apart at hapart
    omega
  · intro m _ hm
    exact h.maps m (by omega)
  · intro b hb _ hlt
    exact h.blocks b hb (by omega)

end Bilbo
