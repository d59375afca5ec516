import Mathlib.Logic.Relation
import Bilbo.Interpreting
import Bilbo.Progress

/-!
# The heap blocks of the interpreter backend

`interp::run` decides in three places whether a buffer is allocated: for strings by the length,
for boxes by the size of the pointee, for vectors by the number of elements. What `Drop` frees is
the size in bytes, which for a vector is 0 as well when its elements are: an array that is not
empty, read as a vector of elements of size 0, asks the allocator for no bytes. No other value
does, and everything else that is built holds a block of its size or a dangling address.

`Part` is the walk over a type and a value, `Enters` the same walk as calls with their states.
-/

namespace Bilbo

open Base Comp Relation

/-! ## Values of a type -/

/-- What the type at hand asks of the value at hand; its parts are asked for themselves. The
buffers have sizes that a layout may have, as those of every Rust value do. -/
def Suits (env : Env) (ty : Ty) (val : Json) : Prop :=
  match ty with
  | .bool => True
  | .char => ∃ s, val = .str s
  | .u n => n ≤ 16 ∧ ∃ v, val.asU128 = .ok v
  | .i n => n ≤ 16 ∧ ∃ v, val.asI128 = .ok v
  | .f32 => ∃ v, val.asF64 env.float.parse = .ok v
  | .f64 => ∃ v, val.asF64 env.float.parse = .ok v
  | .struct _ fields => ∀ f ∈ fields, val.get f.key = none → f.ty.isOpt = true
  | .tuple _ => ∃ items, val = .array items
  | .str _ => ∃ s, val = .str s ∧ s.length ≤ isizeMax
  | .vec _ size align _ => ∃ items, val = .array items ∧
      (items ≠ [] → layoutOk (size * items.length) (max align 1) = true)
  | .strRef _ _ => ∃ s, val = .str s ∧ s.length ≤ isizeMax
  | .unit => True
  | .boxed _ size align => size ≠ 0 → layoutOk size (max align 1) = true
  | .opt _ discSize _ _ _ _ _ => discSize ≤ 16
  | .map .. => False
  | .ref cell => ∃ body, env.cells cell = some body
  | .unknown _ => False

/-- One step of the walk: the types directly inside a type, each with its part of the value. An
absent field takes `null`. -/
inductive Part (env : Env) : Ty → Json → Ty → Json → Prop
  | field {name : String} {fields : List FieldTy} {f : FieldTy} {val : Json} : f ∈ fields →
      Part env (.struct name fields) val f.ty ((val.get f.key).getD .null)
  | slot {fields : List FieldTy} {items : List Json} {x : FieldTy × Json} :
      x ∈ fields.zip items → Part env (.tuple fields) (.array items) x.1.ty x.2
  | elem {elem : Ty} {size align : ℕ} {seq : SeqLayout} {items : List Json} {item : Json} :
      item ∈ items → Part env (.vec elem size align seq) (.array items) elem item
  | pointee {inner : Ty} {size align : ℕ} {val : Json} :
      Part env (.boxed inner size align) val inner val
  | payload {discOff discSize noneDiscr payloadOff size : ℕ} {someDiscr : Option ℕ} {inner : Ty}
      {val : Json} : val ≠ .null →
      Part env (.opt discOff discSize noneDiscr someDiscr payloadOff size inner) val inner val
  | body {cell : RecCell} {body : Ty} {val : Json} : env.cells cell = some body →
      Part env (.ref cell) val body val

/-- The value is one of the type: it suits, and so do its parts, down to the leaves. A map suits
nothing, so there are none where the walk gets to. -/
inductive Conforms (env : Env) : Ty → Json → Prop
  | intro {ty : Ty} {val : Json} : Suits env ty val →
      (∀ ty' val', Part env ty val ty' val' → Conforms env ty' val') → Conforms env ty val

/-- The walk from a type and a value gets to this type and this value. -/
inductive Meets (env : Env) : Ty → Json → Ty → Json → Prop
  | here {ty : Ty} {val : Json} : Meets env ty val ty val
  | part {ty ty₁ ty' : Ty} {val val₁ val' : Json} : Part env ty val ty₁ val₁ →
      Meets env ty₁ val₁ ty' val' → Meets env ty val ty' val'

/-- Some elements without size. -/
def Sizeless : Ty → Json → Prop
  | .vec _ size _ _, .array items => size = 0 ∧ items ≠ []
  | _, _ => False

/-- Somewhere in the value there are elements without size. -/
def MeetsSizeless (env : Env) (ty : Ty) (val : Json) : Prop :=
  ∃ ty' val', Meets env ty val ty' val' ∧ Sizeless ty' val'

variable {env : Env}

theorem meetsSizeless_iff {ty : Ty} {val : Json} :
    MeetsSizeless env ty val ↔
      Sizeless ty val ∨ ∃ ty' val', Part env ty val ty' val' ∧ MeetsSizeless env ty' val' := by
  constructor
  · rintro ⟨ty', val', hm, hs⟩
    cases hm with
    | here => exact .inl hs
    | part hp hm => exact .inr ⟨_, _, hp, _, _, hm, hs⟩
  · rintro (hs | ⟨ty₁, val₁, hp, ty', val', hm, hs⟩)
    · exact ⟨_, _, .here, hs⟩
    · exact ⟨_, _, .part hp hm, hs⟩

/-- Without parts and elements there is nothing to meet. -/
theorem not_meetsSizeless {ty : Ty} {val : Json} (hs : ¬ Sizeless ty val)
    (hp : ∀ ty' val', ¬ Part env ty val ty' val') : ¬ MeetsSizeless env ty val := by
  rw [meetsSizeless_iff]
  rintro (h | ⟨_, _, h, -⟩)
  · exact hs h
  · exact hp _ _ h

/-- The types without parts. -/
def Ty.isAtom : Ty → Bool
  | .bool | .char | .u _ | .i _ | .f32 | .f64 | .str _ | .strRef _ _ | .unit => true
  | _ => false

theorem not_meetsSizeless_atom {ty : Ty} {val : Json} (h : ty.isAtom = true) :
    ¬ MeetsSizeless env ty val := by
  apply not_meetsSizeless
  · intro hs
    unfold Sizeless at hs
    split at hs
    · cases h
    · exact hs
  · intro _ _ hp
    cases hp <;> cases h

/-- A type that is no vector has elements without size only in its parts. -/
theorem meetsSizeless_parts {ty : Ty} {val : Json} (hs : ¬ Sizeless ty val) :
    MeetsSizeless env ty val ↔ ∃ ty' val', Part env ty val ty' val' ∧ MeetsSizeless env ty' val' := by
  rw [meetsSizeless_iff, or_iff_right hs]

/-! ## What the allocator is asked for -/

/-- Between the states the allocator has given these blocks, the last one first. -/
def Gains (s s' : State) (bs : List Block) : Prop := s'.blocks = bs ++ s.blocks

theorem Gains.trans {s s₁ s' : State} {bs cs : List Block} (h : Gains s s₁ bs)
    (h' : Gains s₁ s' cs) : Gains s s' (cs ++ bs) := by
  unfold Gains at *
  rw [h', h, List.append_assoc]

/-- The computation returns, and `Z` says whether it asks the allocator for no bytes. -/
def Allocs (x : ℕ → M Unit) (Z : Prop) : Prop :=
  ∀ s, ∃ s' bs, Runs (fun _ d => x d) s () s' ∧ Gains s s' bs ∧ ((∃ b ∈ bs, b.size = 0) ↔ Z)

/-- The computation returns and does not call the allocator. -/
def Plain (x : M Unit) : Prop := ∀ s, ∃ s', x.run s = (.done (), s') ∧ s'.blocks = s.blocks

theorem Plain.bind {x y : M Unit} (hx : Plain x) (hy : Plain y) : Plain (x >>= fun _ => y) := by
  intro s
  obtain ⟨s₁, hrun₁, h₁⟩ := hx s
  obtain ⟨s₂, hrun₂, h₂⟩ := hy s₁
  exact ⟨s₂, (bind_done hrun₁).trans hrun₂, h₂.trans h₁⟩

theorem plain_pure : Plain (pure ()) := fun s => ⟨s, rfl, rfl⟩

theorem plain_storeCells (a : ℕ) (cs : List Cell) : Plain (storeCells a cs) :=
  fun _ => ⟨_, rfl, rfl⟩

theorem plain_storeInt (a n v : ℕ) : Plain (storeInt a n v) := plain_storeCells _ _

theorem plain_storePtr (a p : ℕ) : Plain (storePtr a p) := plain_storeCells _ _

theorem plain_writeSeq (dst : ℕ) (seq : SeqLayout) (ptr cap len : ℕ) :
    Plain (writeSeq dst seq ptr cap len) :=
  (plain_storePtr _ _).bind ((plain_storeInt _ _ _).bind (plain_storeInt _ _ _))

theorem plain_writeBytes {k : ℕ} (hk : k ≤ 16) (dst v : ℕ) : Plain (writeBytes dst k v) := by
  rw [writeBytes, if_pos hk]
  exact plain_storeInt _ _ _

theorem Plain.allocs {x : M Unit} (h : Plain x) {Z : Prop} (hZ : ¬ Z) : Allocs (fun _ => x) Z := by
  intro s
  obtain ⟨s', hrun, hblocks⟩ := h s
  refine ⟨s', [], Runs.of_eq hrun, hblocks, ?_⟩
  simp only [List.not_mem_nil, false_and, exists_false, false_iff]
  exact hZ

theorem Allocs.congr {x : ℕ → M Unit} {Z Z' : Prop} (h : Allocs x Z) (hZ : Z ↔ Z') :
    Allocs x Z' := by
  rwa [← hZ]

theorem Allocs.call {x y : ℕ → M Unit} {Z : Prop} (hy : ∀ d, y (d + 1) = x d) (h : Allocs x Z) :
    Allocs y Z := by
  intro s
  obtain ⟨s', bs, hrun, hgains, hzero⟩ := h s
  exact ⟨s', bs, Runs.call (fun _ d => hy d) hrun, hgains, hzero⟩

theorem Allocs.bind {x y : ℕ → M Unit} {Z W : Prop} (hx : Allocs x Z) (hy : Allocs y W) :
    Allocs (fun d => x d >>= fun _ => y d) (Z ∨ W) := by
  intro s
  obtain ⟨s₁, bs, hrun₁, hgains₁, hzero₁⟩ := hx s
  obtain ⟨s₂, cs, hrun₂, hgains₂, hzero₂⟩ := hy s₁
  refine ⟨s₂, cs ++ bs, hrun₁.bind hrun₂, hgains₁.trans hgains₂, ?_⟩
  rw [← hzero₁, ← hzero₂]
  simp only [List.mem_append, or_and_right, exists_or, or_comm]

theorem Allocs.bind_plain {x : ℕ → M Unit} {y : M Unit} {Z : Prop} (hx : Allocs x Z)
    (hy : Plain y) : Allocs (fun d => x d >>= fun _ => y) Z :=
  (hx.bind (hy.allocs not_false)).congr (or_iff_left not_false)

theorem Allocs.forM {α : Type} {act : ℕ → α → M Unit} {Z : α → Prop} {l : List α}
    (h : ∀ a ∈ l, Allocs (fun d => act d a) (Z a)) :
    Allocs (fun d => l.forM (act d)) (∃ a ∈ l, Z a) := by
  induction l with
  | nil =>
    apply plain_pure.allocs
    rintro ⟨a, ha, -⟩
    exact List.not_mem_nil ha
  | cons a l ih =>
    have hhead := h a List.mem_cons_self
    have htail := ih fun x hx => h x (List.mem_cons_of_mem a hx)
    apply (hhead.bind htail).congr
    simp only [List.mem_cons, or_and_right, exists_or, exists_eq_left]

theorem Allocs.forEach {α : Type} {act : ℕ → ℕ → α → M Unit} {Z : α → Prop} {l : List α}
    (h : ∀ i, ∀ a ∈ l, Allocs (fun d => act d i a) (Z a)) (k : ℕ) :
    Allocs (fun d => Bilbo.forEach (act d) k l) (∃ a ∈ l, Z a) := by
  induction l generalizing k with
  | nil =>
    apply plain_pure.allocs
    rintro ⟨a, ha, -⟩
    exact List.not_mem_nil ha
  | cons a l ih =>
    have hhead := h k a List.mem_cons_self
    have htail := ih (fun i x hx => h i x (List.mem_cons_of_mem a hx)) (k + 1)
    apply (hhead.bind htail).congr
    simp only [List.mem_cons, or_and_right, exists_or, exists_eq_left]

/-- A block of this size, or the dangling aligned address and no call of the allocator, exactly
when the size is 0. -/
def Backed (s : State) (size align p : ℕ) (s₁ : State) : Prop :=
  if size = 0 then p = align ∧ s₁ = s
  else (alloc size align).run s = (.done p, s₁) ∧ s₁.blocks = ⟨p, size, align⟩ :: s.blocks

theorem alloc_block {size align : ℕ} (h : layoutOk size align = true) (s : State) :
    ∃ p s₁, (alloc size align).run s = (.done p, s₁) ∧
      s₁.blocks = ⟨p, size, align⟩ :: s.blocks := by
  rw [alloc, if_pos h]
  exact ⟨_, _, rfl, rfl⟩

theorem backed {size align : ℕ} (h : size ≠ 0 → layoutOk size align = true) (s : State) :
    ∃ p s₁, Backed s size align p s₁ := by
  by_cases hsize : size = 0
  · exact ⟨align, s, by rw [Backed, if_pos hsize]; exact ⟨rfl, rfl⟩⟩
  · obtain ⟨p, s₁, hrun⟩ := alloc_block (h hsize) s
    exact ⟨p, s₁, by rw [Backed, if_neg hsize]; exact hrun⟩

/-- What is backed asks for no bytes at no time. -/
theorem Backed.gains {s s₁ : State} {size align p : ℕ} (h : Backed s size align p s₁) :
    ∃ bs, Gains s s₁ bs ∧ ∀ b ∈ bs, b.size ≠ 0 := by
  unfold Backed at h
  split at h
  · exact ⟨[], by rw [h.2]; rfl, nofun⟩
  · next hsize =>
    refine ⟨[⟨p, size, align⟩], h.2, ?_⟩
    intro b hb
    rw [List.mem_singleton.1 hb]
    exact hsize

/-- `alloc_copy`: a buffer, then the bytes. -/
theorem allocCopy_backed {bs : Bytes} (hlen : bs.length ≤ isizeMax) (s : State) :
    ∃ p s₁ s₂, Backed s bs.length 1 p s₁ ∧ (storeCells p (ints bs)).run s₁ = (.done (), s₂) ∧
      (allocCopy bs 1).run s = (.done p, s₂) := by
  by_cases hbs : bs = []
  · subst hbs
    have hcells : (storeCells 1 (ints [])).run s = (.done (), s) := by
      show (_, { s with mem := writeCells s.mem 1 [] }) = _
      rw [writeCells_nil]
    refine ⟨1, s, s, ?_, hcells, rfl⟩
    rw [Backed, if_pos List.length_nil]
    exact ⟨rfl, rfl⟩
  · have hlayout : layoutOk bs.length 1 = true := by
      rw [layoutOk, Bool.and_eq_true, decide_eq_true_eq]
      exact ⟨rfl, hlen⟩
    obtain ⟨p, s₁, hrun⟩ := alloc_block hlayout s
    refine ⟨p, s₁, _, ?_, rfl, ?_⟩
    · rw [Backed, if_neg fun h => hbs (List.length_eq_zero_iff.1 h)]
      exact hrun
    · rw [allocCopy, if_neg hbs, bind_done hrun.1]
      rfl

/-- A string asks for its bytes, unless there are none. -/
theorem allocs_copy {bs : Bytes} (hlen : bs.length ≤ isizeMax) {x : ℕ → M Unit}
    {store : ℕ → M Unit} (hx : ∀ d, x (d + 1) = do
      let p ← allocCopy bs 1
      store p) (hstore : ∀ p, Plain (store p)) {Z : Prop} (hZ : ¬ Z) : Allocs x Z := by
  intro s
  obtain ⟨p, s₁, s₂, hback, hcopy, hrun⟩ := allocCopy_backed hlen s
  obtain ⟨own, hown, hnonzero⟩ := hback.gains
  obtain ⟨s', hrun', hblocks⟩ := hstore p s₂
  refine ⟨s', own, ?_, ?_, ?_⟩
  · apply Runs.call (fun _ d => hx d)
    exact Runs.of_eq ((bind_done hrun).trans hrun')
  · have hcells : s₂.blocks = s₁.blocks := by
      cases hcopy
      rfl
    rw [Gains, hblocks, hcells]
    exact hown
  · refine iff_of_false ?_ hZ
    rintro ⟨b, hb, hzero⟩
    exact hnonzero b hb hzero

/-! ## A run -/

theorem Conforms.suits {ty : Ty} {val : Json} (h : Conforms env ty val) : Suits env ty val := by
  cases h with
  | intro hsuits _ => exact hsuits

theorem Conforms.part {ty ty' : Ty} {val val' : Json} (h : Conforms env ty val)
    (hp : Part env ty val ty' val') : Conforms env ty' val' := by
  cases h with
  | intro _ hparts => exact hparts _ _ hp

/-- A field of a struct, read from its first member or from `null`. -/
theorem runField_eq {f : FieldTy} {val : Json} (h : val.get f.key = none → f.ty.isOpt = true)
    (dst d : ℕ) :
    runField env dst val d f = run env d (dst + f.offset) f.ty ((val.get f.key).getD .null) := by
  unfold runField
  cases hget : val.get f.key with
  | some fv => rfl
  | none => rw [if_pos (h hget)]; rfl

/-- A vector with elements: one buffer for all of them, which fits a layout. -/
theorem run_vec_filled {elem : Ty} {size align : ℕ} {seq : SeqLayout} {items : List Json}
    (hitems : items ≠ []) (hlayout : layoutOk (size * items.length) (max align 1) = true)
    (dst d : ℕ) :
    run env (d + 1) dst (.vec elem size align seq) (.array items) = (do
      let p ← alloc (size * items.length) (max align 1)
      forEach (fun i item => run env d (p + i * size) elem item) 0 items
      writeSeq dst seq p items.length items.length) := by
  have hlen : items.length ≠ 0 := fun h => hitems (List.length_eq_zero_iff.1 h)
  have hmax : isizeMax = 2 ^ 63 - 1 := rfl
  rw [layoutOk, Bool.and_eq_true, decide_eq_true_eq] at hlayout
  rw [run_vec, runBuffer, if_neg hlen, Nat.mod_eq_of_lt (by omega)]
  simp only [bind_assoc_run, pure_bind_run]

/-- A box: its pointee goes where it is backed. -/
theorem runs_boxed {inner : Ty} {size align dst p : ℕ} {val : Json} {s s₁ s' : State}
    (hback : Backed s size (max align 1) p s₁)
    (hrun : Runs (fun _ d => run env d p inner val >>= fun _ => storePtr dst p) s₁ () s') :
    Runs (fun _ d => run env d dst (.boxed inner size align) val) s () s' := by
  have hp : (rtBoxAlloc size align).run s = (.done p, s₁) := by
    unfold Backed at hback
    rw [rtBoxAlloc]
    split at hback
    · next hsize =>
      rw [if_pos hsize, hback.1, hback.2]
      rfl
    · next hsize =>
      rw [if_neg hsize]
      exact hback.1
  exact Runs.call (fun _ d => run_boxed env d dst inner size align val) (Runs.bind_eq hp hrun)

/-- An option takes a value that is not `null` as its payload. -/
theorem run_payload (env : Env) (d dst discOff discSize noneDiscr payloadOff size : ℕ)
    (someDiscr : Option ℕ) (inner : Ty) {val : Json} (hval : val ≠ .null) :
    run env (d + 1) dst (.opt discOff discSize noneDiscr someDiscr payloadOff size inner) val = (do
      run env d (dst + payloadOff) inner val
      someDiscr.elim (pure ()) fun sd => writeBytes (dst + discOff) discSize sd) := by
  cases val with
  | null => exact absurd rfl hval
  | _ => cases someDiscr <;> rfl

/-- A run on a value of its type returns, and it asks the allocator for no bytes exactly when
there are elements without size somewhere. -/
theorem Conforms.allocs {ty : Ty} {val : Json} (h : Conforms env ty val) (dst : ℕ) :
    Allocs (fun d => run env d dst ty val) (MeetsSizeless env ty val) := by
  induction h generalizing dst with
  | @intro ty val hsuits _ ih =>
    -- most types have no parts and are stored without the allocator
    have hatom : ∀ {x : M Unit}, (∀ d, run env (d + 1) dst ty val = x) → Plain x →
        ty.isAtom = true → Allocs (fun d => run env d dst ty val) (MeetsSizeless env ty val) := by
      intro x hx hplain h
      exact (hplain.allocs (not_meetsSizeless_atom h)).call hx
    cases ty with
    | bool => exact hatom (fun _ => rfl) (plain_storeInt _ _ _) rfl
    | char =>
      obtain ⟨s, rfl⟩ := hsuits
      exact hatom (fun _ => rfl) (plain_storeInt _ _ _) rfl
    | u n =>
      obtain ⟨hn, v, hv⟩ := hsuits
      exact hatom (fun _ => by rw [run, hv]; rfl) (plain_writeBytes hn _ _) rfl
    | i n =>
      obtain ⟨hn, v, hv⟩ := hsuits
      exact hatom (fun _ => by rw [run, hv]; rfl) (plain_writeBytes hn _ _) rfl
    | f32 =>
      obtain ⟨v, hv⟩ := hsuits
      exact hatom (fun _ => by rw [run, hv]; rfl) (plain_storeInt _ _ _) rfl
    | f64 =>
      obtain ⟨v, hv⟩ := hsuits
      exact hatom (fun _ => by rw [run, hv]; rfl) (plain_storeInt _ _ _) rfl
    | struct name fields =>
      have hfields : ∀ f ∈ fields, Allocs (fun d => runField env dst val d f)
          (MeetsSizeless env f.ty ((val.get f.key).getD .null)) := by
        intro f hf
        simp only [runField_eq (hsuits f hf)]
        exact ih _ _ (.field hf) _
      apply ((Allocs.forM hfields).call fun d => run_struct env d dst name fields val).congr
      rw [meetsSizeless_parts id]
      constructor
      · rintro ⟨f, hf, hs⟩
        exact ⟨_, _, .field hf, hs⟩
      · rintro ⟨_, _, hp, hs⟩
        cases hp with
        | field hf => exact ⟨_, hf, hs⟩
    | tuple fields =>
      obtain ⟨items, rfl⟩ := hsuits
      have hslots : ∀ x ∈ fields.zip items, Allocs
          (fun d => run env d (dst + x.1.offset) x.1.ty x.2) (MeetsSizeless env x.1.ty x.2) :=
        fun x hx => ih _ _ (.slot hx) _
      apply ((Allocs.forM hslots).call fun _ => rfl).congr
      rw [meetsSizeless_parts id]
      constructor
      · rintro ⟨x, hx, hs⟩
        exact ⟨_, _, .slot hx, hs⟩
      · rintro ⟨_, _, hp, hs⟩
        cases hp with
        | slot hx => exact ⟨_, hx, hs⟩
    | str seq =>
      obtain ⟨bs, rfl, hlen⟩ := hsuits
      exact allocs_copy hlen (fun _ => rfl) (fun _ => plain_writeSeq _ _ _ _ _)
        (not_meetsSizeless_atom rfl)
    | strRef ptrOff lenOff =>
      obtain ⟨bs, rfl, hlen⟩ := hsuits
      exact allocs_copy hlen (fun _ => rfl)
        (fun _ => (plain_storePtr _ _).bind (plain_storeInt _ _ _))
        (not_meetsSizeless_atom rfl)
    | vec elem size align seq =>
      obtain ⟨items, rfl, hlayout⟩ := hsuits
      apply Allocs.call (fun d => run_vec env elem size align seq items dst d)
      by_cases hitems : items = []
      · subst hitems
        have hnone : ¬ MeetsSizeless env (.vec elem size align seq) (.array []) := by
          have hself : ¬ Sizeless (.vec elem size align seq) (.array []) := fun h => h.2 rfl
          apply not_meetsSizeless hself
          rintro _ _ (_ | _ | hitem)
          exact List.not_mem_nil hitem
        exact Plain.allocs (plain_writeSeq dst seq (max align 1) 0 0) hnone
      · simp only [← run_vec, run_vec_filled hitems (hlayout hitems)]
        intro s
        obtain ⟨p, s₁, halloc, hblock⟩ := alloc_block (hlayout hitems) s
        have helems : ∀ i, ∀ item ∈ items, Allocs
            (fun d => run env d (p + i * size) elem item) (MeetsSizeless env elem item) :=
          fun i item hitem => ih _ _ (.elem hitem) _
        have hrest := ((Allocs.forEach helems 0).bind_plain
          (plain_writeSeq dst seq p items.length items.length)) s₁
        obtain ⟨s', bs, hrun, hgains, hzero⟩ := hrest
        have hgains₁ : Gains s s₁ [⟨p, size * items.length, max align 1⟩] := hblock
        refine ⟨s', _, Runs.bind_eq halloc hrun, hgains₁.trans hgains, ?_⟩
        have hself : Sizeless (.vec elem size align seq) (.array items) ↔
            size * items.length = 0 := by
          have hpos : items.length ≠ 0 := fun h => hitems (List.length_eq_zero_iff.1 h)
          rw [Nat.mul_eq_zero, or_iff_left hpos]
          exact and_iff_left hitems
        have hparts : (∃ item ∈ items, MeetsSizeless env elem item) ↔
            ∃ ty' val', Part env (.vec elem size align seq) (.array items) ty' val' ∧
              MeetsSizeless env ty' val' := by
          constructor
          · rintro ⟨item, hitem, hs⟩
            exact ⟨_, _, .elem hitem, hs⟩
          · rintro ⟨_, _, hp, hs⟩
            cases hp with
            | elem hitem => exact ⟨_, hitem, hs⟩
        rw [meetsSizeless_iff, hself, ← hparts, ← hzero]
        simp only [List.mem_append, List.mem_singleton, or_and_right, exists_or, exists_eq_left,
          or_comm]
    | unit => exact hatom (fun _ => rfl) plain_pure rfl
    | boxed inner size align =>
      intro s
      obtain ⟨p, s₁, hback⟩ := backed hsuits s
      obtain ⟨own, hown, hnonzero⟩ := hback.gains
      obtain ⟨s', bs, hrun, hgains, hzero⟩ :=
        ((ih _ _ .pointee p).bind_plain (plain_storePtr dst p)) s₁
      refine ⟨s', bs ++ own, runs_boxed hback hrun, hown.trans hgains, ?_⟩
      have hnone : ¬ ∃ b ∈ own, b.size = 0 := by
        rintro ⟨b, hb, hzero⟩
        exact hnonzero b hb hzero
      have hparts : MeetsSizeless env (.boxed inner size align) val ↔
          MeetsSizeless env inner val := by
        rw [meetsSizeless_parts id]
        constructor
        · rintro ⟨_, _, hp, hs⟩
          cases hp with
          | pointee => exact hs
        · exact fun hs => ⟨_, _, .pointee, hs⟩
      rw [hparts, ← hzero]
      simp only [List.mem_append, or_and_right, exists_or, or_iff_left hnone]
    | opt discOff discSize noneDiscr someDiscr payloadOff size inner =>
      have hparts : MeetsSizeless env
          (.opt discOff discSize noneDiscr someDiscr payloadOff size inner) val ↔
          val ≠ .null ∧ MeetsSizeless env inner val := by
        rw [meetsSizeless_parts id]
        constructor
        · rintro ⟨_, _, hp, hs⟩
          cases hp with
          | payload hval => exact ⟨hval, hs⟩
        · rintro ⟨hval, hs⟩
          exact ⟨_, _, .payload hval, hs⟩
      by_cases hval : val = .null
      · subst hval
        have hplain : Plain (do
            storeCells dst (List.replicate size (.int 0))
            writeBytes (dst + discOff) discSize noneDiscr) :=
          (plain_storeCells _ _).bind (plain_writeBytes hsuits _ _)
        have hnone : ¬ MeetsSizeless env
            (.opt discOff discSize noneDiscr someDiscr payloadOff size inner) .null := by
          rw [hparts]
          exact fun hs => hs.1 rfl
        exact (hplain.allocs hnone).call fun _ => rfl
      · have hstep := fun d => run_payload env d dst discOff discSize noneDiscr payloadOff size
          someDiscr inner hval
        apply ((ih _ _ (.payload hval) _).bind_plain _).call hstep |>.congr
        · rw [hparts, and_iff_right hval]
        · cases someDiscr with
          | none => exact plain_pure
          | some sd => exact plain_writeBytes hsuits _ _
    | map => exact hsuits.elim
    | ref cell =>
      obtain ⟨body, hbody⟩ := hsuits
      have hbodyRun := (ih _ _ (.body hbody) dst).call (y := fun d => run env d dst (.ref cell) val)
        fun d => by simp only [run, hbody]
      apply hbodyRun.congr
      have hself : ¬ Sizeless (.ref cell) val := id
      rw [meetsSizeless_parts hself]
      constructor
      · intro hs
        exact ⟨_, _, .body hbody, hs⟩
      · rintro ⟨_, _, hp, hs⟩
        cases hp with
        | body hbody' =>
          rw [hbody] at hbody'
          cases hbody'
          exact hs
    | unknown what => exact hsuits.elim

/-! ## The calls of a run -/

/-- A call of `run`, with the state it starts from. -/
structure Call where
  dst : ℕ
  ty : Ty
  val : Json
  start : State

/-- The call returns in this state. -/
def Call.Returns (env : Env) (c : Call) (s' : State) : Prop :=
  Runs (fun _ d => run env d c.dst c.ty c.val) c.start () s'

/-- One call makes the other: for the part that comes behind `before`, in the state that those
leave. -/
inductive Enters (env : Env) : Call → Call → Prop
  | field {dst : ℕ} {name : String} {before after : List FieldTy} {f : FieldTy} {val : Json}
      {s s₁ : State} :
      Runs (fun _ d => before.forM (runField env dst val d)) s () s₁ →
      Enters env ⟨dst, .struct name (before ++ f :: after), val, s⟩
        ⟨dst + f.offset, f.ty, (val.get f.key).getD .null, s₁⟩
  | slot {dst : ℕ} {fields : List FieldTy} {items : List Json}
      {before after : List (FieldTy × Json)} {x : FieldTy × Json} {s s₁ : State} :
      fields.zip items = before ++ x :: after →
      Runs (fun _ d => before.forM fun x => run env d (dst + x.1.offset) x.1.ty x.2) s () s₁ →
      Enters env ⟨dst, .tuple fields, .array items, s⟩ ⟨dst + x.1.offset, x.1.ty, x.2, s₁⟩
  | elem {dst size align p : ℕ} {elem : Ty} {seq : SeqLayout} {before after : List Json}
      {item : Json} {s s₁ s₂ : State} :
      (alloc (size * (before ++ item :: after).length % 2 ^ 64) (max align 1)).run s =
        (.done p, s₁) →
      Runs (fun _ d => forEach (fun i item => run env d (p + i * size) elem item) 0 before)
        s₁ () s₂ →
      Enters env ⟨dst, .vec elem size align seq, .array (before ++ item :: after), s⟩
        ⟨p + before.length * size, elem, item, s₂⟩
  | pointee {dst size align p : ℕ} {inner : Ty} {val : Json} {s s₁ : State} :
      Backed s size (max align 1) p s₁ →
      Enters env ⟨dst, .boxed inner size align, val, s⟩ ⟨p, inner, val, s₁⟩
  | payload {dst discOff discSize noneDiscr payloadOff size : ℕ} {someDiscr : Option ℕ}
      {inner : Ty} {val : Json} {s : State} : val ≠ .null →
      Enters env ⟨dst, .opt discOff discSize noneDiscr someDiscr payloadOff size inner, val, s⟩
        ⟨dst + payloadOff, inner, val, s⟩
  | body {dst : ℕ} {cell : RecCell} {body : Ty} {val : Json} {s : State} :
      env.cells cell = some body → Enters env ⟨dst, .ref cell, val, s⟩ ⟨dst, body, val, s⟩

/-- The calls follow the walk. -/
theorem Enters.part {c c' : Call} (h : Enters env c c') : Part env c.ty c.val c'.ty c'.val := by
  cases h with
  | field _ => exact .field (List.mem_append_right _ List.mem_cons_self)
  | slot hzip _ => exact .slot (by rw [hzip]; exact List.mem_append_right _ List.mem_cons_self)
  | elem _ _ => exact .elem (List.mem_append_right _ List.mem_cons_self)
  | pointee _ => exact .pointee
  | payload hval => exact .payload hval
  | body hbody => exact .body hbody

theorem Meets.trans {ty ty₁ ty' : Ty} {val val₁ val' : Json} (h : Meets env ty val ty₁ val₁)
    (h' : Meets env ty₁ val₁ ty' val') : Meets env ty val ty' val' := by
  induction h with
  | here => exact h'
  | part hp _ ih => exact .part hp (ih h')

theorem meets_of_enters {c c' : Call} (h : ReflTransGen (Enters env) c c') :
    Meets env c.ty c.val c'.ty c'.val := by
  induction h with
  | refl => exact .here
  | tail _ hstep ih => exact ih.trans (.part hstep.part .here)

theorem Conforms.meets {ty ty' : Ty} {val val' : Json} (h : Conforms env ty val)
    (hm : Meets env ty val ty' val') : Conforms env ty' val' := by
  induction hm with
  | here => exact h
  | part hp _ ih => exact ih (h.part hp)

/-- What is built: the call for a string, a vector or a box returns, and the pointer it stores is
backed by what `Drop` frees through it, `cap` bytes, `cap` times `elem_size`, or the size of the
pointee. -/
def Built (env : Env) (c : Call) : Prop :=
  match c.ty with
  | .str seq => ∃ bs, c.val = .str bs ∧ ∃ p s₁ s', Backed c.start bs.length 1 p s₁ ∧
      (do storeCells p (ints bs); writeSeq c.dst seq p bs.length bs.length : M Unit).run s₁ =
        (.done (), s') ∧ c.Returns env s'
  | .vec elem size align seq => ∃ items, c.val = .array items ∧ ∃ p s₁ s',
      Backed c.start (items.length * size) (max align 1) p s₁ ∧
      Runs (fun _ d => do
        forEach (fun i item => run env d (p + i * size) elem item) 0 items
        writeSeq c.dst seq p items.length items.length) s₁ () s' ∧ c.Returns env s'
  | .boxed inner size align => ∃ p s₁ s', Backed c.start size (max align 1) p s₁ ∧
      Runs (fun _ d => do
        run env d p inner c.val
        storePtr c.dst p) s₁ () s' ∧ c.Returns env s'
  | _ => True

/-- A call for a value of its type builds what `Drop` frees, if it has no elements without
size. -/
theorem Conforms.built {c : Call} (h : Conforms env c.ty c.val) (hs : ¬ Sizeless c.ty c.val) :
    Built env c := by
  obtain ⟨dst, ty, val, s⟩ := c
  cases ty with
  | str seq =>
    obtain ⟨bs, rfl, hlen⟩ := h.suits
    obtain ⟨p, s₁, s₂, hback, hcopy, hrun⟩ := allocCopy_backed hlen s
    obtain ⟨s', hstore, -⟩ := plain_writeSeq dst seq p bs.length bs.length s₂
    refine ⟨bs, rfl, p, s₁, s', hback, (bind_done hcopy).trans hstore, ?_⟩
    exact Runs.call (fun _ _ => rfl) (Runs.of_eq ((bind_done hrun).trans hstore))
  | vec elem size align seq =>
    obtain ⟨items, rfl, hlayout⟩ := h.suits
    by_cases hitems : items = []
    · -- nothing to store, so no buffer either
      subst hitems
      obtain ⟨s', hstore, -⟩ := plain_writeSeq dst seq (max align 1) 0 0 s
      refine ⟨[], rfl, max align 1, s, s', ?_, ?_, ?_⟩
      · rw [Backed, List.length_nil, Nat.zero_mul, if_pos rfl]
        exact ⟨rfl, rfl⟩
      · exact Runs.of_eq hstore
      · exact Runs.call (fun _ d => run_vec env elem size align seq [] dst d) (Runs.of_eq hstore)
    · have hsize : size * items.length ≠ 0 := by
        rw [Nat.mul_ne_zero_iff]
        exact ⟨fun h => hs ⟨h, hitems⟩, fun h => hitems (List.length_eq_zero_iff.1 h)⟩
      obtain ⟨p, s₁, halloc, hblock⟩ := alloc_block (hlayout hitems) s
      have helems : ∀ i, ∀ item ∈ items, Allocs
          (fun d => run env d (p + i * size) elem item) (MeetsSizeless env elem item) :=
        fun i item hitem => (h.part (.elem hitem)).allocs _
      obtain ⟨s', bs, hrun, -⟩ := ((Allocs.forEach helems 0).bind_plain
        (plain_writeSeq dst seq p items.length items.length)) s₁
      refine ⟨items, rfl, p, s₁, s', ?_, hrun, ?_⟩
      · rw [Backed, Nat.mul_comm, if_neg hsize]
        exact ⟨halloc, hblock⟩
      · exact Runs.call (fun _ d => run_vec_filled hitems (hlayout hitems) dst d)
          (Runs.bind_eq halloc hrun)
  | boxed inner size align =>
    obtain ⟨p, s₁, hback⟩ := backed h.suits s
    obtain ⟨s', bs, hrun, -⟩ :=
      (((h.part .pointee).allocs p).bind_plain (plain_storePtr dst p)) s₁
    exact ⟨p, s₁, s', hback, hrun, runs_boxed hback hrun⟩
  | _ => trivial

/-- A run on a value of its type returns; it asks the allocator for no bytes nowhere and backs
every string, vector and box with what `Drop` frees, exactly when no array that is not empty is
read as a vector of elements of size 0. -/
theorem blocks_match_iff {ty : Ty} {val : Json} (h : Conforms env ty val) :
    (∀ dst s, ∃ s' bs, Call.Returns env ⟨dst, ty, val, s⟩ s' ∧ Gains s s' bs ∧
      (∀ b ∈ bs, b.size ≠ 0) ∧
      ∀ c, ReflTransGen (Enters env) ⟨dst, ty, val, s⟩ c → Built env c) ↔
      ∀ elem align seq items, Meets env ty val (.vec elem 0 align seq) (.array items) →
        items = [] := by
  constructor
  · intro hbuilt elem align seq items hmeets
    obtain ⟨s', bs, hrun, hgains, hnonzero, -⟩ := hbuilt 0 (State.initial 0)
    obtain ⟨s₂, cs, hrun₂, hgains₂, hzero⟩ := h.allocs 0 (State.initial 0)
    obtain ⟨-, rfl⟩ := hrun.unique hrun₂
    obtain rfl : bs = cs := List.append_cancel_right (hgains.symm.trans hgains₂)
    by_contra hitems
    obtain ⟨b, hb, hsize⟩ := hzero.2 ⟨_, _, hmeets, rfl, hitems⟩
    exact hnonzero b hb hsize
  -- no part is sizeless, so each call builds what it asks for
  · intro hsized dst s
    have hnone : ∀ ty' val', Meets env ty val ty' val' → ¬ Sizeless ty' val' := by
      intro ty' val' hm hs
      unfold Sizeless at hs
      split at hs
      · obtain ⟨rfl, hitems⟩ := hs
        exact hitems (hsized _ _ _ _ hm)
      · exact hs
    obtain ⟨s', bs, hrun, hgains, hzero⟩ := h.allocs dst s
    refine ⟨s', bs, hrun, hgains, ?_, ?_⟩
    · intro b hb hsize
      obtain ⟨ty', val', hm, hs⟩ := hzero.1 ⟨b, hb, hsize⟩
      exact hnone _ _ hm hs
    · intro c hc
      have hm := meets_of_enters hc
      exact (h.meets hm).built (hnone _ _ hm)

/-! ## Two vectors -/

/-- An array of one value, which fits the elements of a vector. -/
theorem conforms_one {elem : Ty} {size align : ℕ} {seq : SeqLayout} {item : Json}
    (hlayout : layoutOk (size * [item].length) (max align 1) = true) (hitem : Suits env elem item)
    (hparts : ∀ ty' val', ¬ Part env elem item ty' val') :
    Conforms env (.vec elem size align seq) (.array [item]) := by
  refine .intro ⟨[item], rfl, fun _ => hlayout⟩ ?_
  rintro _ _ (_ | _ | hmem)
  rw [List.mem_singleton.1 hmem]
  exact .intro hitem fun _ _ hp => absurd hp (hparts _ _)

theorem conforms_vecU64 : Conforms Env.bare vecU64 (.array [.num [0x31]]) := by
  have hsuits : Suits Env.bare (.u 8) (.num [0x31]) := ⟨by decide, 1, rfl⟩
  have hparts : ∀ ty' val', ¬ Part Env.bare (.u 8) (.num [0x31]) ty' val' := by
    intro _ _ hp
    cases hp
  exact conforms_one (by decide) hsuits hparts

/-- A `Vec<u64>` of one number. -/
theorem blocks_match_vecU64 :
    (∀ dst s, ∃ s' bs, Call.Returns Env.bare ⟨dst, vecU64, .array [.num [0x31]], s⟩ s' ∧
      Gains s s' bs ∧ (∀ b ∈ bs, b.size ≠ 0) ∧
      ∀ c, ReflTransGen (Enters Env.bare) ⟨dst, vecU64, .array [.num [0x31]], s⟩ c →
        Built Env.bare c) ↔
      ∀ elem align seq items, Meets Env.bare vecU64 (.array [.num [0x31]])
        (.vec elem 0 align seq) (.array items) → items = [] :=
  blocks_match_iff conforms_vecU64

/-- `Vec<()>` -/
def unitVec : Ty := .vec .unit 0 1 ⟨0, 8, 16⟩

/-- For `[null]` as a `Vec<()>` the allocator is asked for no bytes. -/
theorem unitVec_empty_block :
    Conforms Env.bare unitVec (.array [.null]) ∧
      ∃ s', (run Env.bare 2 0 unitVec (.array [.null])).run (State.initial 24) = (.done (), s') ∧
        Gains (State.initial 24) s' [⟨24, 0, 1⟩] := by
  have hsuits : Suits Env.bare .unit .null := trivial
  have hparts : ∀ ty' val', ¬ Part Env.bare .unit .null ty' val' := by
    intro _ _ hp
    cases hp
  exact ⟨conforms_one (by decide) hsuits hparts, _, rfl, rfl⟩

end Bilbo
