import Bilbo.Emit

/-!
# Values and how memory holds them

A `Val` is what a text spells, without addresses. `Holds` says that memory holds a value of a
type at an address, under the layout of the type: the value itself takes the bytes of
`Ty.span`, everything it points to lies in one interval of the heap, in blocks of the sizes
that `Drop` will free. So a value keeps its meaning when its bytes are moved and that
interval stays as it is.
-/

namespace Bilbo

open Base

/-- What a text spells. -/
inductive Val where
  | bool (b : Bool)
  | int (z : ℤ)
  | str (bs : Bytes)
  /-- a struct or a tuple, in the order of its fields -/
  | record (fields : List Val)
  | seq (items : List Val)
  | boxed (v : Val)
  | unit
  | none
  | some (v : Val)
  /-- the entries in key order -/
  | map (entries : List (Bytes × Val))

/-! ## The bytes of a value itself -/

mutual

/-- One past the last byte of a value itself, where `sz` has the size behind each cell. -/
def Ty.span (sz : RecCell → Option ℕ) : Ty → ℕ
  | .bool => 1
  | .char => 4
  | .u n => storeWidth n
  | .i n => storeWidth n
  | .f32 => 4
  | .f64 => 8
  | .struct _ fields => Ty.fieldsSpan sz fields
  | .tuple fields => Ty.fieldsSpan sz fields
  | .str seq => max (max seq.ptrOff seq.capOff) seq.lenOff + 8
  | .vec _ _ _ seq => max (max seq.ptrOff seq.capOff) seq.lenOff + 8
  | .strRef ptrOff lenOff => max ptrOff lenOff + 8
  | .unit => 0
  | .boxed _ _ _ => 8
  | .opt discOff discSize _ _ payloadOff size inner =>
    max size (max (discOff + storeWidth discSize) (payloadOff + Ty.span sz inner))
  | .map .. => 24
  | .ref c => (sz c).getD 0
  | .unknown _ => 0

/-- One past the last byte of the fields of a struct or tuple. -/
def Ty.fieldsSpan (sz : RecCell → Option ℕ) : List (FieldOf Ty) → ℕ
  | [] => 0
  | f :: fs => max (Ty.fieldSpan sz f) (Ty.fieldsSpan sz fs)

/-- One past the last byte of a field. -/
def Ty.fieldSpan (sz : RecCell → Option ℕ) : FieldOf Ty → ℕ
  | ⟨_, offset, ty⟩ => offset + Ty.span sz ty

end

theorem Ty.le_fieldsSpan (sz : RecCell → Option ℕ) {f : FieldTy} {fields : List FieldTy}
    (hf : f ∈ fields) : f.offset + f.ty.span sz ≤ Ty.fieldsSpan sz fields := by
  induction fields with
  | nil => cases hf
  | cons g fields ih =>
    rw [Ty.fieldsSpan]
    rcases List.mem_cons.1 hf with heq | hf
    · rw [← heq]
      obtain ⟨name, offset, ty⟩ := f
      exact Nat.le_max_left _ _
    · exact (ih hf).trans (Nat.le_max_right _ _)

/-- The `n` bytes at `a` lie in the interval from `lo` to `hi`. -/
def Between (lo hi a n : ℕ) : Prop := n = 0 ∨ lo ≤ a ∧ a + n ≤ hi

theorem Between.mono {lo hi lo' hi' a n : ℕ} (h : Between lo hi a n) (hlo : lo' ≤ lo)
    (hhi : hi ≤ hi') : Between lo' hi' a n := by
  rcases h with h | ⟨h₁, h₂⟩
  · exact .inl h
  · exact .inr ⟨by omega, by omega⟩

/-- A heap allocation of `n` bytes at `p` in the interval, of exactly that size. -/
def Held (s : State) (lo hi p n align : ℕ) : Prop :=
  n = 0 ∨ lo ≤ p ∧ p + n ≤ hi ∧ ⟨p, n, align⟩ ∈ s.blocks

theorem Held.between {s : State} {lo hi p n align : ℕ} (h : Held s lo hi p n align) :
    Between lo hi p n :=
  h.imp_right fun h => ⟨h.1, h.2.1⟩

/-- The words of a discriminant. -/
def discWord (discSize v : ℕ) : ℕ := v % 256 ^ storeWidth discSize

section

variable (cells : Cells) (sz : RecCell → Option ℕ)

/-- In the state `s` the memory at `a` holds the value, and what it points to lies between
`lo` and `hi`. -/
inductive Holds (s : State) (lo hi : ℕ) : Ty → Val → ℕ → Prop
  | bool {b : Bool} {a : ℕ} : s.mem a = .int (if b then 1 else 0) → Holds s lo hi .bool (.bool b) a
  | u {n v a : ℕ} : v < 256 ^ n → readNat s.mem a (storeWidth n) = some v →
      Holds s lo hi (.u n) (.int v) a
  | i {n a : ℕ} {z : ℤ} : -(256 ^ n : ℕ) ≤ 2 * z → 2 * z < (256 ^ n : ℕ) →
      readNat s.mem a (storeWidth n) = some (z % (256 ^ n : ℕ)).toNat →
      Holds s lo hi (.i n) (.int z) a
  | str {seq : SeqLayout} {bs : Bytes} {a p : ℕ} : bs.length ≤ isizeMax →
      readPtr s.mem (a + seq.ptrOff) = some p →
      readNat s.mem (a + seq.capOff) 8 = some bs.length →
      readNat s.mem (a + seq.lenOff) 8 = some bs.length →
      Held s lo hi p bs.length 1 → readCells s.mem p bs.length = ints bs →
      Holds s lo hi (.str seq) (.str bs) a
  | strRef {ptrOff lenOff a p : ℕ} {bs : Bytes} : bs.length ≤ isizeMax →
      readPtr s.mem (a + ptrOff) = some p → readNat s.mem (a + lenOff) 8 = some bs.length →
      Held s lo hi p bs.length 1 → readCells s.mem p bs.length = ints bs →
      Holds s lo hi (.strRef ptrOff lenOff) (.str bs) a
  | struct {name : String} {fields : List FieldTy} {vs : List Val} {a : ℕ} :
      vs.length = fields.length →
      (∀ (i : ℕ) (f : FieldTy) (v : Val), fields[i]? = some f → vs[i]? = some v →
        Holds s lo hi f.ty v (a + f.offset)) →
      Holds s lo hi (.struct name fields) (.record vs) a
  | tuple {fields : List FieldTy} {vs : List Val} {a : ℕ} : vs.length = fields.length →
      (∀ (i : ℕ) (f : FieldTy) (v : Val), fields[i]? = some f → vs[i]? = some v →
        Holds s lo hi f.ty v (a + f.offset)) →
      Holds s lo hi (.tuple fields) (.record vs) a
  | vec {elem : Ty} {size align : ℕ} {seq : SeqLayout} {vs : List Val} {a base cap : ℕ} :
      vs.length ≤ cap → cap ≤ isizeMax → readPtr s.mem (a + seq.ptrOff) = some base →
      readNat s.mem (a + seq.capOff) 8 = some cap →
      readNat s.mem (a + seq.lenOff) 8 = some vs.length →
      Held s lo hi base (cap * size) (max align 1) →
      (∀ i < vs.length, i * size + elem.span sz ≤ cap * size) →
      (∀ (i : ℕ) (v : Val), vs[i]? = some v → Holds s lo hi elem v (base + i * size)) →
      Holds s lo hi (.vec elem size align seq) (.seq vs) a
  | boxed {inner : Ty} {size align : ℕ} {v : Val} {a p : ℕ} : readPtr s.mem a = some p →
      inner.span sz ≤ size → Held s lo hi p size (max align 1) → Holds s lo hi inner v p →
      Holds s lo hi (.boxed inner size align) (.boxed v) a
  | unit {a : ℕ} : Holds s lo hi .unit .unit a
  | none {discOff discSize noneDiscr payloadOff size : ℕ} {someDiscr : Option ℕ} {inner : Ty}
      {a : ℕ} :
      readNat s.mem (a + discOff) (storeWidth discSize) = some (discWord discSize noneDiscr) →
      Holds s lo hi (.opt discOff discSize noneDiscr someDiscr payloadOff size inner) .none a
  | some {discOff discSize noneDiscr payloadOff size : ℕ} {someDiscr : Option ℕ} {inner : Ty}
      {v : Val} {a : ℕ} :
      readNat s.mem (a + discOff) (storeWidth discSize) ≠ some (discWord discSize noneDiscr) →
      (∀ sd ∈ someDiscr,
        readNat s.mem (a + discOff) (storeWidth discSize) = some (discWord discSize sd)) →
      Holds s lo hi inner v (a + payloadOff) →
      Holds s lo hi (.opt discOff discSize noneDiscr someDiscr payloadOff size inner) (.some v) a
  | map {key val : Ty} {keySize valSize newAt insert a h : ℕ} {kvs : List (Bytes × Val)} :
      readPtr s.mem a = some h → lo ≤ h → h < hi →
      (s.maps h).map Prod.fst = kvs.map Prod.fst →
      (∀ n ∈ s.maps h, Between lo hi n.2 (val.span sz)) →
      (∀ (i : ℕ) (e : Bytes × Val) (n : Bytes × ℕ), kvs[i]? = some e → (s.maps h)[i]? = some n →
        Holds s lo hi val e.2 n.2) →
      Holds s lo hi (.map key keySize val valSize newAt insert) (.map kvs) a
  | ref {c : RecCell} {body : Ty} {v : Val} {a : ℕ} : cells c = some body →
      body.span sz ≤ (Ty.ref c).span sz → Holds s lo hi body v a → Holds s lo hi (.ref c) v a

end

/-! ## Moving a value -/

variable {cells : Cells} {sz : RecCell → Option ℕ}

/-- Between the states the heap from `lo` to `hi` has not changed. -/
structure Same (lo hi : ℕ) (s s' : State) : Prop where
  mem : ∀ x, lo ≤ x → x < hi → s'.mem x = s.mem x
  maps : ∀ h, lo ≤ h → h < hi → s'.maps h = s.maps h
  blocks : ∀ b ∈ s.blocks, lo ≤ b.base → b.base < hi → b ∈ s'.blocks

theorem Held.move {s s' : State} {lo hi lo' hi' p n align : ℕ} (h : Held s lo hi p n align)
    (hs : Same lo hi s s') (hlo : lo' ≤ lo) (hhi : hi ≤ hi') : Held s' lo' hi' p n align := by
  by_cases hn : n = 0
  · exact .inl hn
  · have ⟨h₁, h₂, h₃⟩ := h.resolve_left hn
    have hlt : p < hi := by omega
    exact .inr ⟨by omega, by omega, hs.blocks _ h₃ h₁ hlt⟩

theorem Between.readCells_eq {s s' : State} {lo hi p n : ℕ} (h : Between lo hi p n)
    (hs : Same lo hi s s') : readCells s'.mem p n = readCells s.mem p n := by
  apply readCells_congr
  intro i hi'
  have ⟨h₁, h₂⟩ := h.resolve_left (by omega)
  exact hs.mem _ (by omega) (by omega)

/-- A part of bytes that have moved. -/
theorem part_eq {m m' : Memory} {a a' n : ℕ} (hm : ∀ i < n, m' (a' + i) = m (a + i)) {off w : ℕ}
    (h : off + w ≤ n) : ∀ i < w, m' (a' + off + i) = m (a + off + i) := by
  intro i hi
  rw [Nat.add_assoc, Nat.add_assoc]
  apply hm
  omega

/-- A value keeps its meaning when its own bytes move to another place and the heap it points
to stays as it is. -/
theorem Holds.move {s s' : State} {lo hi lo' hi' : ℕ} {ty : Ty} {v : Val} {a a' : ℕ}
    (h : Holds cells sz s lo hi ty v a) (hs : Same lo hi s s') (hlo : lo' ≤ lo) (hhi : hi ≤ hi')
    (hm : ∀ i < ty.span sz, s'.mem (a' + i) = s.mem (a + i)) :
    Holds cells sz s' lo' hi' ty v a' := by
  induction h generalizing a' with
  | bool hb =>
    apply Holds.bool
    rw [← hb]
    exact hm 0 Nat.one_pos
  | u hlt hread =>
    apply Holds.u hlt
    rw [← hread]
    exact readNat_congr hm
  | i hlo' hhi' hread =>
    apply Holds.i hlo' hhi'
    rw [← hread]
    exact readNat_congr hm
  | @str seq bs a p hshort hptr hcap hlen hheld hbytes =>
    have hw : ∀ off, off + 8 ≤ max (max seq.ptrOff seq.capOff) seq.lenOff + 8 →
        ∀ i < 8, s'.mem (a' + off + i) = s.mem (a + off + i) := fun _ => part_eq hm
    refine Holds.str hshort ?_ ?_ ?_ (hheld.move hs hlo hhi) ?_
    · rw [← hptr]
      exact readPtr_congr (hw _ (by omega))
    · rw [← hcap]
      exact readNat_congr (hw _ (by omega))
    · rw [← hlen]
      exact readNat_congr (hw _ (by omega))
    · rw [hheld.between.readCells_eq hs, hbytes]
  | @strRef ptrOff lenOff a p bs hshort hptr hlen hheld hbytes =>
    have hw : ∀ off, off + 8 ≤ max ptrOff lenOff + 8 →
        ∀ i < 8, s'.mem (a' + off + i) = s.mem (a + off + i) := fun _ => part_eq hm
    refine Holds.strRef hshort ?_ ?_ (hheld.move hs hlo hhi) ?_
    · rw [← hptr]
      exact readPtr_congr (hw _ (by omega))
    · rw [← hlen]
      exact readNat_congr (hw _ (by omega))
    · rw [hheld.between.readCells_eq hs, hbytes]
  | @struct name fields vs a hlen _ ih =>
    apply Holds.struct hlen
    intro i f v hf hv
    apply ih i f v hf hv
    exact part_eq hm (Ty.le_fieldsSpan sz (List.mem_of_getElem? hf))
  | @tuple fields vs a hlen _ ih =>
    apply Holds.tuple hlen
    intro i f v hf hv
    apply ih i f v hf hv
    exact part_eq hm (Ty.le_fieldsSpan sz (List.mem_of_getElem? hf))
  | @vec elem size align seq vs a base cap hle hcap hptr hcapw hlenw hheld hin _ ih =>
    have hw : ∀ off, off + 8 ≤ max (max seq.ptrOff seq.capOff) seq.lenOff + 8 →
        ∀ i < 8, s'.mem (a' + off + i) = s.mem (a + off + i) := fun _ => part_eq hm
    refine Holds.vec hle hcap ?_ ?_ ?_ (hheld.move hs hlo hhi) hin ?_
    · rw [← hptr]
      exact readPtr_congr (hw _ (by omega))
    · rw [← hcapw]
      exact readNat_congr (hw _ (by omega))
    · rw [← hlenw]
      exact readNat_congr (hw _ (by omega))
    · intro i v hv
      apply ih i v hv
      intro j hj
      -- the elements lie in the buffer
      have hil : i < vs.length := (List.getElem?_eq_some_iff.1 hv).1
      have hfit := hin i hil
      have ⟨h₁, h₂⟩ := hheld.between.resolve_left (by omega)
      exact hs.mem _ (by omega) (by omega)
  | @boxed inner size align v a p hptr hspan hheld _ ih =>
    refine Holds.boxed ?_ hspan (hheld.move hs hlo hhi) ?_
    · rw [← hptr]
      exact readPtr_congr hm
    · apply ih
      intro i hi'
      have ⟨h₁, h₂⟩ := hheld.between.resolve_left (by omega)
      exact hs.mem _ (by omega) (by omega)
  | unit => exact Holds.unit
  | @none discOff discSize noneDiscr payloadOff size someDiscr inner a hdisc =>
    apply Holds.none
    rw [← hdisc]
    apply readNat_congr
    apply part_eq hm
    show _ ≤ max size (max (discOff + storeWidth discSize) (payloadOff + inner.span sz))
    omega
  | @some discOff discSize noneDiscr payloadOff size someDiscr inner v a hnot hsome _ ih =>
    have hdisc : readNat s'.mem (a' + discOff) (storeWidth discSize) =
        readNat s.mem (a + discOff) (storeWidth discSize) := by
      apply readNat_congr
      apply part_eq hm
      show _ ≤ max size (max (discOff + storeWidth discSize) (payloadOff + inner.span sz))
      omega
    refine Holds.some (hdisc ▸ hnot) (fun sd hsd => hdisc ▸ hsome sd hsd) ?_
    apply ih
    apply part_eq hm
    show _ ≤ max size (max (discOff + storeWidth discSize) (payloadOff + inner.span sz))
    omega
  | @map key val keySize valSize newAt insert a h kvs hptr hlo₁ hhi₁ hkeys hin _ ih =>
    have hmaps := hs.maps h hlo₁ hhi₁
    refine Holds.map (h := h) ?_ (by omega) (by omega) (hmaps ▸ hkeys) ?_ ?_
    · rw [← hptr]
      exact readPtr_congr fun i hi' => hm i (by show i < 24; omega)
    · intro n hn
      rw [hmaps] at hn
      exact (hin n hn).mono hlo hhi
    · intro i e n he hn
      rw [hmaps] at hn
      apply ih i e n he hn
      intro j hj
      have ⟨h₁, h₂⟩ := (hin n (List.mem_of_getElem? hn)).resolve_left (by omega)
      exact hs.mem _ (by omega) (by omega)
  | ref hc hspan _ ih =>
    apply Holds.ref hc hspan
    apply ih
    intro i hi'
    exact hm i (by omega)

/-! ## One value -/

/-- Numbers in the range of `n` bytes with the same bytes. -/
theorem twos_complement_inj {N : ℕ} {z z' : ℤ} (hlo : -(N : ℤ) ≤ 2 * z) (hhi : 2 * z < N)
    (hlo' : -(N : ℤ) ≤ 2 * z') (hhi' : 2 * z' < N)
    (h : (z % (N : ℤ)).toNat = (z' % (N : ℤ)).toNat) : z = z' := by
  have hpos : (0 : ℤ) < N := by omega
  have h₀ := Int.emod_nonneg z (Int.ne_of_gt hpos)
  have h₀' := Int.emod_nonneg z' (Int.ne_of_gt hpos)
  have hmod : z % (N : ℤ) = z' % (N : ℤ) := by omega
  have hdvd : (N : ℤ) ∣ z - z' :=
    Int.dvd_of_emod_eq_zero (Int.emod_eq_emod_iff_emod_sub_eq_zero.1 hmod)
  have hzero := Int.eq_zero_of_abs_lt_dvd hdvd (by rw [abs_lt]; omega)
  omega

/-- Lists that are equal place by place. -/
theorem list_ext {α : Type} {vs ws : List α} (hlen : vs.length = ws.length)
    (h : ∀ (i : ℕ) (v w : α), vs[i]? = some v → ws[i]? = some w → v = w) : vs = ws := by
  apply List.ext_getElem hlen
  intro i hi hi'
  exact h i _ _ (List.getElem?_eq_getElem hi) (List.getElem?_eq_getElem hi')

/-- Two lists of field values that agree at every field. -/
theorem fieldValues_ext {fields : List FieldTy} {vs ws : List Val}
    (hv : vs.length = fields.length) (hw : ws.length = fields.length)
    (h : ∀ (i : ℕ) (f : FieldTy) (v w : Val), fields[i]? = some f → vs[i]? = some v →
      ws[i]? = some w → v = w) : vs = ws := by
  apply list_ext (hv.trans hw.symm)
  intro i v w hvi hwi
  have hi := (List.getElem?_eq_some_iff.1 hvi).1
  exact h i _ v w (List.getElem?_eq_getElem (hv ▸ hi)) hvi hwi

/-- The bytes of a type hold one value. -/
theorem Holds.unique {s : State} {lo hi lo' hi' : ℕ} {ty : Ty} {v w : Val} {a : ℕ}
    (h : Holds cells sz s lo hi ty v a) (h' : Holds cells sz s lo' hi' ty w a) : v = w := by
  induction h generalizing w with
  | @bool b a hb =>
    cases h' with
    | @bool b' _ hb' =>
      have heq := hb.symm.trans hb'
      cases b <;> cases b' <;> first | rfl | exact absurd heq (by decide)
  | u _ hread =>
    cases h' with
    | u _ hread' => rw [Option.some.inj (hread.symm.trans hread')]
  | i hlo hhi hread =>
    cases h' with
    | i hlo' hhi' hread' =>
      rw [twos_complement_inj hlo hhi hlo' hhi' (Option.some.inj (hread.symm.trans hread'))]
  | str _ hptr _ hlen _ hbytes =>
    cases h' with
    | str _ hptr' _ hlen' _ hbytes' =>
      obtain rfl := Option.some.inj (hptr.symm.trans hptr')
      rw [Option.some.inj (hlen.symm.trans hlen')] at hbytes
      rw [ints_injective (hbytes.symm.trans hbytes')]
  | strRef _ hptr hlen _ hbytes =>
    cases h' with
    | strRef _ hptr' hlen' _ hbytes' =>
      obtain rfl := Option.some.inj (hptr.symm.trans hptr')
      rw [Option.some.inj (hlen.symm.trans hlen')] at hbytes
      rw [ints_injective (hbytes.symm.trans hbytes')]
  | @struct name fields vs a hlen _ ih =>
    cases h' with
    | struct hlen' hfields =>
      congr 1
      apply fieldValues_ext hlen hlen'
      exact fun i f v w hf hv hw => ih i f v hf hv (hfields i f w hf hw)
  | @tuple fields vs a hlen _ ih =>
    cases h' with
    | tuple hlen' hfields =>
      congr 1
      apply fieldValues_ext hlen hlen'
      exact fun i f v w hf hv hw => ih i f v hf hv (hfields i f w hf hw)
  | vec _ _ hptr _ hlen _ _ _ ih =>
    cases h' with
    | vec _ _ hptr' _ hlen' _ _ hitems =>
      obtain rfl := Option.some.inj (hptr.symm.trans hptr')
      congr 1
      apply list_ext (Option.some.inj (hlen.symm.trans hlen'))
      intro i v w hv hw
      exact ih i v hv (hitems i w hw)
  | boxed hptr _ _ _ ih =>
    cases h' with
    | boxed hptr' _ _ hinner =>
      obtain rfl := Option.some.inj (hptr.symm.trans hptr')
      rw [ih hinner]
  | unit =>
    cases h'
    rfl
  | none hread =>
    cases h' with
    | none _ => rfl
    | some hne _ _ => exact absurd hread hne
  | some hne _ _ ih =>
    cases h' with
    | none hread => exact absurd hread hne
    | some _ _ hinner => rw [ih hinner]
  | map hptr _ _ hkeys _ _ ih =>
    cases h' with
    | map hptr' _ _ hkeys' _ hvals =>
      obtain rfl := Option.some.inj (hptr.symm.trans hptr')
      have hlen := congrArg List.length hkeys
      have hlen' := congrArg List.length hkeys'
      simp only [List.length_map] at hlen hlen'
      congr 1
      apply list_ext (hlen.symm.trans hlen')
      -- both keys at one index come from the same entry of the stored map
      intro i e e' he he'
      have hi := (List.getElem?_eq_some_iff.1 he).1
      have hn := List.getElem?_eq_getElem (hlen.symm ▸ hi)
      have hkey := congrArg (fun l => l[i]?) (hkeys.symm.trans hkeys')
      simp only [List.getElem?_map, he, he', Option.map_some, Option.some.injEq] at hkey
      exact Prod.ext hkey (ih i e _ he hn (hvals i e' _ he' hn))
  | ref hc _ _ ih =>
    cases h' with
    | ref hc' _ hbody =>
      obtain rfl := Option.some.inj (hc.symm.trans hc')
      exact ih hbody

end Bilbo
