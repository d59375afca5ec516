import Bilbo.DieGraph
import Bilbo.Frames

/-!
# How many bytes a value takes, and how many are recorded

`Ty.extent` is one past the last byte that a binder stores for a value of a type, counted
from its destination. `classify` records sizes of inner types in `Vec`, `Box` and
`BTreeMap` types; it reads them from the entries, with defaults for a missing
`DW_AT_byte_size`. Where the stated sizes of a type's entries cover their parts, the recorded size
covers the extent unless the default stands for a pointer, or a base type is stored in more bytes
than it has.
-/

namespace Bilbo

open Base Calls Comp

/-! ## Extents -/

/-- One past the last byte of the three words of a `Vec`-like value. -/
def SeqLayout.extent (seq : SeqLayout) : ℕ := max (max seq.ptrOff seq.capOff) seq.lenOff + 8

/-- One past the last byte stored for a value of a type, looking at most `n` types deep.
Nothing is stored through an unset cell or for an unknown type. -/
def Ty.extent (cells : Cells) : ℕ → Ty → ℕ
  | 0, _ => 0
  | n + 1, ty =>
    match ty.deref cells with
    | none => 0
    | some .bool => 1
    | some .char => 4
    | some (.u k) => intExtent k
    | some (.i k) => intExtent k
    | some .f32 => 4
    | some .f64 => 8
    | some (.struct _ fields) =>
      (fields.map fun f => f.offset + Ty.extent cells n f.ty).foldr max 0
    | some (.tuple fields) => (fields.map fun f => f.offset + Ty.extent cells n f.ty).foldr max 0
    | some (.str seq) => seq.extent
    | some (.vec _ _ _ seq) => seq.extent
    | some (.strRef ptrOff lenOff) => max ptrOff lenOff + 8
    | some .unit => 0
    | some (.boxed ..) => 8
    | some (.opt discOff discSize _ _ payloadOff size inner) =>
      max size (max (discOff + intExtent discSize) (payloadOff + Ty.extent cells n inner))
    | some (.map ..) => 24
    | some (.ref _) => 0
    | some (.unknown _) => 0

/-! ## Layouts as compilers emit them -/

section Layout

variable (st : Store)

/-- The entry behind the aliases of a site. -/
def stripped (s : Site) : Option Site :=
  match strip st s with
  | .ret p => some p
  | _ => none

theorem stripped_eq_some {s p : Site} : stripped st s = some p ↔ strip st s = ret p := by
  rw [stripped]
  split
  · rename_i q hq
    rw [hq]
    simp
  · rename_i hne
    exact ⟨nofun, fun h => absurd h (hne p)⟩

/-- The size that an entry states, or that DWARF means when a pointer states none. -/
def declared (s : Site) : ℕ :=
  (udata st s .byteSize).getD (if tagAt st s = some .pointerType then 8 else 0)

/-- The name that `classify` sees. -/
def nameAt (s : Site) : String := (dieName st s).getD ""

/-- The bytes stored for a base type. -/
def baseExtent (s : Site) : ℕ := (baseType st s (nameAt st s)).extent (fun _ => none) 1

/-- The value of a body that has already returned. -/
def now {α : Type} : Body α → Option α
  | .ret a => some a
  | _ => none

theorem now_eq_some {α : Type} {x : Body α} {a : α} : now x = some a ↔ x = ret a := by
  cases x <;> simp [now]

/-- The `__0` of a payload struct, as `parse_option` finds it. -/
def payloadField (ps : Site) : Option Off :=
  (childrenWithTag st ps .member).find? fun c => dieName st (ps.1, c) == some "__0"

/-- Debug information without stubs in which, for the entries that the type of a site contains,
every stated size covers what lies inside. Base types may be stored in more bytes than they
have. -/
structure Consistent (s : Site) : Prop where
  stubFree : ∀ x ∈ st.sites, isStub st x = false
  pointer : ∀ key, Within st s key → tagAt st key = some .pointerType → 8 ≤ declared st key
  /-- transparent types are structs or unions around their parameter -/
  wrapper : ∀ x, Visits st s x → ∀ p ∈ stripped st x, isTransparent (nameAt st p) = true →
    tagAt st p ≠ some .pointerType ∧
      ∀ o ∈ templateParam st p, ∀ q ∈ stripped st (p.1, o), declared st q ≤ declared st p
  words : ∀ key, Within st s key →
    nameAt st key = "String" ∨ startsWith "Vec<" (nameAt st key) = true →
    ∀ seq ∈ now (seqLayout st key), seq.extent ≤ declared st key
  strRef : ∀ key, Within st s key → nameAt st key = "&str" →
    ∀ w ∈ now (strRefOffsets st key), max w.1 w.2 + 8 ≤ declared st key
  map : ∀ key, Within st s key → startsWith "BTreeMap<" (nameAt st key) = true →
    24 ≤ declared st key
  member : ∀ key, Within st s key → tagAt st key = some .structureType →
    ∀ m ∈ childrenWithTag st key .member, offsetOf st key.1 m ≤ declared st key ∧
      ∀ t ∈ typeRef st (key.1, m), ∀ p ∈ stripped st (key.1, t),
        offsetOf st key.1 m + declared st p ≤ declared st key
  discr : ∀ key, Within st s key → tagAt st key = some .structureType →
    ∀ vp ∈ childWithTag st key .variantPart, ∀ m ∈ discrMember st (key.1, vp),
      ∀ size ∈ now (discrSize st (key.1, m)),
        offsetOf st key.1 m + intExtent size ≤ declared st key
  payload : ∀ key, Within st s key → tagAt st key = some .structureType →
    ∀ vp ∈ childWithTag st key .variantPart, ∀ v ∈ childrenWithTag st (key.1, vp) .variant,
      ∀ pm ∈ childWithTag st (key.1, v) .member, ∀ t ∈ typeRef st (key.1, pm),
      ∀ ps ∈ stripped st (key.1, t), ∀ f0 ∈ payloadField st ps, ∀ t' ∈ typeRef st (ps.1, f0),
        offsetOf st key.1 pm + offsetOf st ps.1 f0 ≤ declared st key ∧
        ∀ p ∈ stripped st (ps.1, t'),
          offsetOf st key.1 pm + offsetOf st ps.1 f0 + declared st p ≤ declared st key

/-- A pointer to something that does not state its size. -/
def Bare (s : Site) : Prop :=
  tagAt st s = some .pointerType ∧ udata st s .byteSize = none ∧ typeRef st s ≠ none

end Layout

/-! ## Entries behind sites -/

variable {st : Store} {own : RecCell → Option Site} {full : RecCell → Option Ty} {h : Heap}
  {kept : List (Site × Ty)}

theorem strip_unit {s p : Site} (h : strip st s = ret p) : p.1 = s.1 := by
  have hgen (n : ℕ) : ∀ s : Site, stripAlong st n s = ret p → p.1 = s.1 := by
    induction n with
    | zero => exact fun _ h => nomatch h
    | succ n ih =>
      intro s h
      obtain ⟨t, -, h⟩ := bind_eq_ret h
      split at h
      · obtain ⟨-, h⟩ := (gives_typeRefM st s).bind_eq_ret h
        split at h
        · have hp := ih _ h
          exact hp
        · cases h
          rfl
      · cases h
        rfl
  exact hgen _ s h

theorem Consistent.defSite_eq {s : Site} (hc : Consistent st s) (x : Site) :
    defSite st x = x := by
  have hstub : isStub st x = false := by
    by_cases hx : x ∈ st.sites
    · exact hc.stubFree x hx
    · have htag : tagAt st x = none := by
        by_contra h
        exact hx (mem_store_sites h)
      rw [tagAt, Option.map_eq_none_iff] at htag
      rw [isStub, htag]
  rw [defSite, hstub]
  rfl

/-- Without stubs the head of `classify` is the stripped entry. -/
theorem Consistent.entry_of_resolves {s x key : Site} (hc : Consistent st s)
    (hx : Visits st s x) (hr : Resolves st x key) :
    ∃ p, strip st x = ret p ∧ declared st key ≤ declared st p ∧
      (isTransparent (nameAt st p) = false → key = p) := by
  induction hr with
  | entry h =>
    obtain ⟨p, hp, rfl, -⟩ := resolveSite_entry st h
    rw [hc.defSite_eq]
    exact ⟨p, hp, Nat.le_refl _, fun _ => rfl⟩
  | @wraps x inner key h _ ih =>
    obtain ⟨q, hq, hle, -⟩ := ih (hx.inner h)
    obtain ⟨p, o, hp, htr, ho, rfl⟩ := resolveSite_wraps st h
    rw [hc.defSite_eq] at htr ho hq
    have hw := (hc.wrapper x hx p ((stripped_eq_some st).2 hp) htr).2 o ho q
      ((stripped_eq_some st).2 hq)
    refine ⟨p, hp, hle.trans hw, fun hn => ?_⟩
    rw [nameAt, htr] at hn
    cases hn

theorem foldr_max_le {l : List ℕ} {n : ℕ} (h : ∀ x ∈ l, x ≤ n) : l.foldr max 0 ≤ n := by
  induction l with
  | nil => exact Nat.zero_le n
  | cons x l ih =>
    exact max_le (h x List.mem_cons_self) (ih fun y hy => h y (List.mem_cons_of_mem x hy))

theorem le_foldr_max {l : List ℕ} {n : ℕ} (h : n ∈ l) : n ≤ l.foldr max 0 := by
  induction l with
  | nil => cases h
  | cons x l ih =>
    rcases List.mem_cons.1 h with rfl | h
    · exact le_max_left _ _
    · exact (ih h).trans (le_max_right _ _)

/-- The entry's tag and body. -/
theorem entryBody_eq {key : Site} {t : DwTag} (ht : tagAt st key = some t) :
    entryBody st key = typeBody st key t (nameAt st key) := by
  rw [entryBody, tag, ht]
  rfl

/-- One step of the extent of a type that has been read through its cell. -/
theorem extent_deref {cells : Cells} {ty b : Ty} (hb : ty.deref cells = some b)
    (hbb : b.deref cells = some b) (n : ℕ) : ty.extent cells n = b.extent cells n := by
  cases n with
  | zero => rfl
  | succ n => rw [Ty.extent, Ty.extent, hb, hbb]

theorem extent_deref_none {cells : Cells} {ty : Ty} (hb : ty.deref cells = none) (n : ℕ) :
    ty.extent cells n = 0 := by
  cases n with
  | zero => rfl
  | succ n => rw [Ty.extent, hb]

theorem extent_unknown (cells : Cells) (w : String) (n : ℕ) :
    (Ty.unknown w).extent cells n = 0 := by
  cases n <;> rfl

/-! ## What lies inline in a type -/

/-- The parts of a type that are stored inside it, with their offsets. -/
def Ty.inline : Ty → List (ℕ × Ty)
  | .struct _ fields => fields.map fun f => (f.offset, f.ty)
  | .tuple fields => fields.map fun f => (f.offset, f.ty)
  | .opt _ _ _ _ payloadOff _ inner => [(payloadOff, inner)]
  | _ => []

/-- One past the last byte stored for a type beside its inline parts. -/
def Ty.ownExtent : Ty → ℕ
  | .struct .. => 0
  | .tuple _ => 0
  | .opt discOff discSize _ _ _ size _ => max size (discOff + intExtent discSize)
  | ty => ty.extent (fun _ => none) 1

theorem extent_succ {cells : Cells} {b : Ty} (hb : b.deref cells = some b) (n : ℕ) :
    b.extent cells (n + 1) =
      max b.ownExtent ((b.inline.map fun x => x.1 + x.2.extent cells n).foldr max 0) := by
  rw [Ty.extent, hb]
  cases b with
  | struct name fields =>
    rw [Ty.inline, List.map_map, Ty.ownExtent, Nat.zero_max]
    rfl
  | tuple fields =>
    rw [Ty.inline, List.map_map, Ty.ownExtent, Nat.zero_max]
    rfl
  | opt d ds nd sd po size inner =>
    simp only [Ty.inline, Ty.ownExtent, List.map_cons, List.map_nil, List.foldr_cons,
      List.foldr_nil, Nat.max_zero, max_assoc]
  | ref c => rfl
  | _ => exact (Nat.max_zero _).symm

/-- Types with the same top store the same beside their parts, and the parts at the same
offsets. -/
theorem Below.inline {S : Ty → Ty → Prop} {b b' : Ty} (h : Below S b b') :
    b.ownExtent = b'.ownExtent ∧
      List.Forall₂ (fun x y => x.1 = y.1 ∧ S x.2 y.2) b.inline b'.inline := by
  have hfields {fs fs' : List FieldTy} (hfs : List.Forall₂ (FieldRel S) fs fs') :
      List.Forall₂ (fun x y => x.1 = y.1 ∧ S x.2 y.2)
        (fs.map fun f => (f.offset, f.ty)) (fs'.map fun f => (f.offset, f.ty)) := by
    induction hfs with
    | nil => exact .nil
    | cons hf _ ih => exact .cons ⟨hf.offset, hf.ty⟩ ih
  cases h with
  | leaf hkids =>
    refine ⟨rfl, ?_⟩
    cases b with
    | struct name fields =>
      obtain rfl : fields = [] := List.map_eq_nil_iff.1 hkids
      exact .nil
    | tuple fields =>
      obtain rfl : fields = [] := List.map_eq_nil_iff.1 hkids
      exact .nil
    | opt => cases hkids
    | _ => exact .nil
  | struct hfs => exact ⟨rfl, hfields hfs⟩
  | tuple hfs => exact ⟨rfl, hfields hfs⟩
  | vec _ => exact ⟨rfl, .nil⟩
  | boxed _ => exact ⟨rfl, .nil⟩
  | opt hi => exact ⟨rfl, .cons ⟨rfl, hi⟩ .nil⟩
  | map _ _ => exact ⟨rfl, .nil⟩

theorem inline_kids {b : Ty} {x : ℕ × Ty} (hx : x ∈ b.inline) : x.2 ∈ b.kids := by
  cases b with
  | struct name fields =>
    obtain ⟨f, hf, rfl⟩ := List.mem_map.1 hx
    exact List.mem_map_of_mem hf
  | tuple fields =>
    obtain ⟨f, hf, rfl⟩ := List.mem_map.1 hx
    exact List.mem_map_of_mem hf
  | opt =>
    obtain rfl := List.mem_singleton.1 hx
    exact List.mem_cons_self
  | _ => exact absurd hx List.not_mem_nil

/-- The site that a type of a trial run stands for. -/
def siteOf (qs : List Site) : Ty → Option Site
  | .ref i => qs[i]?
  | _ => none

/-- The parts stored inside the type of an entry: the offset of each, and its site unless it is
a member without a type. -/
def parts (st : Store) (key : Site) : List (ℕ × Option Site) :=
  match (entryBody st key).trial Ty.ref [] with
  | some (b, qs) => b.inline.map fun x => (x.1, siteOf qs x.2)
  | none => []

/-- An entry that lies inside another, at an offset: the entry itself, or one inside a part. -/
inductive Places (st : Store) : Site → ℕ → Site → Prop
  | here {key : Site} : Places st key 0 key
  | part {key s' key' b : Site} {off o : ℕ} : (off, some s') ∈ parts st key →
      Resolves st s' key' → Places st key' o b → Places st key (off + o) b

/-- Every base type inside the type of a site is stored within the first `size` bytes. -/
def BasesFit (st : Store) (s : Site) (size : ℕ) : Prop :=
  ∀ key off b, Resolves st s key → Places st key off b → tagAt st b = some .baseType →
    off + baseExtent st b ≤ size

/-- A part of a body belongs to a part of its entry. -/
theorem mem_parts {R : Site → Ty → Prop} {key : Site} {b b' : Ty} {Q : List Site} {x : ℕ × Ty}
    (htrial : (entryBody st key).trial Ty.ref [] = some (b', Q)) (hbelow : Below (SamePart R Q) b b')
    (hx : x ∈ b.inline) :
    ∃ y ∈ b'.inline, x.1 = y.1 ∧ (x.2 = .unknown "?" ∨ ∃ s', R s' x.2 ∧ Asked Q s' y.2 ∧
      (x.1, some s') ∈ parts st key ∧ s' ∈ keptSites st key) := by
  obtain ⟨y, hy, heq, hpart⟩ : ∃ y ∈ b'.inline, x.1 = y.1 ∧ SamePart R Q x.2 y.2 := by
    have hall := hbelow.inline.2
    generalize b.inline = l, b'.inline = l' at hall hx
    induction hall with
    | nil => cases hx
    | @cons a a' l l' ha _ ih =>
      rcases List.mem_cons.1 hx with rfl | hx
      · exact ⟨a', List.mem_cons_self, ha⟩
      · obtain ⟨y, hy, h⟩ := ih hx
        exact ⟨y, List.mem_cons_of_mem a' hy, h⟩
  refine ⟨y, hy, heq, ?_⟩
  rcases hpart with ⟨s', hasked, hR⟩ | ⟨hx, -⟩
  · refine .inr ⟨s', hR, hasked, ?_⟩
    obtain ⟨i, hi, hQ⟩ := hasked
    rw [parts, keptSites, htrial]
    exact ⟨List.mem_map.2 ⟨y, hy, by rw [hi, siteOf, hQ, heq]⟩,
      List.mem_filterMap.2 ⟨y.2, inline_kids hy, by rw [hi]; exact hQ⟩⟩
  · exact .inl hx

/-- Every part of an entry with a site has a type in its body. -/
theorem inline_of_parts {R : Site → Ty → Prop} {key s' : Site} {b : Ty} {off : ℕ}
    (hy : Yields R (entryBody st key) b) (hmem : (off, some s') ∈ parts st key) :
    ∃ t, (off, t) ∈ b.inline ∧ R s' t := by
  obtain ⟨b', Q, htrial, -, hbelow⟩ := exists_trial hy
  rw [parts, htrial] at hmem
  obtain ⟨y, hy', hyx⟩ := List.mem_map.1 hmem
  obtain ⟨x, hx, heq, hpart⟩ : ∃ x ∈ b.inline, x.1 = y.1 ∧ SamePart R Q x.2 y.2 := by
    have hall := hbelow.inline.2
    clear hyx hmem
    generalize b.inline = l, b'.inline = l' at hall hy'
    induction hall with
    | nil => cases hy'
    | @cons a a' l l' ha _ ih =>
      rcases List.mem_cons.1 hy' with rfl | hy'
      · exact ⟨a, List.mem_cons_self, ha⟩
      · obtain ⟨x, hx, h⟩ := ih hy'
        exact ⟨x, List.mem_cons_of_mem a hx, h⟩
  obtain ⟨hoff, hsite⟩ := Prod.mk.inj hyx
  rcases hpart with ⟨s, ⟨i, hi, hQ⟩, hR⟩ | ⟨-, hunk⟩
  · rw [hi, siteOf, hQ] at hsite
    obtain rfl := Option.some.inj hsite
    refine ⟨x.2, ?_, hR⟩
    rw [← hoff, ← heq]
    exact hx
  · rw [hunk] at hsite
    cases hsite

/-! ## The extent of a classified type -/

section Body

variable {R : Site → Ty → Prop} {s key : Site} {b : Ty}

theorem byteSize_le_declared (s : Site) : (udata st s .byteSize).getD 0 ≤ declared st s := by
  rw [declared]
  cases udata st s .byteSize
  · exact Nat.zero_le _
  · exact Nat.le_refl _

/-- A part of a type inside an entry: it ends within the size of the entry. -/
def PartFits (st : Store) (R : Site → Ty → Prop) (key : Site) (x : ℕ × Ty) : Prop :=
  x.1 ≤ declared st key ∧ (x.2 = .unknown "?" ∨ ∃ t, R (key.1, t) x.2 ∧
    ∀ p, strip st (key.1, t) = ret p → x.1 + declared st p ≤ declared st key)

theorem fits_fields (hc : Consistent st s) (hw : Within st s key)
    (ht : tagAt st key = some .structureType) {fs gs : List FieldTy}
    (hfs : List.Forall₂ (FieldFrom st R key.1) (childrenWithTag st key .member) fs)
    (hgs : ∀ g ∈ gs, g ∈ fs) :
    ∀ x ∈ gs.map fun f => (f.offset, f.ty), PartFits st R key x := by
  intro x hx
  obtain ⟨f, hf, rfl⟩ := List.mem_map.1 hx
  obtain ⟨m, hm, -, hoff, hty⟩ := exists_member hfs (hgs f hf)
  obtain ⟨hle, hmember⟩ := hc.member key hw ht m hm
  unfold PartFits
  dsimp only
  rw [hoff]
  refine ⟨hle, ?_⟩
  rcases hty with ⟨t, hmt, hRt⟩ | ⟨-, hty⟩
  · exact .inr ⟨t, hRt, fun p hp => hmember t hmt p ((stripped_eq_some st).2 hp)⟩
  · exact .inl hty

theorem fits_structure (hc : Consistent st s) (hw : Within st s key)
    (ht : tagAt st key = some .structureType)
    (hy : Yields R (structure' st key (nameAt st key)) b) :
    b.ownExtent ≤ declared st key ∧ ∀ x ∈ b.inline, PartFits st R key x := by
  obtain ⟨hname, seq, hseq, rfl⟩ | ⟨hname, w, hstr, rfl⟩ | ⟨hname, hy⟩ | ⟨hname, hy⟩ |
    ⟨vp, hvp, hy⟩ | hy := yields_structure hy
  · exact ⟨hc.words key hw (.inl hname) seq (now_eq_some.2 hseq), nofun⟩
  · exact ⟨hc.strRef key hw hname w (now_eq_some.2 hstr), nofun⟩
  · obtain ⟨_, _, _, seq, _, _, _, hseq, rfl⟩ := yields_vecType hy
    exact ⟨hc.words key hw (.inr hname) seq (now_eq_some.2 hseq), nofun⟩
  · obtain ⟨_, _, _, _, _, _, _, _, _, _, _, _, _, _, rfl⟩ := yields_mapType hy
    exact ⟨hc.map key hw hname, nofun⟩
  · obtain rfl | ⟨m, size, nd, sd, po, inner, hd, hsize, harm, rfl⟩ := yields_parseOption hy
    · exact ⟨Nat.zero_le _, nofun⟩
    -- an option: the payload and the discriminant lie inside the entry
    · obtain ⟨v, hv, pm, pstruct, ps, f0, t, ha⟩ := harm _ rfl
      have hps := strip_unit ha.stripped
      have hf0 : payloadField st ps = some f0 := by
        rw [payloadField, hps]
        exact ha.field
      obtain ⟨hle, hpay⟩ := hc.payload key hw ht vp hvp v hv pm ha.member pstruct ha.payload ps
        ((stripped_eq_some st).2 ha.stripped) f0 hf0 t (by rw [hps]; exact ha.fieldTy)
      have hm : discrMember st (key.1, vp) = some m := by rw [discrMember, hd]
      have hdis := hc.discr key hw ht vp hvp m hm size (now_eq_some.2 hsize)
      have hoff : po = offsetOf st key.1 pm + offsetOf st ps.1 f0 := by
        rw [hps]
        exact ha.offset
      refine ⟨max_le (byteSize_le_declared key) hdis, fun x hx => ?_⟩
      obtain rfl := List.mem_singleton.1 hx
      refine ⟨hoff ▸ hle, .inr ⟨t, ha.answer, fun p hp => ?_⟩⟩
      dsimp only
      rw [hoff]
      exact hpay p (by rw [hps]; exact (stripped_eq_some st).2 hp)
  · obtain ⟨fs, hfs, rfl | rfl⟩ := yields_aggregate hy
    · exact ⟨Nat.zero_le _, fits_fields hc hw ht hfs fun g hg => (List.mem_insertionSort _).1 hg⟩
    · exact ⟨Nat.zero_le _, fits_fields hc hw ht hfs fun g hg => hg⟩

theorem ownExtent_baseType (s : Site) (name : String) :
    (baseType st s name).ownExtent = (baseType st s name).extent (fun _ => none) 1 := by
  unfold baseType
  dsimp only
  repeat' split
  all_goals rfl

theorem extent_baseType (cells : Cells) (s : Site) (name : String) (n : ℕ) :
    (baseType st s name).extent cells (n + 1) =
      (baseType st s name).extent (fun _ => none) 1 := by
  unfold baseType
  dsimp only
  repeat' split
  all_goals rfl

theorem inline_baseType (s : Site) (name : String) : (baseType st s name).inline = [] := by
  unfold baseType
  dsimp only
  repeat' split
  all_goals rfl

/-- A body fits the size of its entry: its parts do, and what it stores itself, which for a base
type is as much as the base type takes. -/
theorem fits_body (hc : Consistent st s) (hw : Within st s key)
    (hy : Yields R (entryBody st key) b) :
    (b.ownExtent ≤ declared st key ∨
      tagAt st key = some .baseType ∧ b.ownExtent = baseExtent st key) ∧
      ∀ x ∈ b.inline, PartFits st R key x := by
  obtain ⟨t, ht, hy⟩ := yields_bind.1 hy
  have ht := tag_eq_ret ((silent_tag (L := True) st key).eq_ret ht)
  unfold typeBody at hy
  split at hy
  · rw [yields_ret.1 hy, ownExtent_baseType, inline_baseType]
    exact ⟨.inr ⟨ht, rfl⟩, nofun⟩
  · obtain rfl | ⟨_, _, _, _, _, _, rfl⟩ := yields_boxed hy
    · exact ⟨.inl (Nat.zero_le _), nofun⟩
    · exact ⟨.inl (hc.pointer key hw ht), nofun⟩
  · obtain ⟨hown, hparts⟩ := fits_structure hc hw ht hy
    exact ⟨.inl hown, hparts⟩
  · rw [yields_ret.1 hy]
    exact ⟨.inl (Nat.zero_le _), nofun⟩
  · rw [yields_ret.1 hy]
    exact ⟨.inl (Nat.zero_le _), nofun⟩

end Body

/-- The extent of a classified type stays below a bound that covers the size of its entry and
the base types inside it. -/
theorem extent_le {s : Site} (hc : Consistent st s) (ht : Tied st own full h) (n : ℕ) :
    ∀ {d x key : _} {ty : Ty} {bound : ℕ}, Visits st s x → Typed st own d x ty →
      Resolves st x key → declared st key ≤ bound → BasesFit st x bound →
      ty.extent h.cells n ≤ bound := by
  induction n with
  | zero => exact fun _ _ _ _ _ => Nat.zero_le _
  | succ n ih =>
    intro d x key ty bound hx hty hkey hdecl hbases
    rcases hb : ty.deref h.cells with _ | b
    · rw [extent_deref_none hb]
      exact Nat.zero_le _
    -- the body is behind the reference, and one level less is left for its parts
    obtain ⟨key', m, hkey', hy⟩ := ht.body_of_deref hty hb
    obtain rfl := hkey.unique hkey'
    have hw := hx.within hkey
    obtain ⟨t, -, hy'⟩ := yields_bind.1 hy
    have hbb := deref_typeBody h.cells hy'
    rw [extent_deref hb hbb, extent_succ hbb]
    refine max_le ?_ (foldr_max_le fun e he => ?_)
    · rcases (fits_body hc hw hy).1 with hown | ⟨hbase, hown⟩
      · exact hown.trans hdecl
      · have hfit := hbases key' 0 key' hkey .here hbase
        rwa [hown, ← Nat.zero_add (baseExtent st key')]
    · obtain ⟨y, hyb, rfl⟩ := List.mem_map.1 he
      obtain ⟨b', Q, htrial, hasked, hbelow⟩ := exists_trial hy
      obtain ⟨z, hz, hoff, hpart⟩ := mem_parts htrial hbelow hyb
      obtain ⟨hle, hfits⟩ := (fits_body hc hw hasked).2 z hz
      rcases hpart with hunk | ⟨s', hR, ⟨i, hi, hQ⟩, hmem, hkept⟩
      · rw [hunk, extent_unknown, hoff]
        exact hle.trans hdecl
      -- the part fits into the entry, so what is left of the bound covers it
      · rcases hfits with hunk | ⟨t', ⟨j, hj, hQ'⟩, hfits⟩
        · rw [hi] at hunk
          cases hunk
        · rw [hi] at hj
          cases hj
          obtain rfl := Option.some.inj (hQ.symm.trans hQ')
          obtain ⟨key₁, hkey₁⟩ : ∃ key₁, Resolves st (key'.1, t') key₁ := by
            cases m with
            | zero => exact hR.elim
            | succ m =>
              obtain ⟨key₁, hkey₁, -⟩ := hR
              exact ⟨key₁, hkey₁⟩
          have hvisit := Visits.part hw hkept
          obtain ⟨p, hp, hdecl₁, -⟩ := hc.entry_of_resolves hvisit hkey₁
          have hle₁ := hfits p hp
          have hrest := @ih _ _ _ _ (bound - y.1) hvisit hR hkey₁ (by omega) ?_
          · omega
          · intro k off b₁ hk hplaces hbase
            have hfit := hbases key' (y.1 + off) b₁ hkey (.part hmem hk hplaces) hbase
            omega

/-- A base type inside a type is stored where it lies. -/
theorem exists_extent {key b : Site} {off : ℕ} (hc : Calm st kept own full h)
    {s : Site} {ty : Ty} (hmem : (s, ty) ∈ kept) (hplaces : Places st key off b)
    (hbase : tagAt st b = some .baseType) {m : ℕ} {node : Ty} (hin : Inside h.cells ty node)
    (hy : Yields (Typed st own m) (entryBody st key) node) :
    ∃ n, off + baseExtent st b ≤ node.extent h.cells n := by
  induction hplaces generalizing m node with
  | here =>
    rw [entryBody_eq hbase] at hy
    rw [yields_ret.1 hy, Nat.zero_add]
    exact ⟨1, (extent_baseType h.cells _ _ 0).ge⟩
  | @part key s' key' b off o hpart hkey' _ ih =>
    obtain ⟨t, ht, hR⟩ := inline_of_parts hy hpart
    have hkid := inline_kids ht
    obtain ⟨b', hb'⟩ := hc.deref_isSome hmem fun _ h => hin.reaches (refs_kids hkid h)
    obtain ⟨key'', m', hkey'', hy'⟩ := hc.tied.body_of_deref hR hb'
    rw [hkey'.unique hkey''] at hy'
    obtain ⟨n, hn⟩ := ih hbase (.kid hin hkid hb') hy'
    obtain ⟨_, -, hbody⟩ := yields_bind.1 hy
    obtain ⟨_, -, hbody'⟩ := yields_bind.1 hy'
    refine ⟨n + 1, ?_⟩
    rw [extent_succ (deref_typeBody h.cells hbody), Nat.add_assoc]
    refine le_trans ?_ (le_max_right _ _)
    refine le_trans ?_ (le_foldr_max (List.mem_map_of_mem ht))
    rw [extent_deref hb' (deref_typeBody h.cells hbody')]
    exact Nat.add_le_add_left hn off

/-! ## The recorded sizes -/

/-- The places where `classify` records the size of an inner type. -/
inductive Role where
  | elem
  | pointee
  | key
  | val
deriving DecidableEq

namespace Role

/-- The size recorded for an entry without `DW_AT_byte_size`. -/
def default : Role → ℕ
  | elem => 1
  | pointee => 0
  | key => 24
  | val => 1

/-- Whether an entry is a container with this role. -/
def Of (st : Store) (s : Site) : Role → Prop
  | elem => tagAt st s = some .structureType ∧ startsWith "Vec<" (nameAt st s) = true
  | pointee => tagAt st s = some .pointerType
  | key => tagAt st s = some .structureType ∧ startsWith "BTreeMap<" (nameAt st s) = true
  | val => tagAt st s = some .structureType ∧ startsWith "BTreeMap<" (nameAt st s) = true

/-- The reference of a container to the inner type. -/
def ref (st : Store) (s : Site) : Role → Option Off
  | elem => templateParam st s
  | pointee => typeRef st s
  | key => templateNamed st s "K"
  | val => templateNamed st s "V"

end Role

/-- A container with an inner type and the size it records for it. -/
inductive Records : Role → Ty → Ty → ℕ → Prop
  | elem {inner : Ty} {size align : ℕ} {seq : SeqLayout} :
      Records .elem (.vec inner size align seq) inner size
  | pointee {inner : Ty} {size align : ℕ} : Records .pointee (.boxed inner size align) inner size
  | key {inner val : Ty} {size vs na ins : ℕ} :
      Records .key (.map inner size val vs na ins) inner size
  | val {key inner : Ty} {ks size na ins : ℕ} :
      Records .val (.map key ks inner size na ins) inner size

theorem structure'_vec (st : Store) (s : Site) {name : String} (hn : startsWith "Vec<" name = true) :
    structure' st s name = vecType st s := by
  have hstring : name ≠ "String" := by
    rintro rfl
    exact absurd hn (by decide)
  have hstr : name ≠ "&str" := by
    rintro rfl
    exact absurd hn (by decide)
  rw [structure', if_neg hstring, if_neg hstr, if_pos hn]

theorem structure'_map (st : Store) (s : Site) {name : String}
    (hn : startsWith "BTreeMap<" name = true) : structure' st s name = mapType st s := by
  have hstring : name ≠ "String" := by
    rintro rfl
    exact absurd hn (by decide)
  have hstr : name ≠ "&str" := by
    rintro rfl
    exact absurd hn (by decide)
  have hvec : ¬ startsWith "Vec<" name = true := by
    intro hv
    rw [startsWith, List.isPrefixOf_iff_prefix] at hn hv
    obtain ⟨l, hl⟩ := hn
    obtain ⟨l', hl'⟩ := hv
    rw [← hl] at hl'
    have htake := congrArg (·.take 4) hl'
    simp at htake
  rw [structure', if_neg hstring, if_neg hstr, if_neg hvec, if_pos hn]

theorem Records.mem_kids {role : Role} {node inner : Ty} {size : ℕ}
    (h : Records role node inner size) : inner ∈ node.kids := by
  cases h <;> simp [Ty.kids]

section Recorded

variable {R : Site → Ty → Prop} {key : Site} {role : Role} {node inner : Ty} {size : ℕ}

/-- A recorded size is the size attribute of the stripped inner entry, or the default. -/
theorem recorded_of_yields (hy : Yields R (entryBody st key) node)
    (hrec : Records role node inner size) :
    role.Of st key ∧ ∃ o e, role.ref st key = some o ∧ R (key.1, o) inner ∧
      strip st (key.1, o) = ret e ∧ size = (udata st e .byteSize).getD role.default := by
  obtain ⟨t, ht, hy⟩ := yields_bind.1 hy
  have ht := tag_eq_ret ((silent_tag (L := True) st key).eq_ret ht)
  unfold typeBody at hy
  split at hy
  · rw [yields_ret.1 hy] at hrec
    have := hrec.mem_kids
    rw [kids_baseType] at this
    cases this
  · obtain rfl | ⟨o, inner, e, ho, hR, he, rfl⟩ := yields_boxed hy
    · cases hrec
    · cases hrec
      exact ⟨ht, o, e, ho, hR, he, rfl⟩
  -- of the structures only `Vec` and `BTreeMap` record a size
  · obtain ⟨-, seq, -, rfl⟩ | ⟨-, _, -, rfl⟩ | ⟨hn, hy⟩ | ⟨hn, hy⟩ | ⟨vp, -, hy⟩ | hy :=
      yields_structure hy
    · cases hrec
    · cases hrec
    · obtain ⟨o, inner, e, seq, ho, hR, he, -, rfl⟩ := yields_vecType hy
      cases hrec
      exact ⟨⟨ht, hn⟩, o, e, ho, hR, he, rfl⟩
    · obtain ⟨k, v, kty, vty, ks, vs, na, ins, hk, hv, hRk, hRv, hks, hvs, rfl⟩ :=
        yields_mapType hy
      cases hrec with
      | key => exact ⟨⟨ht, hn⟩, k, ks, hk, hRk, hks, rfl⟩
      | val => exact ⟨⟨ht, hn⟩, v, vs, hv, hRv, hvs, rfl⟩
    · obtain rfl | ⟨_, _, _, _, _, _, -, -, -, rfl⟩ := yields_parseOption hy <;> cases hrec
    · obtain ⟨fs, -, rfl | rfl⟩ := yields_aggregate hy <;> cases hrec
  · rw [yields_ret.1 hy] at hrec
    cases hrec
  · rw [yields_ret.1 hy] at hrec
    cases hrec

/-- An entry with a role has a body that records a size for it. -/
theorem records_of_role (hrole : role.Of st key) {o : Off} (ho : role.ref st key = some o)
    (hy : Yields R (entryBody st key) node) : ∃ inner size, Records role node inner size := by
  obtain ⟨t, ht, hy⟩ := yields_bind.1 hy
  have ht := tag_eq_ret ((silent_tag (L := True) st key).eq_ret ht)
  have hstruct (htag : tagAt st key = some .structureType) :
      Yields R (structure' st key (nameAt st key)) node := by
    rw [htag] at ht
    cases ht
    exact hy
  have hmap (hn : startsWith "BTreeMap<" (nameAt st key) = true)
      (htag : tagAt st key = some .structureType) : Yields R (mapType st key) node := by
    rw [← structure'_map st key hn]
    exact hstruct htag
  -- the tag and the name of the role leave one branch of `structure`
  cases role with
  | elem =>
    obtain ⟨_, _, _, _, _, _, _, _, rfl⟩ := yields_vecType
      (by rw [← structure'_vec st key hrole.2]; exact hstruct hrole.1)
    exact ⟨_, _, .elem⟩
  | pointee =>
    have hrole : tagAt st key = some .pointerType := hrole
    rw [hrole] at ht
    cases ht
    have ho : typeRef st key = some o := ho
    have hy : Yields R (boxed st key (nameAt st key)) node := hy
    obtain ⟨-, hy⟩ := (gives_typeRefM st key).yields_bind hy
    rw [ho] at hy
    obtain ⟨inner, -, hy⟩ := yields_ask.1 hy
    obtain ⟨p, -, hy⟩ := yields_bind.1 hy
    rw [yields_ret.1 hy]
    exact ⟨_, _, .pointee⟩
  | key =>
    obtain ⟨_, _, _, _, _, _, _, _, _, _, _, _, _, _, rfl⟩ := yields_mapType (hmap hrole.2 hrole.1)
    exact ⟨_, _, .key⟩
  | val =>
    obtain ⟨_, _, _, _, _, _, _, _, _, _, _, _, _, _, rfl⟩ := yields_mapType (hmap hrole.2 hrole.1)
    exact ⟨_, _, .val⟩

end Recorded

/-- A pointer to something is a box, any other pointer is unknown. -/
theorem body_of_pointer {s : Site} (hc : Consistent st s) (ht : Tied st own full h) {n : ℕ}
    {x e : Site} {ty b : Ty} (hx : Visits st s x) (hty : Typed st own n x ty)
    (he : strip st x = ret e) (htag : tagAt st e = some .pointerType)
    (hb : ty.deref h.cells = some b) :
    (typeRef st e = none ∧ ∃ w, b = .unknown w) ∨
      typeRef st e ≠ none ∧ ∃ inner size align, b = .boxed inner size align := by
  obtain ⟨key, m, hkey, hy⟩ := ht.body_of_deref hty hb
  obtain ⟨p, hp, -, hkeyp⟩ := hc.entry_of_resolves hx hkey
  rw [he] at hp
  cases hp
  have hplain : isTransparent (nameAt st e) = false := by
    rw [Bool.eq_false_iff]
    intro htr
    exact (hc.wrapper x hx e ((stripped_eq_some st).2 he) htr).1 htag
  obtain rfl := hkeyp hplain
  rw [entryBody_eq htag, typeBody] at hy
  obtain ⟨-, hy⟩ := (gives_typeRefM st key).yields_bind hy
  rcases href : typeRef st key with _ | o
  · rw [href] at hy
    exact .inl ⟨rfl, _, yields_ret.1 hy⟩
  · rw [href] at hy
    obtain ⟨inner, -, hy⟩ := yields_ask.1 hy
    obtain ⟨q, -, hy⟩ := yields_bind.1 hy
    exact .inr ⟨Option.some_ne_none o, _, _, _, yields_ret.1 hy⟩

/-- The inner type of a container with a role is one of the types kept. -/
theorem visits_of_records {s : Site} (hw : Within st s key) {R : Site → Ty → Prop} {node : Ty}
    (hy : Yields R (entryBody st key) node) {role : Role} {o : Off} {inner : Ty} {size : ℕ}
    (ho : role.ref st key = some o) (hrec : Records role node inner size) :
    Visits st s (key.1, o) := by
  obtain ⟨b', Q, htrial, hasked, hbelow⟩ := exists_trial hy
  obtain ⟨inner', size', hrec'⟩ : ∃ inner' size', Records role b' inner' size' :=
    records_of_role (recorded_of_yields hy hrec).1 ho hasked
  obtain ⟨-, o', e', ho', ⟨i, rfl, hQ⟩, -⟩ := recorded_of_yields hasked hrec'
  rw [ho] at ho'
  cases ho'
  refine .part hw ?_
  rw [keptSites, htrial]
  exact List.mem_filterMap.2 ⟨_, hrec'.mem_kids, hQ⟩

/-- Where the stated sizes of its entries cover their parts, the recorded sizes inside a
classified type cover the extents of the inner types exactly when no element, pointee or map value
that it contains is a pointer without `DW_AT_byte_size`, and no base type inside an element, a
pointee, a key or a value is stored beyond the recorded size. -/
theorem sizes_cover_iff {s : Site} (hc : Consistent st s) (hr : Reachable st kept h) {ty : Ty}
    (hmem : (s, ty) ∈ kept) :
    (∀ role node inner size, Inside h.cells ty node → Records role node inner size →
      ∀ n, inner.extent h.cells n ≤ size) ↔
    ∀ (key : Site) (role : Role) (o : Off) (e : Site), Within st s key → role.Of st key →
      role.ref st key = some o → strip st (key.1, o) = ret e → (Bare st e → role = .key) ∧
        BasesFit st (key.1, o) ((udata st e .byteSize).getD role.default) := by
  obtain ⟨own, full, hcalm⟩ := hr.calm
  constructor
  · intro hcover key role o e hw hrole ho he
    obtain ⟨node, n, hin, hy⟩ := hcalm.inside_of_entry hmem hw
    obtain ⟨inner, size, hrec⟩ := records_of_role hrole ho hy
    obtain ⟨-, o', e', ho', hR, he', hsize⟩ := recorded_of_yields hy hrec
    rw [ho] at ho'
    cases ho'
    rw [he] at he'
    cases he'
    obtain ⟨b, hb⟩ := hcalm.deref_isSome hmem fun _ h => hin.reaches (refs_kids hrec.mem_kids h)
    refine ⟨fun hbare => ?_, fun k off c hk hplaces hbase => ?_⟩
    · obtain ⟨href, -⟩ | ⟨-, i, sz, al, rfl⟩ :=
        body_of_pointer hc hcalm.tied (visits_of_records hw hy ho hrec) hR he hbare.1 hb
      · exact absurd href hbare.2.2
      have hle := hcover role node inner size hin hrec 1
      have hext : inner.extent h.cells 1 = 8 := by rw [Ty.extent, hb]
      rw [hext, hsize, hbare.2.1, Option.getD_none] at hle
      cases role with
      | key => rfl
      | elem => exact absurd hle (by decide)
      | pointee => exact absurd hle (by decide)
      | val => exact absurd hle (by decide)
    -- a base type inside the inner type takes part in its extent
    · obtain ⟨k', m, hk', hy'⟩ := hcalm.tied.body_of_deref hR hb
      rw [hk.unique hk'] at hy'
      obtain ⟨n, hn⟩ := exists_extent hcalm hmem hplaces hbase
        (.kid hin hrec.mem_kids hb) hy'
      obtain ⟨_, -, hbody⟩ := yields_bind.1 hy'
      rw [← extent_deref hb (deref_typeBody h.cells hbody)] at hn
      rw [← hsize]
      exact hn.trans (hcover role node inner size hin hrec n)
  · intro hcond role node inner size hin hrec n
    rcases hcalm.entry_of_inside hmem hin with rfl | ⟨key, m, hw, hy⟩
    · cases hrec
    obtain ⟨hrole, o, e, ho, hR, he, rfl⟩ := recorded_of_yields hy hrec
    obtain ⟨hbare, hbases⟩ := hcond key role o e hw hrole ho he
    have hvisit := visits_of_records hw hy ho hrec
    rcases hb : inner.deref h.cells with _ | b
    · rw [extent_deref_none hb]
      exact Nat.zero_le _
    obtain ⟨k, m', hk, -⟩ := hcalm.tied.body_of_deref hR hb
    obtain ⟨p, hp, hle, -⟩ := hc.entry_of_resolves hvisit hk
    rw [he] at hp
    cases hp
    -- the recorded size is the stated one, except where a pointer states none
    by_cases hnothing : tagAt st e = some .pointerType ∧ typeRef st e = none
    · obtain ⟨-, w, rfl⟩ | ⟨href, -⟩ := body_of_pointer hc hcalm.tied hvisit hR he hnothing.1 hb
      · rw [extent_deref hb rfl, extent_unknown]
        exact Nat.zero_le _
      · exact absurd hnothing.2 href
    · refine extent_le hc hcalm.tied n hvisit hR hk (hle.trans ?_) hbases
      rw [declared]
      rcases hsize : udata st e .byteSize with _ | size
      · by_cases htag : tagAt st e = some .pointerType
        · obtain rfl := hbare ⟨htag, hsize, fun href => hnothing ⟨htag, href⟩⟩
          rw [if_pos htag]
          decide
        · rw [if_neg htag]
          exact Nat.zero_le _
      · exact Nat.le_refl _

/-! ## A vector of boxes -/

/-- `Vec<Box<u64>>`, with pointers that do not state their size. -/
def vecBoxStore : Store :=
  ⟨[⟨.plain 0 (.other 0x11) [] [
    .plain 1 .structureType [(.name, .string "Vec<Box<u64>>"), (.byteSize, .udata 24)] [
      .plain 2 .templateTypeParameter [(.name, .string "T"), (.type, .unitRef 6)] [],
      .plain 3 .member [(.name, .string "cap"), (.type, .unitRef 8),
        (.dataMemberLocation, .udata 0)] [],
      .plain 4 .member [(.name, .string "ptr"), (.type, .unitRef 7),
        (.dataMemberLocation, .udata 8)] [],
      .plain 5 .member [(.name, .string "len"), (.type, .unitRef 8),
        (.dataMemberLocation, .udata 16)] []],
    .plain 6 .pointerType [(.name, .string "Box<u64>"), (.type, .unitRef 8)] [],
    .plain 7 .pointerType [(.type, .unitRef 6)] [],
    u64Die 8]⟩], 0⟩

theorem vecBoxStore_consistent (s : Site) : Consistent vecBoxStore s := by
  have hentry {key : Site} (hw : Within vecBoxStore s key) : key ∈ vecBoxStore.sites :=
    mem_store_sites hw.tagAt_ne
  exact {
    stubFree := by decide
    pointer := fun key hw => (by decide : ∀ x ∈ vecBoxStore.sites,
      tagAt vecBoxStore x = some .pointerType → 8 ≤ declared vecBoxStore x) key (hentry hw)
    wrapper := fun x _ p hp htr => by
      have hmem := mem_store_sites (strip_spec ((stripped_eq_some vecBoxStore).1 hp)).2.2.1
      exact absurd htr ((by decide : ∀ x ∈ vecBoxStore.sites,
        ¬ isTransparent (nameAt vecBoxStore x) = true) p hmem)
    words := fun key hw => (by decide : ∀ x ∈ vecBoxStore.sites,
      nameAt vecBoxStore x = "String" ∨ startsWith "Vec<" (nameAt vecBoxStore x) = true →
        ∀ seq ∈ now (seqLayout vecBoxStore x), seq.extent ≤ declared vecBoxStore x) key (hentry hw)
    strRef := fun key hw hn => absurd hn ((by decide : ∀ x ∈ vecBoxStore.sites,
      nameAt vecBoxStore x ≠ "&str") key (hentry hw))
    map := fun key hw hn => absurd hn ((by decide : ∀ x ∈ vecBoxStore.sites,
      ¬ startsWith "BTreeMap<" (nameAt vecBoxStore x) = true) key (hentry hw))
    member := fun key hw => (by decide : ∀ x ∈ vecBoxStore.sites,
      tagAt vecBoxStore x = some .structureType → ∀ m ∈ childrenWithTag vecBoxStore x .member,
        offsetOf vecBoxStore x.1 m ≤ declared vecBoxStore x ∧
        ∀ t ∈ typeRef vecBoxStore (x.1, m), ∀ p ∈ stripped vecBoxStore (x.1, t),
          offsetOf vecBoxStore x.1 m + declared vecBoxStore p ≤ declared vecBoxStore x)
      key (hentry hw)
    discr := fun key hw _ vp hvp => absurd hvp ((by decide : ∀ x ∈ vecBoxStore.sites,
      ∀ vp, vp ∉ childWithTag vecBoxStore x .variantPart) key (hentry hw) vp)
    payload := fun key hw _ vp hvp => absurd hvp ((by decide : ∀ x ∈ vecBoxStore.sites,
      ∀ vp, vp ∉ childWithTag vecBoxStore x .variantPart) key (hentry hw) vp) }

/-- The elements of the vector are recorded with 1 byte and take 8. -/
theorem vecBoxStore_overlaps :
    Consistent vecBoxStore (0, 1) ∧
      ∃ h elem align seq, Reachable vecBoxStore [((0, 1), .vec elem 1 align seq)] h ∧
        elem.extent h.cells 1 = 8 :=
  ⟨vecBoxStore_consistent _, _, _, _, _, Reachable.initial.call (d := 4) (s := (0, 1)) rfl, rfl⟩

theorem sizes_cover_iff_vecBox :
    ∃ (h : Heap) (ty : Ty),
      (∀ role node inner size, Inside h.cells ty node → Records role node inner size →
        ∀ n, inner.extent h.cells n ≤ size) ↔
      ∀ (key : Site) (role : Role) (o : Off) (e : Site), Within vecBoxStore (0, 1) key →
        role.Of vecBoxStore key → role.ref vecBoxStore key = some o →
        strip vecBoxStore (key.1, o) = ret e → (Bare vecBoxStore e → role = .key) ∧
          BasesFit vecBoxStore (key.1, o)
            ((udata vecBoxStore e .byteSize).getD role.default) :=
  ⟨_, _, sizes_cover_iff (vecBoxStore_consistent _)
    (Reachable.initial.call (d := 4) (s := (0, 1)) rfl) List.mem_cons_self⟩

end Bilbo
