import Bilbo.Extent
import Bilbo.Fields
import Bilbo.OptionBytes

/-!
# Absent keys of options

Both binders store `None` for a field whose key is absent when the type of the field is an
option. They look at the type itself: behind a `Ref`, the same option goes unnoticed. Which
of the two a field gets is decided by the memo of `classify`: it hands out a reference when
the option is in flight, that is, when classifying it led to the struct.
-/

namespace Bilbo

open Base Calls Comp

/-! ## Structs with an option -/

/-- Among the `k` bytes of a struct, those of its option `f` lie apart from those of the other
fields. -/
structure OptField (sz : RecCell → Option ℕ) (fields : List FieldTy) (size : FieldTy → ℕ)
    (f : FieldTy) (l : OptLayout) (k : ℕ) : Prop where
  names : (fields.map FieldOf.name).Nodup
  inside : f.offset + l.size ≤ k
  fits : ∀ g ∈ fields, g ≠ f → g.ty.Fits sz (size g)
  within : ∀ g ∈ fields, g ≠ f → g.offset + size g ≤ k
  apart : ∀ g ∈ fields, g ≠ f → Apart g.offset (size g) f.offset l.size

/-- From every state with room for the struct the binder returns `a`, with `None` in the field. -/
def StoresNone {α : Type} (l : OptLayout) (off k : ℕ) (x : ℕ → ℕ → ℕ → M α) (a : α) : Prop :=
  ∀ dst s, Room s dst k → ∃ s', Runs (x dst) s a s' ∧ l.NoneAt (dst + off) s'.mem

/-- The emitted parser takes the text wherever there is room for the value. -/
def TakesText (env : Env) (inp : Input) (ty : Ty) (k : ℕ) (t : Bytes) : Prop :=
  ∀ c dst s tail, inp.rest c = t ++ tail → Delim tail → Room s dst k →
    ∃ s', Runs (fun n d => parse env inp n d ty dst c) s (c + t.length) s'

/-- An object without the key of `f`, with values for the other fields that the emitted parser
takes. -/
structure TextWithout (env : Env) (inp : Input) (fields : List FieldTy) (size : FieldTy → ℕ)
    (f : FieldTy) (w : Bytes) (members : List Member) : Prop where
  spaced : Spaced w members
  keys : ∀ m ∈ members, RawBody m.key
  absent : ∀ m ∈ members, m.key ≠ f.key
  known : ∀ m ∈ members, ∀ g ∈ fields, g.key = m.key → TakesText env inp g.ty (size g) m.value
  unknown : ∀ m ∈ members, (∀ g ∈ fields, g.key ≠ m.key) → ∃ n < 2 ^ 31, NestedJson n m.value

/-- A value without the key of `f`, which the interpreter takes for the other fields. -/
structure JsonWithout (env : Env) (fields : List FieldTy) (size : FieldTy → ℕ) (f : FieldTy)
    (val : Json) : Prop where
  absent : val.get f.key = none
  known : ∀ g ∈ fields, g ≠ f → ∀ dst s, Room s (dst + g.offset) (size g) →
    ∃ s', Runs (fun _ d => runField env dst val d g) s () s'

section

variable {env : Env} {sz : RecCell → Option ℕ} {inp : Input} {fields : List FieldTy}
  {size : FieldTy → ℕ} {f : FieldTy} {l : OptLayout} {inner : Ty} {k dst : ℕ} {s₀ s s' : State}

theorem OptLayout.NoneAt.congr {m m' : Memory} (h : l.NoneAt dst m)
    (hm : ∀ i < l.size, m' (dst + i) = m (dst + i)) : l.NoneAt dst m' := by
  have hdisc := l.disc
  constructor
  · rw [← h.disc]
    apply readNat_congr
    intro i hi
    rw [Nat.add_assoc]
    exact hm (l.discOff + i) (by omega)
  · intro i hi hout
    rw [hm i hi]
    exact h.zeros i hi hout

/-- Since `s₀` everything in use is still in use, and the bytes of the option are those of `m`. -/
structure KeepsOpt (l : OptLayout) (s₀ : State) (m : Memory) (a : ℕ) (s : State) : Prop where
  brk : s₀.brk ≤ s.brk
  mem : ∀ i < l.size, s.mem (a + i) = m (a + i)

/-- Another field's value does not touch the option. -/
theorem KeepsOpt.other {m : Memory} {g : FieldTy} (hfield : OptField sz fields size f l k)
    (hroom : Room s₀ dst k) (h : KeepsOpt l s₀ m (dst + f.offset) s) (hg : g ∈ fields) (hne : g ≠ f)
    (hconf : Confined s s' (dst + g.offset) (size g)) : KeepsOpt l s₀ m (dst + f.offset) s' := by
  have hinside := hfield.inside
  have hapart := hfield.apart g hg hne
  have hbrk := h.brk
  have hbrk' := hconf.brk
  refine ⟨by omega, fun i hi => ?_⟩
  rw [hconf.mem (dst + f.offset + i), h.mem i hi]
  · unfold Room at hroom
    omega
  · by_cases hzero : size g = 0
    · omega
    · unfold Apart at hapart
      omega

/-! ## A pass over the fields -/

/-- A pass over other fields does not touch the option. -/
theorem passOthers_runs {x : ℕ → ℕ → FieldTy → M Unit} {m : Memory}
    (hfield : OptField sz fields size f l k) (hroom : Room s₀ dst k) (hstays : ∀ g ∈ fields, g ≠ f →
      ∀ n d, Stays (x n d g) (dst + g.offset) (size g))
    (hruns : ∀ g ∈ fields, g ≠ f → ∀ s, s₀.brk ≤ s.brk → ∃ s', Runs (fun n d => x n d g) s () s')
    {gs : List FieldTy} (hgs : ∀ g ∈ gs, g ∈ fields ∧ g ≠ f)
    (h : KeepsOpt l s₀ m (dst + f.offset) s) :
    ∃ s', Runs (fun n d => gs.forM (x n d)) s () s' ∧ KeepsOpt l s₀ m (dst + f.offset) s' := by
  induction gs generalizing s with
  | nil => exact ⟨s, Runs.pure _ _, h⟩
  | cons g gs ih =>
    obtain ⟨hg, hne⟩ := hgs g List.mem_cons_self
    obtain ⟨s₁, hrun⟩ := hruns g hg hne s h.brk
    have h₁ := h.other hfield hroom hg hne (confined_of_runs (hstays g hg hne) hrun)
    obtain ⟨s', hrest, h'⟩ := ih (fun g hg => hgs g (List.mem_cons_of_mem _ hg)) h₁
    exact ⟨s', hrun.bind hrest, h'⟩

/-- A pass over fields with the option among them leaves there what its own step puts there. -/
theorem pass_runs {x : ℕ → ℕ → FieldTy → M Unit} (hfield : OptField sz fields size f l k)
    (hroom : Room s₀ dst k)
    (hstays : ∀ g ∈ fields, g ≠ f → ∀ n d, Stays (x n d g) (dst + g.offset) (size g))
    (hruns : ∀ g ∈ fields, g ≠ f → ∀ s, s₀.brk ≤ s.brk → ∃ s', Runs (fun n d => x n d g) s () s')
    {P : Memory → Prop} (hself : ∀ s, KeepsOpt l s₀ s₀.mem (dst + f.offset) s →
      ∃ s', Runs (fun n d => x n d f) s () s' ∧ s.brk ≤ s'.brk ∧ P s'.mem)
    {gs : List FieldTy} (hgs : ∀ g ∈ gs, g ∈ fields) (hnodup : gs.Nodup) (hf : f ∈ gs)
    (h : KeepsOpt l s₀ s₀.mem (dst + f.offset) s) :
    ∃ (s₁ s' : State), Runs (fun n d => gs.forM (x n d)) s () s' ∧ P s₁.mem ∧
      KeepsOpt l s₀ s₁.mem (dst + f.offset) s' := by
  induction gs generalizing s with
  | nil => cases hf
  | cons g gs ih =>
    obtain ⟨hnotin, hnodup⟩ := List.nodup_cons.1 hnodup
    have hg := hgs g List.mem_cons_self
    have hgs : ∀ g ∈ gs, g ∈ fields := fun g hg => hgs g (List.mem_cons_of_mem _ hg)
    by_cases hgf : g = f
    · -- the option itself, and only other fields behind it
      subst hgf
      obtain ⟨s₁, hrun, hbrk, hP⟩ := hself s h
      obtain ⟨s', hrest, h'⟩ := passOthers_runs hfield hroom hstays hruns
        (fun g' hg' => ⟨hgs g' hg', fun heq => hnotin (heq ▸ hg')⟩)
        (⟨h.brk.trans hbrk, fun _ _ => rfl⟩ : KeepsOpt l s₀ s₁.mem (dst + g.offset) s₁)
      exact ⟨s₁, s', hrun.bind hrest, hP, h'⟩
    · obtain ⟨s₁, hrun⟩ := hruns g hg hgf s h.brk
      have h₁ := h.other hfield hroom hg hgf (confined_of_runs (hstays g hg hgf) hrun)
      obtain ⟨s₂, s', hrest, hP, h'⟩ :=
        ih hgs hnodup ((List.mem_cons.1 hf).resolve_left (Ne.symm hgf)) h₁
      exact ⟨s₂, s', hrun.bind hrest, hP, h'⟩

/-- A pass over all fields. -/
theorem passFields_runs {x : ℕ → ℕ → FieldTy → M Unit} (hfield : OptField sz fields size f l k)
    (hf : f ∈ fields) (hroom : Room s₀ dst k)
    (hstays : ∀ g ∈ fields, g ≠ f → ∀ n d, Stays (x n d g) (dst + g.offset) (size g))
    (hruns : ∀ g ∈ fields, g ≠ f → ∀ s, s₀.brk ≤ s.brk → ∃ s', Runs (fun n d => x n d g) s () s')
    {P : Memory → Prop} (hself : ∀ s, KeepsOpt l s₀ s₀.mem (dst + f.offset) s →
      ∃ s', Runs (fun n d => x n d f) s () s' ∧ s.brk ≤ s'.brk ∧ P s'.mem) :
    ∃ (s₁ s' : State), Runs (fun n d => fields.forM (x n d)) s₀ () s' ∧ P s₁.mem ∧
      KeepsOpt l s₀ s₁.mem (dst + f.offset) s' :=
  pass_runs hfield hroom hstays hruns hself (fun _ hg => hg) (List.Nodup.of_map _ hfield.names) hf
    ⟨Nat.le_refl _, fun _ _ => rfl⟩

/-! ## The emitted parser -/

/-- A default is always stored. -/
theorem defaultNone_returns {g : FieldTy} {n : ℕ} (hfits : g.ty.Fits sz n) (dst : ℕ) (s : State) :
    ∃ s', (defaultNone dst g).run s = (.done (), s') := by
  obtain ⟨name, off, ty⟩ := g
  cases hfits with
  | opt hsize _ _ _ _ _ => exact ⟨_, bind_done (memset0_run hsize _ _)⟩
  | _ => exact ⟨s, rfl⟩

/-- A member with another key does not touch the option. -/
theorem parseMember_keeps {m : Member} {members : List Member} {w r : Bytes} {mem : Memory} {ks : StrSpan}
    {c : ℕ} (hcells : CellsFit env.cells sz) (hfield : OptField sz fields size f l k)
    (hroom : Room s₀ dst k) (hobj : TextWithout env inp fields size f w members) (hm : m ∈ members)
    (h : KeepsOpt l s₀ mem (dst + f.offset) s) (hin : ks.start + ks.len ≤ inp.stop)
    (hname : inp.span ks.start ks.len = m.key) (hrest : inp.rest c = m.value ++ r) (hr : Delim r) :
    ∃ s', Runs (fun n d => parseMember inp (parse env inp n d) fields dst ks c) s
      (c + m.value.length) s' ∧ KeepsOpt l s₀ mem (dst + f.offset) s' := by
  unfold parseMember
  rw [dispatch_fst hin]
  cases hfind : fields.find? (named inp ks.start ks.len) with
  | some g =>
    have hg := List.mem_of_find?_eq_some hfind
    have hkey : g.key = m.key := by
      rw [← hname]
      exact named_iff.1 (List.find?_some hfind)
    have hne : g ≠ f := by
      rintro rfl
      exact hobj.absent m hm hkey.symm
    obtain ⟨s', hrun⟩ := hobj.known m hm g hg hkey c (dst + g.offset) s r hrest hr
      ((hroom.part (hfield.within g hg hne)).mono h.brk)
    have hconf := confined_of_runs
      (fun n d => parse_stays hcells inp n d (hfield.fits g hg hne) (dst + g.offset) c) hrun
    exact ⟨s', hrun, h.other hfield hroom hg hne hconf⟩
  | none =>
    have hkey : ∀ g ∈ fields, g.key ≠ m.key := by
      intro g hg heq
      rw [← hname] at heq
      exact List.find?_eq_none.1 hfind g hg (named_iff.2 heq)
    obtain ⟨n, hn, hjson⟩ := hobj.unknown m hm hkey
    refine ⟨s, ?_, h⟩
    rw [← rtSkip_nested hjson hn hrest hr]
    exact Runs.pure _ _

/-- On an object without the key of the option, what the default pass leaves there stays. -/
theorem parse_without (name : String) {w w' tail : Bytes} {members : List Member} {c : ℕ}
    (hcells : CellsFit env.cells sz) (hfield : OptField sz fields size f l k) (hf : f ∈ fields)
    (hw : IsWs w) (hobj : TextWithout env inp fields size f w' members)
    (hrest : inp.rest c = (w ++ Ascii.lbrace :: objectText w' members) ++ tail)
    (hroom : Room s₀ dst k) {P : Memory → Prop}
    (hself : ∀ s, KeepsOpt l s₀ s₀.mem (dst + f.offset) s →
      ∃ s', (defaultNone dst f).run s = (.done (), s') ∧ s.brk ≤ s'.brk ∧ P s'.mem) :
    ∃ (s₁ s' : State), Runs (fun n d => parse env inp n d (.struct name fields) dst c) s₀
        (c + (w ++ Ascii.lbrace :: objectText w' members).length) s' ∧
      P s₁.mem ∧ KeepsOpt l s₀ s₁.mem (dst + f.offset) s' := by
  obtain ⟨s₁, s₂, hpass, hP, hkeeps⟩ := passFields_runs (x := fun _ _ => defaultNone dst) hfield hf hroom
    (fun g hg hne _ _ => stays_defaultNone (hfield.fits g hg hne) dst)
    (fun g hg hne s _ => (defaultNone_returns (hfield.fits g hg hne) dst s).imp fun _ => Runs.of_eq)
    fun s hs => (hself s hs).imp fun _ h => h.imp_left Runs.of_eq
  obtain ⟨N, hN⟩ := hpass
  obtain ⟨s', hrun, hkeeps'⟩ := parseStruct_keeps
    (J := fun _ s' => KeepsOpt l s₀ s₁.mem (dst + f.offset) s') (fun _ _ _ h => ⟨h.brk, h.mem⟩) name hw
    hobj.spaced hobj.keys
    (fun m hm _ s ks c r h hin hname hrest hr =>
      parseMember_keeps hcells hfield hroom hobj hm h hin hname hrest hr)
    hrest (hN N (Nat.le_refl N) N (Nat.le_refl N)) hkeeps
  exact ⟨s₁, s', hrun, hP, hkeeps'⟩

/-- The emitted parser stores `None` for a field that is itself the option. -/
theorem parse_storesNone (name : String) {w w' tail : Bytes} {members : List Member} {c : ℕ}
    (hcells : CellsFit env.cells sz) (hfield : OptField sz fields size f l k) (hf : f ∈ fields)
    (hw : IsWs w) (hobj : TextWithout env inp fields size f w' members)
    (hrest : inp.rest c = (w ++ Ascii.lbrace :: objectText w' members) ++ tail)
    (hty : f.ty = l.ty inner) :
    StoresNone l f.offset k (fun dst n d => parse env inp n d (.struct name fields) dst c)
      (c + (w ++ Ascii.lbrace :: objectText w' members).length) := by
  intro dst s₀ hroom
  obtain ⟨s₁, s', hrun, hnone, hkeeps⟩ := parse_without (P := l.NoneAt (dst + f.offset)) name hcells
    hfield hf hw hobj hrest hroom fun s _ =>
      ⟨_, OptLayout.default_run hty rfl s, Nat.le_refl _, l.noneMem_at _ _⟩
  exact ⟨s', hrun, hnone.congr hkeeps.mem⟩

theorem readNat_ptr {m : Memory} {a n p i : ℕ} (hn : n ≠ 0) (h : m a = .ptr p i) :
    readNat m a n = none := by
  cases n with
  | zero => exact absurd rfl hn
  | succ n =>
    rw [readNat, readCells, h]
    rfl

/-- It leaves any other field as it is. -/
theorem not_parse_storesNone (name : String) {w w' tail : Bytes} {members : List Member} {c : ℕ}
    (hcells : CellsFit env.cells sz) (hfield : OptField sz fields size f l k) (hf : f ∈ fields)
    (hw : IsWs w) (hobj : TextWithout env inp fields size f w' members)
    (hrest : inp.rest c = (w ++ Ascii.lbrace :: objectText w' members) ++ tail)
    (hopt : f.ty.isOpt = false) :
    ¬ StoresNone l f.offset k (fun dst n d => parse env inp n d (.struct name fields) dst c)
      (c + (w ++ Ascii.lbrace :: objectText w' members).length) := by
  intro h
  -- a memory whose cells are none of a number's
  let s₀ : State := { State.initial k with mem := fun _ => .ptr 0 0 }
  have hroom : Room s₀ 0 k := .inr (Nat.le_of_eq (Nat.zero_add k))
  have hskip : ∀ s, (defaultNone 0 f).run s = (.done (), s) := by
    obtain ⟨name, off, ty⟩ := f
    cases ty with
    | opt => cases hopt
    | _ => exact fun _ => rfl
  obtain ⟨s', hrun, hnone⟩ := h 0 s₀ hroom
  obtain ⟨s₁, s₂, hrun₂, hmem, hkeeps⟩ := parse_without
    (P := fun m => ∀ i < l.size, m (0 + f.offset + i) = .ptr 0 0) name hcells hfield hf hw hobj hrest
    hroom fun s hs => ⟨s, hskip s, Nat.le_refl _, hs.mem⟩
  obtain ⟨-, rfl⟩ := hrun.unique hrun₂
  have hwidth := l.width
  have hdisc := l.disc
  unfold IntSize at hwidth
  have hcell : s'.mem (0 + f.offset + l.discOff) = .ptr 0 0 := by
    rw [hkeeps.mem l.discOff (by omega), hmem l.discOff (by omega)]
  have hread := hnone.disc
  rw [readNat_ptr (by omega) hcell] at hread
  cases hread

/-! ## The interpreter -/

/-- The interpreter stores `None` for a field that is itself the option. -/
theorem run_storesNone (name : String) {val : Json} (hcells : CellsFit env.cells sz)
    (hfield : OptField sz fields size f l k) (hf : f ∈ fields)
    (hval : JsonWithout env fields size f val) (hty : f.ty = l.ty inner) :
    StoresNone l f.offset k (fun dst _ d => run env d dst (.struct name fields) val) () := by
  intro dst s₀ hroom
  obtain ⟨s₁, s', hrun, hnone, hkeeps⟩ := passFields_runs (x := fun _ d => runField env dst val d)
    (P := l.NoneAt (dst + f.offset)) hfield hf hroom
    (fun g hg hne _ d => runField_stays hcells (hfield.fits g hg hne) dst val d)
    (fun g hg hne s hbrk =>
      hval.known g hg hne dst s ((hroom.part (hfield.within g hg hne)).mono hbrk))
    (fun s _ => by
      refine ⟨{ s with mem := l.noneMem (dst + f.offset) s.mem }, ?_, Nat.le_refl _,
        l.noneMem_at _ _⟩
      simp only [runField, hval.absent, hty]
      exact OptLayout.run_null_runs s)
  exact ⟨s', Runs.call (fun _ _ => rfl) hrun, hnone.congr hkeeps.mem⟩

/-- Without a key for a field that is not itself an option, `run` never returns. -/
theorem run_absent_stops {env : Env} {name : String} {fields : List FieldTy} {val : Json}
    {f : FieldTy} (hf : f ∈ fields) (hval : val.get f.key = none) (hopt : f.ty.isOpt = false)
    (d dst : ℕ) (s s' : State) :
    (run env d dst (.struct name fields) val).run s ≠ (.done (), s') := by
  intro hrun
  cases d with
  | zero => cases hrun
  | succ d =>
    rw [run_struct] at hrun
    induction fields generalizing s with
    | nil => cases hf
    | cons g fields ih =>
      obtain ⟨_, s₁, hg, hrun⟩ := bind_eq_done hrun
      rcases List.mem_cons.1 hf with rfl | hf
      · simp only [runField, hval, hopt] at hg
        cases hg
      · exact ih hf s₁ hrun

end

/-! ## What `classify` returns for an entry -/

variable {st : Store}

/-- The answers that the body of an entry gets when `classify` enters it in the heap `h`: what
`classify` returns in heaps in which the entry is in flight as well. -/
def AnswerIn (st : Store) (h : Heap) (key : Site) (k : Site) (t : Ty) : Prop :=
  ∃ d h₁ h₂, h₁.memo = (key, h.fresh) :: h.memo ∧ (classify st d k).run h₁ = (.done t, h₂)

/-- For an entry in flight `classify` returns a reference, for any other its body. -/
theorem classify_of_resolves {s key : Site} (hr : Resolves st s key) {d : ℕ} {h h' : Heap} {ty : Ty}
    (hrun : (classify st d s).run h = (.done ty, h')) :
    (∃ c, h.memo.lookup key = some c ∧ ty = .ref c) ∨
      h.memo.lookup key = none ∧ Yields (AnswerIn st h key) (entryBody st key) ty := by
  induction hr generalizing d with
  | @entry s key t name hr =>
    cases d with
    | zero => cases hrun
    | succ d =>
      rcases hc : h.memo.lookup key with _ | c
      · rw [classify_new hr hc] at hrun
        rcases hx : ((entryBody st key).exec (classify st d) dropTy).run (h.launch key) with
          ⟨body | _ | _ | _, h₁⟩ <;> rw [hx] at hrun
        case done =>
          cases hrun
          refine .inr ⟨rfl, ?_⟩
          -- what is asked while the body runs finds the memo with the new entry
          have hyields := yields_of_exec_keeping
            (I := fun h₁ : Heap => h₁.memo = (key, h.fresh) :: h.memo)
            (fun k h₁ hm => (memo_classify d k h₁).trans hm)
            (fun t h₁ hm => (memo_releaseAll _ _ h₁).trans hm) rfl hx
          refine hyields.mono fun k t hk => ?_
          obtain ⟨h₁, h₂, hm, hk⟩ := hk
          exact ⟨d, h₁, h₂, hm, hk⟩
        all_goals cases hrun
      · rw [classify_inFlight hr hc] at hrun
        cases hrun
        exact .inl ⟨c, rfl, rfl⟩
  | @wraps s inner key hr _ ih =>
    cases d with
    | zero => cases hrun
    | succ d =>
      rw [classify_wraps hr] at hrun
      exact ih hrun

/-- Two results of one body have the same top. -/
theorem below_of_yields {R R' : Site → Ty → Prop} {key : Site} {a b : Ty}
    (ha : Yields R (entryBody st key) a) (hb : Yields R' (entryBody st key) b) :
    Below (fun _ _ => True) a b :=
  (natural_entryBody (S := fun _ _ => True) trivial key).yields
    (fun _ _ _ _ _ _ _ => trivial) ha hb

/-- The fields of a struct stand for the members of its entry, in order. -/
theorem fields_of_struct {R : Site → Ty → Prop} {key : Site} {name : String}
    {fields : List FieldTy} (hy : Yields R (entryBody st key) (.struct name fields)) :
    List.Forall₂ (FieldFrom st R key.1) (childrenWithTag st key .member) fields := by
  obtain ⟨t, -, hy⟩ := yields_bind.1 hy
  unfold typeBody at hy
  split at hy
  -- only an aggregate ends in a struct
  · have hbase := yields_ret.1 hy
    unfold baseType at hbase
    dsimp only at hbase
    repeat' split at hbase
    all_goals cases hbase
  · obtain h | ⟨_, _, _, _, _, _, h⟩ := yields_boxed hy <;> cases h
  · obtain ⟨-, _, -, h⟩ | ⟨-, _, -, h⟩ | ⟨-, hy⟩ | ⟨-, hy⟩ | ⟨_, -, hy⟩ | hy :=
      yields_structure hy
    · cases h
    · cases h
    · obtain ⟨_, _, _, _, _, _, _, _, h⟩ := yields_vecType hy
      cases h
    · obtain ⟨_, _, _, _, _, _, _, _, _, _, _, _, _, _, h⟩ := yields_mapType hy
      cases h
    · obtain h | ⟨_, _, _, _, _, _, -, -, -, h⟩ := yields_parseOption hy <;> cases h
    · obtain ⟨fs, hfs, h | h⟩ := yields_aggregate hy
      · cases h
      · cases h
        exact hfs
  · cases yields_ret.1 hy
  · cases yields_ret.1 hy

/-- What both binders store for `None` does not depend on the payload type. -/
theorem ty_of_below {S : Ty → Ty → Prop} {l : OptLayout} {inner ty : Ty} (h : Below S ty (l.ty inner)) :
    ∃ inner', ty = l.ty inner' := by
  unfold OptLayout.ty at h
  cases h with
  | leaf _ => exact ⟨inner, rfl⟩
  | opt _ => exact ⟨_, rfl⟩

/-- A struct that `classify` returns, with a member whose type is an option: the field is that option,
or a reference when the option is in flight at the call. -/
theorem optField_of_classify {d : ℕ} {s : Site} {h h' : Heap} {name : String} {fields : List FieldTy}
    (hrun : (classify st d s).run h = (.done (.struct name fields), h')) {key : Site}
    (hkey : Resolves st s key) {m : Off} {f : FieldTy}
    (hmf : (m, f) ∈ (childrenWithTag st key .member).zip fields) {o : Off}
    (ho : typeRef st (key.1, m) = some o) {optKey : Site} (hopt : Resolves st (key.1, o) optKey)
    {R : Site → Ty → Prop} {l : OptLayout} {inner : Ty}
    (hy : Yields R (entryBody st optKey) (l.ty inner)) :
    (∃ c, h.memo.lookup optKey = some c ∧ f.ty = .ref c) ∨
      h.memo.lookup optKey = none ∧ ∃ inner', f.ty = l.ty inner' := by
  obtain ⟨c, -, hc⟩ | ⟨-, hbody⟩ := classify_of_resolves hkey hrun
  · cases hc
  have hne : optKey ≠ key := by
    rintro rfl
    cases below_of_yields hbody hy
  have hfrom := (List.forall₂_iff_zip.1 (fields_of_struct hbody)).2 hmf
  obtain ⟨o', ho', d', h₁, h₂, hmemo, hf⟩ : ∃ o', typeRef st (key.1, m) = some o' ∧
      AnswerIn st h key (key.1, o') f.ty := by
    rcases hfrom.ty with h | ⟨hnone, -⟩
    · exact h
    · rw [ho] at hnone
      cases hnone
  rw [ho] at ho'
  cases ho'
  have hlookup : h₁.memo.lookup optKey = h.memo.lookup optKey := by
    rw [hmemo, List.lookup_cons, beq_eq_false_iff_ne.2 hne]
  rw [← hlookup]
  obtain ⟨c, hc, hty⟩ | ⟨hc, hyf⟩ := classify_of_resolves hopt hf
  · exact .inl ⟨c, hc, hty⟩
  · exact .inr ⟨hc, ty_of_below (below_of_yields hyf hy)⟩

/-- For a struct that `classify` returns, and an object without the key of a field whose type is an
option, each binder returns with `None` in the field exactly when the option is not in flight at the
call: classifying it has not led to the struct. -/
theorem absent_option_iff (st : Store) (d : ℕ) (s : Site) (h h' : Heap) (name : String)
    (fields : List FieldTy) (hrun : (classify st d s).run h = (.done (.struct name fields), h'))
    (key : Site) (hkey : Resolves st s key) (m : Off) (f : FieldTy)
    (hmf : (m, f) ∈ (childrenWithTag st key .member).zip fields) (o : Off)
    (ho : typeRef st (key.1, m) = some o) (optKey : Site) (hopt : Resolves st (key.1, o) optKey)
    (R : Site → Ty → Prop) (l : OptLayout) (inner : Ty)
    (hy : Yields R (entryBody st optKey) (l.ty inner)) (env : Env) (sz : RecCell → Option ℕ)
    (hcells : CellsFit env.cells sz) (size : FieldTy → ℕ) (k : ℕ)
    (hfield : OptField sz fields size f l k) :
    (∀ (inp : Input) (c : ℕ) (w w' tail : Bytes) (members : List Member), IsWs w →
      TextWithout env inp fields size f w' members →
      inp.rest c = (w ++ Ascii.lbrace :: objectText w' members) ++ tail →
      (StoresNone l f.offset k (fun dst n d => parse env inp n d (.struct name fields) dst c)
        (c + (w ++ Ascii.lbrace :: objectText w' members).length) ↔
          h.memo.lookup optKey = none)) ∧
    ∀ val : Json, JsonWithout env fields size f val →
      (StoresNone l f.offset k (fun dst _ d => run env d dst (.struct name fields) val) () ↔
        h.memo.lookup optKey = none) := by
  have hf := (List.of_mem_zip hmf).2
  obtain ⟨cell, hc, hty⟩ | ⟨hc, inner', hty⟩ := optField_of_classify hrun hkey hmf ho hopt hy
  · -- the option is in flight, and the field refers to its cell
    rw [hc]
    have hisOpt : f.ty.isOpt = false := by rw [hty]; rfl
    refine ⟨fun inp c w w' tail members hw hobj hrest => iff_of_false ?_ nofun,
      fun val hval => iff_of_false (fun hstores => ?_) nofun⟩
    · exact not_parse_storesNone name hcells hfield hf hw hobj hrest hisOpt
    · obtain ⟨s', ⟨N, hN⟩, -⟩ := hstores 0 (State.initial k) (.inr (Nat.le_of_eq (Nat.zero_add k)))
      exact run_absent_stops hf hval.absent hisOpt N 0 _ s' (hN N (Nat.le_refl N) N (Nat.le_refl N))
  · refine ⟨fun inp c w w' tail members hw hobj hrest => iff_of_true ?_ hc,
      fun val hval => iff_of_true ?_ hc⟩
    · exact parse_storesNone name hcells hfield hf hw hobj hrest hty
    · exact run_storesNone name hcells hfield hf hval hty

/-- `{"val":1}` -/
def valOne : Json := .object [(utf8 "val", .num [0x31])]

/-- The text of `valOne`. -/
def valOneText : Input :=
  ⟨[0x7B, 0x22, 0x76, 0x61, 0x6C, 0x22, 0x3A, 0x31, 0x7D], fun _ => 0, by decide⟩

/-- The fields of a `Node` that is classified first. -/
def nodeFields : List FieldTy :=
  [⟨"val", 0, .u 8⟩, ⟨"next", 8, nodeOpt.ty (.boxed (.ref 0) 16 16)⟩]

/-- The `next` of such a `Node` is `None` for `{"val":1}`. -/
theorem absent_option_iff_node :
    ∃ h, (classify nodeStore 20 (0, 1)).run .initial = (.done (.struct "Node" nodeFields), h) ∧
      StoresNone nodeOpt 8 16 (fun dst n d => parse { Env.bare with cells := h.cells } valOneText n d
        (.struct "Node" nodeFields) dst 0) 9 ∧
      StoresNone nodeOpt 8 16 (fun dst _ d => run { Env.bare with cells := h.cells } d dst
        (.struct "Node" nodeFields) valOne) () := by
  have hnext : Resolves nodeStore (0, 4) (0, 4) := .entry rfl
  obtain ⟨inner, h₁, hopt⟩ : ∃ inner h₁,
      (classify nodeStore 20 (0, 4)).run .initial = (.done (nodeOpt.ty inner), h₁) := ⟨_, _, rfl⟩
  obtain ⟨c, hc, -⟩ | ⟨-, hy⟩ := classify_of_resolves hnext hopt
  · cases hc
  have hval : ∀ g ∈ nodeFields, g ≠ ⟨"next", 8, nodeOpt.ty (.boxed (.ref 0) 16 16)⟩ →
      g = ⟨"val", 0, .u 8⟩ := by
    intro g hg hne
    rcases List.mem_cons.1 hg with rfl | hg
    · rfl
    · exact absurd (List.mem_singleton.1 hg) hne
  have hfield : OptField (fun _ => none) nodeFields (fun _ => 8)
      ⟨"next", 8, nodeOpt.ty (.boxed (.ref 0) 16 16)⟩ nodeOpt 16 := by
    refine ⟨by decide, by decide, fun g hg hne => ?_, fun g hg hne => ?_, fun g hg hne => ?_⟩
    · rw [hval g hg hne]
      exact .u (by decide)
    · rw [hval g hg hne]
      decide
    · rw [hval g hg hne]
      exact .inr (.inr (.inl (by decide)))
  have hone : Digits [0x31] := Digits.single rfl
  have hnum : ∀ env, TakesText env valOneText (.u 8) 8 [0x31] := by
    intro env c dst s tail hrest htail hroom
    have hparses : ParsesTo env (fun _ => none) valOneText (.u 8) _ ([] ++ [0x31]) :=
      parsesTo_u (.inr (.inr (.inr rfl))) IsWs.nil hone (by decide)
    obtain ⟨s', hrun, -⟩ := hparses hrest htail hroom
    exact ⟨s', hrun⟩
  refine ⟨_, rfl, ?_⟩
  obtain ⟨hjit, hinterp⟩ := absent_option_iff nodeStore 20 (0, 1) .initial _ "Node" nodeFields rfl (0, 1)
    (.entry rfl) 3 ⟨"next", 8, nodeOpt.ty (.boxed (.ref 0) 16 16)⟩
    (List.mem_cons_of_mem _ List.mem_cons_self) 4 rfl (0, 4) hnext _ nodeOpt inner hy _ (fun _ => none)
    nofun (fun _ => 8) 16 hfield
  constructor
  · refine (hjit valOneText 0 [] [] [] [⟨[], utf8 "val", [], [0x31], []⟩] IsWs.nil
      ⟨⟨IsWs.nil, List.forall_mem_singleton.2 IsWs.nil, List.forall_mem_singleton.2 IsWs.nil,
        ⟨[], IsWs.nil, .inl rfl⟩, .inl rfl, trivial⟩, List.forall_mem_singleton.2 ?_,
        List.forall_mem_singleton.2 (by decide), List.forall_mem_singleton.2 fun g hg hkey => ?_,
        List.forall_mem_singleton.2 fun hno => ?_⟩ rfl).2 rfl
    · exact PlainKey.rawBody ⟨by decide, by decide⟩
    · have hne : g ≠ ⟨"next", 8, nodeOpt.ty (.boxed (.ref 0) 16 16)⟩ := by
        rintro rfl
        revert hkey
        decide
      rw [hval g hg hne]
      exact hnum _
    · exact absurd rfl (hno _ List.mem_cons_self)
  · refine (hinterp valOne ⟨rfl, fun g hg hne dst s hroom => ?_⟩).2 rfl
    rw [hval g hg hne] at hroom ⊢
    obtain ⟨s', hrun, -⟩ := @interprets_u _ (fun _ => none) 8 [0x31] (.inr (.inr (.inr rfl))) hone
      (by decide) dst s hroom
    exact ⟨s', hrun⟩

/-- The type of the list, when `Option<Box<Node>>` is classified first. -/
def nodeOptTy : Ty :=
  .opt 0 8 0 none 0 8 (.boxed (.struct "Node" [⟨"val", 0, .u 8⟩, ⟨"next", 8, .ref 0⟩]) 16 16)

/-- A process whose free memory is not clear. -/
def usedMemory : State := { State.initial 64 with mem := fun _ => .int 0xFF }

/-- Classified from its option, the list has a reference for `next`. On `{"val":1}` the
interpreter panics; the emitted parser returns with the `next` of the new node, at address
72, as it found it, where the `None` of the option is 0. -/
theorem absent_next :
    ∃ h, (classify nodeStore 20 (0, 4)).run .initial = (.done nodeOptTy, h) ∧
      h.cells 0 = some nodeOptTy ∧
      ∀ tramps float,
        ((run ⟨h.cells, tramps, float⟩ 9 0 nodeOptTy valOne).run usedMemory).1 =
            .stop (.panic "JSON missing key") ∧
          ((parse ⟨h.cells, tramps, float⟩ valOneText 20 9 nodeOptTy 0 0).run usedMemory).1 =
            .done 9 ∧
          readPtr ((parse ⟨h.cells, tramps, float⟩ valOneText 20 9 nodeOptTy 0 0).run
            usedMemory).2.mem 0 = some 64 ∧
          readNat ((parse ⟨h.cells, tramps, float⟩ valOneText 20 9 nodeOptTy 0 0).run
            usedMemory).2.mem 72 8 = some (2 ^ 64 - 1) := by
  refine ⟨_, rfl, rfl, fun tramps float => ⟨rfl, rfl, rfl, rfl⟩⟩

end Bilbo
