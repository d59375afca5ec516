import Bilbo.Interpreting

/-!
# Keys that occur several times

`Json::get` searches the members from the front, so the interpreter takes the first one with
the key of a field. The emitted loop stores into a field each time its key comes by, so the
last one stays. They also read keys differently: `json.rs` drops backslashes, the dispatch
compares the bytes as they stand.
-/

namespace Bilbo

open Base Comp

variable {env : Env} {sz : RecCell → Option ℕ} {inp : Input} {fields : List FieldTy}
  {members : List Member} {val : Member → Bytes → Val}

/-- The member that `Json::get` finds. -/
def firstNamed (members : List Member) (key : Bytes) : Option Member :=
  members.find? fun m => lenient m.key == key

/-- The member whose value stays in the field of the emitted code. -/
def lastNamed (members : List Member) (key : Bytes) : Option Member :=
  members.reverse.find? fun m => m.key == key

/-- The member names the field in both backends. -/
def Names (m : Member) (f : FieldTy) : Prop := m.key = f.key ∧ lenient m.key = f.key

/-- The member names the field in neither backend. -/
def Foreign (m : Member) (f : FieldTy) : Prop := m.key ≠ f.key ∧ lenient m.key ≠ f.key

/-- The members of an object, each with a value of JSON; where a member names a field, both backends
bind the value that it spells for the field. -/
structure Members (env : Env) (sz : RecCell → Option ℕ) (inp : Input) (fields : List FieldTy)
    (members : List Member) (val : Member → Bytes → Val) (w : Bytes) : Prop where
  spaced : Spaced w members
  keys : ∀ m ∈ members, RawBody m.key
  values : ∀ m ∈ members, ∃ n < 2 ^ 31, NestedJson n m.value
  parses : ∀ m ∈ members, ∀ f ∈ fields, f.key = m.key →
    ParsesTo env sz inp f.ty (val m f.key) m.value
  interprets : ∀ m ∈ members, ∀ f ∈ fields, f.key = lenient m.key → ∀ j, Reads m.value j →
    Interprets env sz f.ty (val m f.key) j

/-- The value of a field after a run from `s` to `s'`. -/
def FieldHolds (env : Env) (sz : RecCell → Option ℕ) (s s' : State) (dst : ℕ) (f : FieldTy)
    (v : Val) : Prop :=
  Holds env.cells sz s' s.brk s'.brk f.ty v (dst + f.offset)

/-- Both backends return, and each field holds in both the value of one member that names it; where
none does, it holds `None` in both. -/
def BindsSame (env : Env) (sz : RecCell → Option ℕ) (inp : Input) (name : String)
    (fields : List FieldTy) (members : List Member) (val : Member → Bytes → Val) (t : Bytes)
    (c dst : ℕ) (s : State) : Prop :=
  ∃ j s₁ s₂, Reads t j ∧
    Runs (fun n d => parse env inp n d (.struct name fields) dst c) s (c + t.length) s₁ ∧
    Runs (fun _ d => run env d dst (.struct name fields) j) s () s₂ ∧
    ∀ f ∈ fields,
      (∃ m ∈ members, Names m f ∧ FieldHolds env sz s s₁ dst f (val m f.key) ∧
        FieldHolds env sz s s₂ dst f (val m f.key)) ∨
      (∀ m ∈ members, Foreign m f) ∧ FieldHolds env sz s s₁ dst f .none ∧
        FieldHolds env sz s s₂ dst f .none

/-- For each field the first and the last member that name it spell the same value; a field that
none names is an option. -/
def SameValues (fields : List FieldTy) (members : List Member) (val : Member → Bytes → Val) :
    Prop :=
  ∀ f ∈ fields,
    (∃ m ∈ members, Names m f ∧ ∀ m', firstNamed members f.key = some m' ∨
      lastNamed members f.key = some m' → val m' f.key = val m f.key) ∨
    (∀ m ∈ members, Foreign m f) ∧ f.ty.isOpt = true

/-! ## The members that are found -/

theorem lastNamed_eq_some {key : Bytes} {m : Member} (h : lastNamed members key = some m) :
    m ∈ members ∧ m.key = key := by
  have hsome := List.find?_some h
  exact ⟨List.mem_reverse.1 (List.mem_of_find?_eq_some h), by simpa using hsome⟩

theorem firstNamed_eq_some {key : Bytes} {m : Member} (h : firstNamed members key = some m) :
    m ∈ members ∧ lenient m.key = key := by
  have hsome := List.find?_some h
  exact ⟨List.mem_of_find?_eq_some h, by simpa using hsome⟩

theorem lastNamed_eq_none {key : Bytes} (h : lastNamed members key = none) :
    ∀ m ∈ members, m.key ≠ key := by
  intro m hm heq
  exact List.find?_eq_none.1 h m (List.mem_reverse.2 hm) (by simpa using heq)

theorem firstNamed_eq_none {key : Bytes} (h : firstNamed members key = none) :
    ∀ m ∈ members, lenient m.key ≠ key := by
  intro m hm heq
  exact List.find?_eq_none.1 h m hm (by simpa using heq)

/-- `Json::get` finds the value of the first member with the key. -/
theorem get_eq {kvs : List (Bytes × Json)} (h : List.Forall₂ ReadsMember members kvs)
    (key : Bytes) :
    (∃ m j, firstNamed members key = some m ∧ (Json.object kvs).get key = some j ∧
      Reads m.value j) ∨
    firstNamed members key = none ∧ (Json.object kvs).get key = none := by
  induction h with
  | nil => exact .inr ⟨rfl, rfl⟩
  | @cons m kv members kvs hm _ ih =>
    have hfirst : firstNamed (m :: members) key =
        if lenient m.key == key then some m else firstNamed members key := by
      rw [firstNamed, List.find?_cons]
      cases lenient m.key == key <;> rfl
    have hget : (Json.object (kv :: kvs)).get key =
        if lenient m.key == key then some kv.2 else (Json.object kvs).get key := by
      rw [Json.get, List.find?_cons, hm.key]
      cases lenient m.key == key <;> rfl
    rw [hfirst, hget]
    split
    · exact .inl ⟨m, kv.2, rfl, rfl, hm.value⟩
    · exact ih

/-! ## What the interpreter needs -/

/-- Actions that all return have each returned. -/
theorem forM_done {α : Type} {act : α → M Unit} {l : List α} {s s' : State}
    (h : (l.forM act).run s = (.done (), s')) :
    ∀ a ∈ l, ∃ s₁ s₂, (act a).run s₁ = (.done (), s₂) := by
  induction l generalizing s with
  | nil => exact nofun
  | cons a l ih =>
    obtain ⟨x, s₁, ha, hl⟩ := bind_eq_done (x := act a) (f := fun _ => l.forM act) h
    intro b hb
    rcases List.mem_cons.1 hb with rfl | hb
    · exact ⟨s, s₁, ha⟩
    · exact ih hl b hb

/-- `interp::run` returns only when no field is missing that is no option. -/
theorem run_struct_present {name : String} {j : Json} {dst : ℕ} {s s' : State}
    (h : Runs (fun _ d => run env d dst (.struct name fields) j) s () s') :
    ∀ f ∈ fields, j.get f.key = none → f.ty.isOpt = true := by
  intro f hf hget
  obtain ⟨N, hN⟩ := h
  have hrun := hN N (Nat.le_refl N) (N + 1) (Nat.le_succ N)
  have hrun : (fields.forM (runField env dst j N)).run s = (.done (), s') := hrun
  obtain ⟨s₁, s₂, hfield⟩ := forM_done hrun f hf
  unfold runField at hfield
  simp only [hget] at hfield
  cases hopt : f.ty.isOpt with
  | true => rfl
  | false =>
    rw [hopt] at hfield
    cases hfield

/-- What the interpreter binds to a field. -/
def firstValue (members : List Member) (val : Member → Bytes → Val) (f : FieldTy) : Val :=
  (firstNamed members f.key).elim .none fun m => val m f.key

section

variable {name : String} {w w' : Bytes} {kvs : List (Bytes × Json)}

/-- `json.rs` on the object. -/
theorem Members.reads (hm : Members env sz inp fields members val w') (hw : IsWs w)
    (hutf8 : Utf8 (w ++ Ascii.lbrace :: objectText w' members)) :
    ∃ kvs, List.Forall₂ ReadsMember members kvs ∧
      Reads (w ++ Ascii.lbrace :: objectText w' members) (.object kvs) := by
  have hparts := utf8_object hw hm.spaced hutf8
  obtain ⟨kvs, hkvs⟩ : ∃ kvs, List.Forall₂ ReadsMember members kvs := by
    apply exists_forall₂
    intro m hmem
    obtain ⟨n, -, hjson⟩ := hm.values m hmem
    obtain ⟨j, hj⟩ := hjson.isJson.reads (hparts m hmem).2
    exact ⟨(lenient m.key, j), rfl, hj⟩
  exact ⟨kvs, hkvs, reads_object hw hm.spaced hm.keys
    (fun m hmem => utf8_lenient (hm.keys m hmem) (hparts m hmem).1) hkvs⟩

/-- A text is read as one value. -/
theorem Reads.unique {t : Bytes} {j j' : Json} (h : Reads t j) (h' : Reads t j') : j = j' := by
  have hend : Delim [] := trivial
  have hrun := h (b := t ++ []) (i := 0) (p := 0) rfl hend rfl
  exact (hrun.unique (h' rfl hend rfl)).1

theorem Members.takesFirst (hm : Members env sz inp fields members val w')
    (hkvs : List.Forall₂ ReadsMember members kvs) {f : FieldTy} (hf : f ∈ fields)
    (hpresent : (Json.object kvs).get f.key = none → f.ty.isOpt = true) :
    TakesFirst env sz kvs f (firstValue members val f) := by
  unfold TakesFirst firstValue
  obtain ⟨m, j, hfirst, hget, hreads⟩ | ⟨hfirst, hget⟩ := get_eq hkvs f.key
  · obtain ⟨hmem, hkey⟩ := firstNamed_eq_some hfirst
    simp only [hget, hfirst]
    exact hm.interprets m hmem f hf hkey.symm j hreads
  · simp only [hget, hfirst]
    exact ⟨hpresent hget, rfl⟩

/-- The fields after the interpreter's run. -/
theorem Members.run_runs (hty : Ty.Ok env sz (.struct name fields))
    (hm : Members env sz inp fields members val w') (hkvs : List.Forall₂ ReadsMember members kvs)
    (hpresent : ∀ f ∈ fields, (Json.object kvs).get f.key = none → f.ty.isOpt = true) {dst : ℕ}
    {s : State} (hroom : Room s dst (Ty.fieldsSpan sz fields)) :
    ∃ s', Runs (fun _ d => run env d dst (.struct name fields) (.object kvs)) s () s' ∧
      ∀ f ∈ fields, FieldHolds env sz s s' dst f (firstValue members val f) := by
  cases hty with
  | struct hok hapart hnames =>
    have hinterprets : Interprets env sz (.struct name fields)
        (.record (fields.map (firstValue members val))) (.object kvs) := by
      apply interprets_fields hok hapart (List.length_map _)
      intro i f v hf hv
      rw [List.getElem?_map, hf] at hv
      cases hv
      have hmem := List.mem_of_getElem? hf
      exact hm.takesFirst hkvs hmem (hpresent f hmem)
    obtain ⟨s', hrun, hputs⟩ := hinterprets hroom
    refine ⟨s', hrun, fun f hf => ?_⟩
    obtain ⟨i, hi⟩ := List.mem_iff_getElem?.1 hf
    cases hputs.holds with
    | struct _ hfields =>
      apply hfields i f _ hi
      rw [List.getElem?_map, hi]
      rfl

/-- The fields after the emitted code's run. -/
theorem Members.parse_runs (hty : Ty.Ok env sz (.struct name fields))
    (hm : Members env sz inp fields members val w') (hw : IsWs w) {c dst : ℕ} {s : State}
    {tail : Bytes} (h : inp.rest c = (w ++ Ascii.lbrace :: objectText w' members) ++ tail)
    (hroom : Room s dst (Ty.fieldsSpan sz fields)) :
    ∃ s', Runs (fun n d => parse env inp n d (.struct name fields) dst c) s
        (c + (w ++ Ascii.lbrace :: objectText w' members).length) s' ∧
      ∀ f ∈ fields, ∀ v, Takes val f (lastNamed members f.key) v →
        FieldHolds env sz s s' dst f v := by
  cases hty with
  | struct hok hapart hnames =>
    obtain ⟨s', hrun, hfill⟩ := parseStruct_runs name val hok hapart hnames hw hm.spaced hm.keys
      hm.parses (fun m hmem _ => hm.values m hmem) h hroom
    refine ⟨s', hrun, fun f hf v htakes => ?_⟩
    obtain ⟨i, hi⟩ := List.mem_iff_getElem?.1 hf
    exact hfill.holds i f v hi ⟨f, hi, htakes⟩

/-- Both backends bind the same member for each field exactly when, for each field, the first and
the last member with its key spell the same value. -/
theorem repeated_keys_iff (hty : Ty.Ok env sz (.struct name fields))
    (hm : Members env sz inp fields members val w') (hw : IsWs w)
    (hutf8 : Utf8 (w ++ Ascii.lbrace :: objectText w' members)) {c dst : ℕ} {s : State}
    {tail : Bytes} (h : inp.rest c = (w ++ Ascii.lbrace :: objectText w' members) ++ tail)
    (hroom : Room s dst (Ty.fieldsSpan sz fields)) :
    BindsSame env sz inp name fields members val (w ++ Ascii.lbrace :: objectText w' members) c
      dst s ↔ SameValues fields members val := by
  obtain ⟨kvs, hkvs, hreads⟩ := hm.reads hw hutf8
  obtain ⟨s₁, hparse, hlast⟩ := hm.parse_runs hty hw h hroom
  constructor
  · rintro ⟨j, s₁', s₂', hreads', hparse', hrun', hfields⟩ f hf
    -- what the two backends return is determined by the text
    obtain rfl := hreads'.unique hreads
    obtain rfl := (hparse'.unique hparse).2
    have hpresent := run_struct_present hrun'
    obtain ⟨s₂, hrun, hfirst⟩ := hm.run_runs hty hkvs hpresent hroom
    obtain rfl := (hrun'.unique hrun).2
    obtain ⟨m, hmem, hnames, hheld₁, hheld₂⟩ | ⟨hforeign, -, -⟩ := hfields f hf
    · refine .inl ⟨m, hmem, hnames, ?_⟩
      rintro m' (hm' | hm')
      · -- what the interpreter has bound is the value of the first member
        have hv : firstValue members val f = val m' f.key := by rw [firstValue, hm']; rfl
        have hheld := hfirst f hf
        rw [hv] at hheld
        exact hheld.unique hheld₂
      · have hheld := hlast f hf (val m' f.key) (by rw [hm']; rfl)
        exact hheld.unique hheld₁
    · refine .inr ⟨hforeign, hpresent f hf ?_⟩
      obtain ⟨m, j, hm', -, -⟩ | ⟨-, hget⟩ := get_eq hkvs f.key
      · obtain ⟨hmem, hkey⟩ := firstNamed_eq_some hm'
        exact absurd hkey (hforeign m hmem).2
      · exact hget
  · intro hsame
    -- no field is missing, so the interpreter returns
    have hpresent : ∀ f ∈ fields, (Json.object kvs).get f.key = none → f.ty.isOpt = true := by
      intro f hf hget
      obtain ⟨m, hmem, hnames, -⟩ | ⟨-, hopt⟩ := hsame f hf
      · obtain ⟨_, j, -, hget', -⟩ | ⟨hnone, -⟩ := get_eq hkvs f.key
        · rw [hget] at hget'
          cases hget'
        · exact absurd hnames.2 (firstNamed_eq_none hnone m hmem)
      · exact hopt
    obtain ⟨s₂, hrun, hfirst⟩ := hm.run_runs hty hkvs hpresent hroom
    refine ⟨_, s₁, s₂, hreads, hparse, hrun, fun f hf => ?_⟩
    obtain ⟨m, hmem, hnames, hvals⟩ | ⟨hforeign, hopt⟩ := hsame f hf
    · refine .inl ⟨m, hmem, hnames, ?_, ?_⟩
      · apply hlast f hf
        cases hm' : lastNamed members f.key with
        | some m' => exact (hvals m' (.inr hm')).symm
        | none => exact absurd hnames.1 (lastNamed_eq_none hm' m hmem)
      · have hheld := hfirst f hf
        cases hm' : firstNamed members f.key with
        | some m' =>
          rw [firstValue, hm'] at hheld
          rw [← hvals m' (.inl hm')]
          exact hheld
        | none => exact absurd hnames.2 (firstNamed_eq_none hm' m hmem)
    · refine .inr ⟨hforeign, ?_, ?_⟩
      · apply hlast f hf
        cases hm' : lastNamed members f.key with
        | some m' =>
          obtain ⟨hmem, hkey⟩ := lastNamed_eq_some hm'
          exact absurd hkey (hforeign m' hmem).1
        | none => exact ⟨hopt, rfl⟩
      · have hheld := hfirst f hf
        cases hm' : firstNamed members f.key with
        | some m' =>
          obtain ⟨hmem, hkey⟩ := firstNamed_eq_some hm'
          exact absurd hkey (hforeign m' hmem).2
        | none =>
          rw [firstValue, hm'] at hheld
          exact hheld

end

/-- `"a":1,` -/
def oneMember : Member := ⟨[], [0x61], [], [0x31], [Ascii.comma]⟩

/-- `{"a":1,"a":1,}` -/
def onesText : Bytes := [] ++ Ascii.lbrace :: objectText [] [oneMember, oneMember]

/-- A struct with one field `a`. -/
def fieldsA : List FieldTy := [⟨"a", 0, .u 8⟩]

theorem repeated_keys_ones :
    BindsSame Env.bare (fun _ => none) ⟨onesText, fun _ => 0, by decide⟩ "A" fieldsA
        [oneMember, oneMember] (fun m _ => .int (decimal m.value)) onesText 0 0 (State.initial 8) ↔
      SameValues fieldsA [oneMember, oneMember] fun m _ => .int (decimal m.value) := by
  -- one member twice, and one field
  have hone : ∀ m ∈ [oneMember, oneMember], m = oneMember := by
    intro m hm
    rcases List.mem_cons.1 hm with h | h
    · exact h
    · exact List.mem_singleton.1 h
  have hfield : ∀ f ∈ fieldsA, f = ⟨"a", 0, .u 8⟩ := fun f hf => List.mem_singleton.1 hf
  have hwidth : IntSize 8 := .inr (.inr (.inr rfl))
  have hds : Digits [0x31] := Digits.single rfl
  have hlt : decimal [0x31] < 256 ^ 8 := by decide
  have hty : Ty.Ok Env.bare (fun _ => none) (.struct "A" fieldsA) := by
    apply Ty.Ok.struct
    · intro f hf
      rw [hfield f hf]
      exact Ty.Ok.u hwidth
    · exact List.pairwise_singleton _ _
    · decide
  have hmembers : Members Env.bare (fun _ => none) ⟨onesText, fun _ => 0, by decide⟩ fieldsA
      [oneMember, oneMember] (fun m _ => .int (decimal m.value)) [] := by
    constructor
    · refine ⟨IsWs.nil, ?_, ?_, ?_⟩
      · intro m hm
        rw [hone m hm]
        exact IsWs.nil
      · intro m hm
        rw [hone m hm]
        exact IsWs.nil
      · have hsep : IsSep [Ascii.comma] := ⟨[], IsWs.nil, .inr rfl⟩
        exact ⟨hsep, .inr (List.cons_ne_nil _ _), hsep, .inl rfl, trivial⟩
    · intro m hm
      rw [hone m hm]
      exact .plain (by decide) (by decide) .nil
    · intro m hm
      rw [hone m hm]
      exact ⟨0, by decide, .number (w := []) IsWs.nil hds.nonempty hds.isNumChar⟩
    · intro m hm f hf _
      rw [hone m hm, hfield f hf]
      exact parsesTo_u hwidth IsWs.nil hds hlt
    · intro m hm f hf _ j hj
      rw [hone m hm] at hj ⊢
      rw [hfield f hf, hj.unique (reads_number IsWs.nil hds.nonempty hds.isNumChar)]
      exact interprets_u hwidth hds hlt
  have hascii : onesText.all (fun c => decide (c.toNat < 0x80)) = true := rfl
  have hutf8 : Utf8 onesText :=
    utf8_of_ascii fun c hc => of_decide_eq_true (List.all_eq_true.1 hascii c hc)
  exact repeated_keys_iff hty hmembers IsWs.nil hutf8 (List.append_nil onesText).symm
    (.inr (by decide))

/-- `{"a":1,"a":2}` -/
def onceMoreText : Bytes :=
  [0x7B, 0x22, 0x61, 0x22, 0x3A, 0x31, 0x2C, 0x22, 0x61, 0x22, 0x3A, 0x32, 0x7D]

/-- The interpreter binds 1, the emitted code 2. -/
theorem repeated_keys_differ :
    ((parseValue onceMoreText 20 5).run 0).1 =
        .done (.object [([0x61], .num [0x31]), ([0x61], .num [0x32])]) ∧
      ((run .bare 5 0 (.struct "A" fieldsA)
          (.object [([0x61], .num [0x31]), ([0x61], .num [0x32])])).run (.initial 8)).1 = .done () ∧
      readNat ((run .bare 5 0 (.struct "A" fieldsA)
        (.object [([0x61], .num [0x31]), ([0x61], .num [0x32])])).run (.initial 8)).2.mem 0 8 =
        some 1 ∧
      ((parse .bare ⟨onceMoreText, fun _ => 0, by decide⟩ 20 5 (.struct "A" fieldsA) 0 0).run
        (.initial 8)).1 = .done 13 ∧
      readNat ((parse .bare ⟨onceMoreText, fun _ => 0, by decide⟩ 20 5 (.struct "A" fieldsA) 0
        0).run (.initial 8)).2.mem 0 8 = some 2 := by
  refine ⟨?_, ?_, ?_, ?_, ?_⟩
  · rfl
  · rfl
  · rfl
  · rfl
  · rfl

end Bilbo
