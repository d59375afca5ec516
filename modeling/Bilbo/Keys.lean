import Bilbo.Parsing

/-!
# How keys are spelled

`build_str` unescapes the strings that become values, but `parse_struct` compares a key with the
names of the fields as it is spelled. So of two spellings of one key, at most one names a field.
-/

namespace Bilbo

open Base Comp

variable {inp inp' : Input} {fields : List FieldTy}

/-! ## The field of a key -/

/-- The field that `parse_struct` selects for the key at `hc`. -/
def keyField (inp : Input) (fields : List FieldTy) (hc : ℕ) : M (Option FieldTy) := do
  let k ← strspan inp hc
  pure (dispatch inp k.start k.len fields).1

/-- It is the field whose name is the key as it is spelled. -/
theorem keyField_run {m : Member} {p : ℕ} {r : Bytes} (hbefore : IsWs m.before)
    (hafter : IsWs m.after) (hkey : RawBody m.key) (h : inp.rest p = m.item.1 ++ r) (s : State) :
    ((keyField inp fields (ws inp p)).run s).1 =
      .done (fields.find? fun f => f.key == m.key) := by
  obtain ⟨-, sp, hspan, hin, hname, -, -⟩ := member_run hbefore hafter hkey h s
  unfold keyField
  rw [bind_done hspan]
  show Outcome.done (dispatch inp sp.start sp.len fields).1 = _
  rw [dispatch_fst hin]
  unfold named
  rw [hname]

/-- Two searches find the same field only when they are for the same name, or find none. -/
theorem find_key_eq_iff {a b : Bytes} :
    (fields.find? fun f => f.key == a) = (fields.find? fun f => f.key == b) ↔
      a = b ∨ ∀ f ∈ fields, f.key ≠ a ∧ f.key ≠ b := by
  constructor
  · intro h
    cases hfind : fields.find? fun f => f.key == a with
    | some f =>
      -- the one field has both names
      have hb := h.symm.trans hfind
      have hfa := List.find?_some hfind
      have hfb := List.find?_some hb
      rw [beq_iff_eq] at hfa hfb
      exact .inl (hfa.symm.trans hfb)
    | none =>
      have hb := h.symm.trans hfind
      right
      intro f hf
      have hfa := List.find?_eq_none.1 hfind f hf
      have hfb := List.find?_eq_none.1 hb f hf
      rw [beq_iff_eq] at hfa hfb
      exact ⟨hfa, hfb⟩
  · rintro (rfl | hno)
    · rfl
    · have hnone : ∀ x, (∀ f ∈ fields, f.key ≠ x) → (fields.find? fun f => f.key == x) = none := by
        intro x hx
        rw [List.find?_eq_none]
        intro f hf
        rw [beq_iff_eq]
        exact hx f hf
      rw [hnone a fun f hf => (hno f hf).1, hnone b fun f hf => (hno f hf).2]

/-! ## Objects that differ in the spelling of their keys -/

/-- Two members that spell one key in two ways. -/
structure Respelled (m m' : Member) : Prop where
  before : m'.before = m.before
  after : m'.after = m.after
  value : m'.value = m.value
  sep : m'.sep = m.sep
  key : ∃ k, Quoted m.key k ∧ Quoted m'.key k

/-- At each key the two objects have the same field selected. -/
def SameFields (inp inp' : Input) (fields : List FieldTy) (members members' : List Member)
    (tail tail' : Bytes) : Prop :=
  ∀ (i p p' : ℕ) (s s' : State), i < members.length →
    inp.rest p = closed Ascii.rbrace ((members.drop i).map Member.item) ++ tail →
    inp'.rest p' = closed Ascii.rbrace ((members'.drop i).map Member.item) ++ tail' →
    ((keyField inp fields (ws inp p)).run s).1 = ((keyField inp' fields (ws inp' p')).run s').1

/-- What an object binds to the fields, by its keys as they are spelled. -/
structure Fits (cells : Cells) (fields : List FieldTy) (bind : Bytes → Val)
    (members : List Member) : Prop where
  known : ∀ m ∈ members, ∀ f ∈ fields, f.key = m.key → Spells cells Quoted f.ty (bind f.key) m.value
  unknown : ∀ m ∈ members, (∀ f ∈ fields, f.key ≠ m.key) → IsJson m.value
  absent : ∀ f ∈ fields, (∀ m ∈ members, f.key ≠ m.key) → f.ty.isOpt = true ∧ bind f.key = .none

/-- The spellings of a key are equal, or neither is the name of a field. -/
def SameNames (fields : List FieldTy) (m m' : Member) : Prop :=
  m.key = m'.key ∨ ∀ f ∈ fields, f.key ≠ m.key ∧ f.key ≠ m'.key

theorem SameNames.symm {m m' : Member} (h : SameNames fields m m') : SameNames fields m' m :=
  h.imp Eq.symm fun h f hf => (h f hf).symm

theorem SameNames.names_iff {m m' : Member} (h : SameNames fields m m') {f : FieldTy}
    (hf : f ∈ fields) : f.key = m.key ↔ f.key = m'.key := by
  rcases h with h | h
  · rw [h]
  · exact iff_of_false (h f hf).1 (h f hf).2

/-- An element on the right has its counterpart on the left. -/
theorem exists_left {α β : Type} {R : α → β → Prop} {l : List α} {l' : List β}
    (h : List.Forall₂ R l l') {b : β} (hb : b ∈ l') : ∃ a ∈ l, R a b := by
  induction h with
  | nil => cases hb
  | @cons a b' l l' hR _ ih =>
    rcases List.mem_cons.1 hb with rfl | hb
    · exact ⟨a, List.mem_cons_self, hR⟩
    · obtain ⟨x, hx, hRx⟩ := ih hb
      exact ⟨x, List.mem_cons_of_mem _ hx, hRx⟩

theorem separated_respelled {members members' : List Member}
    (h : List.Forall₂ Respelled members members') (hseps : Separated (members.map Member.item)) :
    Separated (members'.map Member.item) := by
  induction h with
  | nil => trivial
  | @cons m m' l l' hm hl ih =>
    obtain ⟨hsep, hlast, hseps⟩ := hseps
    refine ⟨?_, ?_, ih hseps⟩
    · show IsSep m'.sep
      rw [hm.sep]
      exact hsep
    · show l'.map Member.item = [] ∨ m'.sep ≠ []
      rw [hm.sep, List.map_eq_nil_iff, ← List.length_eq_zero_iff, ← hl.length_eq,
        List.length_eq_zero_iff, ← List.map_eq_nil_iff (f := Member.item)]
      exact hlast

theorem Spaced.respelled {w : Bytes} {members members' : List Member} (hsp : Spaced w members)
    (h : List.Forall₂ Respelled members members') : Spaced w members' := by
  refine ⟨hsp.lead, ?_, ?_, separated_respelled h hsp.seps⟩
  · intro m' hm'
    obtain ⟨m, hm, hr⟩ := exists_left h hm'
    rw [hr.before]
    exact hsp.before m hm
  · intro m' hm'
    obtain ⟨m, hm, hr⟩ := exists_left h hm'
    rw [hr.after]
    exact hsp.after m hm

/-- Where no spelling changes what a key names, the objects bind the same values. -/
theorem Fits.respelled {cells : Cells} {bind : Bytes → Val} {members members' : List Member}
    (h : Fits cells fields bind members)
    (hre : List.Forall₂ (fun m m' => m'.value = m.value ∧ SameNames fields m m')
      members members') : Fits cells fields bind members' := by
  constructor
  · intro m' hm' f hf hkey
    obtain ⟨m, hm, hvalue, hs⟩ := exists_left hre hm'
    rw [hvalue]
    exact h.known m hm f hf ((hs.names_iff hf).2 hkey)
  · intro m' hm' hno
    obtain ⟨m, hm, hvalue, hs⟩ := exists_left hre hm'
    rw [hvalue]
    exact h.unknown m hm fun f hf hkey => hno f hf ((hs.names_iff hf).1 hkey)
  · intro f hf hno
    apply h.absent f hf
    intro m hm hkey
    obtain ⟨m', hm', -, hs⟩ := exists_left hre.flip hm
    exact hno m' hm' ((hs.names_iff hf).1 hkey)

/-- An object is bound by its keys as they are spelled. -/
theorem parsesTo_fits {env : Env} {sz : RecCell → Option ℕ} {name : String} {w w' : Bytes}
    {members : List Member} {bind : Bytes → Val} (hcells : CellsOk env sz)
    (hty : Ty.Ok env sz (.struct name fields)) (hw : IsWs w) (hsp : Spaced w' members)
    (hkeys : ∀ m ∈ members, RawBody m.key) (h : Fits env.cells fields bind members)
    (hlen : (objectText w' members).length < 2 ^ 31) :
    ParsesTo env sz inp (.struct name fields) (.record (fields.map fun f => bind f.key))
      (w ++ Ascii.lbrace :: objectText w' members) := by
  have hvalue : ∀ m ∈ members, m.value.length < 2 ^ 31 := by
    intro m hm
    have hle := length_value_le (w := w') hm
    omega
  cases hty with
  | struct hok hapart hnames =>
    refine parsesTo_struct hok hapart hnames hw hsp hkeys ?_ ?_ h.absent
    · intro m hm f hf hkey
      exact (binds_spells hcells (h.known m hm f hf hkey) (hok f hf) (hvalue m hm)).parsesTo
    · exact fun m hm hno => ⟨_, hvalue m hm, (h.unknown m hm hno).nested⟩

/-- Each member of an object, with those behind it, stands somewhere. -/
theorem exists_rest_drop {w w' tail : Bytes} {members : List Member} {c i : ℕ}
    (h : inp.rest c = w ++ Ascii.lbrace :: objectText w' members ++ tail)
    (hi : i ≤ members.length) :
    ∃ p, inp.rest p = closed Ascii.rbrace ((members.drop i).map Member.item) ++ tail := by
  rw [List.append_assoc, List.cons_append, objectText, List.append_assoc] at h
  have hbody := Input.rest_append (Input.rest_cons (Input.rest_append h)).2.2
  induction i with
  | zero => exact ⟨_, hbody⟩
  | succ i ih =>
    obtain ⟨p, hp⟩ := ih (by omega)
    rw [List.drop_eq_getElem_cons hi, List.map_cons, closed_cons_append] at hp
    exact ⟨_, Input.rest_append (Input.rest_append hp)⟩

/-- What the law about the spelling of keys says of two objects: at each key the same field is
selected, and what the one object binds, both bind. -/
structure SameBinding (inp inp' : Input) (name : String) (fields : List FieldTy)
    (w w' : Bytes) (members members' : List Member) (tail tail' : Bytes) : Prop where
  selected : SameFields inp inp' fields members members' tail tail'
  values : ∀ (env : Env) (sz : RecCell → Option ℕ) (bind : Bytes → Val), CellsOk env sz →
    Ty.Ok env sz (.struct name fields) →
    Fits env.cells fields bind members ∨ Fits env.cells fields bind members' →
    (objectText w' members).length < 2 ^ 31 → (objectText w' members').length < 2 ^ 31 →
    ParsesTo env sz inp (.struct name fields) (.record (fields.map fun f => bind f.key))
        (w ++ Ascii.lbrace :: objectText w' members) ∧
      ParsesTo env sz inp' (.struct name fields) (.record (fields.map fun f => bind f.key))
        (w ++ Ascii.lbrace :: objectText w' members')

/-- Two objects that differ in the spelling of their keys are bound alike exactly when each key
is spelled in the same bytes in both or in neither as the name of a field. -/
theorem sameBinding_iff (inp inp' : Input) (name : String) (fields : List FieldTy) (c c' : ℕ)
    {w w' tail tail' : Bytes} {members members' : List Member} (hw : IsWs w)
    (hsp : Spaced w' members) (hre : List.Forall₂ Respelled members members')
    (h : inp.rest c = w ++ Ascii.lbrace :: objectText w' members ++ tail)
    (h' : inp'.rest c' = w ++ Ascii.lbrace :: objectText w' members' ++ tail') :
    SameBinding inp inp' name fields w w' members members' tail tail' ↔
      List.Forall₂ (SameNames fields) members members' := by
  have hsp' := hsp.respelled hre
  have hraw : ∀ m ∈ members, RawBody m.key := by
    intro m hm
    obtain ⟨m', -, hr⟩ := exists_left hre.flip hm
    obtain ⟨k, hk, -⟩ := hr.key
    exact hk.rawBody
  have hraw' : ∀ m' ∈ members', RawBody m'.key := by
    intro m' hm'
    obtain ⟨m, -, hr⟩ := exists_left hre hm'
    obtain ⟨k, -, hk⟩ := hr.key
    exact hk.rawBody
  -- the selection at a key, in both objects
  have hselect : ∀ (i p p' : ℕ) (s s' : State) (hi : i < members.length)
      (hi' : i < members'.length),
      inp.rest p = closed Ascii.rbrace ((members.drop i).map Member.item) ++ tail →
      inp'.rest p' = closed Ascii.rbrace ((members'.drop i).map Member.item) ++ tail' →
      (((keyField inp fields (ws inp p)).run s).1 = ((keyField inp' fields (ws inp' p')).run s').1 ↔
        SameNames fields members[i] members'[i]) := by
    intro i p p' s s' hi hi' hp hp'
    rw [List.drop_eq_getElem_cons hi, List.map_cons, closed, List.append_assoc] at hp
    rw [List.drop_eq_getElem_cons hi', List.map_cons, closed, List.append_assoc] at hp'
    have hm := List.getElem_mem hi
    have hm' := List.getElem_mem hi'
    rw [keyField_run (hsp.before _ hm) (hsp.after _ hm) (hraw _ hm) hp,
      keyField_run (hsp'.before _ hm') (hsp'.after _ hm') (hraw' _ hm') hp', Outcome.done.injEq]
    exact find_key_eq_iff
  constructor
  · rintro ⟨hfields, -⟩
    apply List.forall₂_iff_get.2
    refine ⟨hre.length_eq, fun i hi hi' => ?_⟩
    obtain ⟨p, hp⟩ := exists_rest_drop h (Nat.le_of_lt hi)
    obtain ⟨p', hp'⟩ := exists_rest_drop h' (Nat.le_of_lt hi')
    exact (hselect i p p' (State.initial 0) (State.initial 0) hi hi' hp hp').1
      (hfields i p p' _ _ hi hp hp')
  · intro hsame
    constructor
    · intro i p p' s s' hi hp hp'
      have hi' : i < members'.length := by
        rw [← hre.length_eq]
        exact hi
      exact (hselect i p p' s s' hi hi' hp hp').2 ((List.forall₂_iff_get.1 hsame).2 i hi hi')
    · intro env sz bind hcells hty hfits hlen hlen'
      have hpairs : List.Forall₂ (fun m m' => m'.value = m.value ∧ SameNames fields m m')
          members members' := by
        apply List.forall₂_iff_get.2
        refine ⟨hre.length_eq, fun i hi hi' => ?_⟩
        exact ⟨((List.forall₂_iff_get.1 hre).2 i hi hi').value,
          (List.forall₂_iff_get.1 hsame).2 i hi hi'⟩
      have hboth : Fits env.cells fields bind members ∧ Fits env.cells fields bind members' := by
        rcases hfits with hfits | hfits
        · exact ⟨hfits, hfits.respelled hpairs⟩
        · exact ⟨hfits.respelled (hpairs.flip.imp fun _ _ hp => ⟨hp.1.symm, hp.2.symm⟩), hfits⟩
      exact ⟨parsesTo_fits hcells hty hw hsp hraw hboth.1 hlen,
        parsesTo_fits hcells hty hw hsp' hraw' hboth.2 hlen'⟩

/-- The one member of `{"port":1}`, with the key spelled as given. -/
def portMember (key : Bytes) : Member := ⟨[], key, [], [0x31], []⟩

/-- `{"port":1}`, with the key spelled as given. -/
def portText (key : Bytes) : Bytes := Ascii.lbrace :: objectText [] [portMember key]

/-- `port` -/
def plainPort : Bytes := [0x70, 0x6F, 0x72, 0x74]

/-- `po\u0072t` -/
def escapedPort : Bytes := [0x70, 0x6F, 0x5C, 0x75, 0x30, 0x30, 0x37, 0x32, 0x74]

/-- The text with the plain key. -/
def plainInput : Input := ⟨portText plainPort, fun _ => 0, by decide⟩

/-- The text with the escaped key. -/
def escapedInput : Input := ⟨portText escapedPort, fun _ => 0, by decide⟩

/-- A struct with a field `port`. -/
def portFields : List FieldTy := [⟨"port", 0, .u 2⟩]

theorem respelled_port : List.Forall₂ Respelled [portMember plainPort] [portMember escapedPort] := by
  have hhex : Hex4 0x30 0x30 0x37 0x32 := by
    apply List.all_eq_true.1
    rfl
  have hescaped : Quoted escapedPort plainPort := by
    apply Quoted.plain (by decide) (by decide)
    apply Quoted.plain (by decide) (by decide)
    exact Quoted.unicode hhex (by decide) (by decide)
      (Quoted.plain (by decide) (by decide) Quoted.nil)
  have hplain : Quoted plainPort plainPort := by
    unfold plainPort
    repeat apply Quoted.plain (by decide) (by decide)
    exact Quoted.nil
  exact List.Forall₂.cons ⟨rfl, rfl, rfl, rfl, plainPort, hplain, hescaped⟩ List.Forall₂.nil

theorem spaced_port : Spaced [] [portMember plainPort] := by
  refine ⟨IsWs.nil, ?_, ?_, ⟨[], IsWs.nil, .inl rfl⟩, .inl rfl, trivial⟩
  · intro m hm
    rw [List.mem_singleton.1 hm]
    exact IsWs.nil
  · intro m hm
    rw [List.mem_singleton.1 hm]
    exact IsWs.nil

theorem sameBinding_iff_port :
    SameBinding plainInput escapedInput "Server" portFields [] []
        [portMember plainPort] [portMember escapedPort] [] [] ↔
      List.Forall₂ (SameNames portFields) [portMember plainPort] [portMember escapedPort] :=
  sameBinding_iff _ _ "Server" portFields 0 0 IsWs.nil spaced_port respelled_port rfl rfl

theorem escaped_port_dropped :
    List.Forall₂ Respelled [portMember plainPort] [portMember escapedPort] ∧
      ¬ SameFields plainInput escapedInput portFields [portMember plainPort]
          [portMember escapedPort] [] [] ∧
      (∃ s', (runParser Env.bare plainInput 8 3 (.struct "Server" portFields) 0).run
          (State.initial 2) = (.done (), s') ∧ readNat s'.mem 0 2 = some 1) ∧
      ∃ s', (runParser Env.bare escapedInput 8 3 (.struct "Server" portFields) 0).run
          (State.initial 2) = (.done (), s') ∧
        readNat s'.mem 0 2 = some 0 := by
  refine ⟨respelled_port, ?_, ⟨_, rfl, rfl⟩, ⟨_, rfl, rfl⟩⟩
  intro h
  have heq := h 0 1 1 (State.initial 2) (State.initial 2) (by decide) rfl rfl
  have hplain : ((keyField plainInput portFields (ws plainInput 1)).run (State.initial 2)).1 =
      .done (some ⟨"port", 0, .u 2⟩) := rfl
  have hescaped : ((keyField escapedInput portFields (ws escapedInput 1)).run
      (State.initial 2)).1 = .done none := rfl
  rw [hplain, hescaped] at heq
  cases heq

end Bilbo
