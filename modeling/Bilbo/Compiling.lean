import Bilbo.Collecting

/-!
# One function for each cell

`compile_parser` declares a function for each cell that `collect_cells` returns, defines them, and
then declares and defines the function of the type itself. `Emit::parse` goes through a type by a
recursion of its own and looks up the function of each cell it meets: every look-up succeeds,
because every reference it meets has been collected. It does not go through the cells of a type with
an unknown part: there it panics.

The module the functions are declared in is not part of the repository, so it is a parameter, with
what its documentation says.
-/

namespace Bilbo

open Base Comp

/-! ## The module -/

/-- `FuncId` -/
abbrev FuncId := ℕ

/-- `JITModule`, as far as it is used here. Every error is unwrapped, so it is a panic. Of the code
of a function the calls are kept that it makes to functions of the module. -/
structure JITModule (σ : Type) where
  /-- `declare_function` -/
  declareFunction : String → Comp σ String FuncId
  /-- `define_function` -/
  defineFunction : FuncId → List FuncId → Comp σ String Unit
  /-- the declarations made so far -/
  declared : σ → List (String × FuncId)
  /-- the definitions made so far -/
  defined : σ → List (FuncId × List FuncId)

/-- A new name gets a new function; a function that is declared and has no definition yet can be
defined by code that calls functions which are declared. -/
structure JITModule.Documented {σ : Type} (m : JITModule σ) : Prop where
  declare : ∀ s name, (∀ x ∈ m.declared s, x.1 ≠ name) →
    ∃ id s', (m.declareFunction name).run s = (.done id, s') ∧
      (∀ x ∈ m.declared s, x.2 ≠ id) ∧
      m.declared s' = m.declared s ++ [(name, id)] ∧ m.defined s' = m.defined s
  define : ∀ s id calls, (∃ x ∈ m.declared s, x.2 = id) → (∀ x ∈ m.defined s, x.1 ≠ id) →
    (∀ f ∈ calls, ∃ x ∈ m.declared s, x.2 = f) →
    ∃ s', (m.defineFunction id calls).run s = (.done (), s') ∧
      m.declared s' = m.declared s ∧ m.defined s' = m.defined s ++ [(id, calls)]

/-! ## Compilation -/

variable {σ τ : Type}

/-- `Jit`: the module, and the number of the last function. -/
structure Jit (σ : Type) where
  module : σ
  seq : ℕ

/-- The names of the shims. -/
def shimNames : List String :=
  ["rt_alloc", "rt_box_alloc", "rt_realloc", "rt_skip", "rt_f64v", "rt_unescape", "rt_wsskip",
    "rt_strscan"]

/-- What `Jit::new` does to a module: the declarations of the shims. -/
def declareShims (m : JITModule σ) : List String → Comp σ String (List FuncId)
  | [] => pure []
  | name :: names => do
    let id ← m.declareFunction name
    let ids ← declareShims m names
    pure (id :: ids)

/-- The name of the function for a cell. -/
def nodeName (n : ℕ) : String := "parse_rec_" ++ toString n

/-- The name of the function for a type. -/
def topName (n : ℕ) : String := "parse_" ++ toString n

/-- A call to the module of a `Jit`. -/
def onModule {α : Type} (x : Comp σ String α) : Comp (Jit σ) String α :=
  ⟨fun j => ((x.run j.module).1, { j with module := (x.run j.module).2 })⟩

/-- Count up, and declare a function under a name with the new number. The counter is a `u32`. -/
def declareNext (m : JITModule σ) (name : ℕ → String) : Comp (Jit σ) String FuncId := do
  modify fun j => { j with seq := (j.seq + 1) % 2 ^ 32 }
  let j ← get
  onModule (m.declareFunction (name j.seq))

/-- The declarations of the functions for some cells. -/
def declareNodes (m : JITModule σ) : List RecCell → Comp (Jit σ) String (List (RecCell × FuncId))
  | [] => pure []
  | cell :: cells => do
    let id ← declareNext m nodeName
    let recFns ← declareNodes m cells
    pure ((cell, id) :: recFns)

mutual

/-- The calls that `Emit::parse` emits for a type to the functions of cells. -/
def nodeCalls (recs : List (RecCell × FuncId)) : Ty → Except String (List FuncId)
  | .struct _ fields => fieldsCalls recs fields
  | .tuple fields => fieldsCalls recs fields
  | .vec elem _ _ _ => nodeCalls recs elem
  | .boxed inner _ _ => nodeCalls recs inner
  | .opt _ _ _ _ _ _ inner => nodeCalls recs inner
  | .map key _ val _ _ _ => do
    let ks ← nodeCalls recs key
    let vs ← nodeCalls recs val
    pure (ks ++ vs)
  | .ref cell =>
    match recs.lookup cell with
    | some fid => .ok [fid]
    | none => .error "no entry found for key"
  | .unknown _ => .error "jit parser: unknown type"
  | _ => .ok []

/-- The calls for the fields of a struct or tuple, in order. -/
def fieldsCalls (recs : List (RecCell × FuncId)) :
    List (FieldOf Ty) → Except String (List FuncId)
  | [] => .ok []
  | f :: fs => do
    let xs ← fieldCalls recs f
    let ys ← fieldsCalls recs fs
    pure (xs ++ ys)

/-- The calls for one field. -/
def fieldCalls (recs : List (RecCell × FuncId)) : FieldOf Ty → Except String (List FuncId)
  | ⟨_, _, ty⟩ => nodeCalls recs ty

end

/-- `emit_one`, and the definition of the function with what was emitted. -/
def defineOne (m : JITModule σ) (recs : List (RecCell × FuncId)) (fid : FuncId) (body : Ty) :
    Comp (Jit σ) String Unit :=
  match nodeCalls recs body with
  | .error e => fail e
  | .ok calls => onModule (m.defineFunction fid calls)

/-- The definitions of the functions for some cells. -/
def defineNodes (m : JITModule σ) (cells : Cells) (recs : List (RecCell × FuncId)) :
    List (RecCell × FuncId) → Comp (Jit σ) String Unit
  | [] => pure ()
  | (cell, fid) :: recFns =>
    match cells cell with
    | none => fail "recursive Ty cell not set"
    | some body => do
      defineOne m recs fid body
      defineNodes m cells recs recFns

/-- `collect_cells`, on an empty set and an empty vector. -/
def collected (cells : Cells) (d : ℕ) (ty : Ty) : Comp τ String (List RecCell) :=
  ⟨fun s =>
    match (collectCells cells d ty).run ⟨∅, []⟩ with
    | (.done _, c) => (.done c.out, s)
    | (.stop e, _) => (.stop e, s)
    | (.deep, _) => (.deep, s)
    | (.spent, _) => (.spent, s)⟩

/-- `Jit::compile_parser`, up to `finalize_definitions`. -/
def compileParser (m : JITModule σ) (cells : Cells) (d : ℕ) (ty : Ty) :
    Comp (Jit σ) String FuncId := do
  let out ← collected cells d ty
  let recFns ← declareNodes m out
  -- the map from cells to functions: the last insertion counts
  let recs := recFns.reverse
  defineNodes m cells recs recFns
  let fid ← declareNext m topName
  defineOne m recs fid ty
  pure fid

/-! ## Names -/

theorem toString_inj {n k : ℕ} (h : toString n = toString k) : n = k := by
  rw [Nat.toString_eq_ofList_toDigits, Nat.toString_eq_ofList_toDigits, String.ofList_inj] at h
  have hval := congrArg (fun ds => Nat.ofDigitChars 10 ds 0) h
  simpa only [Nat.ofDigitChars_ten_toDigits] using hval

theorem nodeName_inj {n k : ℕ} (h : nodeName n = nodeName k) : n = k :=
  toString_inj ((String.append_right_inj _).1 h)

theorem topName_inj {n k : ℕ} (h : topName n = topName k) : n = k :=
  toString_inj ((String.append_right_inj _).1 h)

/-- The name of a node function is not that of a parser: a number has no underscore. -/
theorem nodeName_ne_topName (n k : ℕ) : nodeName n ≠ topName k := by
  intro h
  have hlist := congrArg (fun name => name.toList.drop 6) h
  simp only [nodeName, topName, String.toList_append, Nat.toString_eq_repr, Nat.toList_repr] at hlist
  have hunder : '_' ∈ Nat.toDigits 10 k := by
    have heq : 'r' :: 'e' :: 'c' :: '_' :: Nat.toDigits 10 n = Nat.toDigits 10 k := hlist
    rw [← heq]
    simp
  have hdigit := Nat.isDigit_of_mem_toDigits (by decide) (by decide) hunder
  revert hdigit
  decide

/-- No shim has the name of a compiled function. -/
theorem shimNames_ne (n : ℕ) : ∀ name ∈ shimNames, name ≠ nodeName n ∧ name ≠ topName n := by
  have hp (rest : String) : ∀ name ∈ shimNames, name ≠ "parse_" ++ rest := by
    intro name hname heq
    have hhead : ∀ name ∈ shimNames, name.toList.head? ≠ some 'p' := by decide
    apply hhead name hname
    rw [heq, String.toList_append]
    rfl
  intro name hname
  refine ⟨?_, hp _ name hname⟩
  have hnode : nodeName n = "parse_" ++ ("rec_" ++ toString n) := by
    rw [nodeName, ← String.append_assoc]
    rfl
  rw [hnode]
  exact hp _ name hname

/-! ## What is emitted -/

mutual

/-- Whether a type has no unknown part; cells are not looked into. -/
def Ty.known : Ty → Bool
  | .struct _ fields => Ty.fieldsKnown fields
  | .tuple fields => Ty.fieldsKnown fields
  | .vec elem _ _ _ => elem.known
  | .boxed inner _ _ => inner.known
  | .opt _ _ _ _ _ _ inner => inner.known
  | .map key _ val _ _ _ => key.known && val.known
  | .unknown _ => false
  | _ => true

/-- Whether no field of a struct or tuple has an unknown part. -/
def Ty.fieldsKnown : List (FieldOf Ty) → Bool
  | [] => true
  | f :: fs => Ty.fieldKnown f && Ty.fieldsKnown fs

/-- Whether a field has no unknown part. -/
def Ty.fieldKnown : FieldOf Ty → Bool
  | ⟨_, _, ty⟩ => ty.known

end

/-- What is emitted for a type when its references have functions. -/
def emitted (fn : RecCell → FuncId) (known : Bool) (refs : List RecCell) :
    Except String (List FuncId) :=
  if known then .ok (refs.map fn) else .error "jit parser: unknown type"

/-- Two pieces of a type are emitted one after the other. -/
theorem emitted_append (fn : RecCell → FuncId) (a b : Bool) (xs ys : List RecCell) :
    emitted fn (a && b) (xs ++ ys) = (do
      let us ← emitted fn a xs
      let vs ← emitted fn b ys
      pure (us ++ vs)) := by
  unfold emitted
  cases a with
  | false => rfl
  | true =>
    cases b with
    | false => rfl
    | true =>
      rw [List.map_append]
      rfl

section

variable {recs : List (RecCell × FuncId)} {fn : RecCell → FuncId}

theorem fieldsCalls_eq {fields : List FieldTy}
    (ih : ∀ f ∈ fields, (∀ c ∈ f.ty.refs, recs.lookup c = some (fn c)) →
      nodeCalls recs f.ty = emitted fn f.ty.known f.ty.refs)
    (h : ∀ c ∈ Ty.fieldsRefs fields, recs.lookup c = some (fn c)) :
    fieldsCalls recs fields = emitted fn (Ty.fieldsKnown fields) (Ty.fieldsRefs fields) := by
  induction fields with
  | nil => rfl
  | cons f fs ihfs =>
    obtain ⟨name, off, ty⟩ := f
    rw [Ty.fieldsRefs, Ty.fieldRefs] at h ⊢
    rw [Ty.fieldsKnown, Ty.fieldKnown, fieldsCalls, fieldCalls, emitted_append]
    rw [ih _ List.mem_cons_self fun c hc => h c (List.mem_append_left _ hc),
      ihfs (fun g hg => ih g (List.mem_cons_of_mem _ hg)) fun c hc =>
        h c (List.mem_append_right _ hc)]

/-- Where every reference of a type has a function, the calls are those to the functions of its
references, unless the type has an unknown part. -/
theorem nodeCalls_eq {ty : Ty} (h : ∀ c ∈ ty.refs, recs.lookup c = some (fn c)) :
    nodeCalls recs ty = emitted fn ty.known ty.refs := by
  induction ty using Ty.induct with
  | struct name fields ih => exact fieldsCalls_eq ih h
  | tuple fields ih => exact fieldsCalls_eq ih h
  | vec elem esz eal seq ih => exact ih h
  | boxed inner size align ih => exact ih h
  | opt d ds nd sd po size inner ih => exact ih h
  | map key ks val vs na ins ihk ihv =>
    rw [Ty.refs] at h ⊢
    rw [nodeCalls, Ty.known, emitted_append, ihk fun c hc => h c (List.mem_append_left _ hc),
      ihv fun c hc => h c (List.mem_append_right _ hc)]
  | ref c =>
    rw [nodeCalls, h c (List.mem_singleton_self c)]
    rfl
  | _ => rfl

end

/-- The map from some cells to their functions, the last insertion first. -/
theorem lookup_reverse_map {fn : RecCell → FuncId} {out : List RecCell} {c : RecCell}
    (hc : c ∈ out) : ((out.map fun c => (c, fn c)).reverse).lookup c = some (fn c) := by
  rw [← List.map_reverse]
  have hrev : c ∈ out.reverse := List.mem_reverse.2 hc
  generalize out.reverse = l at hrev
  induction l with
  | nil => exact absurd hrev List.not_mem_nil
  | cons a l ih =>
    rw [List.map_cons, List.lookup_cons]
    by_cases ha : c = a
    · rw [ha, beq_self_eq_true]
    · rw [beq_eq_false_iff_ne.2 ha]
      exact ih ((List.mem_cons.1 hrev).resolve_left ha)

/-! ## Declarations -/

variable {m : JITModule σ} {j : Jit σ}

/-- Between two compilations: no number beyond the counter is in use, and what is defined has been
declared. -/
structure Jit.Ready (m : JITModule σ) (j : Jit σ) : Prop where
  unused : ∀ n, j.seq < n → ∀ x ∈ m.declared j.module, x.1 ≠ nodeName n ∧ x.1 ≠ topName n
  sound : ∀ x ∈ m.defined j.module, ∃ y ∈ m.declared j.module, y.2 = x.1

/-- Declarations under distinct new names leave a module without definitions, and with names of the
shims only. -/
theorem declareShims_run (hm : m.Documented) {names : List String} (hnames : names.Nodup)
    (hshim : ∀ name ∈ names, name ∈ shimNames) {s : σ} (hdef : m.defined s = [])
    (hnew : ∀ name ∈ names, ∀ x ∈ m.declared s, x.1 ≠ name)
    (hold : ∀ x ∈ m.declared s, x.1 ∈ shimNames) :
    ∃ ids s', (declareShims m names).run s = (.done ids, s') ∧ m.defined s' = [] ∧
      ∀ x ∈ m.declared s', x.1 ∈ shimNames := by
  induction names generalizing s with
  | nil => exact ⟨[], s, rfl, hdef, hold⟩
  | cons name names ih =>
    rw [List.nodup_cons] at hnames
    obtain ⟨fid, s₁, hrun, -, hdecl₁, hdef₁⟩ := hm.declare s name (hnew name List.mem_cons_self)
    have hdecl : ∀ x ∈ m.declared s₁, x ∈ m.declared s ∨ x.1 = name := by
      intro x hx
      rw [hdecl₁, List.mem_append, List.mem_singleton] at hx
      exact hx.imp_right (congrArg Prod.fst)
    -- the names are distinct, so the one just declared is not met again
    have hnew₁ : ∀ n ∈ names, ∀ x ∈ m.declared s₁, x.1 ≠ n := by
      intro n hn x hx
      rcases hdecl x hx with hx | hx
      · exact hnew n (List.mem_cons_of_mem _ hn) x hx
      · rw [hx]
        rintro rfl
        exact hnames.1 hn
    have hold₁ : ∀ x ∈ m.declared s₁, x.1 ∈ shimNames := by
      intro x hx
      rcases hdecl x hx with hx | hx
      · exact hold x hx
      · rw [hx]
        exact hshim name List.mem_cons_self
    obtain ⟨ids, s', hrun', hend⟩ := ih hnames.2 (fun n hn => hshim n (List.mem_cons_of_mem _ hn))
      (hdef₁.trans hdef) hnew₁ hold₁
    refine ⟨fid :: ids, s', ?_, hend⟩
    rw [declareShims, bind_done hrun, bind_done hrun']
    rfl

/-- `Jit::new` declares the shims, on a module without functions. -/
theorem declareShims_ready (hm : m.Documented) {s : σ} (hdecl : m.declared s = [])
    (hdef : m.defined s = []) :
    ∃ ids s', (declareShims m shimNames).run s = (.done ids, s') ∧ Jit.Ready m ⟨s', 0⟩ := by
  have hnone : ∀ x, x ∉ m.declared s := by
    intro x
    rw [hdecl]
    exact List.not_mem_nil
  obtain ⟨ids, s', hrun, hdef', hdecl'⟩ := declareShims_run hm (by decide) (fun _ h => h) hdef
    (fun _ _ x hx => absurd hx (hnone x)) fun x hx => absurd hx (hnone x)
  refine ⟨ids, s', hrun, fun n _ x hx => shimNames_ne n x.1 (hdecl' x hx), ?_⟩
  rw [hdef']
  exact fun x hx => absurd hx List.not_mem_nil

theorem onModule_done {α : Type} {x : Comp σ String α} {a : α} {s : σ}
    (h : x.run j.module = (.done a, s)) :
    (onModule x).run j = (.done a, { j with module := s }) := by
  show ((x.run j.module).1, _) = _
  rw [h]

/-- The next function has the next number, and is new. -/
theorem declareNext_run (hm : m.Documented) (hj : j.Ready m) (hseq : j.seq + 1 < 2 ^ 32)
    {name : ℕ → String} (hname : name = nodeName ∨ name = topName) :
    ∃ fid j', (declareNext m name).run j = (.done fid, j') ∧
      (∀ x ∈ m.declared j.module, x.2 ≠ fid) ∧
      m.declared j'.module = m.declared j.module ++ [(name (j.seq + 1), fid)] ∧
      m.defined j'.module = m.defined j.module ∧ j'.seq = j.seq + 1 ∧ j'.Ready m := by
  have hnew : ∀ x ∈ m.declared j.module, x.1 ≠ name (j.seq + 1) := by
    intro x hx
    have hunused := hj.unused (j.seq + 1) (Nat.lt_succ_self _) x hx
    rcases hname with rfl | rfl
    · exact hunused.1
    · exact hunused.2
  obtain ⟨fid, s', hrun, hid, hdecl, hdef⟩ := hm.declare j.module _ hnew
  refine ⟨fid, ⟨s', j.seq + 1⟩, ?_, hid, hdecl, hdef, rfl, ?_, ?_⟩
  · rw [declareNext, modify_bind_run, get_bind_run, Nat.mod_eq_of_lt hseq]
    exact onModule_done hrun
  · intro n hn x hx
    have hlt : j.seq < n := Nat.lt_of_succ_lt hn
    rw [hdecl, List.mem_append, List.mem_singleton] at hx
    rcases hx with hx | rfl
    · exact hj.unused n hlt x hx
    · -- the name just used has a smaller number
      have hne : j.seq + 1 ≠ n := Nat.ne_of_lt hn
      rcases hname with rfl | rfl
      · exact ⟨fun h => hne (nodeName_inj h), nodeName_ne_topName _ _⟩
      · exact ⟨fun h => nodeName_ne_topName _ _ h.symm, fun h => hne (topName_inj h)⟩
  · intro x hx
    rw [hdef] at hx
    obtain ⟨y, hy, heq⟩ := hj.sound x hx
    exact ⟨y, by rw [hdecl]; exact List.mem_append_left _ hy, heq⟩

/-- Each cell gets a function of its own, under the numbers that follow. -/
theorem declareNodes_run (hm : m.Documented) {out : List RecCell} (hout : out.Nodup)
    (hj : j.Ready m) (hseq : j.seq + out.length < 2 ^ 32) :
    ∃ fn j', (declareNodes m out).run j = (.done (out.map fun c => (c, fn c)), j') ∧
      (out.map fn).Nodup ∧ (∀ c ∈ out, ∀ x ∈ m.declared j.module, x.2 ≠ fn c) ∧
      m.declared j'.module = m.declared j.module ++
        (out.zipIdx (j.seq + 1)).map (fun x => (nodeName x.2, fn x.1)) ∧
      m.defined j'.module = m.defined j.module ∧ j'.seq = j.seq + out.length ∧ j'.Ready m := by
  induction out generalizing j with
  | nil =>
    refine ⟨fun _ => 0, j, rfl, List.nodup_nil, fun c hc => absurd hc List.not_mem_nil, ?_, rfl, rfl,
      hj⟩
    exact (List.append_nil _).symm
  | cons c out ih =>
    rw [List.nodup_cons] at hout
    rw [List.length_cons] at hseq
    obtain ⟨fid, j₁, hrun, hid, hdecl, hdef, hseq₁, hj₁⟩ :=
      declareNext_run hm hj (by omega) (.inl rfl)
    obtain ⟨fn, j', hrun', hnodup, hnew, hdecl', hdef', hseq', hj'⟩ := ih hout.2 hj₁ (by omega)
    -- the function of the first cell is put beside those of the others
    have hself : Function.update fn c fid c = fid := Function.update_self c fid fn
    have hfn : ∀ x ∈ out, Function.update fn c fid x = fn x := by
      intro x hx
      refine Function.update_of_ne ?_ fid fn
      rintro rfl
      exact hout.1 hx
    have hnew₁ : ∀ x ∈ out, fn x ≠ fid ∧ ∀ y ∈ m.declared j.module, y.2 ≠ fn x := by
      intro x hx
      have hx₁ := hnew x hx
      rw [hdecl] at hx₁
      exact ⟨(hx₁ _ (List.mem_append_right _ List.mem_cons_self)).symm,
        fun y hy => hx₁ y (List.mem_append_left _ hy)⟩
    refine ⟨Function.update fn c fid, j', ?_, ?_, ?_, ?_, hdef'.trans hdef, ?_, hj'⟩
    · have hmap : (out.map fun x => (x, Function.update fn c fid x)) = out.map fun x => (x, fn x) :=
        List.map_congr_left fun x hx => by rw [hfn x hx]
      rw [declareNodes, bind_done hrun, bind_done hrun', List.map_cons, hself, hmap]
      rfl
    · rw [List.map_cons, hself, List.map_congr_left hfn, List.nodup_cons]
      refine ⟨?_, hnodup⟩
      intro hmem
      obtain ⟨x, hx, heq⟩ := List.mem_map.1 hmem
      exact (hnew₁ x hx).1 heq
    · intro x hx
      rcases List.mem_cons.1 hx with rfl | hx
      · rw [hself]
        exact hid
      · rw [hfn x hx]
        exact (hnew₁ x hx).2
    · rw [hdecl', hdecl, hseq₁, List.zipIdx_cons, List.map_cons, hself, List.append_assoc,
        List.singleton_append]
      congr 2
      refine List.map_congr_left fun x hx => ?_
      rw [hfn x.1 (List.fst_mem_of_mem_zipIdx hx)]
    · rw [hseq', hseq₁, List.length_cons]
      omega

/-! ## Definitions -/

section

variable {cells : Cells} {recs : List (RecCell × FuncId)} {fn : RecCell → FuncId}
  {out : List RecCell}

/-- Every one of some cells is set, and has a function that is declared and that the map finds; the
cells refer to each other only. -/
structure NodesLinked (m : JITModule σ) (cells : Cells) (recs : List (RecCell × FuncId))
    (fn : RecCell → FuncId) (out : List RecCell) (j : Jit σ) : Prop where
  found : ∀ c ∈ out, recs.lookup c = some (fn c)
  declared : ∀ c ∈ out, ∃ x ∈ m.declared j.module, x.2 = fn c
  bodies : ∀ c ∈ out, ∃ body, cells c = some body ∧ ∀ c' ∈ body.refs, c' ∈ out

/-- Cells stay linked when more is declared. -/
theorem NodesLinked.mono {j' : Jit σ} (h : NodesLinked m cells recs fn out j)
    (hdecl : m.declared j.module ⊆ m.declared j'.module) : NodesLinked m cells recs fn out j' := by
  refine ⟨h.found, fun c hc => ?_, h.bodies⟩
  obtain ⟨x, hx, heq⟩ := h.declared c hc
  exact ⟨x, hdecl hx, heq⟩

theorem NodesLinked.calls (h : NodesLinked m cells recs fn out j) {body : Ty}
    (hrefs : ∀ c ∈ body.refs, c ∈ out) :
    nodeCalls recs body = emitted fn body.known body.refs :=
  nodeCalls_eq fun c hc => h.found c (hrefs c hc)

/-- A function without a definition is defined with calls to the functions of its references. -/
theorem defineOne_known (hm : m.Documented) (h : NodesLinked m cells recs fn out j) {fid : FuncId}
    {body : Ty} (hrefs : ∀ c ∈ body.refs, c ∈ out) (hknown : body.known = true)
    (hdecl : ∃ x ∈ m.declared j.module, x.2 = fid) (hnew : ∀ x ∈ m.defined j.module, x.1 ≠ fid) :
    ∃ j', (defineOne m recs fid body).run j = (.done (), j') ∧
      m.declared j'.module = m.declared j.module ∧
      m.defined j'.module = m.defined j.module ++ [(fid, body.refs.map fn)] ∧ j'.seq = j.seq := by
  have hcalls : ∀ f ∈ body.refs.map fn, ∃ x ∈ m.declared j.module, x.2 = f := by
    intro f hf
    obtain ⟨c, hc, rfl⟩ := List.mem_map.1 hf
    exact h.declared c (hrefs c hc)
  obtain ⟨s', hrun, hdecl', hdef'⟩ := hm.define j.module fid _ hdecl hnew hcalls
  refine ⟨{ j with module := s' }, ?_, hdecl', hdef', rfl⟩
  rw [defineOne, h.calls hrefs, emitted, hknown]
  exact onModule_done hrun

theorem defineOne_unknown (h : NodesLinked m cells recs fn out j) (fid : FuncId) {body : Ty}
    (hrefs : ∀ c ∈ body.refs, c ∈ out) (hunknown : body.known = false) :
    (defineOne m recs fid body).run j = (.stop "jit parser: unknown type", j) := by
  rw [defineOne, h.calls hrefs, emitted, hunknown]
  rfl

/-- What the functions of some cells are defined with. -/
def nodeDefs (cells : Cells) (fn : RecCell → FuncId) (cs : List RecCell) :
    List (FuncId × List FuncId) :=
  cs.map fun c => (fn c, (bodyRefs cells c).map fn)

/-- A definition for one cell is not one for a cell whose function is another. -/
theorem undefined_after {j₁ : Jit σ} {c : RecCell} {cs : List RecCell} {calls : List FuncId}
    (hdef : m.defined j₁.module = m.defined j.module ++ [(fn c, calls)])
    (hc : fn c ∉ cs.map fn) (hnew : ∀ x ∈ c :: cs, ∀ y ∈ m.defined j.module, y.1 ≠ fn x) :
    ∀ x ∈ cs, ∀ y ∈ m.defined j₁.module, y.1 ≠ fn x := by
  intro x hx y hy
  rw [hdef, List.mem_append, List.mem_singleton] at hy
  rcases hy with hy | rfl
  · exact hnew x (List.mem_cons_of_mem _ hx) y hy
  · intro heq
    exact hc (List.mem_map.2 ⟨x, hx, heq.symm⟩)

theorem defineNodes_known (hm : m.Documented) {cs : List RecCell} (hcs : ∀ c ∈ cs, c ∈ out)
    (hfn : (cs.map fn).Nodup) (h : NodesLinked m cells recs fn out j)
    (hnew : ∀ c ∈ cs, ∀ x ∈ m.defined j.module, x.1 ≠ fn c)
    (hknown : ∀ c ∈ cs, ∀ body ∈ cells c, body.known = true) :
    ∃ j', (defineNodes m cells recs (cs.map fun c => (c, fn c))).run j = (.done (), j') ∧
      m.declared j'.module = m.declared j.module ∧
      m.defined j'.module = m.defined j.module ++ nodeDefs cells fn cs ∧ j'.seq = j.seq := by
  induction cs generalizing j with
  | nil => exact ⟨j, rfl, rfl, (List.append_nil _).symm, rfl⟩
  | cons c cs ih =>
    rw [List.map_cons, List.nodup_cons] at hfn
    have hc := hcs c List.mem_cons_self
    obtain ⟨body, hbody, hrefs⟩ := h.bodies c hc
    obtain ⟨j₁, hrun, hdecl, hdef, hseq⟩ := defineOne_known hm h hrefs
      (hknown c List.mem_cons_self body hbody) (h.declared c hc) (hnew c List.mem_cons_self)
    have hnew₁ := undefined_after hdef hfn.1 hnew
    obtain ⟨j', hrun', hdecl', hdef', hseq'⟩ := ih (fun x hx => hcs x (List.mem_cons_of_mem _ hx))
      hfn.2 (h.mono (by rw [hdecl]; exact List.Subset.refl _)) hnew₁
      fun x hx => hknown x (List.mem_cons_of_mem _ hx)
    refine ⟨j', ?_, hdecl'.trans hdecl, ?_, hseq'.trans hseq⟩
    · rw [List.map_cons, defineNodes, hbody]
      exact (bind_done hrun).trans hrun'
    · rw [hdef', hdef, List.append_assoc, nodeDefs, nodeDefs, List.map_cons, bodyRefs, hbody]
      rfl

/-- The first cell with an unknown part ends the definitions. -/
theorem defineNodes_unknown (hm : m.Documented) {cs : List RecCell} (hcs : ∀ c ∈ cs, c ∈ out)
    (hfn : (cs.map fn).Nodup) (h : NodesLinked m cells recs fn out j)
    (hnew : ∀ c ∈ cs, ∀ x ∈ m.defined j.module, x.1 ≠ fn c)
    (hunknown : ∃ c ∈ cs, ∃ body ∈ cells c, body.known = false) :
    ∃ j', (defineNodes m cells recs (cs.map fun c => (c, fn c))).run j =
      (.stop "jit parser: unknown type", j') := by
  induction cs generalizing j with
  | nil =>
    obtain ⟨c, hc, -⟩ := hunknown
    exact absurd hc List.not_mem_nil
  | cons c cs ih =>
    rw [List.map_cons, List.nodup_cons] at hfn
    have hc := hcs c List.mem_cons_self
    obtain ⟨body, hbody, hrefs⟩ := h.bodies c hc
    rw [List.map_cons, defineNodes, hbody]
    -- the panic is here or, by induction, behind this cell
    cases hknown : body.known with
    | false =>
      refine ⟨j, ?_⟩
      dsimp only
      rw [bind_run, defineOne_unknown h _ hrefs hknown]
    | true =>
      obtain ⟨j₁, hrun, hdecl, hdef, -⟩ := defineOne_known hm h hrefs hknown (h.declared c hc)
        (hnew c List.mem_cons_self)
      have hnew₁ := undefined_after hdef hfn.1 hnew
      have hrest : ∃ c ∈ cs, ∃ body ∈ cells c, body.known = false := by
        obtain ⟨x, hx, b, hb, hunk⟩ := hunknown
        rcases List.mem_cons.1 hx with rfl | hx
        · rw [hbody] at hb
          obtain rfl := Option.some.inj hb
          rw [hknown] at hunk
          cases hunk
        · exact ⟨x, hx, b, hb, hunk⟩
      obtain ⟨j', hrun'⟩ := ih (fun x hx => hcs x (List.mem_cons_of_mem _ hx)) hfn.2
        (h.mono (by rw [hdecl]; exact List.Subset.refl _)) hnew₁ hrest
      exact ⟨j', (bind_done hrun).trans hrun'⟩

end

/-! ## The compiled functions -/

/-- What a compilation adds to a module: one function for each cell and one for the type, each
declared and defined once and calling the functions of the cells that it refers to. -/
structure Compiled (m : JITModule σ) (cells : Cells) (ty : Ty) (out : List RecCell)
    (fn : RecCell → FuncId) (top : FuncId) (j j' : Jit σ) : Prop where
  declared : m.declared j'.module = m.declared j.module ++
    (out.zipIdx (j.seq + 1)).map (fun x => (nodeName x.2, fn x.1)) ++
    [(topName (j.seq + out.length + 1), top)]
  defined : m.defined j'.module = m.defined j.module ++ nodeDefs cells fn out ++
    [(top, ty.refs.map fn)]
  distinct : (out.map fn ++ [top]).Nodup
  new : ∀ fid ∈ out.map fn ++ [top], ∀ x ∈ m.declared j.module, x.2 ≠ fid
  ready : j'.Ready m

variable {cells : Cells} {ty : Ty} {out : List RecCell}

theorem collected_runs {c : Collected}
    (h : Runs (fun _ d => collectCells cells d ty) ⟨∅, []⟩ () c) (t : τ) :
    Runs (fun _ d => collected cells d ty) t c.out t := by
  obtain ⟨N, hN⟩ := h
  refine ⟨N, fun n hn d hd => ?_⟩
  show (collected cells d ty).run t = _
  unfold collected
  dsimp only
  rw [hN n hn d hd]

theorem Jit.Ready.of_defined {j' : Jit σ} (hj : j.Ready m)
    (hdecl : m.declared j'.module = m.declared j.module) (hseq : j'.seq = j.seq)
    (hdef : ∀ x ∈ m.defined j'.module, x ∈ m.defined j.module ∨
      ∃ y ∈ m.declared j.module, y.2 = x.1) : j'.Ready m := by
  refine ⟨fun n hn x hx => ?_, fun x hx => ?_⟩
  · rw [hdecl] at hx
    exact hj.unused n (hseq ▸ hn) x hx
  · rw [hdecl]
    rcases hdef x hx with hx | hx
    · exact hj.sound x hx
    · exact hx

/-- The declarations of node functions link the cells. -/
theorem nodesLinked_declared {fn : RecCell → FuncId} {j₁ : Jit σ} {n : ℕ}
    (hdecl : m.declared j₁.module = m.declared j.module ++
      (out.zipIdx n).map fun x => (nodeName x.2, fn x.1))
    (hbodies : ∀ c ∈ out, ∃ body, cells c = some body ∧ ∀ c' ∈ body.refs, c' ∈ out) :
    NodesLinked m cells (out.map fun c => (c, fn c)).reverse fn out j₁ := by
  refine ⟨fun c hc => lookup_reverse_map hc, fun c hc => ?_, hbodies⟩
  rw [← List.zipIdx_map_fst n out] at hc
  obtain ⟨x, hx, rfl⟩ := List.mem_map.1 hc
  refine ⟨(nodeName x.2, fn x.1), ?_, rfl⟩
  rw [hdecl]
  exact List.mem_append_right _ (List.mem_map_of_mem hx)

/-- The functions of some cells are declared, and none of them is defined. -/
structure NodesDeclared (m : JITModule σ) (cells : Cells) (out : List RecCell)
    (fn : RecCell → FuncId) (j j₁ : Jit σ) : Prop where
  declared : m.declared j₁.module = m.declared j.module ++
    (out.zipIdx (j.seq + 1)).map fun x => (nodeName x.2, fn x.1)
  defined : m.defined j₁.module = m.defined j.module
  seq : j₁.seq = j.seq + out.length
  distinct : (out.map fn).Nodup
  new : ∀ c ∈ out, ∀ x ∈ m.declared j.module, x.2 ≠ fn c
  undefined : ∀ c ∈ out, ∀ x ∈ m.defined j₁.module, x.1 ≠ fn c
  linked : NodesLinked m cells (out.map fun c => (c, fn c)).reverse fn out j₁
  ready : j₁.Ready m

theorem exists_nodesDeclared (hm : m.Documented) (hj : j.Ready m) (hout : out.Nodup)
    (hseq : j.seq + out.length < 2 ^ 32)
    (hbodies : ∀ c ∈ out, ∃ body, cells c = some body ∧ ∀ c' ∈ body.refs, c' ∈ out) :
    ∃ fn j₁, (declareNodes m out).run j = (.done (out.map fun c => (c, fn c)), j₁) ∧
      NodesDeclared m cells out fn j j₁ := by
  obtain ⟨fn, j₁, hrun, hfn, hnew, hdecl, hdef, hseq₁, hj₁⟩ := declareNodes_run hm hout hj hseq
  refine ⟨fn, j₁, hrun, hdecl, hdef, hseq₁, hfn, hnew, fun c hc x hx => ?_,
    nodesLinked_declared hdecl hbodies, hj₁⟩
  -- whatever is defined was declared before, and the function of the cell was not
  rw [hdef] at hx
  obtain ⟨y, hy, heq⟩ := hj.sound x hx
  rw [← heq]
  exact hnew c hc y hy

/-- When the functions of the cells are defined, that of the type is declared. -/
theorem NodesDeclared.declareTop {fn : RecCell → FuncId} {j₁ j₂ : Jit σ} (hm : m.Documented)
    (h : NodesDeclared m cells out fn j j₁) (hseq : j.seq + out.length + 1 < 2 ^ 32)
    (hdecl₂ : m.declared j₂.module = m.declared j₁.module)
    (hdef₂ : m.defined j₂.module = m.defined j₁.module ++ nodeDefs cells fn out)
    (hseq₂ : j₂.seq = j₁.seq) :
    ∃ top j₃, (declareNext m topName).run j₂ = (.done top, j₃) ∧
      m.declared j₃.module = m.declared j₁.module ++ [(topName (j.seq + out.length + 1), top)] ∧
      m.defined j₃.module = m.defined j₂.module ∧
      NodesLinked m cells (out.map fun c => (c, fn c)).reverse fn out j₃ ∧
      (∀ x ∈ m.declared j₁.module, x.2 ≠ top) ∧ (∀ x ∈ m.defined j₂.module, x.1 ≠ top) ∧
      j₃.Ready m := by
  have hj₂ : j₂.Ready m := by
    refine h.ready.of_defined hdecl₂ hseq₂ fun x hx => ?_
    rw [hdef₂, List.mem_append] at hx
    refine hx.imp_right fun hx => ?_
    obtain ⟨c, hc, rfl⟩ := List.mem_map.1 hx
    exact h.linked.declared c hc
  -- numbers are handed out in order, so the next one is as stated
  have hnext : j₂.seq + 1 = j.seq + out.length + 1 := by rw [hseq₂, h.seq]
  obtain ⟨top, j₃, hrun, hid, hdecl₃, hdef₃, -, hj₃⟩ :=
    declareNext_run hm hj₂ (by rw [hnext]; exact hseq) (.inr rfl)
  rw [hnext, hdecl₂] at hdecl₃
  refine ⟨top, j₃, hrun, hdecl₃, hdef₃, ?_, ?_, ?_, hj₃⟩
  · apply h.linked.mono
    rw [hdecl₃]
    exact List.subset_append_left _ _
  · rw [← hdecl₂]
    exact hid
  · intro x hx
    obtain ⟨y, hy, heq⟩ := hj₂.sound x hx
    rw [← heq]
    exact hid y hy

/-- Compilation of a type without unknown parts, once its cells are collected. -/
theorem compile_known (hm : m.Documented) (hj : j.Ready m) (hout : out.Nodup)
    (hseq : j.seq + out.length + 1 < 2 ^ 32)
    (hbodies : ∀ c ∈ out, ∃ body, cells c = some body ∧ ∀ c' ∈ body.refs, c' ∈ out)
    (hty : ∀ c ∈ ty.refs, c ∈ out) (hknown : ty.known = true)
    (hcells : ∀ c ∈ out, ∀ body ∈ cells c, body.known = true) :
    ∃ fn top j', Compiled m cells ty out fn top j j' ∧
      ∀ d, (collected cells d ty).run j = (.done out, j) →
        (compileParser m cells d ty).run j = (.done top, j') := by
  -- declare the nodes, define them, then declare and define the function on top
  obtain ⟨fn, j₁, hrun₁, h₁⟩ := exists_nodesDeclared hm hj hout (by omega) hbodies
  obtain ⟨j₂, hrun₂, hdecl₂, hdef₂, hseq₂⟩ :=
    defineNodes_known hm (fun _ hc => hc) h₁.distinct h₁.linked h₁.undefined hcells
  obtain ⟨top, j₃, hrun₃, hdecl₃, hdef₃, hlinked, hnew, htop, hj₃⟩ :=
    h₁.declareTop hm hseq hdecl₂ hdef₂ hseq₂
  have hmem : (topName (j.seq + out.length + 1), top) ∈ m.declared j₃.module := by
    rw [hdecl₃]
    exact List.mem_append_right _ List.mem_cons_self
  obtain ⟨j', hrun', hdecl', hdef', hseq'⟩ := defineOne_known hm hlinked hty hknown
    ⟨_, hmem, rfl⟩ (by rw [hdef₃]; exact htop)
  refine ⟨fn, top, j', ⟨?_, ?_, ?_, ?_, ?_⟩, fun d hd => ?_⟩
  · rw [hdecl', hdecl₃, h₁.declared]
  · rw [hdef', hdef₃, hdef₂, h₁.defined]
  -- the function on top is none of the nodes
  · rw [List.nodup_append]
    refine ⟨h₁.distinct, List.nodup_singleton top, fun x hx y hy => ?_⟩
    obtain ⟨c, hc, rfl⟩ := List.mem_map.1 hx
    obtain ⟨z, hz, heq⟩ := h₁.linked.declared c hc
    rw [List.mem_singleton.1 hy, ← heq]
    exact hnew z hz
  · intro x hx y hy
    rcases List.mem_append.1 hx with hx | hx
    · obtain ⟨c, hc, rfl⟩ := List.mem_map.1 hx
      exact h₁.new c hc y hy
    · rw [List.mem_singleton.1 hx]
      apply hnew
      rw [h₁.declared]
      exact List.mem_append_left _ hy
  · refine hj₃.of_defined hdecl' hseq' fun x hx => ?_
    rw [hdef', List.mem_append, List.mem_singleton] at hx
    refine hx.imp_right fun hx => ?_
    exact ⟨_, hmem, by rw [hx]⟩
  · rw [compileParser, bind_done hd, bind_done hrun₁]
    dsimp only
    rw [bind_done hrun₂, bind_done hrun₃, bind_done hrun']
    rfl

/-- With an unknown part somewhere, compilation panics there. -/
theorem compile_unknown (hm : m.Documented) (hj : j.Ready m) (hout : out.Nodup)
    (hseq : j.seq + out.length + 1 < 2 ^ 32)
    (hbodies : ∀ c ∈ out, ∃ body, cells c = some body ∧ ∀ c' ∈ body.refs, c' ∈ out)
    (hty : ∀ c ∈ ty.refs, c ∈ out)
    (hunknown : ¬ (ty.known = true ∧ ∀ c ∈ out, ∀ body ∈ cells c, body.known = true)) :
    ∃ j', ∀ d, (collected cells d ty).run j = (.done out, j) →
      (compileParser m cells d ty).run j = (.stop "jit parser: unknown type", j') := by
  obtain ⟨fn, j₁, hrun₁, h₁⟩ := exists_nodesDeclared hm hj hout (by omega) hbodies
  by_cases hcells : ∀ c ∈ out, ∀ body ∈ cells c, body.known = true
  · -- the cells are fine, so it is the type
    have hno : ty.known = false := Bool.eq_false_of_not_eq_true fun h => hunknown ⟨h, hcells⟩
    obtain ⟨j₂, hrun₂, hdecl₂, hdef₂, hseq₂⟩ :=
      defineNodes_known hm (fun _ hc => hc) h₁.distinct h₁.linked h₁.undefined hcells
    obtain ⟨top, j₃, hrun₃, -, -, hlinked, -⟩ := h₁.declareTop hm hseq hdecl₂ hdef₂ hseq₂
    refine ⟨j₃, fun d hd => ?_⟩
    rw [compileParser, bind_done hd, bind_done hrun₁]
    dsimp only
    rw [bind_done hrun₂, bind_done hrun₃, bind_run, defineOne_unknown hlinked top hty hno]
  · have hsome : ∃ c ∈ out, ∃ body ∈ cells c, body.known = false := by
      push Not at hcells
      obtain ⟨c, hc, body, hbody, hno⟩ := hcells
      exact ⟨c, hc, body, hbody, Bool.eq_false_of_not_eq_true hno⟩
    obtain ⟨j₂, hrun₂⟩ :=
      defineNodes_unknown hm (fun _ hc => hc) h₁.distinct h₁.linked h₁.undefined hsome
    refine ⟨j₂, fun d hd => ?_⟩
    rw [compileParser, bind_done hd, bind_done hrun₁]
    dsimp only
    rw [bind_run, hrun₂]

/-- `collect_cells` returns each cell that can be reached once, and `compile_parser` declares and
defines one function for each, unless it meets an unknown type. -/
theorem compileParser_nodes (m : JITModule σ) (hm : m.Documented) (cells : Cells)
    (V : Finset RecCell) (hV : Enclosed cells V) (ty : Ty) (hty : ∀ c ∈ ty.refs, c ∈ V)
    (j : Jit σ) (hj : j.Ready m) (hseq : j.seq + V.card + 1 < 2 ^ 32) :
    ∃ out : List RecCell, out.Nodup ∧ (∀ c, c ∈ out ↔ Reaches cells ty c) ∧
      Runs (fun _ d => collectCells cells d ty) ⟨∅, []⟩ () ⟨out.toFinset, out⟩ ∧
      ((ty.known = true ∧ ∀ c ∈ out, ∀ body ∈ cells c, body.known = true) →
        ∃ fn top j', Compiled m cells ty out fn top j j' ∧
          Runs (fun _ d => compileParser m cells d ty) j top j') ∧
      (¬ (ty.known = true ∧ ∀ c ∈ out, ∀ body ∈ cells c, body.known = true) →
        ∃ N j', ∀ d ≥ N, (compileParser m cells d ty).run j =
          (.stop "jit parser: unknown type", j')) := by
  obtain ⟨out, hout, hmem, hrun⟩ := collectCells_complete hV hty
  -- the cells found are among those that enclose the type
  have hlen : out.length ≤ V.card := by
    rw [← List.toFinset_card_of_nodup hout]
    apply Finset.card_le_card
    intro c hc
    exact hV.of_reaches hty ((hmem c).1 (List.mem_toFinset.1 hc))
  have hroots : ∀ c ∈ ty.refs, c ∈ out := fun c hc => (hmem c).2 (.here hc)
  have hbodies : ∀ c ∈ out, ∃ body, cells c = some body ∧ ∀ c' ∈ body.refs, c' ∈ out := by
    intro c hc
    have hreach := (hmem c).1 hc
    obtain ⟨body, hbody, -⟩ := hV c (hV.of_reaches hty hreach)
    exact ⟨body, hbody, fun c' hc' => (hmem c').2 (hreach.through hbody hc')⟩
  obtain ⟨N, hN⟩ := collected_runs hrun j
  refine ⟨out, hout, hmem, hrun, fun hknown => ?_, fun hunknown => ?_⟩
  · obtain ⟨fn, top, j', hcompiled, hcomp⟩ :=
      compile_known hm hj hout (by omega) hbodies hroots hknown.1 hknown.2
    exact ⟨fn, top, j', hcompiled, N, fun n hn d hd => hcomp d (hN n hn d hd)⟩
  · obtain ⟨j', hcomp⟩ := compile_unknown hm hj hout (by omega) hbodies hroots hunknown
    exact ⟨N, j', fun d hd => hcomp d (hN N (Nat.le_refl N) d hd)⟩

/-- A module that numbers its functions in the order of their declarations. -/
def listModule : JITModule (List String × List (FuncId × List FuncId)) where
  declareFunction name := ⟨fun s =>
    match s.1.idxOf? name with
    | some fid => (.done fid, s)
    | none => (.done s.1.length, (s.1 ++ [name], s.2))⟩
  defineFunction fid calls := ⟨fun s =>
    if s.2.any fun x => x.1 == fid then (.stop "DuplicateDefinition", s)
    else (.done (), (s.1, s.2 ++ [(fid, calls)]))⟩
  declared s := s.1.zipIdx
  defined s := s.2

theorem listModule_documented : listModule.Documented := by
  refine ⟨fun s name hnew => ?_, fun s fid calls _ hnew _ => ?_⟩
  · have hnone : s.1.idxOf? name = none := by
      rw [List.idxOf?_eq_none_iff]
      intro hmem
      rw [← List.zipIdx_map_fst 0 s.1] at hmem
      obtain ⟨x, hx, heq⟩ := List.mem_map.1 hmem
      exact hnew x hx heq
    refine ⟨s.1.length, (s.1 ++ [name], s.2), ?_, fun x hx => ?_, ?_, rfl⟩
    · show (match s.1.idxOf? name with
        | some fid => (Outcome.done fid, s)
        | none => (.done s.1.length, (s.1 ++ [name], s.2))) = _
      rw [hnone]
    · exact Nat.ne_of_lt (List.snd_lt_of_mem_zipIdx hx)
    · show (s.1 ++ [name]).zipIdx = _
      rw [List.zipIdx_append, Nat.zero_add]
      rfl
  · refine ⟨(s.1, s.2 ++ [(fid, calls)]), if_neg ?_, rfl, rfl⟩
    rw [List.any_eq_true]
    rintro ⟨x, hx, heq⟩
    exact hnew x hx (beq_iff_eq.1 heq)

/-- The module behind a new `Jit`. -/
theorem listModule_ready : Jit.Ready listModule ⟨(shimNames, []), 0⟩ := by
  obtain ⟨ids, s', hrun, hready⟩ :=
    declareShims_ready (s := ([], [])) listModule_documented rfl rfl
  have heq : (declareShims listModule shimNames).run ([], []) =
      (.done (List.range 8), (shimNames, [])) := by
    decide
  rw [heq] at hrun
  cases hrun
  exact hready

/-- `struct Node { next: Option<Box<Node>>, named: BTreeMap<String, Vec<Node>> }`, with a cell for
the node and one for the vector. -/
def nodeCells : Cells
  | 0 => some (.struct "Node" [⟨"next", 0, .opt 0 8 0 none 0 8 (.boxed (.ref 0) 32 8)⟩,
      ⟨"named", 8, .map (.str ⟨0, 8, 16⟩) 24 (.ref 1) 24 0 0⟩])
  | 1 => some (.vec (.ref 0) 32 8 ⟨0, 8, 16⟩)
  | _ => none

theorem compileParser_nodes_nodeCells :
    ∃ out : List RecCell, out.Nodup ∧ (∀ c, c ∈ out ↔ Reaches nodeCells (.ref 0) c) ∧
      Runs (fun _ d => collectCells nodeCells d (.ref 0)) ⟨∅, []⟩ () ⟨out.toFinset, out⟩ ∧
      (((Ty.ref 0).known = true ∧ ∀ c ∈ out, ∀ body ∈ nodeCells c, body.known = true) →
        ∃ fn top j', Compiled listModule nodeCells (.ref 0) out fn top ⟨(shimNames, []), 0⟩ j' ∧
          Runs (fun _ d => compileParser listModule nodeCells d (.ref 0))
            ⟨(shimNames, []), 0⟩ top j') ∧
      (¬ ((Ty.ref 0).known = true ∧ ∀ c ∈ out, ∀ body ∈ nodeCells c, body.known = true) →
        ∃ N j', ∀ d ≥ N, (compileParser listModule nodeCells d (.ref 0)).run
          ⟨(shimNames, []), 0⟩ = (.stop "jit parser: unknown type", j')) := by
  refine compileParser_nodes listModule listModule_documented nodeCells {0, 1} ?_ (.ref 0) ?_
    ⟨(shimNames, []), 0⟩ listModule_ready (by decide)
  · intro c hc
    rw [Finset.mem_insert, Finset.mem_singleton] at hc
    rcases hc with rfl | rfl
    · exact ⟨_, rfl, by decide⟩
    · exact ⟨_, rfl, by decide⟩
  · decide

/-- A function with an unknown part is declared and not defined. When the counter has wrapped, a
name is used again, and a function is defined twice. -/
theorem compileParser_panics :
    (compileParser listModule (fun _ => some (.unknown "u128")) 9 (.ref 0)).run
        ⟨(shimNames, []), 0⟩ =
      (.stop "jit parser: unknown type", ⟨(shimNames ++ ["parse_rec_1"], []), 1⟩) ∧
    Jit.Ready listModule ⟨(["parse_rec_1"], [(0, [])]), 2 ^ 32 - 1⟩ ∧
    (compileParser listModule (fun _ => some .bool) 9
        (.tuple [⟨"0", 0, .ref 0⟩, ⟨"1", 8, .ref 1⟩])).run
        ⟨(["parse_rec_1"], [(0, [])]), 2 ^ 32 - 1⟩ =
      (.stop "DuplicateDefinition",
        ⟨(["parse_rec_1", "parse_rec_0"], [(0, []), (1, [])]), 1⟩) := by
  refine ⟨rfl, ⟨fun n hn x hx => ?_, ?_⟩, rfl⟩
  · obtain rfl : x = (nodeName 1, 0) := List.mem_singleton.1 hx
    have hlt : 1 < n := Nat.lt_trans (by decide) hn
    exact ⟨fun h => Nat.ne_of_lt hlt (nodeName_inj h), nodeName_ne_topName 1 n⟩
  · intro x hx
    obtain rfl := List.mem_singleton.1 hx
    exact ⟨("parse_rec_1", 0), List.mem_cons_self, rfl⟩

end Bilbo
