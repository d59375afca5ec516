import Bilbo.Halting

/-!
# Which trampoline a map gets

`resolve_tramp` compares the type argument in the name of a `map_insert` function, which is
fully qualified, with the name of a value type's entry, which is not, by dropping the module
path of both. Types that differ in what is dropped are the same to it, and the first function
in the debug information that passes is taken.
-/

namespace Bilbo

open Base Calls

/-- How a value type is spelled: the modules that its entry's name leaves out, and that
name. -/
structure ValueTy where
  path : List String
  dieName : String
deriving DecidableEq, Repr

/-- The fully qualified spelling. -/
def ValueTy.full (v : ValueTy) : String := v.path.foldr (fun m s => m ++ "::" ++ s) v.dieName

/-- The name of `map_insert` monomorphized for a value type. -/
def ValueTy.insertName (v : ValueTy) : String := "map_insert<" ++ v.full ++ ">"

section Search

variable (st : Store)

/-- The run-time address of a subprogram. -/
def codeAddr (s : Site) : Option ℕ :=
  match attrAt st s .lowPc with
  | some (.addr lo) => some (lo + st.imageSlide)
  | _ => none

/-- The type argument in the name of a function called `fnPrefix`. -/
def typeArg (fnPrefix : String) (s : Site) : Option (List Char) :=
  let name := ((dieName st s).getD "").toList
  if fnPrefix.toList.isPrefixOf name then
    (name.findIdx? (· == '<')).bind fun lt => templateArgs name lt
  else none

/-- A `map_insert` function with code whose normalized type argument is that of the entry. -/
def matchesValue (v : ValueTy) (s : Site) : Bool :=
  (typeArg st "map_insert" s).map normTy == some (normTy v.dieName.toList) &&
    (codeAddr st s).isSome

/-- The address of the function monomorphized for `v` itself. -/
def OwnAddr (v : ValueTy) (a : ℕ) : Prop :=
  ∃ s ∈ subprograms st, dieName st s = some v.insertName ∧ codeAddr st s = some a

end Search

variable {st : Store}

/-- One function either ends the search with its address, or is passed over, or panics. -/
theorem trampHere_eq_ret {fnPrefix : String} {want : List Char} {s : Site} {r : Option ℕ}
    (h : trampHere st fnPrefix want true s = ret r) :
    r = if (typeArg st fnPrefix s).map normTy == some want then codeAddr st s else none := by
  obtain ⟨-, h⟩ := (gives_dieNameM st s).bind_eq_ret h
  unfold typeArg
  dsimp only at h ⊢
  by_cases hp : fnPrefix.toList.isPrefixOf ((dieName st s).getD "").toList = true
  · rw [if_pos hp, if_pos rfl] at h
    rw [if_pos hp]
    -- a name with the prefix: no bracket, an open one, or the argument
    rcases hlt : ((dieName st s).getD "").toList.findIdx? (· == '<') with _ | lt
    · rw [hlt] at h
      cases h
      rfl
    · rw [hlt] at h
      dsimp only at h
      rcases harg : templateArgs ((dieName st s).getD "").toList lt with _ | inner
      · rw [harg] at h
        cases h
      · rw [harg] at h
        cases h
        show (if normTy inner = want then codeAddr st s else none) =
          if (templateArgs ((dieName st s).getD "").toList lt).map normTy == some want then
            codeAddr st s else none
        rw [harg]
        by_cases hw : normTy inner = want
        · rw [if_pos hw, if_pos (by rw [Option.map_some, hw]; exact beq_self_eq_true _)]
        · have hne : ((some inner).map normTy == some want) = false :=
            beq_eq_false_iff_ne.2 fun hc => hw (Option.some.inj hc)
          rw [if_neg hw, hne, if_neg Bool.false_ne_true]
  · rw [if_neg hp] at h
    cases h
    rw [if_neg hp]
    rfl

/-- A search that returns has found the first that gives something. -/
theorem firstSome_eq_ret {α : Type} {f : Site → Body (Option α)} {p : Site → Bool}
    {g : Site → Option α} (hf : ∀ s r, f s = ret r → r = if p s then g s else none)
    {l : List Site} {r : Option α} (h : firstSome f l = ret r) :
    r = (l.find? fun s => p s && (g s).isSome).bind g := by
  induction l with
  | nil =>
    cases h
    rfl
  | cons s l ih =>
    obtain ⟨r', hr', h⟩ := bind_eq_ret h
    have hs := hf s r' hr'
    rw [List.find?_cons]
    rcases r' with _ | a
    · -- passed over
      have hnot : (p s && (g s).isSome) = false := by
        by_cases hp : p s = true
        · rw [if_pos hp] at hs
          rw [hp, ← hs]
          rfl
        · rw [Bool.eq_false_iff.2 hp, Bool.false_and]
      rw [hnot]
      exact ih h
    · cases h
      by_cases hp : p s = true
      · rw [if_pos hp] at hs
        have hyes : (p s && (g s).isSome) = true := by
          rw [hp, ← hs]
          rfl
        rw [hyes]
        exact hs
      · rw [if_neg hp] at hs
        cases hs

/-- The trampoline is the first function that matches. -/
theorem resolveTramp_eq_ret {v : ValueTy} {r : Option ℕ}
    (h : resolveTramp st "map_insert" v.dieName true = ret r) :
    r = ((subprograms st).find? (matchesValue st v)).bind (codeAddr st) :=
  firstSome_eq_ret (fun _ _ => trampHere_eq_ret) h

/-- The trampoline returned for a value type is the one monomorphized for it exactly when the
first `map_insert` function whose type argument has the same normal form, if there is one,
has the address of that instance. -/
theorem resolveTramp_own_iff (st : Store) (v : ValueTy) (r : Option ℕ)
    (hret : resolveTramp st "map_insert" v.dieName true = ret r) :
    (∀ a, r = some a → OwnAddr st v a) ↔
      ∀ s ∈ (subprograms st).find? (matchesValue st v), ∀ a ∈ codeAddr st s,
        OwnAddr st v a := by
  rw [resolveTramp_eq_ret hret]
  constructor
  · intro h s hs a ha
    apply h
    rw [hs]
    exact ha
  · intro h a ha
    obtain ⟨s, hs, hsa⟩ := Option.bind_eq_some_iff.1 ha
    exact h s hs a hsa

/-! ## What `norm_ty` identifies -/

/-- The entry of a struct or an enum: the modules are names, and so is what the entry's name
starts with. -/
def ValueTy.IsPath (v : ValueTy) : Prop :=
  (∀ m ∈ v.path, '<' ∉ m.toList) ∧ ':' ∉ v.dieName.toList.takeWhile (· != '<')

theorem toList_full (v : ValueTy) :
    v.full.toList = (v.path.flatMap fun m => m.toList ++ [':', ':']) ++ v.dieName.toList := by
  obtain ⟨path, dieName⟩ := v
  unfold ValueTy.full
  induction path with
  | nil => rfl
  | cons m path ih =>
    dsimp only at ih ⊢
    rw [List.foldr_cons, String.toList_append, String.toList_append, ih, List.flatMap_cons,
      List.append_assoc, List.append_assoc, List.append_assoc]
    rfl

theorem leafRev_name {l : List Char} (h : ':' ∉ l) : leafRev l = l := by
  induction l with
  | nil => rfl
  | cons c l ih =>
    rw [List.mem_cons, not_or] at h
    rw [leafRev, ih h.2]
    intro l' hc
    exact absurd hc.symm h.1

theorem leafRev_path {l : List Char} (h : ':' ∉ l) (r : List Char) :
    leafRev (l ++ ':' :: ':' :: r) = l := by
  induction l with
  | nil => rfl
  | cons c l ih =>
    rw [List.mem_cons, not_or] at h
    rw [List.cons_append, leafRev, ih h.2]
    intro l' hc
    exact absurd hc.symm h.1

/-- Of a path, `norm_ty` keeps the entry's name: types of one name in different modules are
one type to it. -/
theorem normTy_full {v : ValueTy} (hv : v.IsPath) :
    normTy v.full.toList = v.dieName.toList := by
  have hmods : ∀ c ∈ v.path.flatMap fun m => m.toList ++ [':', ':'], (c != '<') = true := by
    intro c hc
    obtain ⟨m, hm, hc⟩ := List.mem_flatMap.1 hc
    rw [bne_iff_ne]
    rintro rfl
    rcases List.mem_append.1 hc with hc | hc
    · exact hv.1 m hm hc
    · exact absurd hc (by decide)
  have hleaf : leafRev ((v.path.flatMap fun m => m.toList ++ [':', ':']) ++
      v.dieName.toList.takeWhile (· != '<')).reverse =
        (v.dieName.toList.takeWhile (· != '<')).reverse := by
    have hname : ':' ∉ (v.dieName.toList.takeWhile (· != '<')).reverse := by
      rw [List.mem_reverse]
      exact hv.2
    rcases List.eq_nil_or_concat v.path with hp | ⟨init, m, hp⟩
    · rw [hp]
      exact leafRev_name hname
    · -- the last module ends in `::`
      rw [hp, List.concat_eq_append, List.flatMap_append, List.flatMap_singleton, List.reverse_append,
        List.reverse_append, List.reverse_append]
      exact leafRev_path hname _
  unfold normTy
  dsimp only
  rw [toList_full, List.takeWhile_append_of_pos hmods, hleaf, List.reverse_reverse,
    List.length_append, ← List.drop_drop, List.drop_left]
  have htake : v.dieName.toList.takeWhile (· != '<') =
      v.dieName.toList.take (v.dieName.toList.takeWhile (· != '<')).length :=
    List.prefix_iff_eq_take.1 (List.takeWhile_prefix _)
  calc v.dieName.toList.takeWhile (· != '<') ++
        v.dieName.toList.drop (v.dieName.toList.takeWhile (· != '<')).length
      = v.dieName.toList.take (v.dieName.toList.takeWhile (· != '<')).length ++
        v.dieName.toList.drop (v.dieName.toList.takeWhile (· != '<')).length := by rw [← htake]
    _ = v.dieName.toList := List.take_append_drop _ _

/-- The type argument of an instance is the full spelling. -/
theorem typeArg_insertName {s : Site} {w : ValueTy} (hname : dieName st s = some w.insertName) :
    typeArg st "map_insert" s = some w.full.toList := by
  have hlist : ((dieName st s).getD "").toList =
      "map_insert<".toList ++ (w.full.toList ++ ['>']) := by
    rw [hname]
    show w.insertName.toList = _
    unfold ValueTy.insertName
    rw [String.toList_append, String.toList_append, List.append_assoc]
    rfl
  have hprefix : "map_insert".toList.isPrefixOf
      ("map_insert<".toList ++ (w.full.toList ++ ['>'])) = true := rfl
  have hlt : ("map_insert<".toList ++ (w.full.toList ++ ['>'])).findIdx? (· == '<') =
      some 10 := rfl
  have hargs : templateArgs ("map_insert<".toList ++ (w.full.toList ++ ['>'])) 10 =
      some w.full.toList := by
    have hdrop : ("map_insert<".toList ++ (w.full.toList ++ ['>'])).drop (10 + 1) =
        w.full.toList ++ ['>'] := rfl
    unfold templateArgs
    rw [hdrop, List.getLast?_append_of_ne_nil _ (List.cons_ne_nil _ _), List.dropLast_concat]
    rfl
  unfold typeArg
  dsimp only
  rw [hlist, if_pos hprefix, hlt, Option.bind_some, hargs]

/-- The instance of a struct or an enum passes for every one of the same name. -/
theorem matchesValue_iff {s : Site} {v w : ValueTy} (hname : dieName st s = some w.insertName)
    (hw : w.IsPath) (hv : v.IsPath) :
    matchesValue st v s = true ↔ w.dieName = v.dieName ∧ (codeAddr st s).isSome = true := by
  have hnorm : normTy v.dieName.toList = v.dieName.toList := by
    have hself : (⟨[], v.dieName⟩ : ValueTy).IsPath :=
      ⟨fun m hm => absurd hm List.not_mem_nil, hv.2⟩
    have hfull : (⟨[], v.dieName⟩ : ValueTy).full = v.dieName := rfl
    have hkept := normTy_full hself
    rwa [hfull] at hkept
  unfold matchesValue
  rw [typeArg_insertName hname, Option.map_some, normTy_full hw, hnorm, Bool.and_eq_true,
    beq_iff_eq, Option.some_inj, String.toList_inj]

/-- The first function for a struct or an enum of the value type's bare name, with the type that it is
for. -/
structure FirstNamed (st : Store) (v w : ValueTy) (s : Site) : Prop where
  path : w.IsPath
  name : dieName st s = some w.insertName
  same : w.dieName = v.dieName
  addr : (codeAddr st s).isSome = true
  first : ∃ before after, subprograms st = before ++ s :: after ∧
    ∀ s' ∈ before, ∀ w' : ValueTy, w'.IsPath → dieName st s' = some w'.insertName →
      w'.dieName ≠ v.dieName ∨ (codeAddr st s').isSome = false

/-- Among functions for structs and enums the search takes the first one of the bare name. -/
theorem find_matchesValue_iff {v : ValueTy} (hv : v.IsPath)
    (hinst : ∀ s ∈ subprograms st, matchesValue st v s = true →
      ∃ w : ValueTy, w.IsPath ∧ dieName st s = some w.insertName) {s : Site} :
    (subprograms st).find? (matchesValue st v) = some s ↔ ∃ w, FirstNamed st v w s := by
  rw [List.find?_eq_some_iff_append]
  constructor
  · rintro ⟨hs, before, after, hsplit, hbefore⟩
    have hmem : s ∈ subprograms st := by
      rw [hsplit]
      exact List.mem_append_right _ List.mem_cons_self
    obtain ⟨w, hw, hname⟩ := hinst s hmem hs
    obtain ⟨hsame, haddr⟩ := (matchesValue_iff hname hw hv).1 hs
    refine ⟨w, hw, hname, hsame, haddr, before, after, hsplit, fun s' hs' w' hw' hname' => ?_⟩
    have hnot : ¬ matchesValue st v s' = true := by
      have hpassed := hbefore s' hs'
      rwa [Bool.not_eq_true', ← Bool.not_eq_true] at hpassed
    rw [matchesValue_iff hname' hw' hv, not_and_or, Bool.not_eq_true] at hnot
    exact hnot
  · rintro ⟨w, hw, hname, hsame, haddr, before, after, hsplit, hbefore⟩
    refine ⟨(matchesValue_iff hname hw hv).2 ⟨hsame, haddr⟩, before, after, hsplit, fun s' hs' => ?_⟩
    rw [Bool.not_eq_true', ← Bool.not_eq_true]
    intro hpassed
    -- a function that passes is one for a struct or an enum
    have hmem : s' ∈ subprograms st := by
      rw [hsplit]
      exact List.mem_append_left _ hs'
    obtain ⟨w', hw', hname'⟩ := hinst s' hmem hpassed
    obtain ⟨hsame', haddr'⟩ := (matchesValue_iff hname' hw' hv).1 hpassed
    rcases hbefore s' hs' w' hw' hname' with hne | hnone
    · exact hne hsame'
    · rw [hnone] at haddr'
      cases haddr'

/-- So for a struct or an enum the trampoline is its own exactly when the first function for a type of
its bare name, in whatever module, has the address of its instance. -/
theorem resolveTramp_path_iff {v : ValueTy} {r : Option ℕ} (hv : v.IsPath)
    (hinst : ∀ s ∈ subprograms st, matchesValue st v s = true →
      ∃ w : ValueTy, w.IsPath ∧ dieName st s = some w.insertName)
    (hret : resolveTramp st "map_insert" v.dieName true = ret r) :
    (∀ a, r = some a → OwnAddr st v a) ↔
      ∀ s w, FirstNamed st v w s → ∀ a ∈ codeAddr st s, OwnAddr st v a := by
  rw [resolveTramp_eq_ret hret]
  constructor
  · intro h s w hfirst a ha
    apply h
    rw [(find_matchesValue_iff hv hinst).2 ⟨w, hfirst⟩]
    exact ha
  · intro h a ha
    obtain ⟨s, hs, hsa⟩ := Option.bind_eq_some_iff.1 ha
    obtain ⟨w, hfirst⟩ := (find_matchesValue_iff hv hinst).1 hs
    exact h s w hfirst a hsa

/-! ## Two types of one name -/

/-- A `map_insert` function at an address. -/
def insertDie (o : Off) (v : ValueTy) (pc : ℕ) : Die :=
  .plain o .subprogram [(.name, .string v.insertName), (.lowPc, .addr pc)] []

/-- `map_insert` for `a::Config` at 100 and for `b::Config` at 200. -/
def twoInserts : Store :=
  ⟨[⟨.plain 0 (.other 0x11) [] [
    insertDie 1 ⟨["a"], "Config"⟩ 100, insertDie 2 ⟨["b"], "Config"⟩ 200]⟩], 0⟩

theorem resolveTramp_own_iff_config :
    (∀ a, some 100 = some a → OwnAddr twoInserts ⟨["a"], "Config"⟩ a) ↔
      ∀ s ∈ (subprograms twoInserts).find? (matchesValue twoInserts ⟨["a"], "Config"⟩),
        ∀ a ∈ codeAddr twoInserts s, OwnAddr twoInserts ⟨["a"], "Config"⟩ a :=
  resolveTramp_own_iff twoInserts ⟨["a"], "Config"⟩ (some 100) rfl

/-- A map of `b::Config` values inserts with the function for `a::Config`; and tuples that end
in one module path are one type to `norm_ty`. -/
theorem resolveTramp_twoInserts :
    resolveTramp twoInserts "map_insert" "Config" true = ret (some 100) ∧
      ¬ OwnAddr twoInserts ⟨["b"], "Config"⟩ 100 ∧
      normTy "(u8, alloc::string::String)".toList =
        normTy "(u16, alloc::string::String)".toList := by
  refine ⟨rfl, ?_, by decide⟩
  rintro ⟨s, hs, hname, haddr⟩
  have hsub : subprograms twoInserts = [(0, 1), (0, 2)] := by decide
  rw [hsub, List.mem_cons, List.mem_singleton] at hs
  rcases hs with rfl | rfl
  · exact absurd hname (by decide)
  · exact absurd haddr (by decide)

end Bilbo
