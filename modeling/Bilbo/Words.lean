import Mathlib.Data.List.Perm.Basic
import Bilbo.Extent

/-!
# The words of a `String` or `Vec`

What `walk_seq` looks for, without the state it carries: the pointer, capacity and length words
below a type, each with the offsets of the members on the way to it. Where no word is there twice,
the walk is a fold over this list, and the layout it fills in does not depend on the order of the
list.
-/

namespace Bilbo

open Base Calls

/-! ## Slots -/

/-- What a word holds. -/
inductive Slot where
  | ptr
  | cap
  | len
deriving DecidableEq, Repr

/-- The offset in a slot. -/
def SeqLayout.get (sl : SeqLayout) : Slot → ℕ
  | .ptr => sl.ptrOff
  | .cap => sl.capOff
  | .len => sl.lenOff

/-- Fill a slot. -/
def SeqLayout.set (sl : SeqLayout) (k : Slot) (off : ℕ) : SeqLayout :=
  match k with
  | .ptr => { sl with ptrOff := off }
  | .cap => { sl with capOff := off }
  | .len => { sl with lenOff := off }

@[simp] theorem SeqLayout.get_set_self (sl : SeqLayout) (k : Slot) (off : ℕ) :
    (sl.set k off).get k = off := by
  cases k <;> rfl

theorem SeqLayout.get_set_of_ne {sl : SeqLayout} {j k : Slot} {off : ℕ} (h : j ≠ k) :
    (sl.set k off).get j = sl.get j := by
  cases k <;> cases j <;> first | rfl | exact absurd rfl h

theorem SeqLayout.ext_get {sl sl' : SeqLayout} (h : ∀ k, sl.get k = sl'.get k) : sl = sl' := by
  obtain ⟨p, c, l⟩ := sl
  obtain ⟨p', c', l'⟩ := sl'
  obtain rfl : p = p' := h .ptr
  obtain rfl : c = c' := h .cap
  obtain rfl : l = l' := h .len
  rfl

/-- The slot that a member of a struct names. -/
def slotOf (name : String) : Option Slot :=
  if name = "cap" ∨ name = "capacity" then some .cap
  else if name = "len" ∨ name = "length" then some .len
  else none

/-! ## Words -/

/-- A slot, and the offsets of the members on the way to it. -/
abbrev Word := Slot × List ℕ

section

variable (st : Store)

/-- The words in a member, given those in its type. -/
def memberWords (below : Site → Option (List Word)) (ui : ℕ) (m : Off) :
    Option (List Word) := do
  let name ← dieNameRead st (ui, m)
  let inType :=
    match slotOf (name.getD "") with
    | some k => some [(k, [])]
    | none => (typeRefRead st (ui, m)).bind fun t =>
      match t with
      | some mt => below (ui, mt)
      | none => some []
  inType.map fun ws => ws.map fun w => (w.1, offsetOf st ui m :: w.2)

/-- The words in a type: pointers, and members that name a slot, which are not looked into.
`none` when there are types more than `n` deep, no entry behind a reference, or a chain of
references that never ends. -/
def words : ℕ → Site → Option (List Word)
  | 0, _ => none
  | n + 1, s => do
    let p ← stripped st s
    let p ← now (defSiteM st p)
    let t ← tagAt st p
    if t = .pointerType then some [(.ptr, [])]
    else if t.isAggregate then
      let ws ← (childrenWithTag st p .member).mapM (memberWords st (words n) p.1)
      some ws.flatten
    else some []

end

/-- Exactly one word for each slot, at the offset that the layout has for it. -/
def Located (ws : List Word) (sl : SeqLayout) : Prop :=
  ∀ k, ∃ path, ws.filter (fun w => w.1 = k) = [(k, path)] ∧ sl.get k = path.sum

/-! ## The walk fills in the words -/

/-- Note a word that lies in a type at some offset. -/
def place (base : ℕ) (sl : SeqLayout) (w : Word) : SeqLayout := sl.set w.1 (base + w.2.sum)

/-- No word is there twice, and the slots of all are empty. -/
structure Vacant (ws : List Word) (sl : SeqLayout) : Prop where
  nodup : (ws.map Prod.fst).Nodup
  empty : ∀ w ∈ ws, sl.get w.1 = usizeMax

theorem get_foldl_place {ws : List Word} {sl : SeqLayout} {base : ℕ} {k : Slot}
    (h : k ∉ ws.map Prod.fst) : (ws.foldl (place base) sl).get k = sl.get k := by
  induction ws generalizing sl with
  | nil => rfl
  | cons w ws ih =>
    rw [List.map_cons, List.mem_cons, not_or] at h
    rw [List.foldl_cons, ih h.2, place, SeqLayout.get_set_of_ne h.1]

theorem Vacant.left {ws ws' : List Word} {sl : SeqLayout} (h : Vacant (ws ++ ws') sl) :
    Vacant ws sl := by
  obtain ⟨hnodup, hempty⟩ := h
  rw [List.map_append] at hnodup
  exact ⟨hnodup.of_append_left, fun w hw => hempty w (List.mem_append_left _ hw)⟩

/-- Filling in the first words leaves the slots of the others empty. -/
theorem Vacant.right {ws ws' : List Word} {sl : SeqLayout} (h : Vacant (ws ++ ws') sl) (base : ℕ) :
    Vacant ws' (ws.foldl (place base) sl) := by
  obtain ⟨hnodup, hempty⟩ := h
  rw [List.map_append] at hnodup
  refine ⟨hnodup.of_append_right, fun w hw => ?_⟩
  have hnot : w.1 ∉ ws.map Prod.fst := by
    intro hmem
    exact List.disjoint_of_nodup_append hnodup hmem (List.mem_map_of_mem hw)
  rw [get_foldl_place hnot]
  exact hempty w (List.mem_append_right _ hw)

/-- What `walk_seq` does with one member. -/
def walkMember (st : Store) (n : ℕ) (base ui : ℕ) (sl : SeqLayout) (m : Off) :
    Body SeqLayout := do
  let name := (← dieNameM st (ui, m)).getD ""
  if (name = "cap" ∨ name = "capacity") ∧ sl.capOff = usizeMax then
    pure { sl with capOff := base + offsetOf st ui m }
  else if (name = "len" ∨ name = "length") ∧ sl.lenOff = usizeMax then
    pure { sl with lenOff := base + offsetOf st ui m }
  else
    match ← typeRefM st (ui, m) with
    | some mt => walkSeq st n (ui, mt) (base + offsetOf st ui m) sl
    | none => pure sl

variable {st : Store}

theorem walkSeq_succ {n base : ℕ} {s p q : Site} {t : DwTag} {sl : SeqLayout}
    (hs : stripped st s = some p) (hq : defSiteM st p = ret q) (ht : tagAt st q = some t) :
    walkSeq st (n + 1) s base sl =
      if t = .pointerType ∧ sl.ptrOff = usizeMax then ret { sl with ptrOff := base }
      else if t.isAggregate then
        (childrenWithTag st q .member).foldlM (walkMember st n base q.1) sl
      else ret sl := by
  have htag : tag st q = ret t := by
    rw [tag, ht]
    rfl
  rw [walkSeq, (stripped_eq_some st).1 hs, ret_bind, hq, ret_bind, htag, ret_bind]
  rfl

/-- Below an offset, the words are those of the type with the offset put in front. -/
theorem foldl_place_cons (ws : List Word) (base off : ℕ) (sl : SeqLayout) :
    (ws.map fun w => (w.1, off :: w.2)).foldl (place base) sl =
      ws.foldl (place (base + off)) sl := by
  rw [List.foldl_map]
  congr 1
  funext sl w
  rw [place, place, List.sum_cons, Nat.add_assoc]

theorem walkMember_words {n base ui : ℕ} {m : Off} {ws : List Word} {sl : SeqLayout}
    (ih : ∀ s base sl ws, words st n s = some ws → Vacant ws sl →
      walkSeq st n s base sl = ret (ws.foldl (place base) sl))
    (hws : memberWords st (words st n) ui m = some ws) (hv : Vacant ws sl) :
    walkMember st n base ui sl m = ret (ws.foldl (place base) sl) := by
  obtain ⟨name, hname, hws⟩ := Option.bind_eq_some_iff.1 hws
  obtain ⟨below, hbelow, rfl⟩ := Option.map_eq_some_iff.1 hws
  have hread : dieNameM st (ui, m) = ret name := by
    rw [dieNameM, hname]
    rfl
  rw [foldl_place_cons]
  have hempty : ∀ w ∈ below, sl.get w.1 = usizeMax := fun w hw =>
    hv.empty (w.1, offsetOf st ui m :: w.2) (List.mem_map.2 ⟨w, hw, rfl⟩)
  have hvacant : Vacant below sl := by
    refine ⟨?_, hempty⟩
    have hnodup := hv.nodup
    rw [List.map_map] at hnodup
    exact hnodup
  unfold slotOf at hbelow
  rw [walkMember, hread, ret_bind]
  dsimp only
  by_cases hcap : name.getD "" = "cap" ∨ name.getD "" = "capacity"
  · rw [if_pos hcap] at hbelow
    obtain rfl := Option.some.inj hbelow
    rw [if_pos ⟨hcap, hempty _ List.mem_cons_self⟩]
    rfl
  rw [if_neg hcap] at hbelow
  rw [if_neg fun h => hcap h.1]
  by_cases hlen : name.getD "" = "len" ∨ name.getD "" = "length"
  · rw [if_pos hlen] at hbelow
    obtain rfl := Option.some.inj hbelow
    rw [if_pos ⟨hlen, hempty _ List.mem_cons_self⟩]
    rfl
  -- any other member is walked into
  rw [if_neg hlen] at hbelow
  rw [if_neg fun h => hlen h.1]
  obtain ⟨mt, hmt, hbelow⟩ := Option.bind_eq_some_iff.1 hbelow
  have hread : typeRefM st (ui, m) = ret mt := by
    rw [typeRefM, hmt]
    rfl
  rw [hread, ret_bind]
  cases mt with
  | none =>
    obtain rfl := Option.some.inj hbelow
    rfl
  | some mt => exact ih _ _ _ _ hbelow hvacant

theorem foldlM_words {n base ui : ℕ} {ms : List Off} {wss : List (List Word)} {sl : SeqLayout}
    (ih : ∀ s base sl ws, words st n s = some ws → Vacant ws sl →
      walkSeq st n s base sl = ret (ws.foldl (place base) sl))
    (hms : ms.mapM (memberWords st (words st n) ui) = some wss) (hv : Vacant wss.flatten sl) :
    ms.foldlM (walkMember st n base ui) sl = ret (wss.flatten.foldl (place base) sl) := by
  induction ms generalizing sl wss with
  | nil =>
    obtain rfl : [] = wss := Option.some.inj hms
    rfl
  | cons m ms ihms =>
    rw [List.mapM_cons] at hms
    obtain ⟨ws, hws, hms⟩ := Option.bind_eq_some_iff.1 hms
    obtain ⟨wss', hms', heq⟩ := Option.bind_eq_some_iff.1 hms
    obtain rfl := Option.some.inj heq
    rw [List.flatten_cons] at hv ⊢
    rw [List.foldlM_cons, walkMember_words ih hws hv.left, ret_bind, List.foldl_append]
    exact ihms hms' (hv.right base)

/-- Where every word has its own empty slot, the walk fills in the words. -/
theorem walkSeq_words {n : ℕ} {s : Site} {base : ℕ} {sl : SeqLayout} {ws : List Word}
    (hws : words st n s = some ws) (hv : Vacant ws sl) :
    walkSeq st n s base sl = ret (ws.foldl (place base) sl) := by
  induction n generalizing s base sl ws with
  | zero => cases hws
  | succ n ih =>
    rw [words] at hws
    obtain ⟨p, hs, hws⟩ := Option.bind_eq_some_iff.1 hws
    obtain ⟨q, hq, hws⟩ := Option.bind_eq_some_iff.1 hws
    obtain ⟨t, ht, hws⟩ := Option.bind_eq_some_iff.1 hws
    rw [walkSeq_succ hs (now_eq_some.1 hq) ht]
    -- a pointer is the word itself, an aggregate has those of its members
    by_cases hptr : t = .pointerType
    · rw [if_pos hptr] at hws
      obtain rfl := Option.some.inj hws
      rw [if_pos ⟨hptr, hv.empty _ List.mem_cons_self⟩]
      rfl
    rw [if_neg hptr] at hws
    rw [if_neg fun h => hptr h.1]
    by_cases hagg : t.isAggregate = true
    · rw [if_pos hagg] at hws
      obtain ⟨wss, hms, heq⟩ := Option.bind_eq_some_iff.1 hws
      obtain rfl := Option.some.inj heq
      rw [if_pos hagg]
      exact foldlM_words (fun s base sl ws => ih) hms hv
    · rw [if_neg hagg] at hws
      obtain rfl := Option.some.inj hws
      rw [if_neg hagg]
      rfl

/-! ## The layout -/

theorem Located.nodup {ws : List Word} {sl : SeqLayout} (h : Located ws sl) :
    (ws.map Prod.fst).Nodup := by
  rw [List.nodup_iff_count_le_one]
  intro k
  obtain ⟨path, hone, -⟩ := h k
  have hcount : (ws.map Prod.fst).count k = (ws.filter fun w => w.1 = k).length := by
    rw [List.count, List.countP_map, List.countP_eq_length_filter]
    rfl
  rw [hcount, hone]
  exact Nat.le_refl 1

/-- In a list without a slot twice, a word is what its slot is filled with. -/
theorem get_foldl_place_of_mem {ws : List Word} {sl : SeqLayout} {base : ℕ} {w : Word}
    (hnodup : (ws.map Prod.fst).Nodup) (hw : w ∈ ws) :
    (ws.foldl (place base) sl).get w.1 = base + w.2.sum := by
  induction ws generalizing sl with
  | nil => exact absurd hw List.not_mem_nil
  | cons v ws ih =>
    rw [List.map_cons, List.nodup_cons] at hnodup
    rw [List.foldl_cons]
    rcases List.mem_cons.1 hw with rfl | hw
    · rw [get_foldl_place hnodup.1, place, SeqLayout.get_set_self]
    · exact ih hnodup.2 hw

/-- A layout is found when every slot has one word, and none lies at the offset that stands for an
empty slot. -/
theorem seqLayout_located {s : Site} {ws : List Word} {sl : SeqLayout}
    (hws : words st 17 s = some ws) (hloc : Located ws sl) (hmax : ∀ k, sl.get k ≠ usizeMax) :
    seqLayout st s = ret sl := by
  have hv : Vacant ws ⟨usizeMax, usizeMax, usizeMax⟩ := by
    refine ⟨hloc.nodup, fun w _ => ?_⟩
    cases w.1 <;> rfl
  have hsl : ws.foldl (place 0) ⟨usizeMax, usizeMax, usizeMax⟩ = sl := by
    apply SeqLayout.ext_get
    intro k
    obtain ⟨path, hone, hget⟩ := hloc k
    have hmem : (k, path) ∈ ws := by
      have hself : (k, path) ∈ ws.filter fun w => w.1 = k := by
        rw [hone]
        exact List.mem_cons_self
      exact (List.mem_filter.1 hself).1
    rw [get_foldl_place_of_mem hloc.nodup hmem, hget, Nat.zero_add]
  rw [seqLayout, walkSeq_words hws hv, ret_bind, hsl]
  exact if_pos ⟨hmax .ptr, hmax .cap, hmax .len⟩

/-- The order of the words does not matter. -/
theorem Located.perm {ws ws' : List Word} {sl : SeqLayout} (h : Located ws sl)
    (hp : ws.Perm ws') : Located ws' sl := by
  intro k
  obtain ⟨path, hone, hget⟩ := h k
  refine ⟨path, ?_, hget⟩
  have hfilter := hp.filter fun w => w.1 = k
  rw [hone] at hfilter
  exact List.perm_singleton.1 hfilter.symm

end Bilbo
