import Bilbo.Bindings
import Bilbo.Dispatch

/-!
# Structs and tuples

Fields are put in place one after the other, in any order: a field keeps its value while others
are parsed, because fields do not overlap and what they point to lies above the old break.
-/

namespace Bilbo

open Base Comp

variable {env : Env} {sz : RecCell → Option ℕ} {inp : Input} {fields : List FieldTy}

/-! ## Putting fields in place -/

/-- What is left of a list from `k` on starts with its `k`-th element. -/
theorem of_drop_eq_cons {α : Type} {xs l : List α} {x : α} {k : ℕ} (h : xs.drop k = x :: l) :
    xs[k]? = some x ∧ xs.drop (k + 1) = l := by
  constructor
  · have hhead := congrArg List.head? h
    rwa [List.head?_drop, List.head?_cons] at hhead
  · rw [← List.drop_drop, h]
    rfl

/-- From `s` to `s'` some fields at `dst` have been put in place: field `i` with the value `v`
when `P i v`. -/
structure Filled (cells : Cells) (sz : RecCell → Option ℕ) (fields : List FieldTy)
    (s s' : State) (dst : ℕ) (P : ℕ → Val → Prop) : Prop where
  writes : Writes s s' dst (Ty.fieldsSpan sz fields)
  holds : ∀ i f v, fields[i]? = some f → P i v →
    Holds cells sz s' s.brk s'.brk f.ty v (dst + f.offset)

theorem FieldsApart.ne (h : FieldsApart sz fields) {i j : ℕ} {f g : FieldTy}
    (hf : fields[i]? = some f) (hg : fields[j]? = some g) (hij : i ≠ j) :
    Apart f.offset (f.ty.span sz) g.offset (g.ty.span sz) := by
  obtain ⟨hi, rfl⟩ := List.getElem?_eq_some_iff.1 hf
  obtain ⟨hj, rfl⟩ := List.getElem?_eq_some_iff.1 hg
  rcases Nat.lt_or_gt_of_ne hij with hlt | hlt
  · exact List.pairwise_iff_getElem.1 h i j hi hj hlt
  · exact (List.pairwise_iff_getElem.1 h j i hj hi hlt).symm

theorem filled_start (cells : Cells) (s : State) (dst : ℕ) :
    Filled cells sz fields s s dst fun _ _ => False :=
  ⟨Writes.refl _ _ _, fun _ _ _ _ h => h.elim⟩

theorem Filled.weaken {cells : Cells} {s s' : State} {dst : ℕ} {P P' : ℕ → Val → Prop}
    (h : Filled cells sz fields s s' dst P) (hP : ∀ i v, P' i v → P i v) :
    Filled cells sz fields s s' dst P' :=
  ⟨h.writes, fun i f v hf hv => h.holds i f v hf (hP i v hv)⟩

/-- Only the scratch slot and the trace have changed. -/
theorem Filled.of_eq {cells : Cells} {s s₁ s₂ : State} {dst : ℕ} {P : ℕ → Val → Prop}
    (h : Filled cells sz fields s s₁ dst P) (hbrk : s₂.brk = s₁.brk) (hmem : s₂.mem = s₁.mem)
    (hmaps : s₂.maps = s₁.maps) (hblocks : s₂.blocks = s₁.blocks) :
    Filled cells sz fields s s₂ dst P := by
  constructor
  · exact h.writes.chain (writes_of_eq hbrk hmem hmaps hblocks _ _)
  · intro i f v hf hv
    rw [hbrk]
    exact (h.holds i f v hf hv).of_eq hmem hmaps hblocks

/-- One more field, or one of them again. -/
theorem Filled.put {cells : Cells} {s s₁ s₂ : State} {dst i : ℕ} {P P' : ℕ → Val → Prop}
    {f : FieldTy} {v : Val} (h : Filled cells sz fields s s₁ dst P)
    (hapart : FieldsApart sz fields) (hroom : Room s dst (Ty.fieldsSpan sz fields))
    (hf : fields[i]? = some f) (hputs : Puts cells sz s₁ s₂ f.ty v (dst + f.offset))
    (hP : ∀ j w, P' j w → j = i ∧ w = v ∨ j ≠ i ∧ P j w) :
    Filled cells sz fields s s₂ dst P' := by
  -- the new value goes into its field only, and what it points to is new
  have hspan := Ty.le_fieldsSpan sz (List.mem_of_getElem? hf)
  have hbrk := h.writes.brk
  have hbrk₂ := hputs.writes.brk
  constructor
  · exact h.writes.chain (hputs.writes.mono (under_part hspan))
  · intro j g w hg hw
    rcases hP j w hw with ⟨rfl, rfl⟩ | ⟨hji, hw⟩
    · obtain rfl : f = g := Option.some.inj (hf.symm.trans hg)
      apply hputs.holds.move _ hbrk (Nat.le_refl _)
      · exact fun _ _ => rfl
      · exact ⟨fun _ _ _ => rfl, fun _ _ _ => rfl, fun _ hb _ _ => hb⟩
    · -- another field is not touched, nor is what it points to
      have hgspan := Ty.le_fieldsSpan sz (List.mem_of_getElem? hg)
      have hne := hapart.ne hg hf hji
      apply (h.holds j g w hg hw).frame hputs.writes (Nat.le_refl _) _ _ _ (Nat.le_refl _) hbrk₂
      · have hpart := hroom.part hspan
        unfold Apart Room at *
        omega
      · exact (hroom.part hgspan).mono hbrk
      · unfold Apart at *
        omega

/-- The next one of the values in order. -/
theorem Filled.next {cells : Cells} {s s₁ s₂ : State} {dst k : ℕ} {vs : List Val} {f : FieldTy}
    {v : Val} (h : Filled cells sz fields s s₁ dst fun i w => i < k ∧ vs[i]? = some w)
    (hapart : FieldsApart sz fields) (hroom : Room s dst (Ty.fieldsSpan sz fields))
    (hf : fields[k]? = some f) (hv : vs[k]? = some v)
    (hputs : Puts cells sz s₁ s₂ f.ty v (dst + f.offset)) :
    Filled cells sz fields s s₂ dst fun i w => i < k + 1 ∧ vs[i]? = some w := by
  apply h.put hapart hroom hf hputs
  rintro j w ⟨hj, hw⟩
  by_cases hjk : j = k
  · rw [hjk] at hw
    exact .inl ⟨hjk, Option.some.inj (hw.symm.trans hv)⟩
  · exact .inr ⟨hjk, by omega, hw⟩

theorem Filled.struct {cells : Cells} {s s' : State} {dst : ℕ} {P : ℕ → Val → Prop}
    {name : String} {vs : List Val} (h : Filled cells sz fields s s' dst P)
    (hlen : vs.length = fields.length) (hP : ∀ i v, vs[i]? = some v → P i v) :
    Puts cells sz s s' (.struct name fields) (.record vs) dst :=
  ⟨h.writes, Holds.struct hlen fun i f v hf hv => h.holds i f v hf (hP i v hv)⟩

theorem Filled.tuple {cells : Cells} {s s' : State} {dst : ℕ} {P : ℕ → Val → Prop}
    {vs : List Val} (h : Filled cells sz fields s s' dst P) (hlen : vs.length = fields.length)
    (hP : ∀ i v, vs[i]? = some v → P i v) :
    Puts cells sz s s' (.tuple fields) (.record vs) dst :=
  ⟨h.writes, Holds.tuple hlen fun i f v hf hv => h.holds i f v hf (hP i v hv)⟩

/-! ## The defaults of a struct -/

/-- `None` in a field whose type is an option, nothing anywhere else. -/
theorem defaultNone_run {f : FieldTy} (hok : Ty.Ok env sz f.ty) (dst : ℕ) (s : State) :
    ∃ s', (defaultNone dst f).run s = (.done (), s') ∧
      (f.ty.isOpt = true → Puts env.cells sz s s' f.ty .none (dst + f.offset)) ∧
      (f.ty.isOpt = false → s' = s) := by
  obtain ⟨name, offset, ty⟩ := f
  cases ty with
  | opt discOff discSize noneDiscr someDiscr payloadOff size inner =>
    cases hok with
    | opt _ hdisc _ =>
      obtain ⟨m, hrun, hout, hread⟩ := storeNone_run hdisc (dst + offset) s
      refine ⟨{ s with mem := m }, hrun, fun _ => ⟨?_, Holds.none hread⟩, nofun⟩
      apply hout.writes.mono
      intro x _ hlo hhi
      show dst + offset ≤ x ∧ x < dst + offset + max size _
      omega
  | _ => exact ⟨s, rfl, nofun, fun _ => rfl⟩

/-- The defaults of all fields. -/
theorem defaults_run (hok : ∀ f ∈ fields, Ty.Ok env sz f.ty) (hapart : FieldsApart sz fields)
    {s : State} {dst : ℕ} (hroom : Room s dst (Ty.fieldsSpan sz fields)) :
    ∃ s', (fields.forM (defaultNone dst)).run s = (.done (), s') ∧
      Filled env.cells sz fields s s' dst fun i v =>
        ∃ f, fields[i]? = some f ∧ f.ty.isOpt = true ∧ v = .none := by
  have hall : ∀ (l : List FieldTy) (k : ℕ) (s₁ : State), fields.drop k = l →
      Filled env.cells sz fields s s₁ dst (fun i v =>
        i < k ∧ ∃ f, fields[i]? = some f ∧ f.ty.isOpt = true ∧ v = .none) →
      ∃ s', (l.forM (defaultNone dst)).run s₁ = (.done (), s') ∧
        Filled env.cells sz fields s s' dst fun i v =>
          ∃ f, fields[i]? = some f ∧ f.ty.isOpt = true ∧ v = .none := by
    intro l
    induction l with
    | nil =>
      intro k s₁ hl hfill
      refine ⟨s₁, rfl, hfill.weaken ?_⟩
      rintro i v ⟨f, hf, hopt⟩
      have hk := List.drop_eq_nil_iff.1 hl
      have hi := (List.getElem?_eq_some_iff.1 hf).1
      exact ⟨by omega, f, hf, hopt⟩
    | cons f l ih =>
      intro k s₁ hl hfill
      obtain ⟨hf, hrest⟩ := of_drop_eq_cons hl
      obtain ⟨s₂, hrun, hput, hskip⟩ :=
        defaultNone_run (hok f (List.mem_of_getElem? hf)) dst s₁
      have hfill₂ : Filled env.cells sz fields s s₂ dst (fun i v =>
          i < k + 1 ∧ ∃ f, fields[i]? = some f ∧ f.ty.isOpt = true ∧ v = .none) := by
        cases hopt : f.ty.isOpt with
        | true =>
          -- a default is put in place like any value
          apply hfill.put hapart hroom hf (hput hopt)
          rintro j w ⟨hj, g, hg, hgo, rfl⟩
          by_cases hjk : j = k
          · exact .inl ⟨hjk, rfl⟩
          · exact .inr ⟨hjk, by omega, g, hg, hgo, rfl⟩
        | false =>
          rw [hskip hopt]
          apply hfill.weaken
          rintro j w ⟨hj, g, hg, hgo, hw⟩
          have hjk : j ≠ k := by
            rintro rfl
            rw [Option.some.inj (hf.symm.trans hg), hgo] at hopt
            cases hopt
          exact ⟨by omega, g, hg, hgo, hw⟩
      obtain ⟨s', hrun', hfill'⟩ := ih (k + 1) s₂ hrest hfill₂
      refine ⟨s', ?_, hfill'⟩
      show (defaultNone dst f >>= fun _ => l.forM (defaultNone dst)).run s₁ = _
      rw [bind_done hrun, hrun']
  apply hall fields 0 s rfl
  apply (filled_start env.cells s dst).weaken
  rintro i v ⟨hi, -⟩
  omega

/-! ## The members of an object -/

/-- The key of a member, in front of the loop: its span, and where its value starts. -/
theorem member_run {m : Member} {p : ℕ} {r : Bytes} (hbefore : IsWs m.before)
    (hafter : IsWs m.after) (hkey : RawBody m.key) (h : inp.rest p = m.item.1 ++ r) (s : State) :
    (loadU8 inp (ws inp p)).run s = (.done Ascii.quote, s) ∧
      ∃ sp, (strspan inp (ws inp p)).run s =
          (.done sp, { s with sc := (m.key.length, escFlag m.key) }) ∧
        sp.start + sp.len ≤ inp.stop ∧ inp.span sp.start sp.len = m.key ∧
        inp.rest (ws inp sp.after + 1) = m.value ++ r ∧
        ws inp sp.after + 1 + m.value.length = p + m.item.1.length := by
  rw [m.item_append] at h
  -- from the white space through the key and the colon, token by token
  have hws : ws inp p = p + m.before.length := ws_eq hbefore h (by decide)
  have hrest := Input.rest_append h
  obtain ⟨hbody, hspan⟩ := strspan_quoted (w := []) IsWs.nil hkey hrest s
  rw [List.length_nil, Nat.add_zero] at hbody hspan
  rw [Nat.zero_add] at hspan
  have hcolon := Input.rest_append hrest
  have hws' := ws_eq hafter hcolon (by decide)
  have hvalue := (Input.rest_cons (Input.rest_append hcolon)).2.2
  refine ⟨?_, ⟨p + m.before.length + 1, m.key.length,
    p + m.before.length + (quoted m.key).length, escFlag m.key⟩, ?_, ?_, ?_, ?_, ?_⟩
  · rw [hws]
    exact loadU8_run hrest s
  · rw [hws, hspan]
  · have hlen := congrArg List.length hbody
    rw [Input.length_rest, List.length_append, List.length_cons] at hlen
    show p + m.before.length + 1 + m.key.length ≤ inp.stop
    omega
  · exact Input.span_append hbody
  · rw [hws']
    exact hvalue
  · rw [hws', m.length_item]
    omega

/-- An iteration of the loop of `parse_struct` on a member. -/
theorem structBody_runs {m : Member} {p hc dst : ℕ} {r : Bytes} {b : UInt8} {s : State}
    {Q : State → Prop} (hbefore : IsWs m.before) (hafter : IsWs m.after) (hkey : RawBody m.key)
    (hsep : IsSep m.sep) (h : inp.rest p = m.item.1 ++ (m.sep ++ r)) (hws : ws inp hc = ws inp p)
    (hr : Starts r b) (hb : b ≠ Ascii.comma)
    (hmember : ∀ k c, k.start + k.len ≤ inp.stop → inp.span k.start k.len = m.key →
      inp.rest c = m.value ++ (m.sep ++ r) →
      ∃ s', Runs (fun n d => parseMember inp (parse env inp n d) fields dst k c)
        { s with sc := (m.key.length, escFlag m.key) } (c + m.value.length) s' ∧ Q s') :
    ∃ k s', Runs (fun n d => structBody inp (parse env inp n d) fields dst hc) s (.inl k) s' ∧
      ws inp k = ws inp (p + (m.item.1.length + m.sep.length)) ∧ Q s' := by
  obtain ⟨hload, sp, hspan, hin, hname, hvalue, hend⟩ := member_run hbefore hafter hkey h s
  obtain ⟨s', hrun, hQ⟩ := hmember sp _ hin hname hvalue
  rw [hend] at hrun
  obtain ⟨k, hcomma, hk⟩ := pastComma_run hsep (Input.rest_append h) hr hb s'
  refine ⟨k, s', ?_, ?_, hQ⟩
  · unfold structBody
    simp only [hws]
    apply Runs.bind_eq hload
    have hquote : (Ascii.quote == Ascii.rbrace) = false := rfl
    simp only [hquote, Bool.false_eq_true, if_false]
    apply Runs.bind_eq hspan
    apply hrun.bind
    exact Runs.bind_eq hcomma (Runs.pure _ _)
  · rw [hk.ws_eq hr (Input.rest_append (Input.rest_append h)), Nat.add_assoc]

/-- The iteration that finds the closing brace. -/
theorem structBody_close {p hc dst : ℕ} {r : Bytes} (h : inp.rest p = Ascii.rbrace :: r)
    (hws : ws inp hc = ws inp p) (s : State) :
    Runs (fun n d => structBody inp (parse env inp n d) fields dst hc) s (.inr (p + 1)) s := by
  rw [ws_visible h (by decide)] at hws
  unfold structBody
  simp only [hws]
  exact Runs.bind_eq (loadU8_run h s) (Runs.pure _ _)

/-- The first byte of a member is the quote of its key. -/
theorem item_starts {m : Member} (hbefore : IsWs m.before) : Starts m.item.1 Ascii.quote :=
  starts_ws hbefore (by decide)

/-- What is left of an object starts with a quote or the brace. -/
theorem members_starts {l : List Member} (hbefore : ∀ m ∈ l, IsWs m.before) (r : Bytes) :
    ∃ b, Starts (closed Ascii.rbrace (l.map Member.item) ++ r) b ∧ b ≠ Ascii.comma := by
  apply closed_starts (by decide) (by decide)
  intro x hx
  obtain ⟨m, hm, rfl⟩ := List.mem_map.1 hx
  exact ⟨Ascii.quote, item_starts (hbefore m hm), by decide⟩

section

variable {J : List Member → State → Prop} {dst : ℕ} {tail : Bytes}
  (hscratch : ∀ seen s x, J seen s → J seen { s with sc := x })
include hscratch

/-- The loop of `parse_struct` on the members that are left, when every member is taken: what its
iterations keep, with the members that have been read, the latest first. -/
theorem structLoop_keeps {l seen : List Member} {p hc : ℕ} {s : State}
    (hbefore : ∀ m ∈ l, IsWs m.before) (hafter : ∀ m ∈ l, IsWs m.after)
    (hkeys : ∀ m ∈ l, RawBody m.key) (hseps : Separated (l.map Member.item))
    (hmember : ∀ m ∈ l, ∀ seen s k c r, J seen s → k.start + k.len ≤ inp.stop →
      inp.span k.start k.len = m.key → inp.rest c = m.value ++ r → Delim r →
      ∃ s', Runs (fun n d => parseMember inp (parse env inp n d) fields dst k c) s
        (c + m.value.length) s' ∧ J (m :: seen) s')
    (h : inp.rest p = closed Ascii.rbrace (l.map Member.item) ++ tail)
    (hws : ws inp hc = ws inp p) (hJ : J seen s) :
    ∃ s', RunsLoop (fun n d => structBody inp (parse env inp n d) fields dst) hc s
        (p + (closed Ascii.rbrace (l.map Member.item)).length) s' ∧ J (l.reverse ++ seen) s' := by
  induction l generalizing seen p hc s with
  | nil => exact ⟨s, RunsLoop.exit (structBody_close h hws s), hJ⟩
  | cons m l ih =>
    have hrest : ∀ x ∈ l, x ∈ m :: l := fun x hx => List.mem_cons_of_mem _ hx
    obtain ⟨hsep, hlast, hseps⟩ := hseps
    obtain ⟨b, hb, hne⟩ := members_starts (fun x hx => hbefore x (hrest x hx)) tail
    have h : inp.rest p =
        m.item.1 ++ (m.sep ++ (closed Ascii.rbrace (l.map Member.item) ++ tail)) := by
      rw [h, List.map_cons, closed_cons_append]
      rfl
    have hdelim := delim_sep (by decide : endsScalar Ascii.rbrace = true) hsep hlast tail
    have hmem := List.mem_cons_self (a := m) (l := l)
    -- the first member, and the members behind it by induction
    obtain ⟨hc', s₂, hbody, hws', hJ₂⟩ := structBody_runs (hbefore m hmem) (hafter m hmem)
      (hkeys m hmem) hsep h hws hb hne fun k c hin hname hvalue =>
        hmember m hmem seen _ k c _ (hscratch seen s _ hJ) hin hname hvalue hdelim
    have h' := Input.rest_append (Input.rest_append h)
    rw [Nat.add_assoc] at h'
    obtain ⟨s', hloop, hJ₃⟩ := ih (fun x hx => hbefore x (hrest x hx))
      (fun x hx => hafter x (hrest x hx)) (fun x hx => hkeys x (hrest x hx)) hseps
      (fun x hx => hmember x (hrest x hx)) h' hws' hJ₂
    refine ⟨s', ?_, ?_⟩
    · rw [← add_length_members]
      exact RunsLoop.step hbody hloop
    · rw [List.reverse_cons, List.append_assoc]
      exact hJ₃

/-- `parse_struct` on an object, when the defaults are stored and every member is taken. -/
theorem parseStruct_keeps (name : String) {w w' : Bytes} {members : List Member} {c : ℕ} {s s₁ : State}
    (hw : IsWs w) (hsp : Spaced w' members) (hkeys : ∀ m ∈ members, RawBody m.key)
    (hmember : ∀ m ∈ members, ∀ seen s k c r, J seen s → k.start + k.len ≤ inp.stop →
      inp.span k.start k.len = m.key → inp.rest c = m.value ++ r → Delim r →
      ∃ s', Runs (fun n d => parseMember inp (parse env inp n d) fields dst k c) s
        (c + m.value.length) s' ∧ J (m :: seen) s')
    (h : inp.rest c = (w ++ Ascii.lbrace :: objectText w' members) ++ tail)
    (hdefaults : (fields.forM (defaultNone dst)).run s = (.done (), s₁)) (hJ : J [] s₁) :
    ∃ s', Runs (fun n d => parse env inp n d (.struct name fields) dst c) s
        (c + (w ++ Ascii.lbrace :: objectText w' members).length) s' ∧ J members.reverse s' := by
  rw [List.append_assoc, List.cons_append, objectText, List.append_assoc] at h
  have hws : ws inp c = c + w.length := ws_eq hw h (by decide)
  have hbody := (Input.rest_cons (Input.rest_append h)).2.2
  obtain ⟨b, hb, -⟩ := members_starts hsp.before tail
  have hlead := (near_lead hsp.lead hb hbody).ws_eq hb (Input.rest_append hbody)
  obtain ⟨s', hloop, hJ'⟩ := structLoop_keeps hscratch hsp.before hsp.after hkeys hsp.seps hmember
    (Input.rest_append hbody) hlead hJ
  rw [List.append_nil] at hJ'
  refine ⟨s', ?_, hJ'⟩
  apply Runs.call (x := fun n d => parseStruct inp n (parse env inp n d) fields dst c)
    (fun _ _ => rfl)
  unfold parseStruct
  simp only [hws]
  apply Runs.bind_eq hdefaults
  have hend : c + (w ++ Ascii.lbrace :: objectText w' members).length =
      c + w.length + 1 + w'.length + (closed Ascii.rbrace (members.map Member.item)).length := by
    simp only [objectText, List.length_append, List.length_cons]
    omega
  rw [hend]
  exact hloop.runs

end

/-! ## Structs -/

/-- What a field takes from the member that names it: the value that the member spells for it, or
`None` when there is no such member. -/
def Takes (val : Member → Bytes → Val) (f : FieldTy) : Option Member → Val → Prop
  | some m, v => v = val m f.key
  | none, v => f.ty.isOpt = true ∧ v = .none

/-- What is in place when these members have been read, the latest first: a later member with the
same key replaces an earlier one. -/
def Bound (fields : List FieldTy) (val : Member → Bytes → Val) (seen : List Member) (i : ℕ)
    (v : Val) : Prop :=
  ∃ f, fields[i]? = some f ∧ Takes val f (seen.find? fun m => m.key == f.key) v

/-- The field of a key is the only one. -/
theorem Bound.of_cons {val : Member → Bytes → Val} {seen : List Member} {m : Member} {i j : ℕ}
    {f : FieldTy} {w : Val} (hnames : (fields.map FieldOf.name).Nodup) (hf : fields[i]? = some f)
    (hkey : f.key = m.key) (h : Bound fields val (m :: seen) j w) :
    j = i ∧ w = val m f.key ∨ j ≠ i ∧ Bound fields val seen j w := by
  obtain ⟨g, hg, htakes⟩ := h
  by_cases hji : j = i
  · rw [hji] at hg
    obtain rfl : f = g := Option.some.inj (hf.symm.trans hg)
    rw [List.find?_cons_of_pos (by simpa using hkey.symm)] at htakes
    exact .inl ⟨hji, htakes⟩
  · have hne : m.key ≠ g.key := by
      intro heq
      have hgf := key_injOn hnames (List.mem_of_getElem? hg) (List.mem_of_getElem? hf)
        (heq.symm.trans hkey.symm)
      have hnodup := List.Nodup.of_map _ hnames
      have hj := (List.getElem?_eq_some_iff.1 hg).1
      exact hji ((List.getElem?_inj hj hnodup).1 (by rw [hg, hf, hgf]))
    rw [List.find?_cons_of_neg (by simpa using hne)] at htakes
    exact .inr ⟨hji, g, hg, htakes⟩

/-- A key that names no field changes nothing. -/
theorem Bound.of_unknown {val : Member → Bytes → Val} {seen : List Member} {m : Member} {j : ℕ}
    {w : Val} (hkey : ∀ f ∈ fields, f.key ≠ m.key) (h : Bound fields val (m :: seen) j w) :
    Bound fields val seen j w := by
  obtain ⟨g, hg, htakes⟩ := h
  have hne := (hkey g (List.mem_of_getElem? hg)).symm
  rw [List.find?_cons_of_neg (by simpa using hne)] at htakes
  exact ⟨g, hg, htakes⟩

/-- The block the dispatch jumps to, on a member of an object: the value of its field is put in
place, or the value is skipped. -/
theorem parseMember_runs {m : Member} {val : Member → Bytes → Val} {seen : List Member}
    {s s₁ : State} {dst c : ℕ} {k : StrSpan} {r : Bytes} (hapart : FieldsApart sz fields)
    (hnames : (fields.map FieldOf.name).Nodup) (hroom : Room s dst (Ty.fieldsSpan sz fields))
    (hknown : ∀ f ∈ fields, f.key = m.key → ParsesTo env sz inp f.ty (val m f.key) m.value)
    (hunknown : (∀ f ∈ fields, f.key ≠ m.key) → ∃ n < 2 ^ 31, NestedJson n m.value)
    (hfill : Filled env.cells sz fields s s₁ dst (Bound fields val seen))
    (hin : k.start + k.len ≤ inp.stop) (hname : inp.span k.start k.len = m.key)
    (h : inp.rest c = m.value ++ r) (hr : Delim r) :
    ∃ s₂, Runs (fun n d => parseMember inp (parse env inp n d) fields dst k c) s₁
        (c + m.value.length) s₂ ∧
      Filled env.cells sz fields s s₂ dst (Bound fields val (m :: seen)) := by
  unfold parseMember
  rw [dispatch_fst hin]
  cases hfind : fields.find? (named inp k.start k.len) with
  | some f =>
    have hmem := List.mem_of_find?_eq_some hfind
    have hkey : f.key = m.key := by
      rw [← hname]
      exact named_iff.1 (List.find?_some hfind)
    obtain ⟨i, hf⟩ := List.mem_iff_getElem?.1 hmem
    have hspan := Ty.le_fieldsSpan sz hmem
    obtain ⟨s₂, hrun, hputs⟩ :=
      hknown f hmem hkey h hr ((hroom.part hspan).mono hfill.writes.brk)
    -- of an earlier member with the same key nothing is left
    refine ⟨s₂, hrun, ?_⟩
    apply hfill.put hapart hroom hf hputs
    intro j w hw
    exact hw.of_cons hnames hf hkey
  | none =>
    have hkey : ∀ f ∈ fields, f.key ≠ m.key := by
      intro f hf heq
      rw [← hname] at heq
      exact List.find?_eq_none.1 hfind f hf (named_iff.2 heq)
    obtain ⟨n, hn, hjson⟩ := hunknown hkey
    -- no field: the value is skipped and the memory stays
    refine ⟨s₁, ?_, hfill.weaken fun i v hv => hv.of_unknown hkey⟩
    rw [← rtSkip_nested hjson hn h hr]
    exact Runs.pure _ _

/-- `parse_struct` on an object puts in place what the last member with the key of a field spells,
for each field that is named. -/
theorem parseStruct_runs (name : String) (val : Member → Bytes → Val) {w w' : Bytes}
    {members : List Member} {c dst : ℕ} {s : State} {tail : Bytes}
    (hok : ∀ f ∈ fields, Ty.Ok env sz f.ty)
    (hapart : FieldsApart sz fields) (hnames : (fields.map FieldOf.name).Nodup) (hw : IsWs w)
    (hsp : Spaced w' members) (hkeys : ∀ m ∈ members, RawBody m.key)
    (hknown : ∀ m ∈ members, ∀ f ∈ fields, f.key = m.key →
      ParsesTo env sz inp f.ty (val m f.key) m.value)
    (hunknown : ∀ m ∈ members, (∀ f ∈ fields, f.key ≠ m.key) → ∃ n < 2 ^ 31, NestedJson n m.value)
    (h : inp.rest c = (w ++ Ascii.lbrace :: objectText w' members) ++ tail)
    (hroom : Room s dst (Ty.fieldsSpan sz fields)) :
    ∃ s', Runs (fun n d => parse env inp n d (.struct name fields) dst c) s
        (c + (w ++ Ascii.lbrace :: objectText w' members).length) s' ∧
      Filled env.cells sz fields s s' dst (Bound fields val members.reverse) := by
  -- the defaults first, then whatever the members bind
  obtain ⟨s₁, hdefaults, hfill⟩ := defaults_run hok hapart hroom
  apply parseStruct_keeps (J := fun seen s₁ => Filled env.cells sz fields s s₁ dst (Bound fields val seen))
    (fun _ _ _ hfill => hfill.of_eq rfl rfl rfl rfl) name hw hsp hkeys _ h hdefaults
  · apply hfill.weaken
    rintro i v ⟨f, hf, htakes⟩
    exact ⟨f, hf, htakes⟩
  · intro m hm seen s₁ k c r hfill hin hname hvalue hdelim
    exact parseMember_runs hapart hnames hroom (hknown m hm) (hunknown m hm) hfill hin hname hvalue
      hdelim

/-- Members that agree on every key. -/
theorem parsesTo_struct {w w' : Bytes} {name : String} {members : List Member}
    {bind : Bytes → Val} (hok : ∀ f ∈ fields, Ty.Ok env sz f.ty)
    (hapart : FieldsApart sz fields) (hnames : (fields.map FieldOf.name).Nodup) (hw : IsWs w)
    (hsp : Spaced w' members) (hkeys : ∀ m ∈ members, RawBody m.key)
    (hknown : ∀ m ∈ members, ∀ f ∈ fields, f.key = m.key →
      ParsesTo env sz inp f.ty (bind f.key) m.value)
    (hunknown : ∀ m ∈ members, (∀ f ∈ fields, f.key ≠ m.key) → ∃ n < 2 ^ 31, NestedJson n m.value)
    (habsent : ∀ f ∈ fields, (∀ m ∈ members, f.key ≠ m.key) →
      f.ty.isOpt = true ∧ bind f.key = .none) :
    ParsesTo env sz inp (.struct name fields) (.record (fields.map fun f => bind f.key))
      (w ++ Ascii.lbrace :: objectText w' members) := by
  intro c dst s tail h _ hroom
  obtain ⟨s', hrun, hfill⟩ := parseStruct_runs name (fun _ key => bind key) hok hapart hnames hw hsp
    hkeys hknown hunknown h hroom
  refine ⟨s', hrun, hfill.struct (List.length_map _) ?_⟩
  intro i v hv
  rw [List.getElem?_map] at hv
  obtain ⟨f, hf, rfl⟩ := Option.map_eq_some_iff.1 hv
  refine ⟨f, hf, ?_⟩
  -- every field has been read or is absent
  cases hfind : members.reverse.find? fun m => m.key == f.key with
  | some m => rfl
  | none =>
    apply habsent f (List.mem_of_getElem? hf)
    intro m hm heq
    exact List.find?_eq_none.1 hfind m (List.mem_reverse.2 hm) (by simpa using heq.symm)

/-! ## Tuples -/

/-- The fields of a tuple from the `k`-th on, each on its item. -/
theorem parseFields_runs {vs : List Val} {s : State} {dst : ℕ} {tail : Bytes}
    (hapart : FieldsApart sz fields) (hroom : Room s dst (Ty.fieldsSpan sz fields))
    (hvs : vs.length = fields.length) {l : List FieldTy} {items : List (Bytes × Bytes)}
    {k p hc : ℕ} {s₁ : State} (hl : fields.drop k = l) (hlen : items.length = l.length)
    (hseps : Separated items) (hstarts : ∀ x ∈ items, ∃ b, Starts x.1 b ∧ b ≠ Ascii.comma)
    (hitems : ∀ (i : ℕ) (f : FieldTy) (v : Val) (x : Bytes × Bytes), fields[k + i]? = some f →
      vs[k + i]? = some v → items[i]? = some x → Binds env sz inp f.ty v x.1)
    (h : inp.rest p = closed Ascii.rbracket items ++ tail) (hnear : Near inp hc p)
    (hfill : Filled env.cells sz fields s s₁ dst fun i v => i < k ∧ vs[i]? = some v) :
    ∃ s' e, Runs (fun n d => parseFields inp (parse env inp n d) dst l hc) s₁ e s' ∧
      ws inp e + 1 = p + (closed Ascii.rbracket items).length ∧
      Filled env.cells sz fields s s' dst fun i v => vs[i]? = some v := by
  induction l generalizing items k p hc s₁ with
  | nil =>
    obtain rfl := List.length_eq_zero_iff.1 hlen
    have hws := ws_visible h (by decide)
    refine ⟨s₁, hc, Runs.pure _ _, ?_, ?_⟩
    · rw [hnear.ws_eq (starts_ws IsWs.nil (by decide)) h, hws]
      rfl
    · apply hfill.weaken
      intro i v hv
      have hk := List.drop_eq_nil_iff.1 hl
      have hi := (List.getElem?_eq_some_iff.1 hv).1
      exact ⟨by omega, hv⟩
  | cons f l ih =>
    obtain ⟨x, items, rfl⟩ := List.exists_cons_of_length_eq_add_one hlen
    obtain ⟨hsep, hlast, hseps⟩ := hseps
    obtain ⟨hf, hrest⟩ := of_drop_eq_cons hl
    have hk := (List.getElem?_eq_some_iff.1 hf).1
    obtain ⟨v, hv⟩ : ∃ v, vs[k]? = some v := ⟨_, List.getElem?_eq_getElem (by omega)⟩
    obtain ⟨b, hb, -⟩ := hstarts x List.mem_cons_self
    have hstarts' : ∀ y ∈ items, ∃ b, Starts y.1 b ∧ b ≠ Ascii.comma :=
      fun y hy => hstarts y (List.mem_cons_of_mem _ hy)
    rw [closed_cons_append] at h
    have hdelim := delim_sep (by decide : endsScalar Ascii.rbracket = true) hsep hlast tail
    have hspan := Ty.le_fieldsSpan sz (List.mem_of_getElem? hf)
    -- the first item, past its comma, and the others by induction
    obtain ⟨s₂, hrun, hputs⟩ := (hitems 0 f v x hf hv rfl).at_item hb h hdelim hnear
      ((hroom.part hspan).mono hfill.writes.brk)
    have hfill₂ := hfill.next hapart hroom hf hv hputs
    obtain ⟨b', hb', hne⟩ :=
      closed_starts (by decide : 0x20 < Ascii.rbracket) (by decide) hstarts' tail
    have hnext := Input.rest_append h
    obtain ⟨e, hcomma, hnear'⟩ := pastComma_run hsep hnext hb' hne s₂
    obtain ⟨s', e', hloop, hend, hfill'⟩ := ih hrest (Nat.succ.inj hlen) hseps hstarts'
      (fun i g v y hg hv hy => hitems (i + 1) g v y (by rwa [Nat.add_comm i, ← Nat.add_assoc])
        (by rwa [Nat.add_comm i, ← Nat.add_assoc]) hy)
      (Input.rest_append hnext) hnear' hfill₂
    refine ⟨s', e', ?_, ?_, hfill'⟩
    · show Runs (fun n d => parse env inp n d f.ty (dst + f.offset) hc >>= fun c =>
        pastComma inp c >>= fun c => parseFields inp (parse env inp n d) dst l c) s₁ e' s'
      apply hrun.bind
      exact Runs.bind_eq hcomma hloop
    · rw [hend, length_closed_cons]
      omega

theorem parsesTo_tuple {w w' : Bytes} {vs : List Val} {items : List (Bytes × Bytes)}
    (hapart : FieldsApart sz fields) (hw : IsWs w) (hw' : IsWs w') (hseps : Separated items)
    (hvs : vs.length = fields.length) (hlen : items.length = fields.length)
    (hstarts : ∀ x ∈ items, ∃ b, Starts x.1 b ∧ b ≠ Ascii.comma)
    (hitems : ∀ (i : ℕ) (f : FieldTy) (v : Val) (x : Bytes × Bytes), fields[i]? = some f →
      vs[i]? = some v → items[i]? = some x → Binds env sz inp f.ty v x.1) :
    ParsesTo env sz inp (.tuple fields) (.record vs)
      (w ++ Ascii.lbracket :: arrayText w' items) := by
  intro c dst s tail h htail hroom
  rw [List.append_assoc, List.cons_append, arrayText, List.append_assoc] at h
  have hws : ws inp c = c + w.length := ws_eq hw h (by decide)
  have hbody := (Input.rest_cons (Input.rest_append h)).2.2
  obtain ⟨b, hb, -⟩ := closed_starts (by decide : 0x20 < Ascii.rbracket) (by decide) hstarts tail
  -- the fields in order, one for each item
  obtain ⟨s', e, hrun, hend, hfill⟩ := parseFields_runs hapart hroom hvs (k := 0) rfl hlen hseps
    hstarts (fun i f v x hf hv hx => hitems i f v x (by rwa [Nat.zero_add] at hf)
      (by rwa [Nat.zero_add] at hv) hx) (Input.rest_append hbody) (near_lead hw' hb hbody)
    ((filled_start env.cells s dst).weaken fun i v hi => absurd hi.1 (Nat.not_lt_zero i))
  refine ⟨s', ?_, hfill.tuple hvs fun i v hv => hv⟩
  apply Runs.call (x := fun n d => parseTuple inp (parse env inp n d) fields dst c)
    (fun _ _ => rfl)
  unfold parseTuple
  simp only [hws]
  have hlast : c + (w ++ Ascii.lbracket :: arrayText w' items).length = ws inp e + 1 := by
    rw [hend]
    simp only [arrayText, List.length_append, List.length_cons]
    omega
  rw [hlast]
  exact hrun.bind (Runs.pure _ _)

end Bilbo
