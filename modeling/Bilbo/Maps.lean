import Bilbo.Fields

/-!
# Maps

Keys and values are parsed into two stack slots and moved into the map from there. The slots
and the handle of the map lie between the old break and everything the entries point to, so
the entries in place survive the next iteration.
-/

namespace Bilbo

open Base Comp

variable {env : Env} {sz : RecCell → Option ℕ} {inp : Input}

/-! ## The entries in place -/

/-- An entry of a map and its node, with everything they own between `lo` and the break. -/
structure MapEntry (cells : Cells) (sz : RecCell → Option ℕ) (val : Ty) (lo : ℕ) (s : State)
    (e : Bytes × Val) (n : Bytes × ℕ) : Prop where
  key : e.1 = n.1
  inside : Between lo s.brk n.2 (val.span sz)
  holds : Holds cells sz s lo s.brk val e.2 n.2

/-- Writes apart from the entries leave them in place. -/
theorem MapEntry.keep {cells : Cells} {val : Ty} {lo a n : ℕ} {s s' : State} {e : Bytes × Val}
    {m : Bytes × ℕ} (h : MapEntry cells sz val lo s e m) (hw : Writes s s' a n)
    (hapart : n = 0 ∨ a + n ≤ lo) : MapEntry cells sz val lo s' e m := by
  have hbrk := hw.brk
  have hin := h.inside
  refine ⟨h.key, hin.mono (Nat.le_refl _) hbrk, ?_⟩
  apply h.holds.frame hw (Nat.le_refl _) _ _ _ (Nat.le_refl _) hbrk
  · unfold Apart
    omega
  · exact hin.imp_right fun h => h.2
  · unfold Between at hin
    unfold Apart
    omega

theorem MapEntry.move {cells : Cells} {val : Ty} {lo : ℕ} {s s' : State} {e : Bytes × Val}
    {m : Bytes × ℕ} (h : MapEntry cells sz val lo s e m) (hs : Same lo s.brk s s')
    (hbrk : s.brk ≤ s'.brk) : MapEntry cells sz val lo s' e m := by
  refine ⟨h.key, h.inside.mono (Nat.le_refl _) hbrk, ?_⟩
  apply h.holds.move hs (Nat.le_refl _) hbrk
  intro i hi
  obtain ⟨hlo, hhi⟩ := h.inside.resolve_left (by omega)
  exact hs.mem _ (by omega) (by omega)

/-- The two slots and the handle, in this order. -/
structure Slots (brk kaddr keySize vaddr valSize h : ℕ) : Prop where
  lo : brk ≤ kaddr
  key : kaddr + keySize ≤ vaddr
  val : vaddr + valSize ≤ h

/-- A map under construction at `dst`. -/
structure MapAt (cells : Cells) (sz : RecCell → Option ℕ) (val : Ty) (s₀ : State) (dst h : ℕ)
    (kvs : List (Bytes × Val)) (s : State) : Prop where
  writes : Writes s₀ s dst 24
  brk : h < s.brk
  handle : readPtr s.mem dst = some h
  entries : List.Forall₂ (MapEntry cells sz val (h + 1) s) kvs (s.maps h)

theorem MapAt.puts {cells : Cells} {key val : Ty} {keySize valSize newAt insert : ℕ} {s₀ s : State}
    {dst h : ℕ} {kvs : List (Bytes × Val)} (hmap : MapAt cells sz val s₀ dst h kvs s)
    (hlo : s₀.brk ≤ h) :
    Puts cells sz s₀ s (.map key keySize val valSize newAt insert) (.map kvs) dst := by
  obtain ⟨hlen, hget⟩ := List.forall₂_iff_get.1 hmap.entries
  refine ⟨hmap.writes, Holds.map hmap.handle hlo hmap.brk ?_ ?_ ?_⟩
  · exact SortedMap.keys_eq (fun _ _ hen => hen.key) hmap.entries
  · intro n hn
    obtain ⟨i, hi, rfl⟩ := List.getElem_of_mem hn
    exact (hget i (by omega) hi).inside.mono (by omega) (Nat.le_refl _)
  · intro i e n he hn
    obtain ⟨hi, rfl⟩ := List.getElem?_eq_some_iff.1 he
    obtain ⟨hi', rfl⟩ := List.getElem?_eq_some_iff.1 hn
    apply (hget i hi hi').holds.move _ (by omega) (Nat.le_refl _)
    · exact fun _ _ => rfl
    · exact ⟨fun _ _ _ => rfl, fun _ _ _ => rfl, fun _ hb _ _ => hb⟩

/-! ## One insertion -/

/-- `map_insert` on a key and a value that have just been parsed. -/
theorem MapAt.insert {cells : Cells} {val : Ty} {seq : SeqLayout} {s₀ s s₁ s₂ : State}
    {dst h kaddr keySize vaddr valSize : ℕ} {kvs : List (Bytes × Val)} {key : Bytes} {v : Val}
    (hmap : MapAt cells sz val s₀ dst h kvs s)
    (hslots : Slots s₀.brk kaddr keySize vaddr valSize h) (hdst : dst + 24 ≤ s₀.brk)
    (hkspan : (Ty.str seq).span sz ≤ keySize) (hvspan : val.span sz ≤ valSize)
    (hkey : Puts cells sz s s₁ (.str seq) (.str key) kaddr)
    (hval : Puts cells sz s₁ s₂ val v vaddr) :
    ∃ s₃, (mapInsert seq valSize dst kaddr vaddr).run s₂ = (.done (), s₃) ∧
      MapAt cells sz val s₀ dst h (SortedMap.insert key v kvs) s₃ := by
  obtain ⟨hlo, hk, hv⟩ := hslots
  have hbrk₀ := hmap.brk
  have hbrk₁ := hkey.writes.brk
  have hbrk₂ := hval.writes.brk
  -- the key has survived the value
  have hkey₂ : Holds cells sz s₂ s.brk s₁.brk (.str seq) (.str key) kaddr := by
    apply hkey.holds.frame hval.writes (Nat.le_refl _) _ _ _ (Nat.le_refl _) (Nat.le_refl _)
    · unfold Apart
      omega
    · unfold Room
      omega
    · unfold Apart
      omega
  have hhandle : readPtr s₂.mem dst = some h := by
    rw [← hmap.handle]
    apply readPtr_congr
    intro i hi
    rw [hval.writes.mem _ (by omega) (by omega), hkey.writes.mem _ (by omega) (by omega)]
  have hmaps : s₂.maps h = s.maps h := by
    rw [hval.writes.maps h (by omega), hkey.writes.maps h hbrk₀]
  have hentries : List.Forall₂ (MapEntry cells sz val (h + 1) s₂) kvs (s₂.maps h) := by
    rw [hmaps]
    apply hmap.entries.imp
    intro e n hen
    exact (hen.keep hkey.writes (.inr (by omega))).keep hval.writes (.inr (by omega))
  cases hkey₂ with
  | @str _ _ _ p hshort hptr hcap hlen hheld hcells =>
    have hrun : (mapInsert seq valSize dst kaddr vaddr).run s₂ = (.done (), { s₂ with
        brk := s₂.brk + valSize
        mem := writeCells s₂.mem s₂.brk (readCells s₂.mem vaddr valSize)
        maps := fun x => if x = h then SortedMap.insert key s₂.brk (s₂.maps h) else s₂.maps x }) := by
      rw [mapInsert, get_bind_run]
      simp only [hhandle, hptr, hlen, hcells, bytesOf_ints]
      rfl
    refine ⟨_, hrun, ?_, ?_, ?_, ?_⟩
    · -- below the old break only the header is in use, and its bytes stay
      have hw : Writes s₀ s₂ dst 24 := by
        apply (hmap.writes.trans hkey.writes (fun _ _ hl hh => ⟨hl, hh⟩) _).trans hval.writes
          (fun _ _ hl hh => ⟨hl, hh⟩)
        · exact under_fresh (.inr (by omega))
        · exact under_fresh (.inr hlo)
      refine ⟨hw.brk.trans (Nat.le_add_right _ _), ?_, ?_, hw.blocks⟩
      · intro x hx hout
        rw [← hw.mem x hx hout]
        exact writeCells_of_lt _ _ (by omega)
      · intro m hm
        rw [← hw.maps m hm]
        exact if_neg (by omega)
    · show h < s₂.brk + valSize
      omega
    · show readPtr (writeCells _ _ _) dst = some h
      rw [← hhandle]
      apply readPtr_congr
      intro i hi
      exact writeCells_of_lt _ _ (by omega)
    · have hsame : ∀ lo, h < lo → Same lo s₂.brk s₂ { s₂ with
          brk := s₂.brk + valSize
          mem := writeCells s₂.mem s₂.brk (readCells s₂.mem vaddr valSize)
          maps := fun x =>
            if x = h then SortedMap.insert key s₂.brk (s₂.maps h) else s₂.maps x } := by
        intro lo hlt
        refine ⟨?_, ?_, fun _ hb _ _ => hb⟩
        · intro x _ hx
          exact writeCells_of_lt _ _ hx
        · intro m hm _
          exact if_neg (by omega)
      show List.Forall₂ _ (SortedMap.insert key v kvs)
        (if h = h then SortedMap.insert key s₂.brk (s₂.maps h) else s₂.maps h)
      rw [if_pos rfl]
      apply SortedMap.insert_forall₂ (fun _ _ hen => hen.key)
      · refine ⟨rfl, ?_, ?_⟩
        · right
          show h + 1 ≤ s₂.brk ∧ s₂.brk + val.span sz ≤ s₂.brk + valSize
          omega
        · apply hval.holds.move (hsame _ (by omega)) (by omega) (Nat.le_add_right _ _)
          intro i hi
          have hlen : i < (readCells s₂.mem vaddr valSize).length := by
            rw [length_readCells]
            omega
          show writeCells s₂.mem s₂.brk (readCells s₂.mem vaddr valSize) (s₂.brk + i) =
            s₂.mem (vaddr + i)
          rw [writeCells_apply _ _ _ i hlen]
          apply Option.some.inj
          rw [← List.getElem?_eq_getElem hlen]
          apply getElem?_readCells
          omega
      · apply hentries.imp
        intro e n hen
        exact hen.move (hsame _ (Nat.lt_succ_self h)) (Nat.le_add_right _ _)

/-! ## The loop -/

section

variable {val : Ty} {seq : SeqLayout} {keySize valSize insert : ℕ}

/-- An iteration of the loop of `parse_map` on a member. -/
theorem mapBody_runs {s₀ s : State} {dst h kaddr vaddr p hc : ℕ} {kvs : List (Bytes × Val)}
    {m : Member} {key : Bytes} {v : Val} {r : Bytes} {b : UInt8}
    (htramp : env.tramps insert = some (.mapInsert seq valSize)) (hseq : seq.Ok)
    (hkspan : (Ty.str seq).span sz ≤ keySize) (hvspan : val.span sz ≤ valSize)
    (hslots : Slots s₀.brk kaddr keySize vaddr valSize h) (hdst : dst + 24 ≤ s₀.brk)
    (hmap : MapAt env.cells sz val s₀ dst h kvs s) (hbefore : IsWs m.before)
    (hafter : IsWs m.after) (hkey : Quoted m.key key) (hval : Binds env sz inp val v m.value)
    (hsep : IsSep m.sep) (hr : Starts r b) (hcomma : b ≠ Ascii.comma) (hdelim : Delim (m.sep ++ r))
    (hrest : inp.rest p = m.item.1 ++ (m.sep ++ r)) (hws : ws inp hc = ws inp p) :
    ∃ k s', Runs (fun n d => mapBody env inp (parse env inp n d) (.str seq) val insert dst
        kaddr vaddr hc) s (.inl k) s' ∧
      ws inp k = ws inp (p + (m.item.1.length + m.sep.length)) ∧
      MapAt env.cells sz val s₀ dst h (SortedMap.insert key v kvs) s' := by
  obtain ⟨hlo, hk, hv⟩ := hslots
  have hbrk := hmap.brk
  -- from the white space through the key and the colon to the value
  rw [m.item_append] at hrest
  have hwsp : ws inp p = p + m.before.length := ws_eq hbefore hrest (by decide)
  have hquote := Input.rest_append hrest
  have hcolon := Input.rest_append hquote
  have hwsc := ws_eq hafter hcolon (by decide)
  have hvalue := (Input.rest_cons (Input.rest_append hcolon)).2.2
  -- the key goes to its slot, then the value to its own, and the trampoline takes both
  obtain ⟨s₁, hkrun, hkputs⟩ : ∃ s₁, Runs (fun n d => parse env inp n d (.str seq) kaddr
      (p + m.before.length)) s (p + m.before.length + (quoted m.key).length) s₁ ∧
      Puts env.cells sz s s₁ (.str seq) (.str key) kaddr :=
    parse_str_runs hseq IsWs.nil hkey hquote (.inr (by omega))
  have hbrk₁ := hkputs.writes.brk
  have hroom : Room s₁ vaddr (val.span sz) := .inr (by omega)
  obtain ⟨s₂, hvrun, hvputs⟩ := hval.parsesTo hvalue hdelim hroom
  obtain ⟨s₃, hinsert, hmap'⟩ := hmap.insert ⟨hlo, hk, hv⟩ hdst hkspan hvspan hkputs hvputs
  have hbehind := Input.rest_append hvalue
  obtain ⟨k, hpast, hnear⟩ := pastComma_run hsep hbehind hr hcomma s₃
  refine ⟨k, s₃, ?_, ?_, hmap'⟩
  · unfold mapBody
    simp only [hws, hwsp]
    apply Runs.bind_eq (loadU8_run hquote s)
    have hnot : (Ascii.quote == Ascii.rbrace) = false := rfl
    simp only [hnot, Bool.false_eq_true, if_false]
    apply hkrun.bind
    rw [hwsc]
    apply hvrun.bind
    have hcall : (callInsert env insert dst kaddr vaddr).run s₂ = (.done (), s₃) := by
      rw [callInsert, htramp]
      exact hinsert
    apply Runs.bind_eq hcall
    exact Runs.bind_eq hpast (Runs.pure _ _)
  · rw [hnear.ws_eq hr (Input.rest_append hbehind)]
    congr 1
    rw [m.length_item]
    omega

/-- The loop of `parse_map` on the members that are left. -/
theorem mapLoop_runs {s₀ : State} {dst h kaddr vaddr : ℕ} {tail : Bytes}
    (htramp : env.tramps insert = some (.mapInsert seq valSize)) (hseq : seq.Ok)
    (hkspan : (Ty.str seq).span sz ≤ keySize) (hvspan : val.span sz ≤ valSize)
    (hslots : Slots s₀.brk kaddr keySize vaddr valSize h) (hdst : dst + 24 ≤ s₀.brk)
    {l : List Member} {keys : List Bytes} {vs : List Val} {p hc : ℕ} {kvs : List (Bytes × Val)}
    {s : State} (hbefore : ∀ m ∈ l, IsWs m.before) (hafter : ∀ m ∈ l, IsWs m.after)
    (hseps : Separated (l.map Member.item)) (hkeys : List.Forall₂ (fun m k => Quoted m.key k) l keys)
    (hvals : List.Forall₂ (fun m v => Binds env sz inp val v m.value) l vs)
    (hrest : inp.rest p = closed Ascii.rbrace (l.map Member.item) ++ tail)
    (hws : ws inp hc = ws inp p) (hmap : MapAt env.cells sz val s₀ dst h kvs s) :
    ∃ s', RunsLoop (fun n d => mapBody env inp (parse env inp n d) (.str seq) val insert dst
        kaddr vaddr) hc s (p + (closed Ascii.rbrace (l.map Member.item)).length) s' ∧
      MapAt env.cells sz val s₀ dst h
        ((keys.zip vs).foldl (fun m e => SortedMap.insert e.1 e.2 m) kvs) s' := by
  induction l generalizing keys vs p hc kvs s with
  | nil =>
    cases hkeys
    rw [ws_visible hrest (by decide)] at hws
    refine ⟨s, RunsLoop.exit ?_, hmap⟩
    unfold mapBody
    simp only [hws]
    exact Runs.bind_eq (loadU8_run hrest s) (Runs.pure _ _)
  | cons m l ih =>
    cases hkeys with
    | @cons _ key _ keys hkey hkeys =>
    cases hvals with
    | @cons _ v _ vs hval hvals =>
    have hl : ∀ x ∈ l, x ∈ m :: l := fun x hx => List.mem_cons_of_mem _ hx
    have hmem := List.mem_cons_self (a := m) (l := l)
    obtain ⟨hsep, hlast, hseps⟩ := hseps
    obtain ⟨b, hb, hne⟩ := members_starts (fun x hx => hbefore x (hl x hx)) tail
    have hrest : inp.rest p =
        m.item.1 ++ (m.sep ++ (closed Ascii.rbrace (l.map Member.item) ++ tail)) := by
      rw [hrest, List.map_cons, closed_cons_append]
      rfl
    have hdelim := delim_sep (by decide : endsScalar Ascii.rbrace = true) hsep hlast tail
    -- the first member, and the members behind it by induction
    obtain ⟨hc', s₁, hbody, hws', hmap₁⟩ := mapBody_runs htramp hseq hkspan hvspan hslots hdst hmap
      (hbefore m hmem) (hafter m hmem) hkey hval hsep hb hne hdelim hrest hws
    have hrest' := Input.rest_append (Input.rest_append hrest)
    rw [Nat.add_assoc] at hrest'
    obtain ⟨s', hloop, hmap'⟩ := ih (fun x hx => hbefore x (hl x hx))
      (fun x hx => hafter x (hl x hx)) hseps hkeys hvals hrest' hws' hmap₁
    refine ⟨s', ?_, hmap'⟩
    rw [← add_length_members]
    exact RunsLoop.step hbody hloop

theorem stackSlot_run (n : ℕ) (s : State) :
    ∃ p, (stackSlot n).run s = (.done p, { s with brk := p + n }) ∧ s.brk ≤ p :=
  ⟨alignUp s.brk 8, rfl, le_alignUp _ (by decide)⟩

/-- The slots, and an empty map. -/
theorem mapStart_run {newAt : ℕ} (hnew : env.tramps newAt = some .mapNewAt) (dst : ℕ)
    (s : State) :
    ∃ kaddr vaddr h s₁ s₂ s₃, (stackSlot (max keySize 1)).run s = (.done kaddr, s₁) ∧
      (stackSlot (max valSize 1)).run s₁ = (.done vaddr, s₂) ∧
      (callNewAt env newAt dst).run s₂ = (.done (), s₃) ∧
      Slots s.brk kaddr keySize vaddr valSize h ∧
      MapAt env.cells sz val s dst h [] s₃ := by
  obtain ⟨kaddr, hkrun, hklo⟩ := stackSlot_run (max keySize 1) s
  obtain ⟨vaddr, hvrun, hvlo⟩ :=
    stackSlot_run (max valSize 1) { s with brk := kaddr + max keySize 1 }
  have hvlo : kaddr + max keySize 1 ≤ vaddr := hvlo
  have hlen : (ptrCells (vaddr + max valSize 1) ++ ints (le 16 0)).length = 24 := by
    rw [List.length_append, length_ptrCells, length_ints, length_le]
  -- the handle of the map lies behind both slots
  refine ⟨kaddr, vaddr, vaddr + max valSize 1, _, _, _, hkrun, hvrun,
    by rw [callNewAt, hnew]; rfl, ⟨hklo, by omega, by omega⟩, ?_, ?_, ?_, ?_⟩
  · refine ⟨?_, ?_, ?_, fun _ hb _ => hb⟩
    · show s.brk ≤ vaddr + max valSize 1 + 1
      omega
    · intro x _ hout
      apply writeCells_outside
      rw [hlen]
      exact hout
    · intro m hm
      have hne : m ≠ vaddr + max valSize 1 := by omega
      exact if_neg hne
  · exact Nat.lt_succ_self _
  · exact readPtr_write_append _ _ _ _
  · show List.Forall₂ _ [] (if vaddr + max valSize 1 = vaddr + max valSize 1 then [] else _)
    rw [if_pos rfl]
    exact List.Forall₂.nil

theorem parsesTo_map {w w' : Bytes} {newAt : ℕ} {members : List Member} {keys : List Bytes}
    {vs : List Val} (hseq : seq.Ok) (hkspan : (Ty.str seq).span sz ≤ keySize)
    (hvspan : val.span sz ≤ valSize) (hnew : env.tramps newAt = some .mapNewAt)
    (htramp : env.tramps insert = some (.mapInsert seq valSize)) (hw : IsWs w)
    (hsp : Spaced w' members) (hkeys : List.Forall₂ (fun m k => Quoted m.key k) members keys)
    (hvals : List.Forall₂ (fun m v => Binds env sz inp val v m.value) members vs) :
    ParsesTo env sz inp (.map (.str seq) keySize val valSize newAt insert)
      (.map (SortedMap.ofList (keys.zip vs))) (w ++ Ascii.lbrace :: objectText w' members) := by
  intro c dst s tail h htail hroom
  rw [List.append_assoc, List.cons_append, objectText, List.append_assoc] at h
  have hws : ws inp c = c + w.length := ws_eq hw h (by decide)
  have hbody := (Input.rest_cons (Input.rest_append h)).2.2
  obtain ⟨b, hb, -⟩ := members_starts hsp.before tail
  have hlead := (near_lead hsp.lead hb hbody).ws_eq hb (Input.rest_append hbody)
  -- an empty map, then the members one by one
  have hdst : dst + 24 ≤ s.brk := hroom.resolve_left (Nat.succ_ne_zero 23)
  obtain ⟨kaddr, vaddr, hd, s₁, s₂, s₃, hkrun, hvrun, hnewrun, hslots, hmap⟩ :
      ∃ kaddr vaddr h s₁ s₂ s₃, (stackSlot (max keySize 1)).run s = (.done kaddr, s₁) ∧
      (stackSlot (max valSize 1)).run s₁ = (.done vaddr, s₂) ∧
      (callNewAt env newAt dst).run s₂ = (.done (), s₃) ∧
      Slots s.brk kaddr keySize vaddr valSize h ∧
      MapAt env.cells sz val s dst h [] s₃ := mapStart_run hnew dst s
  obtain ⟨s', hloop, hmap'⟩ := mapLoop_runs htramp hseq hkspan hvspan hslots hdst hsp.before
    hsp.after hsp.seps hkeys hvals (Input.rest_append hbody) hlead hmap
  have hlo : s.brk ≤ hd := by
    have hlo := hslots.lo
    have hk := hslots.key
    have hv := hslots.val
    omega
  refine ⟨s', ?_, hmap'.puts hlo⟩
  apply Runs.call (x := fun n d => parseMap env inp n (parse env inp n d) (.str seq) keySize val
    valSize newAt insert dst c) (fun _ _ => rfl)
  unfold parseMap
  apply Runs.bind_eq hkrun
  apply Runs.bind_eq hvrun
  apply Runs.bind_eq hnewrun
  have hend : c + (w ++ Ascii.lbrace :: objectText w' members).length =
      c + w.length + 1 + w'.length + (closed Ascii.rbrace (members.map Member.item)).length := by
    simp only [objectText, List.length_append, List.length_cons]
    omega
  rw [hend, hws]
  exact hloop.runs

end

end Bilbo
