import Bilbo.Maps
import Bilbo.Sequences

/-!
# The emitted parser binds every text to the value it spells

The induction over the derivations of `Spells` that puts the parsers of the constructors
together, and what a text starts with.
-/

namespace Bilbo

open Base Comp

variable {env : Env} {sz : RecCell → Option ℕ} {inp : Input}

/-! ## How texts start -/

/-- What the loops and options look at in front of a value. -/
structure Head (t : Bytes) (b : UInt8) : Prop where
  starts : Starts t b
  comma : b ≠ Ascii.comma
  rbracket : b ≠ Ascii.rbracket
  null : b = 0x6E → token t = nullText

theorem head_ws {w t : Bytes} {b : UInt8} (hw : IsWs w) (hb : 0x20 < b) (hcomma : b ≠ Ascii.comma)
    (hrbracket : b ≠ Ascii.rbracket) (hnull : b ≠ 0x6E) : Head (w ++ b :: t) b :=
  ⟨starts_ws hw hb, hcomma, hrbracket, fun h => absurd h hnull⟩

theorem bool_head {w : Bytes} (hw : IsWs w) (b : Bool) : ∃ c, Head (w ++ boolText b) c := by
  cases b with
  | true => exact ⟨0x74, head_ws hw (by decide) (by decide) (by decide) (by decide)⟩
  | false => exact ⟨0x66, head_ws hw (by decide) (by decide) (by decide) (by decide)⟩

theorem digit_head {w ds : Bytes} (hw : IsWs w) (hds : Digits ds) :
    ∃ b, Head (w ++ ds) b ∧ token (w ++ ds) = ds := by
  obtain ⟨b, ds', rfl⟩ := List.exists_cons_of_ne_nil hds.nonempty
  have hdig := hds.digits b List.mem_cons_self
  have hb : 0x20 < b := by
    simp only [Ascii.isDigit, Bool.and_eq_true, decide_eq_true_eq] at hdig
    exact UInt8.lt_of_lt_of_le (by decide) hdig.1
  refine ⟨b, head_ws hw hb ?_ ?_ ?_, (lead_token hw hb).2⟩ <;> rintro rfl <;>
    exact absurd hdig (by decide)

theorem signed_head {w ds : Bytes} (neg : Bool) (hw : IsWs w) (hds : Digits ds) :
    ∃ b, Head (w ++ signedText neg ds) b ∧ token (w ++ signedText neg ds) = signedText neg ds := by
  cases neg with
  | true =>
    exact ⟨Ascii.minus, head_ws hw (by decide) (by decide) (by decide) (by decide),
      (lead_token hw (by decide)).2⟩
  | false => exact digit_head hw hds

theorem null_head {w : Bytes} (hw : IsWs w) : Head (w ++ nullText) 0x6E :=
  ⟨starts_ws hw (by decide), by decide, by decide, fun _ => (lead_token hw (by decide)).2⟩

theorem Spells.head {cells : Cells} {Q : Bytes → Bytes → Prop} {ty : Ty} {v : Val} {t : Bytes}
    (h : Spells cells Q ty v t) : ∃ b, Head t b := by
  induction h with
  | bool b hw => exact bool_head hw b
  | u hw hds _ =>
    obtain ⟨b, hb, -⟩ := digit_head hw hds
    exact ⟨b, hb⟩
  | i neg hw hds _ _ =>
    obtain ⟨b, hb, -⟩ := signed_head neg hw hds
    exact ⟨b, hb⟩
  | str hw _ => exact ⟨Ascii.quote, head_ws hw (by decide) (by decide) (by decide) (by decide)⟩
  | strRef hw _ => exact ⟨Ascii.quote, head_ws hw (by decide) (by decide) (by decide) (by decide)⟩
  | struct bind hw _ _ _ _ _ _ _ =>
    exact ⟨Ascii.lbrace, head_ws hw (by decide) (by decide) (by decide) (by decide)⟩
  | tuple hw _ _ _ _ _ _ =>
    exact ⟨Ascii.lbracket, head_ws hw (by decide) (by decide) (by decide) (by decide)⟩
  | vec hw _ _ _ _ _ =>
    exact ⟨Ascii.lbracket, head_ws hw (by decide) (by decide) (by decide) (by decide)⟩
  | unit hw => exact ⟨0x6E, null_head hw⟩
  -- these spell as what is inside them
  | boxed _ ih => exact ih
  | none hw => exact ⟨0x6E, null_head hw⟩
  | some _ _ ih => exact ih
  | map hw _ _ _ _ _ _ =>
    exact ⟨Ascii.lbrace, head_ws hw (by decide) (by decide) (by decide) (by decide)⟩
  | ref _ _ ih => exact ih

theorem Starts.ne_nil {t : Bytes} {b : UInt8} (h : Starts t b) : t ≠ [] := by
  rintro rfl
  obtain ⟨-, r, hr⟩ := h
  cases hr

/-! ## All types -/

theorem binds_of {ty : Ty} {v : Val} {t x : Bytes} (ht : token t = x)
    (h : ∀ w, IsWs w → ParsesTo env sz inp ty v (w ++ x)) : Binds env sz inp ty v t := by
  intro w hw
  rw [ht]
  exact h w hw

theorem binds_bool {w : Bytes} (hw : IsWs w) (b : Bool) :
    Binds env sz inp .bool (.bool b) (w ++ boolText b) := by
  cases b with
  | true => exact binds_of (lead_token hw (by decide)).2 fun w hw => parsesTo_bool hw true
  | false => exact binds_of (lead_token hw (by decide)).2 fun w hw => parsesTo_bool hw false

theorem binds_u {w ds : Bytes} {n : ℕ} (hn : IntSize n) (hw : IsWs w) (hds : Digits ds)
    (hlt : decimal ds < 256 ^ n) : Binds env sz inp (.u n) (.int (decimal ds)) (w ++ ds) := by
  obtain ⟨b, -, htok⟩ := digit_head hw hds
  exact binds_of htok fun w hw => parsesTo_u hn hw hds hlt

theorem binds_i {w ds : Bytes} {n : ℕ} {neg : Bool} (hn : IntSize n) (hw : IsWs w)
    (hds : Digits ds) (hlo : -(256 ^ n : ℕ) ≤ 2 * signedVal neg ds)
    (hhi : 2 * signedVal neg ds < (256 ^ n : ℕ)) :
    Binds env sz inp (.i n) (.int (signedVal neg ds)) (w ++ signedText neg ds) := by
  obtain ⟨b, -, htok⟩ := signed_head neg hw hds
  exact binds_of htok fun w hw => parsesTo_i hn hw hds hlo hhi

theorem binds_struct {w w' : Bytes} {name : String} {fields : List FieldTy}
    {members : List Member} {bind : Bytes → Val} (hty : Ty.Ok env sz (.struct name fields))
    (hw : IsWs w) (hsp : Spaced w' members) (hkeys : ∀ m ∈ members, RawBody m.key)
    (hknown : ∀ m ∈ members, ∀ f ∈ fields, f.key = m.key →
      Binds env sz inp f.ty (bind f.key) m.value)
    (hunknown : ∀ m ∈ members, (∀ f ∈ fields, f.key ≠ m.key) → ∃ n < 2 ^ 31, NestedJson n m.value)
    (habsent : ∀ f ∈ fields, (∀ m ∈ members, f.key ≠ m.key) →
      f.ty.isOpt = true ∧ bind f.key = .none) :
    Binds env sz inp (.struct name fields) (.record (fields.map fun f => bind f.key))
      (w ++ Ascii.lbrace :: objectText w' members) := by
  cases hty with
  | struct hok hapart hnames =>
    apply binds_of (lead_token hw (by decide)).2
    intro w hw
    exact parsesTo_struct hok hapart hnames hw hsp hkeys
      (fun m hm f hf hkey => (hknown m hm f hf hkey).parsesTo) hunknown habsent

/-- Items as long as a list of values, one for each. -/
theorem heads_of_parts {α : Type} {items : List (Bytes × Bytes)} {vs : List α}
    (hlen : items.length = vs.length) (h : ∀ (i : ℕ) (v : α) (x : Bytes × Bytes),
      vs[i]? = some v → items[i]? = some x → ∃ b, Head x.1 b) :
    ∀ x ∈ items, ∃ b, Head x.1 b := by
  intro x hx
  obtain ⟨i, hi⟩ := List.mem_iff_getElem?.1 hx
  have hlt := (List.getElem?_eq_some_iff.1 hi).1
  obtain ⟨v, hv⟩ : ∃ v, vs[i]? = some v := ⟨_, List.getElem?_eq_getElem (by omega)⟩
  exact h i v x hv hi

theorem binds_tuple {w w' : Bytes} {fields : List FieldTy} {vs : List Val}
    {items : List (Bytes × Bytes)} (hapart : FieldsApart sz fields) (hw : IsWs w) (hw' : IsWs w')
    (hseps : Separated items) (hvs : vs.length = fields.length)
    (hlen : items.length = fields.length) (hheads : ∀ x ∈ items, ∃ b, Head x.1 b)
    (hitems : ∀ (i : ℕ) (f : FieldTy) (v : Val) (x : Bytes × Bytes), fields[i]? = some f →
      vs[i]? = some v → items[i]? = some x → Binds env sz inp f.ty v x.1) :
    Binds env sz inp (.tuple fields) (.record vs) (w ++ Ascii.lbracket :: arrayText w' items) := by
  apply binds_of (lead_token hw (by decide)).2
  intro w hw
  refine parsesTo_tuple hapart hw hw' hseps hvs hlen ?_ hitems
  intro x hx
  obtain ⟨b, hb⟩ := hheads x hx
  exact ⟨b, hb.starts, hb.comma⟩

theorem binds_vec {w w' : Bytes} {elem : Ty} {size align : ℕ} {seq : SeqLayout} {vs : List Val}
    {items : List (Bytes × Bytes)} (halloc : AllocOk size align) (hspan : elem.span sz ≤ size)
    (hseq : seq.Ok) (hw : IsWs w) (hw' : IsWs w') (hseps : Separated items)
    (hlen : items.length = vs.length) (hsmall : vs.length ≤ maxSize)
    (hheads : ∀ x ∈ items, ∃ b, Head x.1 b)
    (hitems : ∀ (i : ℕ) (v : Val) (x : Bytes × Bytes), vs[i]? = some v → items[i]? = some x →
      Binds env sz inp elem v x.1) :
    Binds env sz inp (.vec elem size align seq) (.seq vs)
      (w ++ Ascii.lbracket :: arrayText w' items) := by
  apply binds_of (lead_token hw (by decide)).2
  intro w hw
  refine parsesTo_vec halloc hspan hseq hw hw' hseps hlen hsmall ?_ hitems
  intro x hx
  obtain ⟨b, hb⟩ := hheads x hx
  exact ⟨b, hb.starts, hb.comma, hb.rbracket⟩

theorem binds_none {w : Bytes} {discOff discSize noneDiscr payloadOff size : ℕ}
    {someDiscr : Option ℕ} {inner : Ty}
    (hty : Ty.Ok env sz (.opt discOff discSize noneDiscr someDiscr payloadOff size inner))
    (hw : IsWs w) :
    Binds env sz inp (.opt discOff discSize noneDiscr someDiscr payloadOff size inner) .none
      (w ++ nullText) := by
  cases hty with
  | opt _ hdisc _ =>
    exact binds_of (lead_token hw (by decide)).2 fun w hw => parsesTo_none hdisc hw

theorem binds_some {t : Bytes} {discOff discSize noneDiscr payloadOff size : ℕ}
    {someDiscr : Option ℕ} {inner : Ty} {v : Val} {b : UInt8}
    (hty : Ty.Ok env sz (.opt discOff discSize noneDiscr someDiscr payloadOff size inner))
    (hb : Head t b) (hnot : token t ≠ nullText) (hinner : Binds env sz inp inner v t) :
    Binds env sz inp (.opt discOff discSize noneDiscr someDiscr payloadOff size inner) (.some v)
      t := by
  cases hty with
  | opt _ hdisc hniche =>
    obtain ⟨hvis, r, hr⟩ := hb.starts
    intro w hw
    have htoken : ParsesTo env sz inp inner v (token t) := hinner [] IsWs.nil
    rw [hr] at htoken ⊢
    refine parsesTo_some hdisc hniche (starts_ws hw hvis) (fun h => hnot (hb.null h)) ?_
    rw [(lead_token hw hvis).2]
    exact htoken

/-- What is behind a cell in use. -/
theorem CellsOk.body (hcells : CellsOk env sz) {c : RecCell} {body : Ty}
    (hty : Ty.Ok env sz (.ref c)) (hc : env.cells c = some body) :
    Ty.Ok env sz body ∧ body.span sz ≤ (Ty.ref c).span sz := by
  cases hty with
  | @ref _ k hk =>
    obtain ⟨body', hbody, hok, hspan⟩ := hcells c k hk
    obtain rfl : body = body' := Option.some.inj (hc.symm.trans hbody)
    refine ⟨hok, ?_⟩
    show body.span sz ≤ (sz c).getD 0
    rw [hk]
    exact hspan

/-- Every text shorter than 2 GiB is bound to the value it spells. -/
theorem binds_spells (hcells : CellsOk env sz) {ty : Ty} {v : Val} {t : Bytes}
    (h : Spells env.cells Quoted ty v t) (hty : Ty.Ok env sz ty) (hlen : t.length < 2 ^ 31) :
    Binds env sz inp ty v t := by
  induction h with
  | bool b hw => exact binds_bool hw b
  | u hw hds hlt =>
    cases hty with
    | u hn => exact binds_u hn hw hds hlt
  | i neg hw hds hlo hhi =>
    cases hty with
    | i hn => exact binds_i hn hw hds hlo hhi
  | str hw hq =>
    cases hty with
    | str hseq =>
      exact binds_of (lead_token hw (by decide)).2 fun w hw => parsesTo_str hseq hw hq
  | strRef hw hq =>
    cases hty with
    | strRef hp hl hpl =>
      exact binds_of (lead_token hw (by decide)).2 fun w hw => parsesTo_strRef hp hl hpl hw hq
  | @struct w w' name fields members bind hw hsp hkeys hnodup _ hjson habsent ih =>
    rw [List.length_append, List.length_cons] at hlen
    -- the values are shorter than the object
    have hvalue : ∀ m ∈ members, m.value.length < 2 ^ 31 := by
      intro m hm
      have hle := length_value_le (w := w') hm
      omega
    have hok : ∀ f ∈ fields, Ty.Ok env sz f.ty := by
      cases hty with
      | struct hok _ _ => exact hok
    refine binds_struct hty hw hsp (fun m hm => (hkeys m hm).rawBody) ?_ ?_ habsent
    · exact fun m hm f hf hkey => ih m hm f hf hkey (hok f hf) (hvalue m hm)
    · exact fun m hm hunknown => ⟨_, hvalue m hm, (hjson m hm hunknown).nested⟩
  | @tuple w w' fields vs items hw hw' hseps hvs hitems hspells ih =>
    rw [List.length_append, List.length_cons, arrayText, List.length_append] at hlen
    cases hty with
    | tuple hok hapart =>
      refine binds_tuple hapart hw hw' hseps hvs hitems ?_ ?_
      · apply heads_of_parts (hitems.trans hvs.symm)
        intro i v x hv hx
        have hi := (List.getElem?_eq_some_iff.1 hv).1
        exact (hspells i _ v x (List.getElem?_eq_getElem (by omega)) hv hx).head
      · intro i f v x hf hv hx
        have hle := length_item_lt (e := Ascii.rbracket) (List.mem_of_getElem? hx)
        exact ih i f v x hf hv hx (hok f (List.mem_of_getElem? hf)) (by omega)
  | @vec w w' elem size align seq vs items hw hw' hseps hitems hspells ih =>
    rw [List.length_append, List.length_cons, arrayText, List.length_append] at hlen
    cases hty with
    | vec hok hspan halloc hseq =>
      -- each item takes a byte, so there are fewer items than bytes
      have hheads := heads_of_parts hitems fun i v x hv hx => (hspells i v x hv hx).head
      refine binds_vec halloc hspan hseq hw hw' hseps hitems ?_ hheads ?_
      · have hle := length_items_le (e := Ascii.rbracket) (l := items) fun x hx => by
          obtain ⟨b, hb⟩ := hheads x hx
          exact hb.starts.ne_nil
        have hmax : maxSize = 2 ^ 31 := rfl
        omega
      · intro i v x hv hx
        have hle := length_item_lt (e := Ascii.rbracket) (List.mem_of_getElem? hx)
        exact ih i v x hv hx hok (by omega)
  | unit hw => exact binds_of (lead_token hw (by decide)).2 fun w hw => parsesTo_unit hw
  | boxed _ ih =>
    cases hty with
    | boxed hok hspan halloc =>
      exact fun w hw => parsesTo_boxed (ih hok hlen w hw) hspan halloc
  | none hw => exact binds_none hty hw
  | some hnot hspells ih =>
    obtain ⟨b, hb⟩ := hspells.head
    have hok := hty
    cases hok with
    | opt hok _ _ => exact binds_some hty hb hnot (ih hok hlen)
  | @map w w' seq keySize val valSize newAt insert members keys vs hw hsp hkeys hvals hq hspells
      ih =>
    rw [List.length_append, List.length_cons] at hlen
    cases hty with
    | map hseq hkspan hok hvspan hnew htramp =>
      apply binds_of (lead_token hw (by decide)).2
      intro w hw
      refine parsesTo_map hseq hkspan hvspan hnew htramp hw hsp ?_ ?_
      · apply List.forall₂_iff_get.2
        refine ⟨hkeys.symm, fun i hi hi' => ?_⟩
        exact hq i _ _ (List.getElem?_eq_getElem hi) (List.getElem?_eq_getElem hi')
      · apply List.forall₂_iff_get.2
        refine ⟨hvals.symm, fun i hi hi' => ?_⟩
        have hle := length_value_le (w := w') (List.get_mem members ⟨i, hi⟩)
        exact ih i _ _ (List.getElem?_eq_getElem hi) (List.getElem?_eq_getElem hi') hok (by omega)
  | ref hc _ ih =>
    obtain ⟨hok, hspan⟩ := hcells.body hty hc
    exact fun w hw => parsesTo_ref hc hspan (ih hok hlen w hw)

/-- `struct Node { val: u64, next: Option<Box<Node>> }` -/
def nodeTy : Ty :=
  .struct "Node" [⟨"val", 0, .u 8⟩, ⟨"next", 8, .opt 0 8 0 none 0 8 (.boxed (.ref 0) 16 8)⟩]

/-- The process of `nodeTy`. -/
def nodeEnv : Env := { Env.bare with cells := fun c => if c = 0 then some nodeTy else none }

/-- The size behind the cell of `nodeTy`. -/
def nodeSizes : RecCell → Option ℕ := fun c => if c = 0 then some 16 else none

/-- `"val":1` and a separator -/
def valMember (digit : UInt8) (sep : Bytes) : Member :=
  ⟨[], [0x76, 0x61, 0x6C], [], [digit], sep⟩

/-- `{"val":2}` -/
def leafText : Bytes := Ascii.lbrace :: objectText [] [valMember 0x32 []]

/-- `{"next":{"val":2},"val":1}` -/
def nodeText : Bytes :=
  Ascii.lbrace :: objectText []
    [⟨[], [0x6E, 0x65, 0x78, 0x74], [], leafText, [Ascii.comma]⟩, valMember 0x31 []]

theorem nodeTy_ok : Ty.Ok nodeEnv nodeSizes nodeTy := by
  apply Ty.Ok.struct
  · intro f hf
    rcases List.mem_cons.1 hf with rfl | hf
    · exact Ty.Ok.u (by unfold IntSize; decide)
    · obtain rfl := List.mem_singleton.1 hf
      refine Ty.Ok.opt (Ty.Ok.boxed (Ty.Ok.ref (k := 16) rfl) (by decide) (by decide)) ?_ ?_
      · exact ⟨by unfold IntSize; decide, by decide, by decide, by decide,
          fun _ h => absurd h (Option.not_mem_none _)⟩
      · -- a pointer is not zero
        intro _ s lo hi v a h
        cases h with
        | boxed hptr _ _ _ =>
          have hnone := readNat_of_readPtr hptr (n := 8) (by decide)
          show readNat s.mem (a + 0) 8 ≠ _
          rw [hnone]
          exact (Option.some_ne_none _).symm
  · unfold FieldsApart Apart
    decide
  · decide

theorem nodeEnv_ok : CellsOk nodeEnv nodeSizes := by
  intro c k hk
  unfold nodeSizes at hk
  split at hk
  · rename_i hc
    cases hk
    refine ⟨nodeTy, ?_, nodeTy_ok, by decide⟩
    exact if_pos hc
  · cases hk

theorem spells_val {digit : UInt8} (h : Ascii.isDigit digit = true) :
    Spells nodeEnv.cells Quoted (.u 8) (.int (digit.toNat - 0x30 : ℕ)) [digit] := by
  have hds := Digits.single h
  have hlt := digit.toNat_lt
  have hval : decimal [digit] = digit.toNat - 0x30 := by
    show 0 * 10 + (digit.toNat - 0x30) = _
    omega
  have hspells : Spells nodeEnv.cells Quoted (.u 8) (.int (decimal [digit])) ([] ++ [digit]) :=
    Spells.u IsWs.nil hds (by rw [hval]; omega)
  rwa [hval] at hspells

theorem spells_leaf : Spells nodeEnv.cells Quoted nodeTy (.record [.int 2, .none]) leafText := by
  refine Spells.struct (w := []) (fun k => if k = utf8 "val" then .int 2 else .none) IsWs.nil
    ⟨IsWs.nil, ?_, ?_, ?_⟩ ?_ ?_ ?_ ?_ ?_
  · exact List.forall_mem_singleton.2 IsWs.nil
  · exact List.forall_mem_singleton.2 IsWs.nil
  · exact ⟨⟨[], IsWs.nil, .inl rfl⟩, .inl rfl, trivial⟩
  · unfold PlainKey
    decide
  · decide
  · intro m hm f hf hkey
    rw [List.mem_singleton.1 hm] at hkey ⊢
    rcases List.mem_cons.1 hf with rfl | hf
    · exact @spells_val 0x32 rfl
    · rw [List.mem_singleton.1 hf] at hkey
      exact absurd hkey (by decide)
  · intro m hm hunknown
    rw [List.mem_singleton.1 hm] at hunknown
    exact absurd rfl (hunknown _ List.mem_cons_self)
  · intro f hf habsent
    rcases List.mem_cons.1 hf with rfl | hf
    · exact absurd rfl (habsent _ (List.mem_singleton.2 rfl))
    · rw [List.mem_singleton.1 hf]
      exact ⟨rfl, rfl⟩

theorem spells_node : Spells nodeEnv.cells Quoted nodeTy
    (.record [.int 1, .some (.boxed (.record [.int 2, .none]))]) nodeText := by
  have hnext : Spells nodeEnv.cells Quoted (.opt 0 8 0 none 0 8 (.boxed (.ref 0) 16 8))
      (.some (.boxed (.record [.int 2, .none]))) leafText :=
    Spells.some (by decide) (Spells.boxed (Spells.ref rfl spells_leaf))
  refine Spells.struct (w := []) (fun k => if k = utf8 "val" then .int 1
    else .some (.boxed (.record [.int 2, .none]))) IsWs.nil ⟨IsWs.nil, ?_, ?_, ?_⟩ ?_ ?_ ?_ ?_ ?_
  · exact List.forall_mem_cons.2 ⟨IsWs.nil, List.forall_mem_singleton.2 IsWs.nil⟩
  · exact List.forall_mem_cons.2 ⟨IsWs.nil, List.forall_mem_singleton.2 IsWs.nil⟩
  · exact ⟨⟨[], IsWs.nil, .inr rfl⟩, .inr (by decide), ⟨[], IsWs.nil, .inl rfl⟩, .inl rfl, trivial⟩
  · unfold PlainKey
    decide
  · decide
  · intro m hm f hf hkey
    rcases List.mem_cons.1 hm with rfl | hm
    · rcases List.mem_cons.1 hf with rfl | hf
      · exact absurd hkey (by decide)
      · rw [List.mem_singleton.1 hf]
        exact hnext
    · rw [List.mem_singleton.1 hm] at hkey ⊢
      rcases List.mem_cons.1 hf with rfl | hf
      · exact @spells_val 0x31 rfl
      · rw [List.mem_singleton.1 hf] at hkey
        exact absurd hkey (by decide)
  · intro m hm hunknown
    rcases List.mem_cons.1 hm with rfl | hm
    · exact absurd rfl (hunknown _ (List.mem_cons_of_mem _ List.mem_cons_self))
    · rw [List.mem_singleton.1 hm] at hunknown
      exact absurd rfl (hunknown _ List.mem_cons_self)
  · intro f hf habsent
    rcases List.mem_cons.1 hf with rfl | hf
    · exact absurd rfl (habsent _ (List.mem_cons_of_mem _ List.mem_cons_self))
    · rw [List.mem_singleton.1 hf] at habsent
      exact absurd rfl (habsent _ List.mem_cons_self)

end Bilbo
