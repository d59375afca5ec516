import Bilbo.Integers
import Bilbo.Parsing

/-!
# Documents that both backends bind

The leniency that `json.rs` and the emitted code share. Both put the same value in place on the
documents that stay within it, but for unknown keys that `json.rs` reads as another key, and for
integers of 16 bytes.
-/

namespace Bilbo

open Base Comp

variable {env : Env} {sz : RecCell → Option ℕ} {inp : Input} {K : List String → Bytes → Prop}

/-! ## The documents -/

/-- The escapes that both backends decode. -/
def sharedEscapes : List (UInt8 × UInt8) :=
  [(Ascii.quote, Ascii.quote), (Ascii.backslash, Ascii.backslash), (Ascii.slash, Ascii.slash),
    (0x6E, Ascii.newline), (0x74, Ascii.tab)]

/-- A string body with no other escapes, and the string it spells. -/
inductive SharedBody : Bytes → Bytes → Prop
  | nil : SharedBody [] []
  | plain {b : UInt8} {r t : Bytes} : b ≠ Ascii.quote → b ≠ Ascii.backslash → SharedBody r t →
      SharedBody (b :: r) (b :: t)
  | escape {e c : UInt8} {r t : Bytes} : (e, c) ∈ sharedEscapes → SharedBody r t →
      SharedBody (Ascii.backslash :: e :: r) (c :: t)

/-- The text spells the value of the type, and nothing in it is left to one backend: no map, float
or `char`, no buffer or box of size zero. `K` says which keys may stand in an object beside the names
of the fields. -/
inductive Shared (K : List String → Bytes → Prop) (cells : Cells) : Ty → Val → Bytes → Prop
  | bool {w : Bytes} (b : Bool) : IsWs w → Shared K cells .bool (.bool b) (w ++ boolText b)
  | u {w ds : Bytes} {n : ℕ} : IsWs w → Digits ds → decimal ds < 256 ^ n →
      Shared K cells (.u n) (.int (decimal ds)) (w ++ ds)
  | i {w ds : Bytes} {n : ℕ} (neg : Bool) : IsWs w → Digits ds →
      -(256 ^ n : ℕ) ≤ 2 * signedVal neg ds → 2 * signedVal neg ds < (256 ^ n : ℕ) →
      Shared K cells (.i n) (.int (signedVal neg ds)) (w ++ signedText neg ds)
  | str {w raw bs : Bytes} {seq : SeqLayout} : IsWs w → SharedBody raw bs →
      Shared K cells (.str seq) (.str bs) (w ++ quoted raw)
  | strRef {w raw bs : Bytes} {ptrOff lenOff : ℕ} : IsWs w → SharedBody raw bs →
      Shared K cells (.strRef ptrOff lenOff) (.str bs) (w ++ quoted raw)
  /-- keys in any order and not repeated; only options may be absent, and a key that names no
  field has a value of any kind -/
  | struct {w w' : Bytes} {name : String} {fields : List FieldTy} {members : List Member}
      (bind : Bytes → Val) : IsWs w → Spaced w' members → (∀ f ∈ fields, PlainKey f.key) →
      (∀ m ∈ members, RawBody m.key) → (members.map Member.key).Nodup →
      (∀ m ∈ members, ∀ f ∈ fields, f.key = m.key → Shared K cells f.ty (bind f.key) m.value) →
      (∀ m ∈ members, (∀ f ∈ fields, f.key ≠ m.key) →
        K (fields.map FieldOf.name) m.key ∧ ∃ n < 2 ^ 31, NestedJson n m.value) →
      (∀ f ∈ fields, (∀ m ∈ members, f.key ≠ m.key) → f.ty.isOpt = true ∧ bind f.key = .none) →
      Shared K cells (.struct name fields) (.record (fields.map fun f => bind f.key))
        (w ++ Ascii.lbrace :: objectText w' members)
  | tuple {w w' : Bytes} {fields : List FieldTy} {vs : List Val} {items : List (Bytes × Bytes)} :
      IsWs w → IsWs w' → Separated items → vs.length = fields.length →
      items.length = fields.length →
      (∀ (i : ℕ) (f : FieldTy) (v : Val) (x : Bytes × Bytes), fields[i]? = some f →
        vs[i]? = some v → items[i]? = some x → Shared K cells f.ty v x.1) →
      Shared K cells (.tuple fields) (.record vs) (w ++ Ascii.lbracket :: arrayText w' items)
  | vec {w w' : Bytes} {elem : Ty} {size align : ℕ} {seq : SeqLayout} {vs : List Val}
      {items : List (Bytes × Bytes)} : 0 < size → IsWs w → IsWs w' → Separated items →
      items.length = vs.length → vs.length ≤ maxSize →
      (∀ (i : ℕ) (v : Val) (x : Bytes × Bytes), vs[i]? = some v → items[i]? = some x →
        Shared K cells elem v x.1) →
      Shared K cells (.vec elem size align seq) (.seq vs) (w ++ Ascii.lbracket :: arrayText w' items)
  | unit {w : Bytes} : IsWs w → Shared K cells .unit .unit (w ++ nullText)
  | boxed {t : Bytes} {inner : Ty} {size align : ℕ} {v : Val} : 0 < size →
      Shared K cells inner v t → Shared K cells (.boxed inner size align) (.boxed v) t
  | none {w : Bytes} {discOff discSize noneDiscr payloadOff size : ℕ} {someDiscr : Option ℕ}
      {inner : Ty} : IsWs w →
      Shared K cells (.opt discOff discSize noneDiscr someDiscr payloadOff size inner) .none
        (w ++ nullText)
  | some {t : Bytes} {discOff discSize noneDiscr payloadOff size : ℕ} {someDiscr : Option ℕ}
      {inner : Ty} {v : Val} : token t ≠ nullText → Shared K cells inner v t →
      Shared K cells (.opt discOff discSize noneDiscr someDiscr payloadOff size inner) (.some v) t
  | ref {t : Bytes} {c : RecCell} {body : Ty} {v : Val} : cells c = some body →
      Shared K cells body v t → Shared K cells (.ref c) v t

/-! ## Strings -/

theorem sharedEscapes_spec {e c : UInt8} (h : (e, c) ∈ sharedEscapes) :
    (e, c) ∈ shortEscapes ∧ unescapeByte e = c := by
  have hall : sharedEscapes.all
      (fun x => decide (x ∈ shortEscapes ∧ unescapeByte x.1 = x.2)) = true := rfl
  exact of_decide_eq_true (List.all_eq_true.1 hall (e, c) h)

theorem SharedBody.toQuoted {raw bs : Bytes} (h : SharedBody raw bs) : Quoted raw bs := by
  induction h with
  | nil => exact Quoted.nil
  | plain hq hb _ ih => exact Quoted.plain hq hb ih
  | escape h _ ih => exact Quoted.short (sharedEscapes_spec h).1 ih

theorem SharedBody.lenient_eq {raw bs : Bytes} (h : SharedBody raw bs) : lenient raw = bs := by
  induction h with
  | nil => rfl
  | plain _ hb _ ih => rw [lenient_plain _ hb, ih]
  | escape h _ ih => rw [lenient_escape, (sharedEscapes_spec h).2, ih]

theorem length_lenient_le {raw : Bytes} (h : RawBody raw) : (lenient raw).length ≤ raw.length := by
  induction h with
  | nil => exact Nat.le_refl _
  | plain _ hb _ ih =>
    rw [lenient_plain _ hb]
    exact Nat.succ_le_succ ih
  | escape _ ih =>
    rw [lenient_escape]
    exact Nat.succ_le_succ (ih.trans (Nat.le_succ _))

/-! ## How the documents start -/

theorem Shared.head {cells : Cells} {ty : Ty} {v : Val} {t : Bytes} (h : Shared K cells ty v t) :
    ∃ b, Head t b := by
  induction h with
  | bool b hw => exact bool_head hw b
  | u hw hds _ =>
    obtain ⟨b, hb, -⟩ := digit_head hw hds
    exact ⟨b, hb⟩
  | i neg hw hds _ _ =>
    obtain ⟨b, hb, -⟩ := signed_head neg hw hds
    exact ⟨b, hb⟩
  | str hw _ => exact ⟨Ascii.quote, head_ws hw (by decide) (by decide) (by decide) (by decide)⟩
  | strRef hw _ => exact ⟨Ascii.quote, head_ws hw (by decide) (by decide) (by decide) (by decide)⟩
  | struct bind hw _ _ _ _ _ _ _ _ =>
    exact ⟨Ascii.lbrace, head_ws hw (by decide) (by decide) (by decide) (by decide)⟩
  | tuple hw _ _ _ _ _ _ =>
    exact ⟨Ascii.lbracket, head_ws hw (by decide) (by decide) (by decide) (by decide)⟩
  | vec _ hw _ _ _ _ _ _ =>
    exact ⟨Ascii.lbracket, head_ws hw (by decide) (by decide) (by decide) (by decide)⟩
  | unit hw => exact ⟨0x6E, null_head hw⟩
  | boxed _ _ ih => exact ih
  | none hw => exact ⟨0x6E, null_head hw⟩
  | some _ _ ih => exact ih
  | ref _ _ ih => exact ih

/-! ## The emitted code -/

theorem SharedBody.reads {w raw bs : Bytes} (hw : IsWs w) (h : SharedBody raw bs)
    (hutf8 : Utf8 (w ++ quoted raw)) : Reads (w ++ quoted raw) (.str bs) := by
  have hraw := h.toQuoted.rawBody
  have hbody := utf8_quoted (hw.utf8.of_append_left hutf8)
  have hreads := reads_string hw hraw (utf8_lenient hraw hbody)
  rwa [h.lenient_eq] at hreads

theorem SharedBody.length_le {w raw bs : Bytes} (h : SharedBody raw bs) :
    bs.length ≤ (w ++ quoted raw).length := by
  have hle := length_lenient_le h.toQuoted.rawBody
  rw [h.lenient_eq] at hle
  rw [quoted, List.length_append, List.length_cons, List.length_append]
  omega

/-- Both backends return, and bind one value. -/
def Agree (env : Env) (sz : RecCell → Option ℕ) (inp : Input) (ty : Ty) (dst : ℕ) (s : State) : Prop :=
  ∃ v, (∃ j s₁, Json.Parses inp.text j ∧ Runs (fun _ d => run env d dst ty j) s () s₁ ∧
      Holds env.cells sz s₁ s.brk s₁.brk ty v dst) ∧
    ∃ k s₂, Runs (fun n d => parse env inp n d ty dst 0) s k s₂ ∧
      Holds env.cells sz s₂ s.brk s₂.brk ty v dst

end Bilbo
