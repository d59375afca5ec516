import Bilbo.Decoding
import Bilbo.Interp

/-!
# Characters

For a `char` the emitted parser stores the first byte of the string's body, the interpreter the
first character of the text that `json.rs` reads.
-/

namespace Bilbo

open Base Comp

variable {env : Env} {inp : Input} {c : ℕ} {w r : Bytes} {ps : List Piece} {ch : Char}
  {cs : List Char}

/-! ## What the backends store -/

/-- The first byte of a body. -/
theorem parse_char_runs (env : Env) {b : UInt8} {t : Bytes} (hw : IsWs w)
    (hbody : bodyText ps = b :: t) (h : inp.rest c = w ++ (quoted (bodyText ps) ++ r)) (dst : ℕ)
    (s : State) :
    Runs (fun n d => parse env inp n d .char dst c) s (c + (w ++ quoted (bodyText ps)).length)
      { s with
        sc := ((bodyText ps).length, escFlag (bodyText ps))
        mem := writeCells s.mem dst (ints (le 4 b.toNat)) } := by
  obtain ⟨hrest, hspan⟩ := strspan_quoted hw (rawBody_bodyText ps) h s
  rw [hbody, List.cons_append] at hrest
  rw [List.length_append]
  apply Runs.call (x := fun _ _ => do
    let sp ← strspan inp c
    let b ← loadU8 inp sp.start
    storeInt dst 4 b.toNat
    pure sp.after) (fun _ _ => rfl)
  apply Runs.bind_eq hspan
  apply Runs.bind_eq (loadU8_run hrest _)
  exact Runs.of_eq rfl

/-- `parse_value` on a string token. -/
theorem parseValue_string_runs (hw : IsWs w) (h : inp.rest c = w ++ (quoted (bodyText ps) ++ r)) :
    Runs (fun n d => parseValue inp.text n d) c (.str (lenient (bodyText ps)))
      (c + (w ++ quoted (bodyText ps)).length) := by
  have hraw := rawBody_bodyText ps
  have hutf8 : Utf8 (lenient (bodyText ps)) := utf8_lenient hraw (utf8_bodyText ps)
  apply parseValue_runs hw (by decide) h rfl
  apply (parseString_runs hraw hutf8 (drop_text h)).bind
  exact Runs.pure _ _

theorem run_char_runs {t : Bytes} {x : Char} (hfirst : firstChar t = some x) (dst : ℕ) (s : State) :
    Runs (fun _ d => run env d dst .char (.str t)) s ()
      { s with mem := writeCells s.mem dst (ints (le 4 x.toNat)) } := by
  apply Runs.call (x := fun _ _ => storeInt dst 4 ((firstChar t).elim 0 fun c => c.toNat))
    (fun _ _ => rfl)
  rw [hfirst]
  exact Runs.of_eq rfl

/-- Both backends store the code point of the character: the emitted parser on the bytes, and the
interpreter on what `json.rs` reads from them. -/
def BindsChar (env : Env) (inp : Input) (c k : ℕ) (ch : Char) : Prop :=
  ∃ j, Runs (fun n d => parseValue inp.text n d) c j k ∧ ∀ dst s,
    (∃ s', Runs (fun n d => parse env inp n d .char dst c) s k s' ∧
      readNat s'.mem dst 4 = some ch.toNat) ∧
    ∃ s', Runs (fun _ d => run env d dst .char j) s () s' ∧
      readNat s'.mem dst 4 = some ch.toNat

theorem readNat_char (m : Memory) (dst : ℕ) (ch : Char) :
    readNat (writeCells m dst (ints (le 4 ch.toNat))) dst 4 = some ch.toNat := by
  have hlt : ch.toNat < 256 ^ 4 := Nat.lt_of_lt_of_le ch.val.toNat_lt (by decide)
  rw [readNat_write_le, Nat.mod_eq_of_lt hlt]

/-- The first byte of the body and the first character of what `json.rs` reads have to be the
character. -/
theorem bindsChar_iff_byte {b : UInt8} {t : Bytes} {x : Char} (hw : IsWs w)
    (hbody : bodyText ps = b :: t) (hfirst : firstChar (lenient (bodyText ps)) = some x)
    (h : inp.rest c = w ++ (quoted (bodyText ps) ++ r)) :
    BindsChar env inp c (c + (w ++ quoted (bodyText ps)).length) ch ↔
      b.toNat = ch.toNat ∧ x = ch := by
  have hjit := parse_char_runs env hw hbody h
  have hvalue := parseValue_string_runs hw h
  have hbyte : ∀ m dst, readNat (writeCells m dst (ints (le 4 b.toNat))) dst 4 = some b.toNat := by
    intro m dst
    have hlt : b.toNat < 256 ^ 4 := Nat.lt_trans b.toNat_lt (by decide)
    rw [readNat_write_le, Nat.mod_eq_of_lt hlt]
  constructor
  · rintro ⟨j, hj, hbinds⟩
    obtain ⟨rfl, -⟩ := hvalue.unique hj
    -- one state is enough to see what is stored
    obtain ⟨⟨s', hrun, hread⟩, ⟨s'', hrun', hread'⟩⟩ := hbinds 0 (State.initial 0)
    obtain ⟨-, rfl⟩ := (hjit 0 (State.initial 0)).unique hrun
    obtain ⟨-, rfl⟩ := (@run_char_runs env _ _ hfirst 0 (State.initial 0)).unique hrun'
    have hstored : readNat (writeCells (State.initial 0).mem 0 (ints (le 4 b.toNat))) 0 4 =
      some ch.toNat := hread
    have hstored' : readNat (writeCells (State.initial 0).mem 0 (ints (le 4 x.toNat))) 0 4 =
      some ch.toNat := hread'
    rw [hbyte] at hstored
    rw [readNat_char] at hstored'
    exact ⟨Option.some.inj hstored, Char.toNat_inj.1 (Option.some.inj hstored')⟩
  · rintro ⟨heq, rfl⟩
    refine ⟨_, hvalue, fun dst s => ⟨⟨_, hjit dst s, ?_⟩, ⟨_, run_char_runs hfirst dst s,
      readNat_char _ _ _⟩⟩⟩
    rw [← heq]
    exact hbyte _ _

/-! ## Which characters are stored right -/

/-- The first byte of a character is its code point: for ASCII, and for U+00C3. -/
theorem first_byte_iff {b : UInt8} {t : Bytes} (h : String.utf8EncodeChar ch = b :: t) :
    b.toNat = ch.toNat ↔ ch.toNat < 0x80 ∨ ch.toNat = 0xC3 := by
  have hch : ch.val.toNat = ch.toNat := rfl
  unfold String.utf8EncodeChar at h
  simp only [hch] at h
  split at h
  · obtain ⟨rfl, -⟩ := List.cons.inj h
    -- one byte: the code point itself
    rw [UInt8.toNat_ofNat']
    omega
  · split at h
    · -- two bytes, the first of which is 192 and the upper bits
      obtain ⟨rfl, -⟩ := List.cons.inj h
      have hupper : ch.toNat / 64 % 32 = ch.toNat / 64 := by omega
      have hbyte : (ch.toNat / 64 + 192) % 2 ^ 8 = ch.toNat / 64 + 192 := by omega
      rw [UInt8.toNat_ofNat', hupper, hbyte]
      constructor
      · intro heq
        have hle : ch.toNat / 64 ≤ 3 := by omega
        have hge : 3 ≤ ch.toNat / 64 := by omega
        omega
      · omega
    -- three or four bytes start at 0xE0, and their code points are 0x800 and more
    · split at h
      · obtain ⟨rfl, -⟩ := List.cons.inj h
        rw [UInt8.toNat_ofNat']
        omega
      · obtain ⟨rfl, -⟩ := List.cons.inj h
        rw [UInt8.toNat_ofNat']
        omega

theorem toNat_ofNat_valid {cp : ℕ} (h : cp.isValidChar) : (Char.ofNat cp).toNat = cp := by
  rw [Char.ofNat, dif_pos h]
  rfl

/-- The pieces whose first byte is the character that they spell, for both decoders: `json.rs` reads
the escape of a code unit as its letter `u`. -/
def Piece.FirstByte : Piece → Prop
  | .char c _ _ => c.toNat < 0x80 ∨ c.toNat = 0xC3
  | .short _ c _ => c = Ascii.backslash
  | .unit _ _ _ _ => False

/-- The first character that `json.rs` reads from a body. -/
def Piece.firstRead : Piece → Char
  | .char c _ _ => c
  | .short e _ _ => Char.ofNat (unescapeByte e).toNat
  | .unit _ _ _ _ => 'u'

theorem unescapeByte_ascii {e c : UInt8} (h : (e, c) ∈ shortEscapes) : (unescapeByte e).toNat < 0x80 := by
  have hall : shortEscapes.all (fun x => decide ((unescapeByte x.1).toNat < 0x80)) = true := rfl
  exact of_decide_eq_true (List.all_eq_true.1 hall (e, c) h)

/-- The backslash is one of the escapes that `json.rs` knows. -/
theorem unescapeByte_backslash {e : UInt8} (h : (e, Ascii.backslash) ∈ shortEscapes) :
    unescapeByte e = Ascii.backslash := by
  have hall : shortEscapes.all (fun x => decide (x.2 = Ascii.backslash → unescapeByte x.1 = x.2)) = true :=
    rfl
  exact of_decide_eq_true (List.all_eq_true.1 hall (e, Ascii.backslash) h) rfl

theorem firstChar_ascii {b : UInt8} (hb : b.toNat < 0x80) (t : Bytes) :
    firstChar (b :: t) = some (Char.ofNat b.toNat) := by
  have h := firstChar_encode (Char.ofNat b.toNat) t
  rw [utf8EncodeChar_ascii hb] at h
  exact h

theorem firstChar_lenient (p : Piece) (ps : List Piece) :
    firstChar (lenient (bodyText (p :: ps))) = some p.firstRead := by
  cases p with
  | char c hq hb =>
    have hraw := not_mem_utf8EncodeChar (b := Ascii.backslash) (by decide) hb
    rw [bodyText_cons, Piece.text, lenient_append _ hraw]
    exact firstChar_encode c _
  | short e c hmem =>
    rw [bodyText_cons]
    exact firstChar_ascii (unescapeByte_ascii hmem) _
  | unit a b c d =>
    rw [lenient_unit]
    exact firstChar_ascii (by decide) _

/-- The first byte of a body and the first character that `json.rs` reads from it are the first
character of the text exactly when the first piece says so. -/
theorem firstByte_iff {p : Piece} {b : UInt8} {t : Bytes} (hbody : bodyText (p :: ps) = b :: t)
    (hdec : decoded (p :: ps) = ch :: cs) :
    b.toNat = ch.toNat ∧ p.firstRead = ch ↔ p.FirstByte := by
  rw [bodyText_cons] at hbody
  cases p with
  | char c hq hb =>
    obtain ⟨x, y, hc⟩ := List.exists_cons_of_ne_nil (String.utf8EncodeChar_ne_nil (c := c))
    rw [Piece.text, hc] at hbody
    cases hbody
    cases hdec
    exact (and_iff_left rfl).trans (first_byte_iff hc)
  | short e c hmem =>
    cases hbody
    cases hdec
    rw [toNat_ofNat_valid (Or.inl (Nat.lt_trans c.toNat_lt (by decide)))]
    constructor
    · exact fun h => (UInt8.toNat.inj h.1).symm
    · intro h
      have hc : c = Ascii.backslash := h
      subst hc
      exact ⟨rfl, congrArg (fun b : UInt8 => Char.ofNat b.toNat) (unescapeByte_backslash hmem)⟩
  | unit a₀ a₁ a₂ a₃ =>
    cases hbody
    -- the backslash is stored by one, the letter `u` by the other
    refine iff_of_false (fun h => ?_) id
    have hu : (0x75 : ℕ) = ch.toNat := congrArg Char.toNat h.2
    exact absurd (hu.trans h.1.symm) (by decide)

/-- Both backends store the first character of a string exactly when the string starts with an ASCII
character or U+00C3 as it is, or with the short escape of a backslash. -/
theorem char_binds_iff {p : Piece} (hw : IsWs w)
    (h : inp.rest c = w ++ (quoted (bodyText (p :: ps)) ++ r))
    (hdec : decoded (p :: ps) = ch :: cs) :
    BindsChar env inp c (c + (w ++ quoted (bodyText (p :: ps))).length) ch ↔ p.FirstByte := by
  obtain ⟨b, t, hbody⟩ : ∃ b t, bodyText (p :: ps) = b :: t := by
    apply List.exists_cons_of_ne_nil
    rw [bodyText_cons]
    apply List.append_ne_nil_of_left_ne_nil
    cases p with
    | char c _ _ => exact String.utf8EncodeChar_ne_nil
    | short _ _ _ => exact List.cons_ne_nil _ _
    | unit _ _ _ _ => exact List.cons_ne_nil _ _
  exact (bindsChar_iff_byte hw hbody (firstChar_lenient p ps) h).trans (firstByte_iff hbody hdec)

/-- The character `é`. -/
def accentPieces : List Piece := [.char (Char.ofNat 0xE9) (by decide) (by decide)]

theorem char_binds_ascii :
    BindsChar Env.bare (stringInput newlinePieces (by decide)) 0
        (0 + ([] ++ quoted (bodyText newlinePieces)).length) 'x' ↔
      (Piece.char 'x' (by decide) (by decide)).FirstByte :=
  char_binds_iff (w := []) (r := []) IsWs.nil (List.append_nil _).symm rfl

theorem char_accent_cut :
    ¬ BindsChar Env.bare (stringInput accentPieces (by decide)) 0
      (0 + ([] ++ quoted (bodyText accentPieces)).length) (Char.ofNat 0xE9) := by
  have hbody : bodyText accentPieces = 0xC3 :: [0xA9] := rfl
  have hfirst : firstChar (lenient (bodyText accentPieces)) = some (Char.ofNat 0xE9) :=
    firstChar_lenient _ []
  have hrest : (stringInput accentPieces (by decide)).rest 0 =
      [] ++ (quoted (bodyText accentPieces) ++ []) := (List.append_nil _).symm
  intro h
  -- the first byte is 0xC3
  exact absurd ((bindsChar_iff_byte IsWs.nil hbody hfirst hrest).1 h).1 (by decide)

end Bilbo
