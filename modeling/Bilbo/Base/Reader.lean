import Bilbo.Base.Cells
import Bilbo.Base.Utf8

/-!
# Readers

A reader takes a value off the front of a list of bytes, or refuses. `Reads r bs a` says what it
does with `bs` whatever follows, so what is written one after the other is read one after the other,
and a list of records that were written back to back is read to its end.
-/

namespace Base

/-! ## Numbers in either byte order -/

/-- The order of the bytes of a number. -/
inductive Endian where
  | little
  | big
deriving DecidableEq, Repr

/-- A number in `n` bytes. -/
def Endian.bytes : Endian → ℕ → ℕ → Bytes
  | .little, n, v => le n v
  | .big, n, v => (le n v).reverse

/-- The number that bytes stand for. -/
def Endian.value : Endian → Bytes → ℕ
  | .little, bs => ofLe bs
  | .big, bs => ofLe bs.reverse

@[simp] theorem Endian.length_bytes (e : Endian) (n v : ℕ) : (e.bytes n v).length = n := by
  cases e with
  | little => exact length_le n v
  | big => rw [bytes, List.length_reverse, length_le]

theorem Endian.value_bytes (e : Endian) {n v : ℕ} (h : v < 256 ^ n) :
    e.value (e.bytes n v) = v := by
  have hle : ofLe (le n v) = v := by rw [ofLe_le, Nat.mod_eq_of_lt h]
  cases e with
  | little => exact hle
  | big => rw [bytes, value, List.reverse_reverse, hle]

/-! ## Readers -/

/-- A reader of a value. -/
abbrev Reader := StateT Bytes Option

variable {α β : Type}

/-- The next `n` bytes. -/
def take (n : ℕ) : Reader Bytes := fun bs =>
  if n ≤ bs.length then some (bs.take n, bs.drop n) else none

/-- A number in `n` bytes. -/
def field (e : Endian) (n : ℕ) : Reader ℕ := e.value <$> take n

/-- The bytes in front of the next NUL, which is read too. -/
def untilNul : Reader Bytes := fun bs =>
  match bs.dropWhile (· != 0) with
  | [] => none
  | _ :: rest => some (bs.takeWhile (· != 0), rest)

/-- Refuses unless `p`. -/
def check (p : Bool) : Reader Unit := fun bs => if p then some ((), bs) else none

/-- Refuses unless everything was used. -/
def finished : Option (α × Bytes) → Reader α
  | some (a, []) => pure a
  | _ => failure

/-- A reader that has `n` bytes, and has to use all of them. -/
def within (n : ℕ) (r : Reader α) : Reader α := do
  let part ← take n
  finished (r.run part)

/-- Values up to the end, at most `n` of them. -/
def readAll (r : Reader α) : ℕ → Bytes → Option (List α)
  | _, [] => some []
  | 0, _ :: _ => none
  | n + 1, b :: bs => do
    let (a, rest) ← r.run (b :: bs)
    let as ← readAll r n rest
    return a :: as

/-! ## What was written is read -/

/-- The reader takes `a` off the front when the front is `bs`. -/
def Reads (r : Reader α) (bs : Bytes) (a : α) : Prop := ∀ tail, r.run (bs ++ tail) = some (a, tail)

theorem Reads.pure (a : α) : Reads (pure a) [] a := fun _ => rfl

theorem Reads.bind {r : Reader α} {f : α → Reader β} {bs bs' : Bytes} {a : α} {b : β}
    (h : Reads r bs a) (h' : Reads (f a) bs' b) : Reads (r >>= f) (bs ++ bs') b := by
  intro tail
  rw [StateT.run_bind, List.append_assoc, h]
  exact h' tail

/-- What comes first reads nothing. -/
theorem Reads.after {r : Reader α} {f : α → Reader β} {bs : Bytes} {a : α} {b : β}
    (h : Reads r [] a) (h' : Reads (f a) bs b) : Reads (r >>= f) bs b := h.bind h'

/-- What follows reads nothing. -/
theorem Reads.last {r : Reader α} {f : α → Reader β} {bs : Bytes} {a : α} {b : β}
    (h : Reads r bs a) (h' : Reads (f a) [] b) : Reads (r >>= f) bs b := by
  have hbind := h.bind h'
  rwa [List.append_nil] at hbind

theorem reads_take {bs : Bytes} {n : ℕ} (h : bs.length = n) : Reads (take n) bs bs := by
  intro tail
  show (if n ≤ (bs ++ tail).length then _ else _) = _
  rw [if_pos (by rw [List.length_append]; omega), ← h, List.take_left, List.drop_left]

theorem reads_field (e : Endian) {n v : ℕ} (h : v < 256 ^ n) :
    Reads (field e n) (e.bytes n v) v := by
  intro tail
  have htake := reads_take (e.length_bytes n v) tail
  rw [field, StateT.run_map, htake, Option.map_eq_map, Option.map_some, e.value_bytes h]

theorem reads_untilNul {bs : Bytes} (h : 0 ∉ bs) : Reads untilNul (bs ++ [0]) bs := by
  intro tail
  have hall : ∀ b ∈ bs, (b != 0) = true := fun b hb => bne_iff_ne.2 fun h0 => h (h0 ▸ hb)
  have hrest : (bs ++ [0] ++ tail).dropWhile (· != 0) = 0 :: tail := by
    rw [List.append_assoc, List.dropWhile_append_of_pos hall]
    rfl
  have hfront : (bs ++ [0] ++ tail).takeWhile (· != 0) = bs := by
    rw [List.append_assoc, List.takeWhile_append_of_pos hall]
    exact List.append_nil bs
  show (match (bs ++ [0] ++ tail).dropWhile (· != 0) with
    | [] => none
    | _ :: rest => some ((bs ++ [0] ++ tail).takeWhile (· != 0), rest)) = _
  rw [hrest, hfront]

theorem reads_check {p : Bool} (h : p = true) : Reads (check p) [] () := by
  intro tail
  exact if_pos h

/-- A part is read by a reader for all of it. -/
theorem Reads.within {r : Reader α} {bs : Bytes} {a : α} {n : ℕ} (h : Reads r bs a)
    (hn : bs.length = n) : Reads (within n r) bs a := by
  have hall := h []
  rw [List.append_nil] at hall
  have hpart : Reads (finished (r.run bs)) [] a := by
    rw [hall]
    exact Reads.pure a
  exact (reads_take hn).last (f := fun part => finished (r.run part)) hpart

/-- Values written back to back are all read, and nothing is left over. -/
theorem readAll_flatten {r : Reader α} {parts : List (Bytes × α)}
    (h : ∀ x ∈ parts, x.1 ≠ [] ∧ Reads r x.1 x.2) {n : ℕ}
    (hn : (parts.flatMap Prod.fst).length ≤ n) :
    readAll r n (parts.flatMap Prod.fst) = some (parts.map Prod.snd) := by
  induction parts generalizing n with
  | nil => cases n <;> rfl
  | cons x parts ih =>
    obtain ⟨hne, hx⟩ := h x List.mem_cons_self
    have hpos := List.length_pos_of_ne_nil hne
    rw [List.flatMap_cons, List.length_append] at hn
    obtain ⟨n, rfl⟩ : ∃ m, n = m + 1 := Nat.exists_eq_add_of_le' (by omega)
    have hrest := ih (fun y hy => h y (List.mem_cons_of_mem _ hy)) (n := n) (by omega)
    obtain ⟨b, bs, hb⟩ := List.exists_cons_of_ne_nil hne
    have hrun := hx (parts.flatMap Prod.fst)
    rw [List.flatMap_cons]
    rw [hb, List.cons_append] at hrun ⊢
    rw [readAll, hrun]
    show (readAll r n (parts.flatMap Prod.fst)).bind _ = _
    rw [hrest]
    rfl

end Base
