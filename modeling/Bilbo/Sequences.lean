import Bilbo.Bindings
import Bilbo.Vectors

/-!
# Vectors

The elements of a vector are in place one after the other. What an element points to was
allocated between two buffers, so it lies apart from the one in use, and moving the buffer
moves the elements only.
-/

namespace Bilbo

open Base Comp

variable {env : Env} {sz : RecCell → Option ℕ} {inp : Input}

/-! ## Growing -/

/-- What `rt_realloc` does to a buffer of at most the new size. -/
structure Moved (s s' : State) (ptr old p new align : ℕ) : Prop where
  brk : s.brk ≤ s'.brk
  mem : ∀ x < s.brk, s'.mem x = s.mem x
  maps : s'.maps = s.maps
  blocks : ∀ b ∈ s.blocks, old = 0 ∨ b.base ≠ ptr → b ∈ s'.blocks
  held : Held s' s.brk s'.brk p new align
  bytes : ∀ a < old, s'.mem (p + a) = s.mem (ptr + a)

theorem rtRealloc_run {ptr old new : ℕ} (align : ℕ) {s : State} (hle : old ≤ new)
    (hnew : layoutOk new (max align 1) = true) (hold : layoutOk old (max align 1) = true)
    (hbelow : Room s ptr old) :
    ∃ p s', (rtRealloc ptr old new align).run s = (.done p, s') ∧
      Moved s s' ptr old p new (max align 1) := by
  by_cases hz : old = 0
  · subst hz
    by_cases hn : new = 0
    · subst hn
      refine ⟨max align 1, s, rfl, Nat.le_refl _, fun _ _ => rfl, rfl, fun _ hb _ => hb,
        .inl rfl, fun a ha => absurd ha (Nat.not_lt_zero a)⟩
    · obtain ⟨p, s₁, halloc, hfresh⟩ := alloc_run hnew s
      refine ⟨p, s₁, ?_, hfresh.brk, fun x _ => by rw [hfresh.mem], hfresh.maps,
        fun b hb _ => hfresh.blocks hb, hfresh.held, fun a ha => absurd ha (Nat.not_lt_zero a)⟩
      rw [rtRealloc, if_pos rfl, if_neg hn, halloc]
  · obtain ⟨p, s₁, halloc, hfresh⟩ := alloc_run hnew s
    obtain ⟨hlo, hhi, hmem⟩ := hfresh.held.resolve_left (by omega)
    have hrun : (rtRealloc ptr old new align).run s = (.done p, { s₁ with
        mem := writeCells s₁.mem p (readCells s₁.mem ptr (min old new))
        blocks := s₁.blocks.filter fun b => b.base != ptr }) := by
      rw [rtRealloc, if_neg hz, if_pos hold, bind_done halloc]
      rfl
    refine ⟨p, _, hrun, hfresh.brk, ?_, hfresh.maps, ?_, .inr ⟨hlo, hhi, ?_⟩, ?_⟩
    · intro x hx
      rw [← hfresh.mem]
      exact writeCells_of_lt _ _ (by omega)
    · intro b hb hne
      apply List.mem_filter.2
      exact ⟨hfresh.blocks hb, by simpa using hne.resolve_left hz⟩
    · -- the new block lies behind the old one, so it is not the one that is freed
      apply List.mem_filter.2
      refine ⟨hmem, ?_⟩
      show (p != ptr) = true
      rw [bne_iff_ne]
      unfold Room at hbelow
      omega
    · intro a ha
      have hlen : a < (readCells s₁.mem ptr (min old new)).length := by
        rw [length_readCells]
        omega
      show writeCells s₁.mem p (readCells s₁.mem ptr (min old new)) (p + a) = s.mem (ptr + a)
      rw [writeCells_apply _ _ _ a hlen, ← hfresh.mem]
      apply Option.some.inj
      rw [← List.getElem?_eq_getElem hlen]
      apply getElem?_readCells
      omega

/-! ## The elements in place -/

section

variable {elem : Ty} {size align : ℕ} {seq : SeqLayout}

/-- The first elements of a vector are in place, and nothing below the old break has changed. -/
structure Elems (cells : Cells) (sz : RecCell → Option ℕ) (elem : Ty) (size align : ℕ)
    (vs : List Val) (s₀ : State) (i : ℕ) (v : VecState) (s : State) : Prop where
  len : v.len = i
  room : i ≤ v.cap
  cap : v.cap ≤ 4 + 2 * i
  writes : Writes s₀ s 0 0
  held : Held s s₀.brk s.brk v.base (v.cap * size) align
  elems : ∀ j w, j < i → vs[j]? = some w → ∃ lo hi, s₀.brk ≤ lo ∧ hi ≤ s.brk ∧
    Apart lo (hi - lo) v.base (v.cap * size) ∧ Holds cells sz s lo hi elem w (v.base + j * size)

/-- An element lies in its own bytes of the buffer. -/
theorem slot_le {j i cap : ℕ} (hj : j < i) (hi : i ≤ cap) (size : ℕ) :
    j * size + size ≤ i * size ∧ i * size ≤ cap * size := by
  have hsucc : (j + 1) * size = j * size + size := Nat.succ_mul j size
  exact ⟨hsucc ▸ Nat.mul_le_mul_right size hj, Nat.mul_le_mul_right size hi⟩

theorem Elems.of_eq {cells : Cells} {vs : List Val} {s₀ s s' : State} {i : ℕ} {v v' : VecState}
    (h : Elems cells sz elem size align vs s₀ i v s) (hlen : v'.len = v.len) (hcap : v'.cap = v.cap)
    (hbase : v'.base = v.base) (hbrk : s'.brk = s.brk) (hmem : s'.mem = s.mem)
    (hmaps : s'.maps = s.maps) (hblocks : s'.blocks = s.blocks) :
    Elems cells sz elem size align vs s₀ i v' s' := by
  constructor
  · rw [hlen, h.len]
  · rw [hcap]
    exact h.room
  · rw [hcap]
    exact h.cap
  · exact h.writes.chain (writes_of_eq hbrk hmem hmaps hblocks _ _)
  · rw [hbase, hcap, hbrk]
    exact h.held.imp_right fun hb => ⟨hb.1, hb.2.1, hblocks ▸ hb.2.2⟩
  · intro j w hj hw
    obtain ⟨lo, hi, hlo, hhi, hapart, hholds⟩ := h.elems j w hj hw
    rw [hbase, hcap, hbrk]
    exact ⟨lo, hi, hlo, hhi, hapart, hholds.of_eq hmem hmaps hblocks⟩

/-- `grow` makes room for one more element and moves those in front of it. -/
theorem Elems.grow {cells : Cells} {vs : List Val} {s₀ s : State} {i : ℕ} {v : VecState}
    (h : Elems cells sz elem size (max align 1) vs s₀ i v s) (halloc : AllocOk size align)
    (hspan : elem.span sz ≤ size) (hi : i < maxSize) :
    ∃ w g, (grow size (max align 1) v).run s = (.done w, g) ∧ w.cur = v.cur ∧ i < w.cap ∧
      Elems cells sz elem size (max align 1) vs s₀ i w g := by
  have hmax : maxSize = 2 ^ 31 := rfl
  have hcap := h.cap
  have hroom := h.room
  by_cases hfull : v.len = v.cap
  · obtain ⟨newcap, hnew, hlt, hle, hnew4⟩ : ∃ newcap,
        (if v.cap = 0 then 4 else v.cap * 2 % 2 ^ 64) = newcap ∧ v.cap < newcap ∧
        newcap ≤ maxSize * 2 ∧ newcap ≤ 4 + 2 * i := by
      have hlen := h.len
      by_cases hz : v.cap = 0
      · exact ⟨4, if_pos hz, by omega, by omega, by omega⟩
      · refine ⟨v.cap * 2, ?_, by omega, by omega, by omega⟩
        rw [if_neg hz, Nat.mod_eq_of_lt (by omega)]
    have hidem : max (max align 1) 1 = max align 1 := by omega
    have hold : layoutOk (v.cap * size) (max align 1) = true := halloc.layoutOk (by omega)
    have hnewOk : layoutOk (newcap * size) (max align 1) = true := halloc.layoutOk hle
    have hmul : v.cap * size ≤ newcap * size := Nat.mul_le_mul_right size (by omega)
    have hbig : newcap * size < 2 ^ 64 := by
      have hisize : isizeMax = 2 ^ 63 - 1 := rfl
      rw [layoutOk, Bool.and_eq_true, decide_eq_true_eq] at hnewOk
      omega
    have hbelow : Room s v.base (v.cap * size) := h.held.room
    obtain ⟨p, g, hrun, hmoved⟩ := rtRealloc_run (max align 1) hmul
      (by rw [hidem]; exact hnewOk) (by rw [hidem]; exact hold) hbelow
    rw [hidem] at hmoved
    have hbrk := h.writes.brk
    have hbrk' := hmoved.brk
    refine ⟨{ v with base := p, cap := newcap }, g, ?_, rfl, by show i < newcap; omega, ?_⟩
    · rw [Bilbo.grow, if_pos hfull]
      simp only [hnew, Nat.mod_eq_of_lt hbig, Nat.mod_eq_of_lt (Nat.lt_of_le_of_lt hmul hbig)]
      rw [bind_done hrun]
      rfl
    · refine ⟨h.len, ?_, hnew4, ?_, ?_, ?_⟩
      · show i ≤ newcap
        omega
      · refine ⟨by omega, ?_, ?_, ?_⟩
        · intro x hx _
          rw [hmoved.mem x (by omega), h.writes.mem x hx (by omega)]
        · intro m hm
          rw [hmoved.maps, h.writes.maps m hm]
        · intro b hb hlt
          apply hmoved.blocks b (h.writes.blocks b hb hlt)
          -- the old buffer was allocated here
          rcases h.held with hz | ⟨hlo, -⟩
          · exact .inl hz
          · right
            omega
      · exact hmoved.held.imp_right fun hb => ⟨hbrk.trans hb.1, hb.2⟩
      · intro j w hj hw
        obtain ⟨lo, hi, hlo, hhi, hapart, hholds⟩ := h.elems j w hj hw
        refine ⟨lo, hi, hlo, by omega, ?_, ?_⟩
        · have hheld := hmoved.held
          show Apart lo (hi - lo) p (newcap * size)
          unfold Held at hheld
          unfold Apart
          omega
        · apply hholds.move _ (Nat.le_refl _) (Nat.le_refl _)
          · intro b hb
            obtain ⟨hslot, hslots⟩ := slot_le hj hroom size
            show g.mem (p + j * size + b) = s.mem (v.base + j * size + b)
            rw [Nat.add_assoc, Nat.add_assoc]
            apply hmoved.bytes
            omega
          · constructor
            · intro x _ hx
              exact hmoved.mem x (by omega)
            · intro m _ _
              rw [hmoved.maps]
            · intro b hb hblo hbhi
              apply hmoved.blocks b hb
              unfold Apart at hapart
              omega
  · refine ⟨v, s, ?_, rfl, ?_, h⟩
    · rw [Bilbo.grow, if_neg hfull]
      rfl
    · have hlen := h.len
      omega

/-- One more element, parsed into its place. -/
theorem Elems.push {cells : Cells} {vs : List Val} {s₀ s s' : State} {i : ℕ} {v : VecState}
    {w : Val} (h : Elems cells sz elem size align vs s₀ i v s) (hspan : elem.span sz ≤ size)
    (hi : i < v.cap) (hw : vs[i]? = some w)
    (hputs : Puts cells sz s s' elem w (v.base + i * size)) :
    Elems cells sz elem size align vs s₀ (i + 1) { v with len := i + 1 } s' := by
  have hbrk := h.writes.brk
  have hbrk' := hputs.writes.brk
  obtain ⟨hslot, hslots⟩ := slot_le (Nat.lt_succ_self i) hi size
  have hheld := h.held
  constructor
  · rfl
  · exact hi
  · show v.cap ≤ 4 + 2 * (i + 1)
    have hcap := h.cap
    omega
  · apply h.writes.trans hputs.writes (fun _ _ hlo hhi => ⟨hlo, hhi⟩)
    apply under_fresh
    unfold Held at hheld
    omega
  · exact h.held.keep hputs.writes (Nat.le_refl _) hbrk'
  · intro j x hj hx
    by_cases hji : j = i
    · -- the new element: its heap lies behind the buffer
      rw [hji] at hx
      obtain rfl : w = x := Option.some.inj (hw.symm.trans hx)
      refine ⟨s.brk, s'.brk, hbrk, Nat.le_refl _, ?_, hji ▸ hputs.holds⟩
      show Apart _ _ v.base (v.cap * size)
      unfold Held at hheld
      unfold Apart
      omega
    · obtain ⟨lo, hi', hlo, hhi, hapart, hholds⟩ := h.elems j x (by omega) hx
      obtain ⟨hslot', hslots'⟩ := slot_le (show j < i by omega) h.room size
      refine ⟨lo, hi', hlo, by omega, hapart, ?_⟩
      apply hholds.frame hputs.writes hhi _ _ _ (Nat.le_refl _) (Nat.le_refl _)
      · unfold Apart at *
        omega
      · unfold Held at hheld
        unfold Room
        omega
      · unfold Apart
        omega

/-! ## The loop -/

/-- An iteration of the loop of `parse_vec` on an item. -/
theorem vecBody_runs {vs : List Val} {s₀ s : State} {i p : ℕ} {v : VecState} {w : Val}
    {x sep r : Bytes} {b b' : UInt8} (halloc : AllocOk size align) (hspan : elem.span sz ≤ size)
    (h : Elems env.cells sz elem size (max align 1) vs s₀ i v s) (hi : i < maxSize)
    (hw : vs[i]? = some w) (hx : Binds env sz inp elem w x) (hb : Starts x b)
    (hne : b ≠ Ascii.rbracket) (hsep : IsSep sep) (hr : Starts r b') (hcomma : b' ≠ Ascii.comma)
    (hdelim : Delim (sep ++ r)) (hrest : inp.rest p = x ++ (sep ++ r))
    (hnear : Near inp v.cur p) :
    ∃ v' s', Runs (fun n d => vecBody inp (parse env inp n d) elem size (max align 1) v) s
        (.inl v') s' ∧
      Near inp v'.cur (p + (x.length + sep.length)) ∧
      Elems env.cells sz elem size (max align 1) vs s₀ (i + 1) v' s' := by
  obtain ⟨hlead, htoken, hst⟩ := hb.append (sep ++ r)
  have hws := hnear.ws_eq hst hrest
  obtain ⟨-, htok⟩ := hst.ws_eq hrest
  rw [htoken] at htok
  obtain ⟨y, hy⟩ := hb.2
  rw [hy] at htok
  have hload := loadU8_run htok s
  -- the buffer has room for one more after `grow`
  obtain ⟨u, g, hgrow, hcur, hroom, helems⟩ := h.grow halloc hspan hi
  obtain ⟨hslot, hslots⟩ := slot_le (Nat.lt_succ_self i) hroom size
  have hbuffer : Room g (u.base + i * size) (elem.span sz) := by
    have hheld := helems.held
    unfold Held at hheld
    unfold Room
    omega
  obtain ⟨e, hrun, hputs⟩ := hx.at_item hb hrest hdelim (near_ws inp p) hbuffer
  obtain ⟨k, hpast, hnear'⟩ := pastComma_run hsep (Input.rest_append hrest) hr hcomma e
  have hpush := helems.push hspan hroom hw hputs
  refine ⟨{ u with cur := k, len := u.len + 1 },
    { e with trace := .iter elem (ws inp p) k :: e.trace }, ?_, ?_, ?_⟩
  · unfold vecBody
    simp only [hws]
    apply Runs.bind_eq hload
    have hb' : (b == Ascii.rbracket) = false := by simpa using hne
    simp only [hb', Bool.false_eq_true, if_false]
    apply Runs.bind_eq hgrow
    -- the offset of the slot does not wrap
    have hmod : u.len * size % 2 ^ 64 = i * size := by
      have hcap := helems.cap
      have hmax : maxSize = 2 ^ 31 := rfl
      have hsmall := halloc.small
      have hmul : i * size ≤ maxSize * maxSize := Nat.mul_le_mul (by omega) (by omega)
      have hprod : maxSize * maxSize = 2 ^ 62 := rfl
      rw [helems.len, Nat.mod_eq_of_lt (by omega)]
    simp only [hmod]
    apply hrun.bind
    apply Runs.bind_eq hpast
    exact Runs.of_eq rfl
  · rw [← Nat.add_assoc]
    exact hnear'
  · apply hpush.of_eq <;> try rfl
    show u.len + 1 = i + 1
    rw [helems.len]

/-- The loop of `parse_vec` on the items that are left. -/
theorem vecLoop_runs {vs : List Val} {s₀ : State} {tail : Bytes} (halloc : AllocOk size align)
    (hspan : elem.span sz ≤ size) (hsmall : vs.length ≤ maxSize) {items : List (Bytes × Bytes)}
    {i p : ℕ} {v : VecState} {s : State} (hlen : i + items.length = vs.length)
    (hseps : Separated items)
    (hstarts : ∀ x ∈ items, ∃ b, Starts x.1 b ∧ b ≠ Ascii.comma ∧ b ≠ Ascii.rbracket)
    (hitems : ∀ (j : ℕ) (w : Val) (x : Bytes × Bytes), vs[i + j]? = some w →
      items[j]? = some x → Binds env sz inp elem w x.1)
    (hrest : inp.rest p = closed Ascii.rbracket items ++ tail) (hnear : Near inp v.cur p)
    (h : Elems env.cells sz elem size (max align 1) vs s₀ i v s) :
    ∃ v' s', RunsLoop (fun n d => vecBody inp (parse env inp n d) elem size (max align 1)) v s
        v' s' ∧
      ws inp v'.cur + 1 = p + (closed Ascii.rbracket items).length ∧
      Elems env.cells sz elem size (max align 1) vs s₀ vs.length v' s' := by
  induction items generalizing i p v s with
  | nil =>
    have hws := ws_visible hrest (by decide)
    have hcur := hnear.ws_eq (starts_ws IsWs.nil (by decide)) hrest
    refine ⟨{ v with cur := p }, s, RunsLoop.exit ?_, ?_, ?_⟩
    · unfold vecBody
      simp only [hcur, hws]
      exact Runs.bind_eq (loadU8_run hrest s) (Runs.pure _ _)
    · show ws inp p + 1 = _
      rw [hws]
      rfl
    · rw [← hlen]
      exact h.of_eq rfl rfl rfl rfl rfl rfl rfl
  | cons x items ih =>
    obtain ⟨hsep, hlast, hseps⟩ := hseps
    obtain ⟨b, hb, -, hne⟩ := hstarts x List.mem_cons_self
    have hstarts' : ∀ y ∈ items, ∃ b, Starts y.1 b ∧ b ≠ Ascii.comma ∧ b ≠ Ascii.rbracket :=
      fun y hy => hstarts y (List.mem_cons_of_mem _ hy)
    obtain ⟨b', hb', hcomma⟩ := closed_starts (by decide : 0x20 < Ascii.rbracket) (by decide)
      (fun y hy => (hstarts' y hy).imp fun _ hy => ⟨hy.1, hy.2.1⟩) tail
    rw [List.length_cons] at hlen
    obtain ⟨w, hw⟩ : ∃ w, vs[i]? = some w := ⟨_, List.getElem?_eq_getElem (by omega)⟩
    rw [closed_cons_append] at hrest
    have hdelim := delim_sep (by decide : endsScalar Ascii.rbracket = true) hsep hlast tail
    -- the first item, and the items behind it by induction
    obtain ⟨v₁, s₁, hbody, hnear', h₁⟩ := vecBody_runs halloc hspan h (by omega) hw
      (hitems 0 w x hw rfl) hb hne hsep hb' hcomma hdelim hrest hnear
    have hrest' := Input.rest_append (Input.rest_append hrest)
    rw [Nat.add_assoc] at hrest'
    obtain ⟨v', s', hloop, hend, h'⟩ := ih (by omega) hseps hstarts'
      (fun j y z hy hz => hitems (j + 1) y z (by rwa [Nat.add_comm j, ← Nat.add_assoc]) hz)
      hrest' hnear' h₁
    refine ⟨v', s', RunsLoop.step hbody hloop, ?_, h'⟩
    rw [hend, length_closed_cons]
    omega

/-- An empty buffer at the dangling address. -/
theorem elems_start (cells : Cells) (vs : List Val) (s : State) (cur : ℕ) :
    Elems cells sz elem size align vs s 0 ⟨cur, align, 0, 0⟩ s := by
  refine ⟨rfl, Nat.le_refl 0, Nat.zero_le _, Writes.refl s 0 0, .inl ?_, ?_⟩
  · exact Nat.zero_mul size
  · exact fun j _ hj => absurd hj (Nat.not_lt_zero j)

/-- The words of the vector are stored over its destination. -/
theorem Elems.puts {cells : Cells} {vs : List Val} {s₀ s : State} {v : VecState} {dst : ℕ}
    {m : Memory} (h : Elems cells sz elem size (max align 1) vs s₀ vs.length v s)
    (hspan : elem.span sz ≤ size) (hsmall : vs.length ≤ maxSize)
    (hroom : Room s₀ dst ((Ty.vec elem size align seq).span sz))
    (hout : Overwrites s.mem m dst ((Ty.vec elem size align seq).span sz))
    (hptr : readPtr m (dst + seq.ptrOff) = some v.base)
    (hcap : readNat m (dst + seq.capOff) 8 = some (v.cap % 256 ^ 8))
    (hlen : readNat m (dst + seq.lenOff) 8 = some (v.len % 256 ^ 8)) :
    Puts cells sz s₀ { s with mem := m } (.vec elem size align seq) (.seq vs) dst := by
  have hmax : maxSize = 2 ^ 31 := rfl
  have hisize : isizeMax = 2 ^ 63 - 1 := rfl
  have hpow : (256 : ℕ) ^ 8 = 2 ^ 64 := by decide
  have hcap' := h.cap
  have hbrk := h.writes.brk
  have hheld := h.held
  -- neither count is truncated
  rw [Nat.mod_eq_of_lt (by omega)] at hcap
  rw [h.len, Nat.mod_eq_of_lt (by omega)] at hlen
  constructor
  · exact (h.writes.widen _ _).chain hout.writes
  · refine Holds.vec h.room (by omega) hptr hcap hlen ?_ ?_ ?_
    · exact h.held.keep hout.writes (Nat.le_refl _) (Nat.le_refl _)
    · intro j hj
      obtain ⟨hslot, hslots⟩ := slot_le hj h.room size
      omega
    · intro j w hw
      have hj := (List.getElem?_eq_some_iff.1 hw).1
      obtain ⟨hslot, hslots⟩ := slot_le hj h.room size
      obtain ⟨lo, hi, hlo, hhi, hapart, hholds⟩ := h.elems j w hj hw
      -- the words lie apart from the buffer
      apply hholds.frame hout.writes hhi _ _ _ hlo hhi
      · unfold Apart Room at *
        omega
      · unfold Held at hheld
        unfold Room
        omega
      · unfold Held at hheld
        unfold Apart Room at *
        omega

theorem parsesTo_vec {w w' : Bytes} {vs : List Val} {items : List (Bytes × Bytes)}
    (halloc : AllocOk size align) (hspan : elem.span sz ≤ size) (hseq : seq.Ok) (hw : IsWs w)
    (hw' : IsWs w') (hseps : Separated items) (hlen : items.length = vs.length)
    (hsmall : vs.length ≤ maxSize)
    (hstarts : ∀ x ∈ items, ∃ b, Starts x.1 b ∧ b ≠ Ascii.comma ∧ b ≠ Ascii.rbracket)
    (hitems : ∀ (i : ℕ) (v : Val) (x : Bytes × Bytes), vs[i]? = some v → items[i]? = some x →
      Binds env sz inp elem v x.1) :
    ParsesTo env sz inp (.vec elem size align seq) (.seq vs)
      (w ++ Ascii.lbracket :: arrayText w' items) := by
  intro c dst s tail h htail hroom
  rw [List.append_assoc, List.cons_append, arrayText, List.append_assoc] at h
  have hws : ws inp c = c + w.length := ws_eq hw h (by decide)
  have hbody := (Input.rest_cons (Input.rest_append h)).2.2
  obtain ⟨b, hb, -⟩ := closed_starts (by decide : 0x20 < Ascii.rbracket) (by decide)
    (fun x hx => (hstarts x hx).imp fun _ hx => ⟨hx.1, hx.2.1⟩) tail
  -- an empty buffer, the items, then the three words
  obtain ⟨v, s₁, hloop, hend, helems⟩ := vecLoop_runs halloc hspan hsmall (i := 0)
    (by rw [Nat.zero_add, hlen]) hseps hstarts
    (fun j x y hx hy => hitems j x y (by rwa [Nat.zero_add] at hx) hy) (Input.rest_append hbody)
    (near_lead hw' hb hbody) (elems_start env.cells vs s (c + w.length + 1))
  obtain ⟨m, hstore, hout, hptr, hcap, hlenw⟩ := storeSeq_run hseq dst v.base v.cap v.len s₁
  refine ⟨{ s₁ with mem := m }, ?_, helems.puts hspan hsmall hroom hout hptr hcap hlenw⟩
  apply Runs.call
    (x := fun n d => parseVec inp n (parse env inp n d) elem size align seq dst c)
    (fun _ _ => rfl)
  unfold parseVec
  simp only [hws]
  have hlast : c + (w ++ Ascii.lbracket :: arrayText w' items).length = ws inp v.cur + 1 := by
    rw [hend]
    simp only [arrayText, List.length_append, List.length_cons]
    omega
  rw [hlast]
  apply hloop.runs.bind
  exact Runs.bind_eq hstore (Runs.pure _ _)

end

end Bilbo
