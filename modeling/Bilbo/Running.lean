import Bilbo.Emitter
import Bilbo.Strings
import Bilbo.Unescape

/-!
# Running the emitted instructions

The code that the emitter has written follows the parser: from the point where a piece of it starts,
with the process that belongs to the state of the parser, it gets to the point where the piece stops,
with the process that belongs to the state the parser ends in, and some value holds what the parser
returned. `Lands` is this end.

This is shown here for loads, stores and calls of shims. Where the parser stops, the code is at the
load or at the shim that is the reason.
-/

namespace Bilbo

open Base Base.Cfg Comp

namespace Emitter

open Clif

variable {fl : FloatOps} {inp : Input} {P : Program Op} {code : Code Op} {x : Ctx Datum Scratch}
  {b b' b₁ : Builder Op} {fr fr₁ : Frame Datum Scratch} {s : State} {N : ℕ} {α : Type}

/-! ## Where the code is -/

/-- The code is at the end of what was written, with the process of a state, and has kept the values
from before. -/
def Lands (x : Ctx Datum Scratch) (b : Builder Op) (fr : Frame Datum Scratch) (b' : Builder Op)
    (q : α → Frame Datum Scratch → Prop) (a : α) (s : State) (c : Config Datum Scratch Process) : Prop :=
  ∃ fr', c = x.point b' fr' s.proc ∧ Later b fr b' fr' ∧ q a fr'

/-- The constants of every piece of code: the end of the input and the scratch slot. -/
structure Pctx.Live (p : Pctx) (inp : Input) (b : Builder Op) (fr : Frame Datum Scratch) : Prop where
  end_ : Carries b fr p.end_ (.text inp.stop)
  sc : Carries b fr p.sc (.slot 0)

theorem Pctx.Live.later {p : Pctx} (h : p.Live inp b fr) (hl : Later b fr b₁ fr₁) :
    p.Live inp b₁ fr₁ := ⟨h.end_.later hl, h.sc.later hl⟩

/-- A piece of code that runs after another one. -/
theorem Lands.after {b'' : Builder Op} {q : α → Frame Datum Scratch → Prop} {a : α}
    {c : Config Datum Scratch Process} (h : Lands x b₁ fr₁ b'' q a s c) (hl : Later b fr b₁ fr₁) :
    Lands x b fr b'' q a s c := by
  obtain ⟨fr', hc, hl', hq⟩ := h
  exact ⟨fr', hc, hl.trans hl', hq⟩

/-! ## Operations on values -/

section Values

variable {g : Process} {r v v' c : ℕ} {u : Unit}

/-- An operation on values. -/
theorem op_ran (fl : FloatOps) (inp : Input) (g : Process) {o : Op} {args : List Value} {ws : List Datum}
    {w : Datum} (h : Wrote code (define o args) b r b') (hP : P x.func = some code)
    (hargs : List.Forall₂ (Carries b fr) args ws)
    (heval : eval fl inp o ws fr.loc g = some (w, fr.loc, g)) :
    ∃ fr', Went (system fl inp P) x g b fr b' fr' ∧ Carries b' fr' r w ∧ fr'.loc = fr.loc :=
  h.ran (S := semantics fl inp) hP hargs heval

theorem toNat_ofNat {n : ℕ} (h : n < 2 ^ 64) : (BitVec.ofNat 64 n).toNat = n :=
  (BitVec.toNat_ofNat n 64).trans (Nat.mod_eq_of_lt h)

/-- A comparison of a number with a constant. -/
theorem icmpImm_ran (fl : FloatOps) (inp : Input) (g : Process) {cc : IntCC} {n m : ℕ}
    (h : Wrote code (icmpImm cc v n) b r b') (hP : P x.func = some code)
    (hv : Carries b fr v (.nat m)) (hm : m < 2 ^ 64) (hn : n < 2 ^ 64) :
    ∃ fr', Went (system fl inp P) x g b fr b' fr' ∧ Carries b' fr' r (.ofBool (cc.holds m n)) := by
  obtain ⟨fr', hwent, hr, -⟩ := op_ran fl inp g h hP (.cons hv .nil) rfl
  rw [toNat_ofNat hm, toNat_ofNat hn] at hr
  exact ⟨fr', hwent, hr⟩

/-- A comparison of two numbers. -/
theorem icmp_ran (fl : FloatOps) (inp : Input) (g : Process) {cc : IntCC} {n m : ℕ}
    (h : Wrote code (icmp cc v v') b r b') (hP : P x.func = some code)
    (hv : Carries b fr v (.nat m)) (hv' : Carries b fr v' (.nat n)) (hm : m < 2 ^ 64) (hn : n < 2 ^ 64) :
    ∃ fr', Went (system fl inp P) x g b fr b' fr' ∧ Carries b' fr' r (.ofBool (cc.holds m n)) := by
  obtain ⟨fr', hwent, hr, -⟩ := op_ran fl inp g h hP (.cons hv (.cons hv' .nil)) rfl
  rw [toNat_ofNat hm, toNat_ofNat hn] at hr
  exact ⟨fr', hwent, hr⟩

/-- A comparison of two addresses in the input. -/
theorem icmp_text_ran (fl : FloatOps) (inp : Input) (g : Process) {cc : IntCC} {n m : ℕ}
    (h : Wrote code (icmp cc v v') b r b') (hP : P x.func = some code)
    (hv : Carries b fr v (.text m)) (hv' : Carries b fr v' (.text n)) :
    ∃ fr', Went (system fl inp P) x g b fr b' fr' ∧ Carries b' fr' r (.ofBool (cc.holds m n)) := by
  obtain ⟨fr', hwent, hr, -⟩ := op_ran fl inp g h hP (.cons hv (.cons hv' .nil)) rfl
  exact ⟨fr', hwent, hr⟩

theorem byteEq_ran (fl : FloatOps) (inp : Input) (g : Process) {ch byte : UInt8}
    (h : Wrote code (byteEq v ch) b r b') (hP : P x.func = some code)
    (hv : Carries b fr v (.nat byte.toNat)) :
    ∃ fr', Went (system fl inp P) x g b fr b' fr' ∧ Carries b' fr' r (.ofBool (byte == ch)) := by
  obtain ⟨fr', hwent, hr⟩ := icmpImm_ran fl inp g h hP hv (byte.toNat_lt.trans (by decide))
    (ch.toNat_lt.trans (by decide))
  have heq : IntCC.equal.holds byte.toNat ch.toNat = (byte == ch) := by
    rw [IntCC.holds, Bool.eq_iff_iff, beq_iff_eq, beq_iff_eq, UInt8.toNat_inj]
  rw [heq] at hr
  exact ⟨fr', hwent, hr⟩

theorem iconst_ran (fl : FloatOps) (inp : Input) (g : Process) (fr : Frame Datum Scratch) {n : ℕ}
    (h : Wrote code (iconst n) b r b') (hP : P x.func = some code) :
    ∃ fr', Went (system fl inp P) x g b fr b' fr' ∧ Carries b' fr' r (.nat n) := by
  have hnil : List.Forall₂ (Carries b fr) [] [] := .nil
  obtain ⟨fr', hwent, hr, -⟩ := op_ran fl inp g h hP hnil rfl
  exact ⟨fr', hwent, hr⟩

/-- A step in the input. -/
theorem advance_ran (fl : FloatOps) (inp : Input) (g : Process) {n k : ℕ}
    (h : Wrote code (iaddImm v (.ofNat 64 n)) b r b') (hP : P x.func = some code)
    (hv : Carries b fr v (.text k)) (hn : n < 2 ^ 64) :
    ∃ fr', Went (system fl inp P) x g b fr b' fr' ∧ Carries b' fr' r (.text (k + n)) := by
  obtain ⟨fr', hwent, hr, -⟩ := op_ran fl inp g h hP (.cons hv .nil) rfl
  rw [toNat_ofNat hn] at hr
  exact ⟨fr', hwent, hr⟩

/-- A sum with a constant. -/
theorem iaddImm_ran (fl : FloatOps) (inp : Input) (g : Process) {n m : ℕ}
    (h : Wrote code (iaddImm v (.ofNat 64 n)) b r b') (hP : P x.func = some code)
    (hv : Carries b fr v (.nat m)) :
    ∃ fr', Went (system fl inp P) x g b fr b' fr' ∧ Carries b' fr' r (.nat (m + n)) := by
  obtain ⟨fr', hwent, hr, -⟩ := op_ran fl inp g h hP (.cons hv .nil) rfl
  rw [← BitVec.ofNat_add] at hr
  exact ⟨fr', hwent, hr⟩

/-- The choice between two words. -/
theorem select_ran (fl : FloatOps) (inp : Input) (g : Process) {p : Bool} {w w' : Datum}
    (h : Wrote code (select c v v') b r b') (hP : P x.func = some code)
    (hc : Carries b fr c (.ofBool p)) (hv : Carries b fr v w) (hv' : Carries b fr v' w') :
    ∃ fr', Went (system fl inp P) x g b fr b' fr' ∧ Carries b' fr' r (if p then w else w') := by
  obtain ⟨fr', hwent, hr, -⟩ := op_ran fl inp g h hP (.cons hc (.cons hv (.cons hv' .nil))) rfl
  cases p <;> exact ⟨fr', hwent, hr⟩

/-- A branch on a comparison. -/
theorem branch (fl : FloatOps) (inp : Input) (g : Process) {l l' : Blk} {args args' : List Value}
    {ws ws' : List Datum} {p : Bool} (h : Wrote code (brif c l args l' args') b u b')
    (hP : P x.func = some code) (hl : l.Written code) (hl' : l'.Written code)
    (hc : Carries b fr c (.ofBool p)) (hargs : List.Forall₂ (Carries b fr) args ws)
    (hargs' : List.Forall₂ (Carries b fr) args' ws') :
    (system fl inp P).step (x.point b fr g) =
      some (if p then x.start l ws fr g else x.start l' ws' fr g) := by
  have ht : (semantics fl inp).truth (fr.vals c) = some p := by
    rw [hc.2]
    cases p <;> rfl
  have hstep := h.brif_step (S := semantics fl inp) (g := g) hP hl hl' ht
  rwa [map_vals hargs, map_vals hargs'] at hstep

theorem goes (fl : FloatOps) (inp : Input) (g : Process) {l : Blk} {args : List Value} {ws : List Datum}
    (h : Wrote code (jump l args) b u b') (hP : P x.func = some code) (hl : l.Written code)
    (hargs : List.Forall₂ (Carries b fr) args ws) :
    (system fl inp P).step (x.point b fr g) = some (x.start l ws fr g) := by
  rw [← map_vals hargs]
  exact h.jump_step hP hl

end Values

/-! ## Loads -/

section

variable {r : ℕ} {o : Op} {args : List Value} {ws : List Datum}

/-- What the code does next. -/
theorem upcoming_define (h : Wrote code (define o args) b r b') (hP : P x.func = some code)
    (hargs : List.Forall₂ (Carries b fr) args ws) (g : Process) :
    upcoming P (x.point b fr g) = some (o, ws, fr.loc) := by
  rw [upcoming, h.next_addInst hP fr g]
  show some (o, args.map fr.vals, fr.loc) = _
  rw [map_vals hargs]

/-- A load that would reach past the end of the input. -/
theorem fault_load (fl : FloatOps) {a w : ℕ} (h : Wrote code (define o args) b r b')
    (hP : P x.func = some code) (hargs : List.Forall₂ (Carries b fr) args ws) (hloads : o.loads ws = some (a, w))
    (ha : inp.stop < a + w) (g : Process) : Fault fl inp P (.load a) (x.point b fr g) :=
  ⟨o, ws, fr.loc, w, upcoming_define h hP hargs g, hloads, ha⟩

end

theorem shift_zero (a : ℕ) : shift a 0 = a := by
  rw [shift, Int.add_zero, Int.toNat_natCast]

theorem loadU8_follows {addr r c : ℕ} (h : Wrote code (loadU8 addr) b r b')
    (hP : P x.func = some code) (ha : Carries b fr addr (.text c)) :
    (system fl inp P).Follows N (x.point b fr s.proc) ((Bilbo.loadU8 inp c).run s)
      fun y s' cfg => (s' = s ∧ y = inp.byte c ∧ c < inp.stop) ∧
        Lands x b fr b' (fun y fr' => Carries b' fr' r (.nat y.toNat)) y s' cfg := by
  rw [Bilbo.loadU8, ite_run]
  split
  · next hc =>
    obtain ⟨fr₁, hwent, hr, -⟩ := op_ran fl inp s.proc h hP (.cons ha .nil) rfl
    refine .after hwent.steps (.done ⟨⟨rfl, rfl, hc⟩, fr₁, rfl, hwent.later, ?_⟩)
    rwa [shift_zero] at hr
  · next hc =>
    have hloads : (Op.uload8 0).loads [.text c] = some (c, 1) := by rw [Op.loads, shift_zero]
    exact .stop (fault_load fl h hP (.cons ha .nil) hloads (by omega) _)

/-! ## Stores -/

theorem proc_storeCells (s : State) (a : ℕ) (cs : List Cell) :
    ({ s with mem := writeCells s.mem a cs } : State).proc =
      { s.proc with mem := putBytes s.proc.mem a (cs.map Cell.byte) } := by
  show Process.mk (Memory.bytes (writeCells s.mem a cs)) _ _ = _
  rw [bytes_writeCells]
  rfl

/-- A word is stored as the cells that have its bytes. -/
theorem store_follows {ty : Width} {v addr a : ℕ} {off : ℤ} {w : Datum} {cs : List Cell} {u : Unit}
    (h : Wrote code (store ty v addr off) b u b') (hP : P x.func = some code)
    (hv : Carries b fr v w) (ha : Carries b fr addr (.heap a))
    (hw : w.bytes ty = some (cs.map Cell.byte)) :
    (system fl inp P).Follows N (x.point b fr s.proc) ((storeCells (shift a off) cs).run s)
      (Lands x b fr b' fun _ _ => True) := by
  have hvalues := h.effect_values
  refine .of_step (h.effect_step (S := semantics fl inp) (w := w) (l := fr.loc) hP ?_)
    (.done ⟨fr, rfl, ⟨hvalues.ge, .refl _ fr⟩, trivial⟩)
  show Clif.eval fl inp (.store ty off) [fr.vals v, fr.vals addr] fr.loc s.proc = _
  rw [hv.2, ha.2, eval_store, hw, proc_storeCells, Option.map_some]

/-- The low bytes of an integer. -/
theorem storeInt_follows {ty : Width} {v addr a m : ℕ} {off : ℤ} {n : BitVec 64} {u : Unit}
    (h : Wrote code (store ty v addr off) b u b') (hP : P x.func = some code)
    (hv : Carries b fr v (.int n)) (ha : Carries b fr addr (.heap a))
    (hn : le ty.bytes n.toNat = le ty.bytes m) :
    (system fl inp P).Follows N (x.point b fr s.proc) ((storeInt (shift a off) ty.bytes m).run s)
      (Lands x b fr b' fun _ _ => True) := by
  refine store_follows h hP hv ha ?_
  rw [Datum.bytes, hn, map_byte_ints]

theorem storeInt_zero_follows {ty : Width} {v addr a m : ℕ} {n : BitVec 64} {u : Unit}
    (h : Wrote code (store ty v addr 0) b u b') (hP : P x.func = some code)
    (hv : Carries b fr v (.int n)) (ha : Carries b fr addr (.heap a))
    (hn : le ty.bytes n.toNat = le ty.bytes m) :
    (system fl inp P).Follows N (x.point b fr s.proc) ((storeInt a ty.bytes m).run s)
      (Lands x b fr b' fun _ _ => True) := by
  rw [← shift_zero a]
  exact storeInt_follows h hP hv ha hn

/-- A pointer. -/
theorem storePtr_follows {v addr a p : ℕ} {off : ℤ} {u : Unit}
    (h : Wrote code (store .i64 v addr off) b u b') (hP : P x.func = some code)
    (hv : Carries b fr v (.heap p)) (ha : Carries b fr addr (.heap a)) :
    (system fl inp P).Follows N (x.point b fr s.proc) ((storePtr (shift a off) p).run s)
      (Lands x b fr b' fun _ _ => True) :=
  store_follows h hP hv ha rfl

/-! ## Shims -/

/-- A shim does what the parser does: it returns a word and what goes to the scratch slot, or panics
with the same message. -/
def ShimDoes (fl : FloatOps) (inp : Input) (sc : Scratch) (g : Process) (f : Shim) (ws : List Datum)
    (r : Outcome Stop α × State) (q : α → State → Datum → Scratch → Prop) : Prop :=
  match r with
  | (.done a, s) => ∃ w sc', Clif.callShim fl inp sc g f ws = some (.ok (w, sc', s.proc)) ∧
      q a s w sc'
  | (.stop e, _) => ∃ msg, e = .panic msg ∧ Clif.callShim fl inp sc g f ws = some (.error msg)
  | _ => False

theorem shim_follows {f : Shim} {args : List Value} {ws : List Datum} {r : ℕ}
    (h : Wrote code (callShim f args) b r b') (hP : P x.func = some code)
    (hargs : List.Forall₂ (Carries b fr) args ws) {y : M α} {q : α → State → Datum → Scratch → Prop}
    (hspec : ShimDoes fl inp fr.loc s.proc f ws (y.run s) q) :
    (system fl inp P).Follows N (x.point b fr s.proc) (y.run s) fun a s' cfg => ∃ fr' w,
      cfg = x.point b' fr' s'.proc ∧ Later b fr b' fr' ∧ Carries b' fr' r w ∧ q a s' w fr'.loc := by
  rcases hy : y.run s with ⟨a | e | _ | _, s'⟩ <;> rw [hy] at hspec
  · obtain ⟨w, sc, hcall, hq⟩ := hspec
    obtain ⟨rfl, hvalues⟩ := h.define_value
    have heval : (semantics fl inp).eval (.callShim f) (args.map fr.vals) fr.loc s.proc =
        some (w, sc, s'.proc) := by
      show Clif.eval fl inp (.callShim f) _ _ _ = _
      rw [map_vals hargs, eval_callShim, hcall]
    refine .of_step (h.define_step hP heval) (.done ⟨_, w, rfl, ?_, ?_, hq⟩)
    · exact ⟨h.values, (Frame.Agree.refl _ fr).set (Nat.le_refl _) w⟩
    · exact ⟨by omega, Frame.vals_set_self _ _ _⟩
  · obtain ⟨msg, rfl, hcall⟩ := hspec
    exact .stop ⟨f, ws, fr.loc, upcoming_define h hP hargs _, hcall⟩
  · exact hspec.elim
  · exact hspec.elim

/-- A shim that neither allocates nor writes. -/
theorem shim_ran {f : Shim} {args : List Value} {ws : List Datum} {r : ℕ} {w : Datum} {g : Process}
    (h : Wrote code (callShim f args) b r b') (hP : P x.func = some code)
    (hargs : List.Forall₂ (Carries b fr) args ws)
    (hcall : Clif.callShim fl inp fr.loc g f ws = some (.ok (w, fr.loc, g))) :
    ∃ fr', Went (system fl inp P) x g b fr b' fr' ∧ Carries b' fr' r w := by
  have heval : (semantics fl inp).eval (.callShim f) ws fr.loc g = some (w, fr.loc, g) := by
    show Clif.eval fl inp (.callShim f) ws fr.loc g = _
    rw [eval_callShim, hcall]
  obtain ⟨fr', hwent, hr, -⟩ := op_ran fl inp g h hP hargs heval
  exact ⟨fr', hwent, hr⟩

/-- An allocation is the same on both sides, and leaves the memory as it is. -/
def Allocates (s : State) (r : Outcome Stop ℕ × State) (x : Except String (ℕ × Process)) : Prop :=
  match r with
  | (.done p, s₁) => x = .ok (p, s₁.proc) ∧ s₁.mem = s.mem
  | (.stop e, _) => ∃ msg, e = .panic msg ∧ x = .error msg
  | _ => False

theorem alloc_allocates (s : State) (size align : ℕ) :
    Allocates s ((alloc size align).run s) (s.proc.alloc size align) := by
  rw [alloc, Process.alloc]
  split
  · exact ⟨rfl, rfl⟩
  · exact ⟨_, rfl, rfl⟩

theorem rtAlloc_allocates (s : State) (n : ℕ) :
    Allocates s ((Bilbo.rtAlloc n).run s) (s.proc.rtAlloc n) := by
  rw [Bilbo.rtAlloc, Process.rtAlloc]
  split
  · exact ⟨rfl, rfl⟩
  · exact alloc_allocates s n 1

theorem rtBoxAlloc_allocates (s : State) (size align : ℕ) :
    Allocates s ((Bilbo.rtBoxAlloc size align).run s) (s.proc.rtBoxAlloc size align) := by
  rw [Bilbo.rtBoxAlloc, Process.rtBoxAlloc]
  split
  · exact ⟨rfl, rfl⟩
  · exact alloc_allocates s size (max align 1)

/-- A shim that only allocates. -/
theorem Allocates.does {r : Outcome Stop ℕ × State} {y : Except String (ℕ × Process)} {sc : Scratch}
    {f : Shim} {ws : List Datum} (h : Allocates s r y)
    (hcall : Clif.callShim fl inp sc s.proc f ws = some (y.map fun x => (.heap x.1, sc, x.2))) :
    ShimDoes fl inp sc s.proc f ws r fun p _ w _ => w = .heap p := by
  match r, h with
  | (.done p, s₁), ⟨hy, _⟩ =>
    refine ⟨.heap p, sc, hcall.trans ?_, rfl⟩
    rw [hy]
    rfl
  | (.stop e, s₁), ⟨msg, he, hy⟩ =>
    refine ⟨msg, he, hcall.trans ?_⟩
    rw [hy]
    rfl

theorem ShimDoes.and {sc : Scratch} {g : Process} {f : Shim} {ws : List Datum}
    {r : Outcome Stop α × State} {q : α → State → Datum → Scratch → Prop} {k : Prop}
    (h : ShimDoes fl inp sc g f ws r q) (hk : ∀ a s', r = (.done a, s') → k) :
    ShimDoes fl inp sc g f ws r fun a s' w sc' => q a s' w sc' ∧ k := by
  match r, h with
  | (.done a, s'), ⟨w, sc', hcall, hq⟩ => exact ⟨w, sc', hcall, hq, hk a s' rfl⟩
  | (.stop _, _), h => exact h

/-- `Layout` refuses what is longer than `isize::MAX`. -/
theorem rtAlloc_le {n p : ℕ} {s' : State} (h : (Bilbo.rtAlloc n).run s = (.done p, s')) :
    n ≤ isizeMax := by
  rw [Bilbo.rtAlloc] at h
  split at h
  · omega
  · rw [alloc] at h
    split at h
    · next hok =>
      simp only [layoutOk, Bool.and_eq_true, decide_eq_true_eq] at hok
      exact hok.2
    · cases h

theorem rtAlloc_does {sc : Scratch} {n : BitVec 64} {len : ℕ} (hn : n.toNat = len) :
    ShimDoes fl inp sc s.proc .alloc [.int n] ((Bilbo.rtAlloc len).run s)
      fun p _ w _ => w = .heap p ∧ len ≤ isizeMax := by
  subst hn
  have h : ShimDoes fl inp sc s.proc .alloc [.int n] ((Bilbo.rtAlloc n.toNat).run s)
      fun p _ w _ => w = .heap p := (rtAlloc_allocates s n.toNat).does rfl
  exact h.and fun _ _ => rtAlloc_le

theorem rtBoxAlloc_does {sc : Scratch} {n m : BitVec 64} {size align : ℕ} (hn : n.toNat = size)
    (hm : m.toNat = align) :
    ShimDoes fl inp sc s.proc .boxAlloc [.int n, .int m] ((Bilbo.rtBoxAlloc size align).run s)
      fun p _ w _ => w = .heap p := by
  subst hn hm
  exact (rtBoxAlloc_allocates s n.toNat m.toNat).does rfl

theorem rtRealloc_does {sc : Scratch} {w : Datum} {o n a : BitVec 64} {ptr old new align : ℕ}
    (ho : o.toNat = old) (hn : n.toNat = new) (ha : a.toNat = align)
    (hptr : old ≠ 0 → w = .heap ptr) :
    ShimDoes fl inp sc s.proc .realloc [w, .int o, .int n, .int a]
      ((Bilbo.rtRealloc ptr old new align).run s) fun p _ w _ => w = .heap p := by
  have hcall : Clif.callShim fl inp sc s.proc .realloc [w, .int o, .int n, .int a] =
      (s.proc.rtRealloc w old new align).map fun r => r.map fun x => (.heap x.1, sc, x.2) := by
    rw [← ho, ← hn, ← ha]
    rfl
  unfold Process.rtRealloc at hcall
  rw [Bilbo.rtRealloc]
  by_cases h0 : old = 0
  · rw [if_pos h0] at hcall ⊢
    by_cases hnew : new = 0
    · rw [if_pos hnew] at hcall ⊢
      exact ⟨_, _, hcall, rfl⟩
    · rw [if_neg hnew] at hcall ⊢
      exact (alloc_allocates s new (max align 1)).does hcall
  · obtain rfl := hptr h0
    rw [if_neg h0] at hcall ⊢
    by_cases hok : layoutOk old (max align 1) = true
    · rw [if_pos hok] at hcall ⊢
      have halloc := alloc_allocates s new (max align 1)
      rw [bind_run]
      rcases hr : (alloc new (max align 1)).run s with ⟨p | e | _ | _, s₁⟩ <;> rw [hr] at halloc
      · obtain ⟨halloc, hmem⟩ := halloc
        refine ⟨.heap p, sc, hcall.trans ?_, rfl⟩
        -- what moves is read from the same memory
        rw [halloc]
        show some (Except.ok (_, _, Process.mk _ _ _)) = some (Except.ok (_, _, Process.mk _ _ _))
        rw [bytes_writeCells, ← getBytes_bytes]
        rfl
      · obtain ⟨msg, rfl, halloc⟩ := halloc
        refine ⟨msg, rfl, hcall.trans ?_⟩
        rw [halloc]
        rfl
      · exact halloc
      · exact halloc
    · rw [if_neg hok] at hcall ⊢
      exact ⟨_, rfl, hcall⟩

theorem rtUnescape_does {sc : Scratch} {n : BitVec 64} {src len : ℕ} (hn : n.toNat = len) :
    ShimDoes fl inp sc s.proc .unescape [.text src, .int n, .slot 0]
      ((Bilbo.rtUnescape inp src len).run s) fun p s' w sc' =>
        w = .heap p ∧ sc'.1.toNat = s'.sc.1 := by
  have hcall : Clif.callShim fl inp sc s.proc .unescape [.text src, .int n, .slot 0] =
      some ((s.proc.rtUnescape inp src len).map fun x =>
        (.heap x.1, (.ofNat 64 x.2.1, sc.2), x.2.2)) := by
    rw [← hn]
    rfl
  rw [Process.rtUnescape] at hcall
  rw [Bilbo.rtUnescape]
  cases hout : Bilbo.unescape (inp.span src len) with
  | none =>
    rw [hout] at hcall
    exact ⟨_, rfl, hcall⟩
  | some out =>
    rw [hout] at hcall
    have hshort : out.length < 2 ^ 64 := by
      have hle := length_unescape_le hout
      have hstop := inp.stop_lt
      rw [Input.span, List.length_take, Input.length_rest] at hle
      omega
    have halloc := rtAlloc_allocates s out.length
    show ShimDoes fl inp sc s.proc _ _ ((Bilbo.rtAlloc out.length >>= fun buf => _).run s) _
    rw [bind_run]
    rcases hr : (Bilbo.rtAlloc out.length).run s with ⟨p | e | _ | _, s₁⟩ <;> rw [hr] at halloc
    · obtain ⟨halloc, -⟩ := halloc
      refine ⟨.heap p, (.ofNat 64 out.length, sc.2), hcall.trans ?_, rfl, ?_⟩
      · simp only [halloc]
        show some (Except.ok (_, _, Process.mk _ _ _)) = some (Except.ok (_, _, Process.mk _ _ _))
        rw [bytes_writeCells, map_byte_ints]
        rfl
      · exact (BitVec.toNat_ofNat _ _).trans (Nat.mod_eq_of_lt hshort)
    · obtain ⟨msg, rfl, halloc⟩ := halloc
      refine ⟨msg, rfl, hcall.trans ?_⟩
      simp only [halloc]
      rfl
    · exact halloc
    · exact halloc

/-- A double has 64 bits. -/
def Doubles (fl : FloatOps) : Prop := ∀ bs r, fl.parsePartial bs = some r → r.1 < 2 ^ 64

theorem rtF64v_does (hfl : Doubles fl) {sc : Scratch} {c : ℕ} :
    ShimDoes fl inp sc s.proc .f64v [.text c, .text inp.stop, .slot 0]
      ((Bilbo.rtF64v fl inp c).run s) fun c' s' w sc' =>
        w = .text c' ∧ sc'.1 = .ofNat 64 s'.sc.1 ∧ s'.sc.1 < 2 ^ 64 := by
  have hcall : Clif.callShim fl inp sc s.proc .f64v [.text c, .text inp.stop, .slot 0] =
      some (.ok (_, (.ofNat 64 _, sc.2), s.proc)) := if_pos rfl
  refine ⟨_, _, hcall, rfl, rfl, ?_⟩
  show ((fl.parsePartial (inp.rest (rtWs inp c))).getD (0, 0)).1 < 2 ^ 64
  cases hr : fl.parsePartial (inp.rest (rtWs inp c)) with
  | none => exact Nat.two_pow_pos 64
  | some r => exact hfl _ r hr

theorem rtStrscan_does {sc : Scratch} {q : ℕ} :
    ShimDoes fl inp sc s.proc .strscan [.text q, .text inp.stop, .slot 0]
      ((Bilbo.rtStrscan inp q).run s) fun c' s' w sc' =>
        (c' = (Bilbo.strscan inp q).after ∧
          s'.sc = ((Bilbo.strscan inp q).len, (Bilbo.strscan inp q).esc)) ∧
        w = .text c' ∧ sc' = (.ofNat 64 s'.sc.1, .ofNat 64 s'.sc.2) := by
  have hcall : Clif.callShim fl inp sc s.proc .strscan [.text q, .text inp.stop, .slot 0] =
      some (.ok (_, (.ofNat 64 _, .ofNat 64 _), s.proc)) := if_pos rfl
  exact ⟨_, _, hcall, ⟨rfl, rfl⟩, rfl, rfl⟩

end Emitter

end Bilbo
