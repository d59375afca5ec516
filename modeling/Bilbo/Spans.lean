import Bilbo.Parsing
import Bilbo.Progress

/-!
# Loads and spans inside the input

The emitted code compares the cursor with `end` only to skip white space and digits; everywhere
else it trusts the input to be a text of its type. A load at or past `end` stops the model, so a
run that returns has made none. A string that is scanned from past `end` has a span that wraps, but
then nothing is left for the load that follows the string in its container.
-/

namespace Bilbo

open Base Comp

variable {env : Env} {inp : Input} {n : ℕ} {τ : List Event}
  {sz : RecCell → Option ℕ}

/-! ## Spans -/

/-- The span of the string whose body starts at `start`, as `build_str` gets it, lies inside the
input. -/
def SpanInside (inp : Input) (start : ℕ) : Prop :=
  start + (strscan inp (start - 1)).len ≤ inp.stop

/-- The spans built since the trace was `τ` lie inside the input. -/
def SpansInside (inp : Input) (τ : List Event) (s : State) : Prop :=
  ∀ start cells, .str start cells ∈ s.trace → .str start cells ∈ τ ∨ SpanInside inp start

theorem SpansInside.of_trace_eq {s s' : State} (h : SpansInside inp τ s)
    (htrace : s'.trace = s.trace) : SpansInside inp τ s' := by
  unfold SpansInside
  rw [htrace]
  exact h

/-- After a value at `c`: the spans lie inside the input, or there was nothing left to parse and the
cursor is `end`. -/
def InsideOrEnd (inp : Input) (τ : List Event) (c c' : ℕ) (s : State) : Prop :=
  SpansInside inp τ s ∨ inp.stop ≤ ws inp c ∧ c' = inp.stop

/-- The logic of what holds when a run returns. -/
def returnLogic : Logic State where
  rel _ _ := True
  refl _ := trivial
  trans _ _ := trivial
  guard _ := False
  anti _ h := h
  bound := .calls

/-- A quiet step builds no string. -/
theorem Quiet.spans {α : Type} {x : M α} (h : Quiet x) {P : State → Prop}
    (hP : ∀ s s' : State, s'.trace = s.trace → P s → P s') :
    Triple returnLogic P x fun _ s => P s :=
  fun s hs => ⟨trivial, fun _ _ => hP s _ (h s).1 hs, fun hg => hg.elim⟩

theorem Quiet.inside {α : Type} {x : M α} (h : Quiet x) :
    Triple returnLogic (SpansInside inp τ) x fun _ s => SpansInside inp τ s :=
  h.spans fun _ _ htrace hs => hs.of_trace_eq htrace

/-- So does a token in front of the value. -/
theorem InsideOrEnd.inside {c c' : ℕ} {s : State} (h : InsideOrEnd inp τ c c' s) (hc : ws inp c < inp.stop) :
    SpansInside inp τ s :=
  h.resolve_right fun hstop => by omega

section Containers

variable {parse : Ty → ℕ → ℕ → M ℕ}
  (hp : ∀ ty dst c, Triple returnLogic (SpansInside inp τ) (parse ty dst c)
    fun c' s => InsideOrEnd inp τ c c' s)

include hp

end Containers

/-! ## Every run -/

/-- `"é"` as a string. -/
def quotedE : Input := ⟨[0x22, 0xC3, 0xA9, 0x22], fun _ => 0, by decide⟩

/-- The layout of a `String`. -/
def stringTy : Ty := .str ⟨0, 8, 16⟩

end Bilbo
