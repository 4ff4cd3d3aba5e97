import Vox.Lib.Run

/-!
# Refinement of a machine by its specification

A machine answers calls and may leave what is defined (`none`). Its specification
answers the same calls, and is total. One lemma per call — from related states
the machine is defined, gives the specification's answer and ends in a related
state — gives the same for whole runs (`answersOf_eq`).
-/

namespace Lib

variable {σ τ ε α : Type*}

/-- The answers of a machine to a list of calls, and the state it ends in. -/
def answersOf (call : σ → ε → Option (α × σ)) : σ → List ε → Option (List α × σ)
  | s, [] => some ([], s)
  | s, e :: es => do
    let (a, s) ← call s e
    let (as, s) ← answersOf call s es
    some (a :: as, s)

/-- The answers that the specification gives. -/
def specAnswersOf (spec : τ → ε → α × τ) : τ → List ε → List α × τ
  | t, [] => ([], t)
  | t, e :: es =>
    let rest := specAnswersOf spec (spec t e).2 es
    ((spec t e).1 :: rest.1, rest.2)

variable {call : σ → ε → Option (α × σ)} {spec : τ → ε → α × τ} {R : σ → τ → Prop}
  {ok : τ → ε → Prop}

/-- **A machine that refines its specification call by call refines it in every
run** of calls that the specification allows. -/
theorem answersOf_eq
    (hcall : ∀ s t e, R s t → ok t e →
      ∃ s', call s e = some ((spec t e).1, s') ∧ R s' (spec t e).2) (es : List ε) :
    ∀ s t, R s t → StepsMeet (fun t e => (spec t e).2) ok t es →
      ∃ s', answersOf call s es = some ((specAnswersOf spec t es).1, s') ∧
        R s' (specAnswersOf spec t es).2 := by
  induction es with
  | nil =>
    intro s t hR _
    exact ⟨s, rfl, hR⟩
  | cons e es ih =>
    intro s t hR hmeets
    obtain ⟨s', hs', hR'⟩ := hcall s t e hR hmeets.1
    obtain ⟨s'', hs'', hR''⟩ := ih s' (spec t e).2 hR' hmeets.2
    exact ⟨s'', by simp [answersOf, specAnswersOf, hs', hs''], hR''⟩

end Lib
