import Mathlib.Logic.Function.Iterate

/-!
# Loops with a condition

`while( cond ) body` as a relation between the state before the loop and the state after
it; a loop that does not end relates its state to none. What holds before the loop and is
kept by a turn holds after it, and a number that every turn lowers by one says how many
turns there are.
-/

namespace Lib

variable {σ : Type*}

/-- The loop `while( cond ) body` from `s` ends in `t`, after `n` turns. -/
inductive WhileRuns (cond : σ → Prop) (body : σ → σ) : σ → Nat → σ → Prop
  | stop {s : σ} (h : ¬ cond s) : WhileRuns cond body s 0 s
  | turn {s t : σ} {n : Nat} (h : cond s) (rest : WhileRuns cond body (body s) n t) :
      WhileRuns cond body s (n + 1) t

namespace WhileRuns

variable {cond : σ → Prop} {body : σ → σ} {s t : σ} {n : Nat}

theorem not_cond (h : WhileRuns cond body s n t) : ¬ cond t := by
  induction h with
  | stop h => exact h
  | turn _ _ ih => exact ih

/-- **The rule of invariants.** -/
theorem invariant {I : σ → Prop} (hstep : ∀ s, I s → cond s → I (body s))
    (h : WhileRuns cond body s n t) (hs : I s) : I t := by
  induction h with
  | stop => exact hs
  | turn hcond _ ih => exact ih (hstep _ hs hcond)

/-- What no turn changes. -/
theorem keeps {α : Type*} (g : σ → α) (hstep : ∀ s, g (body s) = g s)
    (h : WhileRuns cond body s n t) : g t = g s :=
  h.invariant (I := fun u => g u = g s) (fun u hu _ => (hstep u).trans hu) rfl

end WhileRuns

/-- **A loop ends** that has a number of turns left, and one less after each of them. -/
theorem whileRuns_of_measure {cond : σ → Prop} {body : σ → σ} (left : σ → Nat)
    (hcond : ∀ s, cond s ↔ left s ≠ 0) (hbody : ∀ s, cond s → left (body s) + 1 = left s) (s : σ) :
    WhileRuns cond body s (left s) (body^[left s] s) := by
  induction hn : left s generalizing s with
  | zero => exact .stop fun h => (hcond s).mp h hn
  | succ n ih =>
    have hgo : cond s := (hcond s).mpr (hn ▸ Nat.succ_ne_zero n)
    refine .turn hgo ?_
    rw [Function.iterate_succ_apply]
    refine ih (body s) ?_
    have hleft := hbody s hgo
    omega

end Lib
