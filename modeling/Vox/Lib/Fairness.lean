import Mathlib.Data.Nat.Find
import Mathlib.Data.Prod.Lex
import Mathlib.Order.Monotone.Basic
import Vox.Lib.Run

/-!
# Infinite runs and fairness

A run that never ends is a sequence of events `ω : ℕ → ε`, and `stateAt` gives the state
before each of them. What happens in such a run needs an assumption on who gets to move:
a thread `Recurs` when it takes a step again and again.

The rule `eventually_of_helpful` proves that a goal is reached. It asks for a measure in a
well-founded order and for the thread that is helpful in each state. A step of this thread
lowers the measure or reaches the goal; the steps of the others may do that too, and
otherwise leave the measure and the helpful thread as they are.
-/

namespace Lib

variable {σ ε : Type*}

/-- The state before event `n` of an infinite run. -/
def stateAt (step : σ → ε → σ) (s : σ) (ω : ℕ → ε) : ℕ → σ
  | 0 => s
  | n + 1 => step (stateAt step s ω n) (ω n)

/-- The first `n` events of an infinite run make a run. -/
theorem stateAt_eq_foldl (step : σ → ε → σ) (s : σ) (ω : ℕ → ε) (n : ℕ) :
    stateAt step s ω n = ((List.range n).map ω).foldl step s := by
  induction n with
  | zero => rfl
  | succ n ih => rw [stateAt, ih, List.range_succ, List.map_append, List.foldl_append]; rfl

/-- What holds at the start and is kept by every step holds before every event. -/
theorem stateAt_invariant {step : σ → ε → σ} {I : σ → Prop} (hstep : ∀ s e, I s → I (step s e))
    {s : σ} (hs : I s) (ω : ℕ → ε) (n : ℕ) : I (stateAt step s ω n) := by
  rw [stateAt_eq_foldl]
  exact foldl_invariant hstep _ s hs

/-- Events of a kind come again and again. -/
def Recurs (P : ε → Prop) (ω : ℕ → ε) : Prop := ∀ n, ∃ m, n ≤ m ∧ P (ω m)

theorem Recurs.exists_first {P : ε → Prop} {ω : ℕ → ε} (h : Recurs P ω) (n : ℕ) :
    ∃ m, n ≤ m ∧ P (ω m) ∧ ∀ k, n ≤ k → k < m → ¬ P (ω k) := by
  classical
  refine ⟨Nat.find (h n), (Nat.find_spec (h n)).1, (Nat.find_spec (h n)).2, ?_⟩
  intro k hk hlt hP
  exact Nat.find_min (h n) hlt ⟨hk, hP⟩

section Helpful

variable {τ α : Type*} [Preorder α]

/-- What a step does on the way to a goal, when `helpful` names the thread to wait for. -/
def Helps (goal : σ → Prop) (measure : σ → α) (helpful : σ → τ) (mover : τ) (s s' : σ) : Prop :=
  goal s' ∨ measure s' < measure s ∨
    (mover ≠ helpful s ∧ measure s' = measure s ∧ helpful s' = helpful s)

variable {x : ℕ → σ} {thread : ℕ → τ} {goal : σ → Prop} {measure : σ → α} {helpful : σ → τ}

/-- Until the helpful thread moves, nothing changes that matters, unless the goal comes nearer. -/
theorem exists_progress {n : ℕ} (hfair : Recurs (fun t => t = helpful (x n)) thread)
    (hstep : ∀ k, n ≤ k → ¬ goal (x k) →
      Helps goal measure helpful (thread k) (x k) (x (k + 1))) :
    ∃ m, n ≤ m ∧ (goal (x m) ∨ measure (x m) < measure (x n)) := by
  obtain ⟨m, hm, hmove, hfirst⟩ := hfair.exists_first n
  by_contra hnone
  push Not at hnone
  -- by induction on k, the state at k still waits for the same thread
  have hwait : ∀ d, n + d ≤ m →
      measure (x (n + d)) = measure (x n) ∧ helpful (x (n + d)) = helpful (x n) := by
    intro d
    induction d with
    | zero => exact fun _ => ⟨rfl, rfl⟩
    | succ d ih =>
      intro hd
      obtain ⟨hmeasure, hhelpful⟩ := ih (by omega)
      have hgo := hnone (n + d) (by omega)
      have hgo' := hnone (n + d + 1) (by omega)
      rcases hstep (n + d) (by omega) hgo.1 with hgoal | hlt | ⟨-, heq, hsame⟩
      · exact absurd hgoal hgo'.1
      · exact absurd (hmeasure ▸ hlt) hgo'.2
      · exact ⟨heq.trans hmeasure, hsame.trans hhelpful⟩
  obtain ⟨d, rfl⟩ := Nat.exists_eq_add_of_le hm
  obtain ⟨hmeasure, hhelpful⟩ := hwait d le_rfl
  have hgo' := hnone (n + d + 1) (by omega)
  rcases hstep (n + d) hm (hnone (n + d) hm).1 with hgoal | hlt | ⟨hother, -, -⟩
  · exact hgo'.1 hgoal
  · exact hgo'.2 (hmeasure ▸ hlt)
  · exact hother (hmove.trans hhelpful.symm)

/-- **The rule of helpful threads.** -/
theorem eventually_of_helpful [WellFoundedLT α] (x : ℕ → σ) (thread : ℕ → τ) (goal : σ → Prop)
    (measure : σ → α) (helpful : σ → τ) {n : ℕ}
    (hfair : ∀ s, Recurs (fun t => t = helpful s) thread)
    (hstep : ∀ k, n ≤ k → ¬ goal (x k) →
      Helps goal measure helpful (thread k) (x k) (x (k + 1))) :
    ∃ m, n ≤ m ∧ goal (x m) := by
  have hmain : ∀ a : α, ∀ k, n ≤ k → measure (x k) = a → ∃ m, n ≤ m ∧ goal (x m) := by
    intro a
    induction a using WellFoundedLT.induction with
    | ind a ih =>
      intro k hk hka
      obtain ⟨m, hkm, hgoal | hlt⟩ :=
        exists_progress (hfair (x k)) fun j hj => hstep j (hk.trans hj)
      · exact ⟨m, hk.trans hkm, hgoal⟩
      · exact ih (measure (x m)) (hka ▸ hlt) m (hk.trans hkm) rfl
  exact hmain _ n le_rfl rfl

end Helpful

end Lib
