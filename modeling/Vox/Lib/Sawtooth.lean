import Mathlib.Algebra.Order.Floor.Ring
import Mathlib.Algebra.Order.Floor.Semiring
import Mathlib.Dynamics.PeriodicPts.Defs
import Mathlib.Tactic.Linarith
import Mathlib.Tactic.Positivity
import Mathlib.Tactic.Ring

/-!
# Iterated steps with a reset below zero

A value moves by a constant `d` at each step and starts again from `r ≥ 0`
whenever it would become negative. For `0 ≤ d` the reset never happens; for
`d < 0` the walk from `r` is a sawtooth: it comes back to `r` every
`teeth r d` steps, and any other start is left for good.

* `sawtooth_iterate_eq_iff` — when `k` steps lead back to the start, exactly.
* `sawtooth_iterate_image_iff` — the same from a start that is itself a result.
-/

namespace Lib

variable {K : Type*} [Field K] [LinearOrder K]

/-- Move by `d`, from `r` again when the result is negative. -/
def sawtooth (r d x : K) : K := if x + d < 0 then r else x + d

/-- A walk that has not been reset is still on its line, and one that has is
among the values of the walk from `r`. -/
theorem sawtooth_iterate_cases (r d x : K) (k : Nat) :
    (sawtooth r d)^[k] x = x + k * d ∨ ∃ j : Nat, (sawtooth r d)^[k] x = r + j * d := by
  induction k with
  | zero => exact Or.inl (by simp)
  | succ k ih =>
    rw [Function.iterate_succ_apply']
    by_cases hneg : (sawtooth r d)^[k] x + d < 0
    · -- a reset starts the walk from `r`
      exact Or.inr ⟨0, by simp [sawtooth, hneg]⟩
    · -- one step further on whichever walk it is
      rw [sawtooth, if_neg hneg]
      rcases ih with h | ⟨j, h⟩
      · refine Or.inl ?_
        rw [h]
        push_cast
        ring
      · refine Or.inr ⟨j + 1, ?_⟩
        rw [h]
        push_cast
        ring

section Ordered

variable [IsStrictOrderedRing K]

theorem sawtooth_nonneg {r : K} (hr : 0 ≤ r) (d x : K) : 0 ≤ sawtooth r d x := by
  unfold sawtooth
  split
  · exact hr
  · linarith

/-- While no reset happens, `k` steps move by `k * d`. -/
theorem sawtooth_iterate_straight {r d x : K} {k : Nat}
    (h : ∀ i, i < k → 0 ≤ x + (i + 1 : Nat) * d) : (sawtooth r d)^[k] x = x + k * d := by
  induction k with
  | zero => simp
  | succ k ih =>
    rw [Function.iterate_succ_apply', ih fun i hi => h i (by omega), sawtooth, if_neg]
    · push_cast
      ring
    · have := h k (by omega)
      push_cast at this
      linarith

variable [FloorRing K]

/-- The number of steps from `r` back to `r`, for `d < 0`. -/
def teeth (r d : K) : Nat := ⌊r / -d⌋₊ + 1

/-- The walk from `r` has the `teeth r d` values `r + i * d`. -/
theorem teeth_spec {r d : K} (hr : 0 ≤ r) (hd : d < 0) (i : Nat) :
    i < teeth r d ↔ 0 ≤ r + i * d := by
  have hpos : 0 < -d := by linarith
  rw [teeth, Nat.lt_succ_iff, Nat.le_floor_iff (div_nonneg hr hpos.le), le_div_iff₀ hpos]
  refine ⟨?_, ?_⟩
  · intro h
    linarith
  · intro h
    linarith

theorem sawtooth_iterate_lt_teeth {r d : K} (hr : 0 ≤ r) (hd : d < 0) {k : Nat}
    (hk : k < teeth r d) : (sawtooth r d)^[k] r = r + k * d :=
  sawtooth_iterate_straight fun i hi => (teeth_spec hr hd (i + 1)).mp (by omega)

/-- The walk from `r` comes back to `r`. -/
theorem sawtooth_isPeriodicPt {r d : K} (hr : 0 ≤ r) (hd : d < 0) :
    Function.IsPeriodicPt (sawtooth r d) (teeth r d) r := by
  obtain ⟨n, hn⟩ : ∃ n, teeth r d = n + 1 := ⟨⌊r / -d⌋₊, rfl⟩
  rw [Function.IsPeriodicPt, Function.IsFixedPt, hn, Function.iterate_succ_apply',
    sawtooth_iterate_lt_teeth hr hd (by omega)]
  -- the step after the last value falls below zero
  have hlast := (teeth_spec hr hd (n + 1)).not.mp (by omega)
  rw [sawtooth, if_pos]
  push_cast at hlast
  linarith

/-- **When the walk is back.** From a non-negative start, with `d < 0`, `k`
steps lead back exactly when there are none of them, or when the start is one
of the values of the walk from `r` and `k` counts whole teeth. -/
theorem sawtooth_iterate_eq_iff {r d x : K} (hr : 0 ≤ r) (hd : d < 0) (hx : 0 ≤ x) (k : Nat) :
    (sawtooth r d)^[k] x = x ↔
      k = 0 ∨ ((∃ j : Nat, x = r + j * d) ∧ teeth r d ∣ k) := by
  have hper := sawtooth_isPeriodicPt hr hd
  by_cases hon : ∃ j : Nat, x = r + j * d
  · -- on the walk from `r`: count the steps modulo the period
    obtain ⟨j, rfl⟩ := hon
    have hj : j < teeth r d := (teeth_spec hr hd j).mpr hx
    have hback : (sawtooth r d)^[k] (r + j * d) = r + ((k + j) % teeth r d : Nat) * d := by
      rw [← sawtooth_iterate_lt_teeth hr hd hj, ← Function.iterate_add_apply,
        ← hper.iterate_mod_apply]
      exact sawtooth_iterate_lt_teeth hr hd (Nat.mod_lt _ (by omega))
    rw [hback]
    have hcancel : r + ((k + j) % teeth r d : Nat) * d = r + (j : K) * d ↔
        (k + j) % teeth r d = j := by
      rw [add_right_inj, mul_left_inj' hd.ne, Nat.cast_inj]
    rw [hcancel]
    have hmod : (k + j) % teeth r d = j ↔ teeth r d ∣ k := by
      refine ⟨?_, ?_⟩
      · intro h
        have h1 := Nat.div_add_mod (k + j) (teeth r d)
        exact ⟨(k + j) / teeth r d, by omega⟩
      · rintro ⟨c, rfl⟩
        rw [Nat.mul_add_mod, Nat.mod_eq_of_lt hj]
    rw [hmod]
    refine ⟨?_, ?_⟩
    · intro h
      exact Or.inr ⟨⟨j, rfl⟩, h⟩
    · rintro (rfl | ⟨-, h⟩)
      · exact dvd_zero _
      · exact h
  · -- elsewhere: the walk moves on along its line or joins the walk from `r`
    refine ⟨?_, ?_⟩
    · intro hback
      refine Or.inl ?_
      rcases sawtooth_iterate_cases r d x k with h | ⟨j, h⟩
      · rw [hback] at h
        have hk : (k : K) * d = 0 := by linarith
        exact_mod_cast (mul_eq_zero.mp hk).resolve_right hd.ne
      · exact absurd ⟨j, hback ▸ h⟩ hon
    · rintro (rfl | ⟨h, -⟩)
      · rfl
      · exact absurd h hon

/-- The same from a start that is itself a result: `k` more steps change nothing
exactly when there are none, when the walk does not move, or when the result is
a value of the walk from `r` and `k` counts whole teeth. -/
theorem sawtooth_iterate_image_iff {r : K} (hr : 0 ≤ r) (d x : K) (k : Nat) :
    (sawtooth r d)^[k] (sawtooth r d x) = sawtooth r d x ↔
      k = 0 ∨ d = 0 ∨
        (d < 0 ∧ (x + d < 0 ∨ ∃ j : Nat, x + d = r + j * d) ∧ teeth r d ∣ k) := by
  have hx := sawtooth_nonneg hr d x
  rcases lt_trichotomy d 0 with hd | rfl | hd
  · -- a reset of the first step puts it on the walk from `r`
    have hvalue : (∃ j : Nat, sawtooth r d x = r + j * d) ↔
        (x + d < 0 ∨ ∃ j : Nat, x + d = r + j * d) := by
      unfold sawtooth
      by_cases hneg : x + d < 0
      · simp only [hneg, if_true, true_or, iff_true]
        exact ⟨0, by simp⟩
      · simp [hneg]
    rw [sawtooth_iterate_eq_iff hr hd hx, hvalue]
    simp [hd, hd.ne]
  · -- the walk does not move
    have hfix : sawtooth r 0 (sawtooth r 0 x) = sawtooth r 0 x := by
      rw [sawtooth, if_neg (by linarith), add_zero]
    simp [Function.iterate_fixed hfix k]
  · -- upwards there is no way back
    rw [sawtooth_iterate_straight fun i _ => by positivity]
    simp [hd.ne', not_lt.mpr hd.le]

end Ordered

end Lib
