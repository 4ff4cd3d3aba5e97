import Mathlib

/-!
# Mean and variance

The mean and the variance of numbers over a finite set, and how they change along a line.

* `mean_stretch`, `variance_stretch` — numbers that are stretched around their mean keep it, and
  have their variance times the square of the factor.
* `hasDerivAt_variance`, `hasDerivAt_quadratic` — the derivatives of the variance and of a
  quadratic form along a line.
-/

namespace Lib

open Finset

section Field

variable {ι K : Type*} [Field K] (s : Finset ι) (x : ι → K)

def mean : K := (∑ i ∈ s, x i) / #s

def variance : K := (∑ i ∈ s, (x i - mean s x) ^ 2) / #s

variable {s x}

/-- Numbers that agree on the set have the same mean. -/
theorem mean_congr {y : ι → K} (h : ∀ i ∈ s, x i = y i) : mean s x = mean s y := by
  rw [mean, mean, sum_congr rfl h]

theorem variance_congr {y : ι → K} (h : ∀ i ∈ s, x i = y i) : variance s x = variance s y := by
  rw [variance, variance, mean_congr h]
  refine congrArg (· / (#s : K)) (sum_congr rfl fun i hi => ?_)
  rw [h i hi]

/-- The numbers add up to their mean times their number. -/
theorem sum_eq_mean (h : (#s : K) ≠ 0) : ∑ i ∈ s, x i = #s * mean s x := by
  rw [mean, mul_div_cancel₀ _ h]

/-- The mean stays where it is. -/
theorem mean_stretch (h : (#s : K) ≠ 0) (a : K) :
    mean s (fun i => a * (x i - mean s x) + mean s x) = mean s x := by
  have hsum : ∑ i ∈ s, (a * (x i - mean s x) + mean s x) = #s * mean s x := by
    rw [sum_add_distrib, ← mul_sum, sum_sub_distrib, sum_const, nsmul_eq_mul, sum_eq_mean h]
    ring
  rw [mean, hsum, mul_div_cancel_left₀ _ h]

/-- The variance is multiplied by the square. -/
theorem variance_stretch (h : (#s : K) ≠ 0) (a : K) :
    variance s (fun i => a * (x i - mean s x) + mean s x) = a ^ 2 * variance s x := by
  rw [variance, mean_stretch h, variance, mul_div_assoc', mul_sum]
  refine congrArg (· / (#s : K)) (sum_congr rfl fun i _ => ?_)
  rw [add_sub_cancel_right, mul_pow]

/-- The mean of the squares, less the square of the mean. -/
theorem variance_eq (h : (#s : K) ≠ 0) :
    variance s x = (∑ i ∈ s, x i ^ 2) / #s - mean s x ^ 2 := by
  have hsum : ∑ i ∈ s, (x i - mean s x) ^ 2 = ∑ i ∈ s, x i ^ 2 - #s * mean s x ^ 2 := by
    have hsquare : ∀ i ∈ s, (x i - mean s x) ^ 2
        = x i ^ 2 - 2 * mean s x * x i + mean s x ^ 2 := fun i _ => by ring
    rw [sum_congr rfl hsquare, sum_add_distrib, sum_sub_distrib, ← mul_sum, sum_const,
      nsmul_eq_mul, sum_eq_mean (x := x) h]
    ring
  rw [variance, hsum, sub_div, mul_div_cancel_left₀ _ h]

end Field

section Derivative

variable {ι K : Type*} [NontriviallyNormedField K] {s : Finset ι} {x v : ι → K}

/-- A sum along a line. -/
theorem hasDerivAt_sum_line {f : ι → K → K} {d : ι → K}
    (hf : ∀ i ∈ s, HasDerivAt (f i) (d i) (x i)) :
    HasDerivAt (fun e => ∑ i ∈ s, f i (x i + e * v i)) (∑ i ∈ s, d i * v i) 0 := by
  refine HasDerivAt.fun_sum fun i hi => ?_
  have hline : HasDerivAt (fun e => x i + e * v i) (v i) 0 := by
    simpa using ((hasDerivAt_id (0 : K)).mul_const (v i)).const_add (x i)
  have hat : HasDerivAt (f i) (d i) (x i + 0 * v i) := by
    rw [zero_mul, add_zero]
    exact hf i hi
  exact hat.comp 0 hline

theorem hasDerivAt_mean : HasDerivAt (fun e => mean s fun i => x i + e * v i) (mean s v) 0 := by
  have hsum := hasDerivAt_sum_line (s := s) (x := x) (v := v) fun i _ => hasDerivAt_id (x i)
  simp only [one_mul, id] at hsum
  exact hsum.div_const _

/-- The variance grows when numbers go further from the mean. -/
theorem hasDerivAt_variance (h : (#s : K) ≠ 0) :
    HasDerivAt (fun e => variance s fun i => x i + e * v i)
      ((∑ i ∈ s, 2 * (x i - mean s x) * v i) / #s) 0 := by
  have hsquares : HasDerivAt (fun e => ∑ i ∈ s, (x i + e * v i) ^ 2) (∑ i ∈ s, 2 * x i * v i) 0 :=
    hasDerivAt_sum_line (f := fun _ y => y ^ 2) fun i _ => by simpa using hasDerivAt_pow 2 (x i)
  have hmean : HasDerivAt (fun e => mean s (fun i => x i + e * v i) ^ 2)
      (2 * mean s x * mean s v) 0 := by
    simpa using (hasDerivAt_mean (s := s) (x := x) (v := v)).fun_pow 2
  have hall := (hsquares.div_const (#s : K)).sub hmean
  have heq : (fun e => variance s fun i => x i + e * v i)
      = fun e => (∑ i ∈ s, (x i + e * v i) ^ 2) / #s - mean s (fun i => x i + e * v i) ^ 2 := by
    funext e
    exact variance_eq h
  rw [heq]
  refine hall.congr_deriv ?_
  have hsplit : ∑ i ∈ s, 2 * (x i - mean s x) * v i
      = ∑ i ∈ s, 2 * x i * v i - 2 * mean s x * ∑ i ∈ s, v i := by
    rw [mul_sum, ← sum_sub_distrib]
    exact sum_congr rfl fun i _ => by ring
  rw [hsplit, sub_div, mul_div_assoc, mean, mean]

/-- A quadratic form along a line. -/
theorem hasDerivAt_quadratic {A : ι → ι → K} (hsymm : ∀ i j, A i j = A j i) (b : ι → K) :
    HasDerivAt (fun e => ∑ i ∈ s, (x i + e * v i) * (2 * b i - ∑ j ∈ s, A i j * (x j + e * v j)))
      (∑ i ∈ s, 2 * (b i - ∑ j ∈ s, A i j * x j) * v i) 0 := by
  have hturn : ∀ i ∈ s, HasDerivAt
      (fun e => (x i + e * v i) * (2 * b i - ∑ j ∈ s, A i j * (x j + e * v j)))
      (v i * (2 * b i - ∑ j ∈ s, A i j * x j) - x i * ∑ j ∈ s, A i j * v j) 0 := by
    intro i _
    have hline : HasDerivAt (fun e => x i + e * v i) (v i) 0 := by
      simpa using ((hasDerivAt_id (0 : K)).mul_const (v i)).const_add (x i)
    have hrow : HasDerivAt (fun e => ∑ j ∈ s, A i j * (x j + e * v j)) (∑ j ∈ s, A i j * v j) 0 :=
      hasDerivAt_sum_line (f := fun j y => A i j * y) fun j _ => by
        simpa using (hasDerivAt_id (x j)).const_mul (A i j)
    have hproduct := hline.fun_mul (hrow.const_sub (2 * b i))
    simp only [zero_mul, add_zero] at hproduct
    exact hproduct.congr_deriv (by ring)
  refine (HasDerivAt.fun_sum hturn).congr_deriv ?_
  -- by symmetry the two halves of the quadratic part change alike
  have hswap : ∑ i ∈ s, x i * ∑ j ∈ s, A i j * v j = ∑ i ∈ s, v i * ∑ j ∈ s, A i j * x j := by
    simp only [mul_sum]
    rw [sum_comm]
    refine sum_congr rfl fun j _ => sum_congr rfl fun i _ => ?_
    rw [hsymm i j]
    ring
  rw [sum_sub_distrib, hswap, ← sum_sub_distrib]
  exact sum_congr rfl fun i _ => by ring

end Derivative

end Lib
