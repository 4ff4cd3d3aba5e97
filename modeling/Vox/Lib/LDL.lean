import Mathlib.Algebra.BigOperators.Intervals
import Mathlib.Algebra.BigOperators.Ring.Finset
import Mathlib.Algebra.Order.BigOperators.Group.Finset
import Mathlib.Algebra.Order.Field.Basic
import Mathlib.Tactic.FieldSimp
import Mathlib.Tactic.Linarith
import Mathlib.Tactic.Ring

/-!
# Factorisation of a symmetric matrix

A symmetric matrix `A` of size `n` as `L * D * L'`, with a unit lower triangular `L` and a
diagonal `D`, column by column. A matrix is a function of two indices below `n`.

* `LDL.entry_eq` — the product is the matrix, as far as the pivots before are not 0.
* `LDL.solves` — forward and backward substitution solve the equations.
* `LDL.pivot_pos` — no pivot vanishes: they are positive when the matrix is positive
  definite. The vector that shows it solves `L' x = e_t` on the leading block.

A band of width `w` is stored by its diagonals: cell `(t, i)` is the entry `(t + i, t)`, for
`i < w`. `BandLDL` says what a factorisation leaves in such an array (`BandLDL.ldl`).
-/

namespace Lib

open Finset

variable {K : Type*} [Field K]

/-- `L` and `D` are computed from `A` column by column. -/
structure LDL (n : Nat) (A L : Nat → Nat → K) (D : Nat → K) : Prop where
  diag : ∀ t, L t t = 1
  upper : ∀ s t, s < t → L s t = 0
  pivot : ∀ t < n, D t = A t t - ∑ k ∈ range t, L t k * L t k * D k
  column : ∀ t s, t < s → s < n →
    L s t = (A s t - ∑ k ∈ range t, L t k * L s k * D k) / D t

/-- Triangular equations have a solution: from the last unknown backwards. -/
theorem exists_backward (n : Nat) (L : Nat → Nat → K) (y : Nat → K) :
    ∃ x : Nat → K, ∀ k < n, x k = y k - ∑ s ∈ Ico (k + 1) n, L s k * x s := by
  suffices hlast : ∀ m ≤ n, ∃ x : Nat → K, ∀ k < n, n - m ≤ k →
      x k = y k - ∑ s ∈ Ico (k + 1) n, L s k * x s by
    obtain ⟨x, hx⟩ := hlast n (Nat.le_refl n)
    exact ⟨x, fun k hk => hx k hk (by omega)⟩
  intro m
  induction m with
  | zero => exact fun _ => ⟨y, fun k hk hle => absurd hle (by omega)⟩
  | succ m ih =>
    intro hm
    obtain ⟨x, hx⟩ := ih (by omega)
    -- one more unknown, before the others
    refine ⟨Function.update x (n - (m + 1))
      (y (n - (m + 1)) - ∑ s ∈ Ico (n - (m + 1) + 1) n, L s (n - (m + 1)) * x s), ?_⟩
    intro k hk hle
    have hlater : ∑ s ∈ Ico (k + 1) n, L s k * Function.update x (n - (m + 1))
          (y (n - (m + 1)) - ∑ s ∈ Ico (n - (m + 1) + 1) n, L s (n - (m + 1)) * x s) s
        = ∑ s ∈ Ico (k + 1) n, L s k * x s := by
      refine sum_congr rfl fun s hs => ?_
      have hs := mem_Ico.mp hs
      rw [Function.update_of_ne (by omega)]
    rw [hlater]
    by_cases hfirst : k = n - (m + 1)
    · subst hfirst
      rw [Function.update_self]
    · rw [Function.update_of_ne hfirst]
      exact hx k hk (by omega)

namespace LDL

variable {n : Nat} {A L : Nat → Nat → K} {D : Nat → K}

section Product

variable (h : LDL n A L D)

include h

/-- A column of `L` against a row: only the diagonal and what is below it count. -/
theorem sum_column (x : Nat → K) {m k : Nat} (hk : k < m) :
    ∑ s ∈ range m, L s k * x s = x k + ∑ s ∈ Ico (k + 1) m, L s k * x s := by
  rw [range_eq_Ico, ← sum_Ico_consecutive _ (Nat.zero_le k) hk.le, sum_eq_sum_Ico_succ_bot hk,
    h.diag, one_mul, ← range_eq_Ico, sum_eq_zero, zero_add]
  intro s hs
  rw [h.upper s k (mem_range.mp hs), zero_mul]

/-- A row of the lower factor has 1 on its diagonal. -/
theorem sum_row (x : Nat → K) {m t : Nat} (ht : t < m) :
    ∑ k ∈ range m, L t k * x k = ∑ k ∈ range t, L t k * x k + x t := by
  have hsubset : range (t + 1) ⊆ range m := range_subset_range.mpr ht
  rw [← sum_subset hsubset, sum_range_succ, h.diag, one_mul]
  intro k _ hk
  rw [h.upper t k (by have := mt mem_range.mpr hk; omega), zero_mul]

/-- **The product is the matrix**, where the pivots before are not 0. -/
theorem entry_eq {i j m : Nat} (hji : j ≤ i) (hi : i < n) (hjm : j < m)
    (hD : ∀ k < i, D k ≠ 0) : A i j = ∑ k ∈ range m, L j k * (L i k * D k) := by
  rw [h.sum_row _ hjm]
  rcases hji.lt_or_eq with hlt | rfl
  · rw [h.column j i hlt hi, div_mul_cancel₀ _ (hD j hlt)]
    have hsum : ∑ k ∈ range j, L j k * (L i k * D k) = ∑ k ∈ range j, L j k * L i k * D k :=
      sum_congr rfl fun k _ => (mul_assoc _ _ _).symm
    rw [hsum]
    ring
  · rw [h.diag, one_mul, h.pivot j hi]
    have hsum : ∑ k ∈ range j, L j k * (L j k * D k) = ∑ k ∈ range j, L j k * L j k * D k :=
      sum_congr rfl fun k _ => (mul_assoc _ _ _).symm
    rw [hsum]
    ring

variable (hsymm : ∀ i j, A i j = A j i)

include hsymm

/-- An entry of the matrix is that of the product. -/
theorem entry_eq_sum {m : Nat} (hm : m ≤ n) (hD : ∀ k, k + 1 < m → D k ≠ 0) {i j : Nat} (hi : i < m)
    (hj : j < m) : A i j = ∑ k ∈ range m, L i k * D k * L j k := by
  rcases Nat.le_total j i with hji | hij
  · rw [h.entry_eq hji (by omega) hj fun k hk => hD k (by omega)]
    exact sum_congr rfl fun k _ => by ring
  · rw [hsymm, h.entry_eq hij (by omega) hi fun k hk => hD k (by omega)]
    exact sum_congr rfl fun k _ => by ring

/-- The quadratic form of `A` is a sum of squares, weighted by the pivots. -/
theorem quadratic_eq {m : Nat} (hm : m ≤ n) (hD : ∀ k, k + 1 < m → D k ≠ 0) (x : Nat → K) :
    ∑ i ∈ range m, ∑ j ∈ range m, x i * A i j * x j
      = ∑ k ∈ range m, D k * (∑ s ∈ range m, L s k * x s) ^ 2 := by
  -- an entry is a sum over `k`; the sum over `k` is drawn to the front
  have hentry : ∀ i ∈ range m, ∀ j ∈ range m, x i * A i j * x j
      = ∑ k ∈ range m, D k * (L i k * x i) * (L j k * x j) := by
    intro i hi j hj
    rw [h.entry_eq_sum hsymm hm hD (mem_range.mp hi) (mem_range.mp hj), mul_sum, sum_mul]
    exact sum_congr rfl fun k _ => by ring
  calc ∑ i ∈ range m, ∑ j ∈ range m, x i * A i j * x j
      = ∑ i ∈ range m, ∑ j ∈ range m, ∑ k ∈ range m, D k * (L i k * x i) * (L j k * x j) :=
        sum_congr rfl fun i hi => sum_congr rfl fun j hj => hentry i hi j hj
    _ = ∑ i ∈ range m, ∑ k ∈ range m, ∑ j ∈ range m, D k * (L i k * x i) * (L j k * x j) :=
        sum_congr rfl fun i _ => sum_comm
    _ = ∑ k ∈ range m, ∑ i ∈ range m, ∑ j ∈ range m, D k * (L i k * x i) * (L j k * x j) :=
        sum_comm
    _ = ∑ k ∈ range m, D k * (∑ s ∈ range m, L s k * x s) ^ 2 := by
        refine sum_congr rfl fun k _ => ?_
        rw [pow_two, sum_mul_sum, mul_sum]
        refine sum_congr rfl fun i _ => ?_
        rw [mul_sum]
        exact sum_congr rfl fun j _ => by ring

/-- **Forward and backward substitution solve the equations.** -/
theorem solves (hD : ∀ t < n, D t ≠ 0) {b g x : Nat → K}
    (hforward : ∀ t < n, g t = b t - ∑ k ∈ range t, L t k * g k)
    (hbackward : ∀ t < n, x t = g t / D t - ∑ s ∈ Ico (t + 1) n, L s t * x s) :
    ∀ t < n, ∑ j ∈ range n, A t j * x j = b t := by
  intro t ht
  -- `D * L' * x` is `g`
  have hDLx : ∀ k < n, D k * ∑ j ∈ range n, L j k * x j = g k := by
    intro k hk
    rw [h.sum_column x hk, hbackward k hk, sub_add_cancel, mul_div_cancel₀ _ (hD k hk)]
  have hentry : ∀ j ∈ range n, A t j * x j = ∑ k ∈ range n, L t k * (D k * (L j k * x j)) := by
    intro j hj
    rw [h.entry_eq_sum hsymm (Nat.le_refl n) (fun k hk => hD k (by omega)) ht (mem_range.mp hj),
      sum_mul]
    exact sum_congr rfl fun k _ => by ring
  calc ∑ j ∈ range n, A t j * x j
      = ∑ j ∈ range n, ∑ k ∈ range n, L t k * (D k * (L j k * x j)) :=
        sum_congr rfl hentry
    _ = ∑ k ∈ range n, L t k * g k := by
        rw [sum_comm]
        refine sum_congr rfl fun k hk => ?_
        rw [← mul_sum, ← mul_sum, hDLx k (mem_range.mp hk)]
    _ = b t := by
        rw [h.sum_row _ ht, hforward t ht]
        ring

end Product

end LDL

/-! ## Positive definite matrices -/

section Positive

variable [LinearOrder K]

/-- `A` is positive definite on the first `n` coordinates. -/
def PositiveOn (n : Nat) (A : Nat → Nat → K) : Prop :=
  ∀ x : Nat → K, (∃ i < n, x i ≠ 0) → 0 < ∑ i ∈ range n, ∑ j ∈ range n, x i * A i j * x j

/-- So it is on a leading block: extend a vector by zeros. -/
theorem PositiveOn.mono {n m : Nat} {A : Nat → Nat → K} (h : PositiveOn n A) (hm : m ≤ n) :
    PositiveOn m A := by
  rintro x ⟨i, hi, hne⟩
  have hpos := h (fun j => if j < m then x j else 0)
    ⟨i, hi.trans_le hm, by rwa [if_pos hi]⟩
  have hsubset : range m ⊆ range n := range_subset_range.mpr hm
  -- the other terms are zero
  have hinner : ∀ i, ∑ j ∈ range n, (if i < m then x i else 0) * A i j * (if j < m then x j else 0)
      = ∑ j ∈ range m, (if i < m then x i else 0) * A i j * x j := by
    intro i
    rw [← sum_subset hsubset]
    · exact sum_congr rfl fun j hj => by rw [if_pos (mem_range.mp hj)]
    · intro j _ hj
      rw [if_neg (mt mem_range.mpr hj), mul_zero]
  have houter : ∑ i ∈ range n, ∑ j ∈ range m, (if i < m then x i else 0) * A i j * x j
      = ∑ i ∈ range m, ∑ j ∈ range m, x i * A i j * x j := by
    rw [← sum_subset hsubset]
    · exact sum_congr rfl fun i hi => by rw [if_pos (mem_range.mp hi)]
    · intro i _ hi
      refine sum_eq_zero fun j _ => ?_
      rw [if_neg (mt mem_range.mpr hi), zero_mul, zero_mul]
  simp only [hinner] at hpos
  rwa [houter] at hpos

variable [IsStrictOrderedRing K] {n : Nat} {A L : Nat → Nat → K} {D : Nat → K}

/-- **The pivots are positive** when the matrix is positive definite. -/
theorem LDL.pivot_pos (h : LDL n A L D) (hsymm : ∀ i j, A i j = A j i)
    (hpos : PositiveOn n A) : ∀ t < n, 0 < D t := by
  intro t
  induction t using Nat.strong_induction_on with
  | _ t ih =>
    intro ht
    -- the vector that `L'` takes to the last unit vector of the leading block
    obtain ⟨x, hx⟩ := exists_backward (t + 1) L fun k => if k = t then 1 else 0
    have hunit : ∀ k < t + 1, ∑ s ∈ range (t + 1), L s k * x s = if k = t then 1 else 0 := by
      intro k hk
      rw [h.sum_column x hk, hx k hk]
      ring
    have hlast : x t = 1 := by
      have hxt := hx t (Nat.lt_succ_self t)
      rwa [Ico_self, sum_empty, sub_zero, if_pos rfl] at hxt
    have hform := hpos.mono ht x ⟨t, Nat.lt_succ_self t, by rw [hlast]; exact one_ne_zero⟩
    rw [h.quadratic_eq hsymm ht fun k hk => (ih k (by omega) (by omega)).ne'] at hform
    -- only the last square is left, and it is 1
    have hsquares : ∑ k ∈ range (t + 1), D k * (∑ s ∈ range (t + 1), L s k * x s) ^ 2 = D t := by
      rw [sum_range_succ, hunit t (Nat.lt_succ_self t), if_pos rfl, one_pow, mul_one, sum_eq_zero,
        zero_add]
      intro k hk
      have hk := mem_range.mp hk
      rw [hunit k (by omega), if_neg (by omega), zero_pow two_ne_zero, mul_zero]
    rwa [hsquares] at hform

end Positive

/-! ## Bands -/

/-- `a` holds the band of `A`, and there is nothing outside of it. -/
structure BandOf (w n : Nat) (A a : Nat → Nat → K) : Prop where
  inside : ∀ t i, i < w → t + i < n → a t i = A (t + i) t
  outside : ∀ t s, t + w ≤ s → A s t = 0

/-- `u` holds the pivots and the columns below them, computed from the band `a`. -/
structure BandLDL (w n : Nat) (a u : Nat → Nat → K) : Prop where
  pivot : ∀ t < n, u t 0
    = a t 0 - ∑ i ∈ Ico 1 (min w (t + 1)), u (t - i) i * u (t - i) i * u (t - i) 0
  column : ∀ t < n, ∀ i, 1 ≤ i → i < w → u t i
    = (a t i - ∑ j ∈ Ico 1 (min (w - i) (t + 1)), u (t - j) j * u (t - j) (i + j) * u (t - j) 0)
        / u t 0

/-- The unit lower triangular matrix of a band. -/
def lower (w : Nat) (u : Nat → Nat → K) (s k : Nat) : K :=
  if s = k then 1 else if k < s ∧ s < k + w then u k (s - k) else 0

/-- Going back over a band is going over the entries before, of which the others are 0. -/
theorem sum_back (w t : Nat) (f : Nat → Nat → K) :
    ∑ i ∈ Ico 1 (min w (t + 1)), f i (t - i)
      = ∑ k ∈ range t, if t < k + w then f (t - k) k else 0 := by
  rw [← sum_filter]
  -- the offset `i` stands for the index `t - i`
  refine sum_nbij' (fun i => t - i) (fun k => t - k) ?_ ?_ ?_ ?_ ?_
  · intro i hi
    have hi := mem_Ico.mp hi
    exact mem_filter.mpr ⟨mem_range.mpr (by omega), by omega⟩
  · intro k hk
    obtain ⟨hk, hband⟩ := mem_filter.mp hk
    have hk := mem_range.mp hk
    exact mem_Ico.mpr (by omega)
  · intro i hi
    have hi := mem_Ico.mp hi
    omega
  · intro k hk
    have hk := mem_range.mp (mem_filter.mp hk).1
    omega
  · intro i hi
    have hi := mem_Ico.mp hi
    rw [show t - (t - i) = i by omega]

/-- Going on over a band. -/
theorem sum_on (w n t : Nat) (f : Nat → Nat → K) :
    ∑ i ∈ Ico 1 (min w (n - t)), f i (t + i)
      = ∑ s ∈ Ico (t + 1) n, if s < t + w then f (s - t) s else 0 := by
  rw [← sum_filter]
  -- the offset `i` stands for the index `t + i`
  refine sum_nbij' (fun i => t + i) (fun s => s - t) ?_ ?_ ?_ ?_ ?_
  · intro i hi
    have hi := mem_Ico.mp hi
    exact mem_filter.mpr ⟨mem_Ico.mpr (by omega), by omega⟩
  · intro s hs
    obtain ⟨hs, hband⟩ := mem_filter.mp hs
    have hs := mem_Ico.mp hs
    exact mem_Ico.mpr (by omega)
  · intro i hi
    omega
  · intro s hs
    have hs := mem_Ico.mp (mem_filter.mp hs).1
    omega
  · intro i hi
    rw [show t + i - t = i by omega]

/-- The lower factor below its diagonal. -/
theorem lower_of_lt {w : Nat} {u : Nat → Nat → K} {s k : Nat} (h : k < s) :
    lower w u s k = if s < k + w then u k (s - k) else 0 := by
  rw [lower, if_neg (by omega)]
  by_cases hband : s < k + w
  · rw [if_pos hband, if_pos ⟨h, hband⟩]
  · rw [if_neg hband, if_neg (fun hs => hband hs.2)]

namespace BandLDL

variable {w n : Nat} {A a u : Nat → Nat → K}

/-- **The array holds the factors** of the matrix. -/
theorem ldl (h : BandLDL w n a u) (hband : BandOf w n A a) (hw : 0 < w) :
    LDL n A (lower w u) fun t => u t 0 where
  diag t := if_pos rfl
  upper s t hst := by
    rw [lower, if_neg (by omega), if_neg (by omega)]
  pivot t ht := by
    rw [h.pivot t ht, hband.inside t 0 hw ht, sum_back w t fun i k => u k i * u k i * u k 0]
    refine congrArg (A t t - ·) (sum_congr rfl fun k hk => ?_)
    rw [lower_of_lt (mem_range.mp hk)]
    split
    · rfl
    · rw [zero_mul, zero_mul]
  column t s hts hs := by
    rw [lower_of_lt hts]
    split
    · next hin =>
      obtain ⟨i, rfl⟩ : ∃ i, s = t + i := ⟨s - t, by omega⟩
      rw [Nat.add_sub_cancel_left, h.column t (by omega) i (by omega) (by omega),
        hband.inside t i (by omega) hs,
        sum_back (w - i) t fun j k => u k j * u k (i + j) * u k 0]
      refine congrArg (fun x => (A (t + i) t - x) / u t 0) (sum_congr rfl fun k hk => ?_)
      have hk := mem_range.mp hk
      rw [lower_of_lt hk, lower_of_lt (by omega : k < t + i)]
      by_cases hfar : t < k + (w - i)
      · rw [if_pos hfar, if_pos (by omega), if_pos (by omega),
          show t + i - k = i + (t - k) by omega]
      · -- row `t + i` is outside of column `k`
        rw [if_neg hfar, if_neg (by omega : ¬ t + i < k + w), mul_zero, zero_mul]
    · next hout =>
      -- the entry is outside of the band, as are those before it in row `s`
      rw [hband.outside t s (by omega), sum_eq_zero, sub_zero, zero_div]
      intro k hk
      have hk := mem_range.mp hk
      rw [lower_of_lt (by omega : k < s), if_neg (by omega), mul_zero, zero_mul]

/-- **The band solver**: forward and backward substitution in the array solve the equations. -/
theorem solves (h : BandLDL w n a u) (hband : BandOf w n A a) (hw : 0 < w)
    (hsymm : ∀ i j, A i j = A j i) (hpivot : ∀ t < n, u t 0 ≠ 0) {b g x : Nat → K}
    (hforward : ∀ t < n, g t = b t - ∑ i ∈ Ico 1 (min w (t + 1)), u (t - i) i * g (t - i))
    (hbackward : ∀ t < n,
      x t = g t / u t 0 - ∑ i ∈ Ico 1 (min w (n - t)), u t i * x (t + i)) :
    ∀ t < n, ∑ j ∈ range n, A t j * x j = b t := by
  refine (h.ldl hband hw).solves hsymm hpivot (g := g) (fun t ht => ?_) fun t ht => ?_
  · rw [hforward t ht, sum_back w t fun i k => u k i * g k]
    refine congrArg (b t - ·) (sum_congr rfl fun k hk => ?_)
    rw [lower_of_lt (mem_range.mp hk)]
    split
    · rfl
    · rw [zero_mul]
  · rw [hbackward t ht, sum_on w n t fun i s => u t i * x s]
    refine congrArg (g t / u t 0 - ·) (sum_congr rfl fun s hs => ?_)
    rw [lower_of_lt (by have := mem_Ico.mp hs; omega)]
    split
    · rfl
    · rw [zero_mul]

end BandLDL

end Lib
