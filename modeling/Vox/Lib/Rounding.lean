import Mathlib.Algebra.BigOperators.Group.List.Basic
import Mathlib.Algebra.BigOperators.Ring.List
import Mathlib.Algebra.Order.BigOperators.Group.List
import Mathlib.Algebra.Order.Floor.Ring
import Mathlib.Data.Rat.Floor
import Mathlib.Tactic.Linarith
import Mathlib.Tactic.FieldSimp
import Mathlib.Tactic.Positivity

/-!
# Truncation and rounding to a step

Two conversions over a linearly ordered field with a floor: `truncate`, towards
zero, and `roundStep step`, to the nearest multiple of `step` with halves
rounded up. Rounding to a step keeps an interval whose ends are multiples of
the step, and lands on exactly one multiple.

Where the terms of a weighted average are rounded one by one, what their
`roundingError`s add up to is what the sum of the rounded terms is off the average
(`sum_round`). It need not stay between the values that are averaged; it does where few terms
are rounded in one direction for how far the values are apart (`exists_le_sum_round`,
`exists_sum_round_le`, `few_of_sum_round`).
-/

namespace Lib

variable {K : Type*} [Field K] [LinearOrder K] [IsStrictOrderedRing K] [FloorRing K]

/-- The integer part of `x`, towards zero. -/
def truncate (x : K) : Int := if x < 0 then ⌈x⌉ else ⌊x⌋

@[simp] theorem truncate_intCast (n : Int) : truncate (n : K) = n := by
  simp [truncate]

@[simp] theorem truncate_natCast (n : Nat) : truncate (n : K) = n := by
  have h := truncate_intCast (K := K) n
  rwa [Int.cast_natCast] at h

/-- Below a positive integer truncation changes nothing. -/
theorem truncate_lt_iff {x : K} {k : Int} (hk : 0 < k) : truncate x < k ↔ x < k := by
  rw [truncate]
  split
  · next hneg =>
    -- below zero both hold
    refine iff_of_true ?_ (hneg.trans (by exact_mod_cast hk))
    exact lt_of_le_of_lt (Int.ceil_le.mpr (by exact_mod_cast hneg.le)) hk
  · exact Int.floor_lt

/-- `(int)( x + 0.5 )` -/
def truncateHalf (x : K) : Int := truncate (x + 1 / 2)

/-- Half up to a number that is not negative. -/
theorem truncateHalf_nonneg {x : K} (hx : 0 ≤ x) : 0 ≤ truncateHalf x := by
  have hnonneg : 0 ≤ x + 1 / 2 := by linarith
  rw [truncateHalf, truncate, if_neg (not_lt.mpr hnonneg)]
  exact Int.floor_nonneg.mpr hnonneg

theorem one_le_truncateHalf_iff {x : K} : 1 ≤ truncateHalf x ↔ 1 / 2 ≤ x := by
  rw [← not_lt, truncateHalf, truncate_lt_iff one_pos, not_lt, Int.cast_one]
  constructor
  · intro h
    linarith
  · intro h
    linarith

/-- The multiple of `step` nearest to `y`, halves rounded up. -/
def roundStep (step y : K) : K := ⌊y / step + 1 / 2⌋ * step

/-- The values that round to the multiple `k * step`. -/
theorem roundStep_eq_iff {step : K} (hstep : 0 < step) (y : K) (k : Int) :
    roundStep step y = k * step ↔ (k - 1 / 2) * step ≤ y ∧ y < (k + 1 / 2) * step := by
  have hfloor : roundStep step y = k * step ↔ ⌊y / step + 1 / 2⌋ = k := by
    rw [roundStep, mul_left_inj' hstep.ne', Int.cast_inj]
  rw [hfloor, Int.floor_eq_iff]
  -- the two ends of the interval, in units of the step
  have hlo : (k : K) ≤ y / step + 1 / 2 ↔ (k - 1 / 2) * step ≤ y := by
    rw [← le_div_iff₀ hstep, sub_le_iff_le_add]
  have hhi : y / step + 1 / 2 < (k : K) + 1 ↔ y < (k + 1 / 2) * step := by
    rw [← div_lt_iff₀ hstep, ← lt_sub_iff_add_lt]
    have hhalf : (k : K) + 1 - 1 / 2 = k + 1 / 2 := by ring
    rw [hhalf]
  rw [hlo, hhi]

theorem roundStep_mul {step : K} (hstep : 0 < step) (k : Int) :
    roundStep step (k * step) = k * step := by
  rw [roundStep_eq_iff hstep]
  refine ⟨?_, ?_⟩
  · nlinarith
  · nlinarith

theorem roundStep_mono {step : K} (hstep : 0 < step) {x y : K} (h : x ≤ y) :
    roundStep step x ≤ roundStep step y := by
  unfold roundStep
  -- the floor is monotone, and so is the multiple
  have hfloor : ⌊x / step + 1 / 2⌋ ≤ ⌊y / step + 1 / 2⌋ := by
    apply Int.floor_le_floor
    have := div_le_div_of_nonneg_right h hstep.le
    linarith
  exact mul_le_mul_of_nonneg_right (by exact_mod_cast hfloor) hstep.le

/-- Rounding keeps an interval between two multiples of the step. -/
theorem roundStep_mem {step : K} (hstep : 0 < step) {a b : Int} {y : K}
    (hlo : a * step ≤ y) (hhi : y ≤ b * step) :
    a * step ≤ roundStep step y ∧ roundStep step y ≤ b * step := by
  refine ⟨?_, ?_⟩
  · calc a * step = roundStep step (a * step) := (roundStep_mul hstep a).symm
      _ ≤ roundStep step y := roundStep_mono hstep hlo
  · calc roundStep step y ≤ roundStep step (b * step) := roundStep_mono hstep hhi
      _ = b * step := roundStep_mul hstep b

/-! ## Terms that are rounded one by one -/

/-- What rounding to the nearest integer, halves up, adds to `x`. -/
def roundingError (x : K) : K := 1 / 2 - Int.fract (x + 1 / 2)

/-- The rounded number is the number and its error. -/
theorem floor_add_half (x : K) : (⌊x + 1 / 2⌋ : K) = x + roundingError x := by
  have h := Int.floor_add_fract (x + 1 / 2)
  rw [roundingError]
  linarith

theorem roundingError_le (x : K) : roundingError x ≤ 1 / 2 := by
  have h := Int.fract_nonneg (x + 1 / 2)
  rw [roundingError]
  linarith

theorem neg_half_lt_roundingError (x : K) : -(1 / 2) < roundingError x := by
  have h := Int.fract_lt_one (x + 1 / 2)
  rw [roundingError]
  linarith

/-- Below one half a fractional part is cut off. -/
theorem roundingError_of_lt {x : K} (h : Int.fract x < 1 / 2) :
    roundingError x = -Int.fract x := by
  have hnonneg := Int.fract_nonneg x
  have hsplit : x + 1 / 2 = (Int.fract x + 1 / 2) + ⌊x⌋ := by
    rw [← Int.self_sub_floor]
    ring
  have hfract : Int.fract (x + 1 / 2) = Int.fract x + 1 / 2 := by
    rw [hsplit, Int.fract_add_intCast, Int.fract_eq_self]
    constructor
    · linarith
    · linarith
  rw [roundingError, hfract]
  ring

/-- From one half on it is filled up. -/
theorem roundingError_of_le {x : K} (h : 1 / 2 ≤ Int.fract x) :
    roundingError x = 1 - Int.fract x := by
  have hlt := Int.fract_lt_one x
  have hsplit : x + 1 / 2 = (Int.fract x - 1 / 2) + (⌊x⌋ + 1 : Int) := by
    rw [← Int.self_sub_floor]
    push_cast
    ring
  have hfract : Int.fract (x + 1 / 2) = Int.fract x - 1 / 2 := by
    rw [hsplit, Int.fract_add_intCast, Int.fract_eq_self]
    constructor
    · linarith
    · linarith
  rw [roundingError, hfract]
  ring

section Average

variable {α : Type*} (items : List α) (w : α → K) (d : α → Int) (x : α → K)

/-- Rounding one by one is off by the errors. -/
theorem sum_round :
    ((items.map fun e => ⌊w e * d e + 1 / 2⌋).sum : K) = (items.map fun e => w e * d e).sum
      + (items.map fun e => roundingError (w e * d e)).sum := by
  induction items with
  | nil => simp
  | cons e items ih =>
    simp only [List.map_cons, List.sum_cons, Int.cast_add]
    rw [ih, floor_add_half]
    ring

/-- The errors of `n` terms are at most `n / 2`. -/
theorem abs_sum_roundingError_le :
    |(items.map fun e => roundingError (x e)).sum| ≤ items.length / 2 := by
  induction items with
  | nil => simp
  | cons e items ih =>
    have hupper := roundingError_le (x e)
    have hlower := neg_half_lt_roundingError (x e)
    rw [abs_le] at ih ⊢
    simp only [List.map_cons, List.sum_cons, List.length_cons, Nat.cast_succ]
    constructor
    · linarith
    · linarith

/-- How many terms have a fractional part, below one half. -/
def belowHalf : Nat := items.countP fun e => 0 < Int.fract (x e) ∧ Int.fract (x e) < 1 / 2

/-- How many terms have a fractional part of one half or more. -/
def fromHalf : Nat := items.countP fun e => 1 / 2 ≤ Int.fract (x e)

/-- Terms with a part below one half take at most half of their number away, and strictly less
as soon as there is a term that is no integer. -/
theorem neg_belowHalf_le_sum :
    -(belowHalf items x / 2 : K) ≤ (items.map fun e => roundingError (x e)).sum ∧
      (0 < belowHalf items x ∨ 0 < fromHalf items x →
        -(belowHalf items x / 2 : K) < (items.map fun e => roundingError (x e)).sum) := by
  induction items with
  | nil => simp [belowHalf, fromHalf]
  | cons e items ih =>
    obtain ⟨hle, hlt⟩ := ih
    have hnonneg := Int.fract_nonneg (x e)
    have hone := Int.fract_lt_one (x e)
    simp only [belowHalf, fromHalf, List.countP_cons, List.map_cons, List.sum_cons] at hle hlt ⊢
    rcases lt_or_ge (Int.fract (x e)) (1 / 2) with hsmall | hlarge
    · rw [roundingError_of_lt hsmall]
      rcases hnonneg.eq_or_lt with hzero | hpos
      · -- an integer changes nothing
        have hhalf : ¬ (2 : K) ≤ 0 := by norm_num
        simpa [← hzero, hhalf] using And.intro hle hlt
      · simp only [hpos, hsmall, and_self, decide_true, if_true, Nat.cast_add, Nat.cast_one]
        constructor
        · linarith
        · intro _
          linarith
    · rw [roundingError_of_le hlarge]
      simp only [hlarge, not_lt.mpr hlarge, and_false, decide_false, Bool.false_eq_true, if_false,
        Nat.add_zero]
      constructor
      · linarith
      · intro _
        linarith

/-- Terms with a part of one half or more add at most half of their number. -/
theorem sum_le_fromHalf :
    (items.map fun e => roundingError (x e)).sum ≤ fromHalf items x / 2 := by
  induction items with
  | nil => simp [fromHalf]
  | cons e items ih =>
    have hnonneg := Int.fract_nonneg (x e)
    simp only [fromHalf, List.countP_cons, List.map_cons, List.sum_cons] at ih ⊢
    rcases lt_or_ge (Int.fract (x e)) (1 / 2) with hsmall | hlarge
    · rw [roundingError_of_lt hsmall]
      simp only [not_le.mpr hsmall, decide_false, Bool.false_eq_true, if_false, Nat.add_zero]
      linarith
    · rw [roundingError_of_le hlarge]
      simp only [hlarge, decide_true, if_true, Nat.cast_add, Nat.cast_one]
      linarith

variable {items w} (hweights : ∀ e ∈ items, 0 ≤ w e) (hsum : (items.map w).sum = 1)

include hweights hsum

omit [FloorRing K] hweights in
/-- Some value counts. -/
theorem exists_weight_pos : ∃ e ∈ items, 0 < w e :=
  List.exists_lt_of_sum_lt (fun _ => 0) w (by simp [hsum])

omit [FloorRing K] in
/-- Some value is not above the average, -/
theorem exists_le_average : ∃ e ∈ items, (d e : K) ≤ (items.map fun e => w e * d e).sum := by
  by_contra hnone
  push Not at hnone
  obtain ⟨e, he, hpos⟩ := exists_weight_pos hsum
  -- one that counts is strictly above it, so that the average is above itself
  have hlt := List.sum_lt_sum (l := items)
    (fun e' => w e' * (items.map fun e => w e * (d e : K)).sum) (fun e' => w e' * (d e' : K))
    (fun e' he' => mul_le_mul_of_nonneg_left (hnone e' he').le (hweights e' he'))
    ⟨e, he, mul_lt_mul_of_pos_left (hnone e he) hpos⟩
  rw [List.sum_map_mul_right, hsum, one_mul] at hlt
  exact lt_irrefl _ hlt

omit [FloorRing K] in
/-- and some value is not below it. -/
theorem exists_average_le : ∃ e ∈ items, (items.map fun e => w e * d e).sum ≤ (d e : K) := by
  by_contra hnone
  push Not at hnone
  obtain ⟨e, he, hpos⟩ := exists_weight_pos hsum
  have hlt := List.sum_lt_sum (l := items) (fun e' => w e' * (d e' : K))
    (fun e' => w e' * (items.map fun e => w e * (d e : K)).sum)
    (fun e' he' => mul_le_mul_of_nonneg_left (hnone e' he').le (hweights e' he'))
    ⟨e, he, mul_lt_mul_of_pos_left (hnone e he) hpos⟩
  rw [List.sum_map_mul_right, hsum, one_mul] at hlt
  exact lt_irrefl _ hlt

/-- Rounded one by one, the terms add up to no less than some value, as long as few of them are
rounded down for how far that value is below the average. -/
theorem exists_le_sum_round {e : α} (he : e ∈ items)
    (hfew : (belowHalf items (fun e => w e * d e) / 2 : K)
      ≤ (items.map fun e => w e * d e).sum - d e + 1) :
    ∃ e ∈ items, d e ≤ (items.map fun e => ⌊w e * d e + 1 / 2⌋).sum := by
  obtain ⟨hle, hlt⟩ := neg_belowHalf_le_sum items fun e => w e * (d e : K)
  have hround := sum_round items w d
  rcases Nat.eq_zero_or_pos (belowHalf items fun e => w e * (d e : K)) with hzero | hpos
  · -- none is rounded down
    obtain ⟨e₀, he₀, hd⟩ := exists_le_average d hweights hsum
    refine ⟨e₀, he₀, Int.cast_le (R := K).mp ?_⟩
    rw [hzero, Nat.cast_zero, zero_div, neg_zero] at hle
    linarith
  · refine ⟨e, he, Int.le_of_sub_one_lt (Int.cast_lt (R := K).mp ?_)⟩
    have hstrict := hlt (.inl hpos)
    push_cast at hround ⊢
    linarith

omit hweights hsum in
/-- Nor to more, as long as few of them are rounded up. -/
theorem exists_sum_round_le {e : α} (he : e ∈ items)
    (hfew : (fromHalf items (fun e => w e * d e) / 2 : K)
      < d e - (items.map fun e => w e * d e).sum + 1) :
    ∃ e ∈ items, (items.map fun e => ⌊w e * d e + 1 / 2⌋).sum ≤ d e := by
  have hle := sum_le_fromHalf items fun e => w e * (d e : K)
  have hround := sum_round items w d
  refine ⟨e, he, Int.le_of_lt_add_one (Int.cast_lt (R := K).mp ?_)⟩
  push_cast at hround ⊢
  linarith

/-- Where no more than two terms are rounded at all, these are the only ways. -/
theorem few_of_sum_round
    (htwo : belowHalf items (fun e => w e * (d e : K))
      + fromHalf items (fun e => w e * (d e : K)) ≤ 2)
    (hupper : ∃ e ∈ items, (items.map fun e => ⌊w e * (d e : K) + 1 / 2⌋).sum ≤ d e) :
    (∃ e ∈ items, (belowHalf items (fun e => w e * d e) / 2 : K)
        ≤ (items.map fun e => w e * d e).sum - d e + 1) ∧
      ∃ e ∈ items, (fromHalf items (fun e => w e * d e) / 2 : K)
        < d e - (items.map fun e => w e * d e).sum + 1 := by
  have hbelow : (belowHalf items (fun e => w e * (d e : K)) : K) ≤ 2 := by
    exact_mod_cast (by omega : belowHalf items (fun e => w e * (d e : K)) ≤ 2)
  obtain ⟨e₀, he₀, hd₀⟩ := exists_le_average d hweights hsum
  refine ⟨⟨e₀, he₀, by linarith⟩, ?_⟩
  rcases Nat.lt_or_ge (fromHalf items fun e => w e * (d e : K)) 2 with hone | hboth
  · obtain ⟨e₁, he₁, hd₁⟩ := exists_average_le d hweights hsum
    have hfrom : (fromHalf items (fun e => w e * (d e : K)) : K) ≤ 1 := by
      exact_mod_cast (by omega : fromHalf items (fun e => w e * (d e : K)) ≤ 1)
    exact ⟨e₁, he₁, by linarith⟩
  · -- two are rounded up and none down: some value is above the average
    obtain ⟨e₁, he₁, hd₁⟩ := hupper
    obtain ⟨-, hlt⟩ := neg_belowHalf_le_sum items fun e => w e * (d e : K)
    have hnone : belowHalf items (fun e => w e * (d e : K)) = 0 := by omega
    have hpos := hlt (.inr (by omega))
    have hround := sum_round items w d
    have hcast : ((items.map fun e => ⌊w e * (d e : K) + 1 / 2⌋).sum : K) ≤ d e₁ := by
      exact_mod_cast hd₁
    have hfrom : (fromHalf items (fun e => w e * (d e : K)) : K) ≤ 2 := by
      exact_mod_cast (by omega : fromHalf items (fun e => w e * (d e : K)) ≤ 2)
    rw [hnone, Nat.cast_zero, zero_div, neg_zero] at hpos
    exact ⟨e₁, he₁, by linarith⟩

end Average

end Lib
