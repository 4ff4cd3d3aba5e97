import Vox.Mage.ModelOf

/-!
# MAGE — an update of the state durations

`updateDuration` applies the user's control to each state, adds the durations up, and cuts
them down to their shares of `maxDuration` where they are more than that: it multiplies by
`maxDuration` and divides by the sum. All of this is done in an `int`, and only a duration
that is negative before the cut is corrected.

* `usable_when` — when the model that is left is one that the frame queue has room for: as
  long as no product of a duration with `maxDuration` wraps to a value far below zero, and
  the products do not add up to more than the sum accounts for. This is exact unless the sum
  itself overflows, and then up to less than `nOfStates` times the sum.
-/

namespace Vox.Mage

open Lib

-- ---------------------------------------------------------------------------
-- Integers that wrap
-- ---------------------------------------------------------------------------

/-- Wrapping once more makes no difference. -/
theorem toInt_toInt_add (a b : Int) : toInt (toInt a + b) = toInt (a + b) := by
  unfold toInt
  omega

/-- Wrapping after every addition is wrapping the sum. -/
theorem foldl_toInt {α : Type} (f : α → Int) (items : List α) :
    items.foldl (fun sum x => toInt (sum + f x)) 0 = toInt (items.map f).sum := by
  induction items using List.reverseRecOn with
  | nil => rfl
  | append_singleton items x ih =>
    rw [List.foldl_append, List.foldl_cons, List.foldl_nil, ih, toInt_toInt_add, List.map_append,
      List.sum_append, List.map_singleton, List.sum_singleton]

/-- Division rounds towards zero. -/
theorem tdiv_nonneg_iff {p d : Int} (hd : 0 < d) : 0 ≤ p.tdiv d ↔ -d < p := by
  by_cases hp : 0 ≤ p
  · refine iff_of_true (Int.tdiv_nonneg hp hd.le) (by omega)
  · obtain ⟨q, rfl⟩ : ∃ q, p = -q := ⟨-p, (neg_neg p).symm⟩
    rw [Int.neg_tdiv, Int.tdiv_eq_ediv_of_nonneg (by omega)]
    have hq : 0 ≤ q / d := Int.ediv_nonneg (by omega) hd.le
    constructor
    · intro h
      -- the quotient is zero
      have hlt : q < d := by
        have := Int.lt_ediv_add_one_mul_self q hd
        rw [show q / d = 0 by omega] at this
        omega
      omega
    · intro h
      rw [Int.ediv_eq_zero_of_lt (by omega) (by omega)]
      exact Int.le_refl 0

/-- A sum of numbers that are not negative. -/
theorem sum_map_nonneg {f : Nat → Int} {n : Nat} (h : ∀ i < n, 0 ≤ f i) :
    0 ≤ ((List.range n).map f).sum := by
  induction n with
  | zero => exact Int.le_refl 0
  | succ n ih =>
    rw [List.range_succ, List.map_append, List.sum_append, List.map_singleton, List.sum_singleton]
    have hrest := ih fun i hi => h i (Nat.lt_succ_of_lt hi)
    have hlast := h n (Nat.lt_succ_self n)
    omega

theorem sum_map_le {f g : Nat → Int} {n : Nat} (h : ∀ i < n, f i ≤ g i) :
    ((List.range n).map f).sum ≤ ((List.range n).map g).sum := by
  induction n with
  | zero => exact Int.le_refl 0
  | succ n ih =>
    rw [List.range_succ, List.map_append, List.sum_append, List.map_append, List.sum_append,
      List.map_singleton, List.sum_singleton, List.map_singleton, List.sum_singleton]
    have hrest := ih fun i hi => h i (Nat.lt_succ_of_lt hi)
    have hlast := h n (Nat.lt_succ_self n)
    omega

/-- A wrapped product that is not negative is the product or less. -/
theorem toInt_le_of_nonneg {p : Int} (hp : 0 ≤ p) : toInt p ≤ p := by
  unfold toInt
  omega

namespace Model

-- ---------------------------------------------------------------------------
-- The request
-- ---------------------------------------------------------------------------

/-- The duration that an action makes of a duration. -/
def actedDuration (update : ℚ) (action duration : Int) : Int :=
  if action = overwrite then truncate update
  else if action = shift then truncate (duration + update)
  else if action = scale then truncate (duration * update)
  else duration

/-- A requested duration, where it was negative replaced by 1. -/
def requestedDuration (update : ℚ) (action duration : Int) : Int :=
  if actedDuration update action duration < 0 then 1 else actedDuration update action duration

/-- A duration whose update fits is what was asked for. -/
theorem updatedDuration_eq {update : ℚ} {action duration : Int}
    (hlo : -2 ^ 31 ≤ actedDuration update action duration)
    (hhi : actedDuration update action duration < 2 ^ 31) :
    updatedDuration update action duration = requestedDuration update action duration := by
  have hwrap := toInt_of_mem hlo hhi
  have hacted : (if action = overwrite then toInt (truncate update)
      else if action = shift then toInt (truncate (duration + update))
      else if action = scale then toInt (truncate (duration * update))
      else duration) = actedDuration update action duration := by
    rw [actedDuration] at hwrap ⊢
    split_ifs at hwrap ⊢
    · exact hwrap
    · exact hwrap
    · exact hwrap
    · rfl
  rw [updatedDuration, hacted, requestedDuration]

section Request

variable (model : Model) (updateFunction : Nat → ℚ) (action : Int)

/-- The requested duration of a state. -/
def requested (i : Nat) : Int :=
  requestedDuration (updateFunction i) action (model.state i).duration

/-- The requested total. -/
def requestedTotal : Int := ((List.range nOfStates).map (model.requested updateFunction action)).sum

/-- The results of the action are numbers of an `int`. -/
def Representable : Prop :=
  ∀ i < nOfStates,
    -2 ^ 31 ≤ actedDuration (updateFunction i) action (model.state i).duration ∧
      actedDuration (updateFunction i) action (model.state i).duration < 2 ^ 31

/-- **A usable model**: no state has a negative duration, the model's duration is their sum
and fits in the frame queue, and a request that fits is not changed. -/
structure Usable (nOfBackup nOfLookup : Nat) (after : Model) : Prop where
  nonneg : ∀ i < nOfStates, 0 ≤ (after.state i).duration
  duration_eq :
    after.duration = ((List.range nOfStates).map fun i => (after.state i).duration).sum
  duration_le : after.duration ≤ maxDuration nOfBackup nOfLookup
  kept : model.requestedTotal updateFunction action ≤ maxDuration nOfBackup nOfLookup →
    ∀ i < nOfStates, (after.state i).duration = model.requested updateFunction action i

variable {model updateFunction action}

/-- What is asked for is not negative. -/
theorem requested_nonneg (i : Nat) : 0 ≤ model.requested updateFunction action i := by
  rw [requested, requestedDuration]
  split
  · exact Int.one_nonneg
  · omega

theorem requestedTotal_nonneg : 0 ≤ model.requestedTotal updateFunction action :=
  sum_map_nonneg fun i _ => requested_nonneg i

/-- The product that is divided, as the `int` has it. -/
def product (model : Model) (nOfBackup nOfLookup : Nat) (updateFunction : Nat → ℚ)
    (action : Int) (i : Nat) : Int :=
  toInt (model.requested updateFunction action i * maxDuration nOfBackup nOfLookup)

/-- The products that are not negative, added up. -/
def productTotal (model : Model) (nOfBackup nOfLookup : Nat) (updateFunction : Nat → ℚ)
    (action : Int) : Int :=
  ((List.range nOfStates).map fun i =>
    max (model.product nOfBackup nOfLookup updateFunction action i) 0).sum

/-- **A request that the code can handle.** With `S` the requested total, `D` its wrapped value
and `M` the most that a model may last: `S` is at most `M`; or `D` is more than `M`, no product
wraps to `-D` or below, and those that are not negative add up to less than `(M + 1) * D`. -/
def CutFits (model : Model) (nOfBackup nOfLookup : Nat) (updateFunction : Nat → ℚ)
    (action : Int) : Prop :=
  model.requestedTotal updateFunction action ≤ maxDuration nOfBackup nOfLookup ∨
    (toInt (model.requestedTotal updateFunction action) > maxDuration nOfBackup nOfLookup ∧
      (∀ i < nOfStates, -toInt (model.requestedTotal updateFunction action)
        < model.product nOfBackup nOfLookup updateFunction action i) ∧
      model.productTotal nOfBackup nOfLookup updateFunction action
        < (maxDuration nOfBackup nOfLookup + 1)
          * toInt (model.requestedTotal updateFunction action))

/-- The duration of a state after the cut. -/
def share (model : Model) (nOfBackup nOfLookup : Nat) (updateFunction : Nat → ℚ) (action : Int)
    (i : Nat) : Int :=
  (model.product nOfBackup nOfLookup updateFunction action i).tdiv
    (toInt (model.requestedTotal updateFunction action))

section Cut

variable {nOfBackup nOfLookup : Nat} (hrep : model.Representable updateFunction action)

include hrep

/-- The durations that an update leaves. -/
theorem updateDuration_spec :
    (∀ i < nOfStates,
      ((model.updateDuration nOfBackup nOfLookup updateFunction action).state i).duration
        = if toInt (model.requestedTotal updateFunction action)
              > maxDuration nOfBackup nOfLookup then
            model.share nOfBackup nOfLookup updateFunction action i
          else model.requested updateFunction action i) ∧
    (model.updateDuration nOfBackup nOfLookup updateFunction action).duration
      = if toInt (model.requestedTotal updateFunction action)
            > maxDuration nOfBackup nOfLookup then
          toInt ((List.range nOfStates).map
            (model.share nOfBackup nOfLookup updateFunction action)).sum
        else toInt (model.requestedTotal updateFunction action) := by
  -- the first loop stores what is asked for, and sums it with wraps
  have hu : ∀ i < nOfStates,
      updatedDuration (updateFunction i) action (model.state i).duration
        = model.requested updateFunction action i := fun i hi =>
    updatedDuration_eq (hrep i hi).1 (hrep i hi).2
  have hsum : (List.range nOfStates).foldl (fun sum i =>
        toInt (sum + updatedDuration (updateFunction i) action (model.state i).duration)) 0
      = toInt (model.requestedTotal updateFunction action) := by
    rw [foldl_range_congr (fun i hi sum => by rw [hu i hi])]
    exact foldl_toInt _ _
  rw [updateDuration]
  simp only [hsum]
  refine ⟨fun i hi => ?_, ?_⟩
  · rw [if_pos hi, hu i hi]
    rfl
  · split
    · rw [← foldl_toInt]
      exact foldl_range_congr (fun i hi sum => by rw [hu i hi]; rfl) 0
    · rfl

omit hrep in
/-- Without an overflow of the sum, the products are at most those of the exact durations. -/
theorem productTotal_le (hlt : model.requestedTotal updateFunction action < 2 ^ 31) :
    model.productTotal nOfBackup nOfLookup updateFunction action
      ≤ maxDuration nOfBackup nOfLookup * toInt (model.requestedTotal updateFunction action) := by
  have hproduct : ∀ i < nOfStates,
      max (model.product nOfBackup nOfLookup updateFunction action i) 0
        ≤ model.requested updateFunction action i * maxDuration nOfBackup nOfLookup := by
    intro i _
    have hnonneg : 0 ≤ model.requested updateFunction action i * maxDuration nOfBackup nOfLookup :=
      Int.mul_nonneg (requested_nonneg i) (Int.natCast_nonneg _)
    exact max_le (toInt_le_of_nonneg hnonneg) hnonneg
  have hS := @requestedTotal_nonneg model updateFunction action
  refine (sum_map_le hproduct).trans_eq ?_
  rw [List.sum_map_mul_right, toInt_of_mem (by omega) hlt, Int.mul_comm]
  rfl

omit hrep in
/-- Products above `-D` are divided like those that are not negative: the others give 0. -/
theorem share_eq {i : Nat}
    (hproduct : -toInt (model.requestedTotal updateFunction action)
      < model.product nOfBackup nOfLookup updateFunction action i) :
    model.share nOfBackup nOfLookup updateFunction action i
      = max (model.product nOfBackup nOfLookup updateFunction action i) 0
        / toInt (model.requestedTotal updateFunction action) := by
  rw [share]
  rcases le_or_gt 0 (model.product nOfBackup nOfLookup updateFunction action i) with hle | hneg
  · rw [max_eq_left hle, Int.tdiv_eq_ediv_of_nonneg hle]
  · rw [max_eq_right hneg.le, Int.zero_ediv, ← neg_neg (model.product _ _ _ _ _), Int.neg_tdiv,
      Int.tdiv_eq_zero_of_lt (by omega) (by omega), neg_zero]

omit hrep in
theorem maxDuration_lt : (maxDuration nOfBackup nOfLookup : Int) < 2 ^ 31 := by
  have hle : maxDuration nOfBackup nOfLookup ≤ maxNumOfFrames := Nat.div_le_self _ _
  have hframes : (maxNumOfFrames : Int) < 2 ^ 31 := by decide
  omega

omit hrep in
/-- A share is a duration when its product does not wrap to the negative total or below. -/
theorem share_nonneg_iff (hpos : 0 < toInt (model.requestedTotal updateFunction action)) (i : Nat) :
    0 ≤ model.share nOfBackup nOfLookup updateFunction action i ↔
      -toInt (model.requestedTotal updateFunction action)
        < model.product nOfBackup nOfLookup updateFunction action i :=
  tdiv_nonneg_iff hpos

/-- Durations that are cut down. -/
theorem usable_iff_of_cut (hcap : toInt (model.requestedTotal updateFunction action)
      > maxDuration nOfBackup nOfLookup) :
    model.Usable updateFunction action nOfBackup nOfLookup
        (model.updateDuration nOfBackup nOfLookup updateFunction action) ↔
      (∀ i < nOfStates, 0 ≤ model.share nOfBackup nOfLookup updateFunction action i) ∧
        ((List.range nOfStates).map (model.share nOfBackup nOfLookup updateFunction action)).sum
          ≤ maxDuration nOfBackup nOfLookup := by
  obtain ⟨hstate, hduration⟩ :=
    @updateDuration_spec model updateFunction action nOfBackup nOfLookup hrep
  have hM := @maxDuration_lt nOfBackup nOfLookup
  simp only [if_pos hcap] at hstate hduration
  have hsum : ((List.range nOfStates).map fun i =>
      ((model.updateDuration nOfBackup nOfLookup updateFunction action).state i).duration).sum
        = ((List.range nOfStates).map
            (model.share nOfBackup nOfLookup updateFunction action)).sum :=
    congrArg List.sum (List.map_congr_left fun i hi => hstate i (List.mem_range.mp hi))
  constructor
  · intro h
    refine ⟨fun i hi => hstate i hi ▸ h.nonneg i hi, ?_⟩
    rw [← hsum, ← h.duration_eq]
    exact h.duration_le
  · rintro ⟨hnonneg, hle⟩
    have hshares : 0 ≤ ((List.range nOfStates).map
        (model.share nOfBackup nOfLookup updateFunction action)).sum := sum_map_nonneg hnonneg
    -- the model's duration is the sum, which does not overflow
    have hwrap := toInt_of_mem (n := ((List.range nOfStates).map
      (model.share nOfBackup nOfLookup updateFunction action)).sum) (by omega) (by omega)
    refine ⟨fun i hi => ?_, ?_, ?_, fun hfits => ?_⟩
    · rw [hstate i hi]
      exact hnonneg i hi
    · rw [hduration, hwrap, hsum]
    · rw [hduration, hwrap]
      exact hle
    · -- a request that fits is not cut down
      have hS := @requestedTotal_nonneg model updateFunction action
      rw [toInt_of_mem (by omega) (by omega)] at hcap
      omega

/-- Durations that are kept. -/
theorem usable_iff_of_kept (hcap : ¬ toInt (model.requestedTotal updateFunction action)
      > maxDuration nOfBackup nOfLookup) :
    model.Usable updateFunction action nOfBackup nOfLookup
        (model.updateDuration nOfBackup nOfLookup updateFunction action) ↔
      model.requestedTotal updateFunction action ≤ maxDuration nOfBackup nOfLookup := by
  obtain ⟨hstate, hduration⟩ :=
    @updateDuration_spec model updateFunction action nOfBackup nOfLookup hrep
  simp only [if_neg hcap] at hstate hduration
  -- below the cap the states keep what was asked for
  have hsum : ((List.range nOfStates).map fun i =>
      ((model.updateDuration nOfBackup nOfLookup updateFunction action).state i).duration).sum
        = model.requestedTotal updateFunction action :=
    congrArg List.sum (List.map_congr_left fun i hi => hstate i (List.mem_range.mp hi))
  constructor
  · intro h
    have heq := h.duration_eq
    rw [hsum] at heq
    exact heq ▸ h.duration_le
  · intro hle
    have hS := @requestedTotal_nonneg model updateFunction action
    have hM := @maxDuration_lt nOfBackup nOfLookup
    have hwrap := toInt_of_mem (n := model.requestedTotal updateFunction action) (by omega)
      (by omega)
    refine ⟨fun i hi => ?_, ?_, ?_, fun _ => hstate⟩
    · rw [hstate i hi]
      exact requested_nonneg i
    · rw [hduration, hwrap, hsum]
    · rw [hduration, hwrap]
      exact hle

omit hrep in
/-- Shares that are at most `M` in sum, by their products. -/
theorem sum_share_cases (hcap : toInt (model.requestedTotal updateFunction action)
      > maxDuration nOfBackup nOfLookup)
    (hproducts : ∀ i < nOfStates, -toInt (model.requestedTotal updateFunction action)
      < model.product nOfBackup nOfLookup updateFunction action i) :
    (model.productTotal nOfBackup nOfLookup updateFunction action
        < (maxDuration nOfBackup nOfLookup + 1)
          * toInt (model.requestedTotal updateFunction action) →
      ((List.range nOfStates).map (model.share nOfBackup nOfLookup updateFunction action)).sum
        ≤ maxDuration nOfBackup nOfLookup) ∧
    (((List.range nOfStates).map (model.share nOfBackup nOfLookup updateFunction action)).sum
        ≤ maxDuration nOfBackup nOfLookup →
      model.productTotal nOfBackup nOfLookup updateFunction action
        ≤ maxDuration nOfBackup nOfLookup * toInt (model.requestedTotal updateFunction action)
          + nOfStates * (toInt (model.requestedTotal updateFunction action) - 1)) := by
  have hpos : 0 < toInt (model.requestedTotal updateFunction action) := by omega
  -- no product wraps below zero, so each share is a quotient
  have hshares : (List.range nOfStates).map
        (model.share nOfBackup nOfLookup updateFunction action)
      = (List.range nOfStates).map fun i =>
          max (model.product nOfBackup nOfLookup updateFunction action i) 0
            / toInt (model.requestedTotal updateFunction action) :=
    List.map_congr_left fun i hi => share_eq (hproducts i (List.mem_range.mp hi))
  have hlower := sum_ediv_mul_le (fun i =>
    max (model.product nOfBackup nOfLookup updateFunction action i) 0) nOfStates hpos
  have hupper := sum_le_sum_ediv_mul (fun i =>
    max (model.product nOfBackup nOfLookup updateFunction action i) 0) nOfStates hpos
  rw [hshares]
  constructor
  · intro hlt
    exact Int.lt_add_one_iff.mp (Int.lt_of_mul_lt_mul_right (hlower.trans_lt hlt) hpos.le)
  · intro hle
    have hmul := Int.mul_le_mul_of_nonneg_right hle hpos.le
    exact hupper.trans (Int.add_le_add_right hmul _)

/-- **When an update leaves a usable model**: for every request that the code can handle, and
for no other one unless the requested total overflows. What is left open then are products that
exceed their total by less than `nOfStates` times the wrapped one. -/
theorem usable_when :
    (model.CutFits nOfBackup nOfLookup updateFunction action →
      model.Usable updateFunction action nOfBackup nOfLookup
        (model.updateDuration nOfBackup nOfLookup updateFunction action)) ∧
    (model.Usable updateFunction action nOfBackup nOfLookup
        (model.updateDuration nOfBackup nOfLookup updateFunction action) →
      model.CutFits nOfBackup nOfLookup updateFunction action ∨
        (2 ^ 31 ≤ model.requestedTotal updateFunction action ∧
          model.productTotal nOfBackup nOfLookup updateFunction action
            ≤ maxDuration nOfBackup nOfLookup
                * toInt (model.requestedTotal updateFunction action)
              + nOfStates * (toInt (model.requestedTotal updateFunction action) - 1))) := by
  have hS := @requestedTotal_nonneg model updateFunction action
  have hM := @maxDuration_lt nOfBackup nOfLookup
  by_cases hcap : toInt (model.requestedTotal updateFunction action)
      > maxDuration nOfBackup nOfLookup
  · have hpos : 0 < toInt (model.requestedTotal updateFunction action) := by omega
    rw [usable_iff_of_cut hrep hcap]
    constructor
    · rintro (hle | ⟨-, hproducts, hlt⟩)
      · -- a total that fits is not cut
        rw [toInt_of_mem (by omega) (by omega)] at hcap
        omega
      · exact ⟨fun i hi => (share_nonneg_iff hpos i).mpr (hproducts i hi),
          (sum_share_cases hcap hproducts).1 hlt⟩
    · rintro ⟨hnonneg, hle⟩
      have hproducts : ∀ i < nOfStates, -toInt (model.requestedTotal updateFunction action)
          < model.product nOfBackup nOfLookup updateFunction action i :=
        fun i hi => (share_nonneg_iff hpos i).mp (hnonneg i hi)
      rcases lt_or_ge (model.requestedTotal updateFunction action) (2 ^ 31) with hlt | hge
      · refine .inl (.inr ⟨hcap, hproducts, ?_⟩)
        have htotal := @productTotal_le model updateFunction action nOfBackup nOfLookup hlt
        rw [Int.add_mul, Int.one_mul]
        omega
      · exact .inr ⟨hge, (sum_share_cases hcap hproducts).2 hle⟩
  · rw [usable_iff_of_kept hrep hcap]
    constructor
    · rintro (hle | ⟨hgt, -⟩)
      · exact hle
      · exact absurd hgt hcap
    · exact fun hle => .inl (.inl hle)

end Cut

end Request

/-- Two frames for each state become 40, 200 in all, and are cut to 34. -/
theorem usable_scaled :
    steady.Usable (fun _ => 20) scale nOfBackup nOfLookup
      (steady.updateDuration nOfBackup nOfLookup (fun _ => 20) scale) :=
  (usable_when (by unfold Representable; decide +kernel)).1 (.inr (by decide +kernel))

/-- The durations 15000000, 1, 1, 1 and 1: the first product wraps, and the first state is
left with -116 frames. -/
theorem not_usable_long :
    steady.Representable (fun i => if i = 0 then 15000000 else 1) overwrite ∧
      ((steady.updateDuration nOfBackup nOfLookup (fun i => if i = 0 then 15000000 else 1)
        overwrite).state 0).duration = -116 ∧
      ¬ steady.Usable (fun i => if i = 0 then 15000000 else 1) overwrite nOfBackup nOfLookup
        (steady.updateDuration nOfBackup nOfLookup (fun i => if i = 0 then 15000000 else 1)
          overwrite) := by
  have hfirst : ((steady.updateDuration nOfBackup nOfLookup
      (fun i => if i = 0 then 15000000 else 1) overwrite).state 0).duration = -116 := by
    decide +kernel
  refine ⟨by unfold Representable; decide +kernel, hfirst, fun h => ?_⟩
  have hnonneg := h.nonneg 0 (by decide)
  rw [hfirst] at hnonneg
  exact absurd hnonneg (by decide)

end Model

end Vox.Mage
