import Vox.Lib.While
import Vox.Mage.Contributions
import Mathlib.Algebra.BigOperators.Intervals
import Mathlib.Tactic.Linarith

/-!
# MAGE — state durations of a requested length

`mHTS_set_duration` rounds a first estimate of the durations and then corrects one state by
one frame, until the sum is the target. Its search for the state to correct starts at the
second state, where that of `HTS_set_duration` starts at the first: the first state keeps
its estimate.

* `setDuration_runs` — the loop ends, after as many turns as the estimate is off.
* `setsTarget_iff` — the durations are at least 1 and sum up to the target exactly when the
  estimate of the first state leaves a frame for each of the others.
-/

namespace Vox.Mage

open Lib

/-- `target_length` -/
def targetLength (frame_length : ℚ) : Int := truncate (frame_length + 1 / 2)

/-- `rho` -/
def rhoOf (mean vari : Nat → ℚ) (size : Nat) (target_length : Int) : ℚ :=
  (target_length - (List.range size).foldl (fun t i => t + mean i) 0)
    / (List.range size).foldl (fun t i => t + vari i) 0

-- ---------------------------------------------------------------------------
-- The state to correct
-- ---------------------------------------------------------------------------

section Flexible

variable (size : Nat) (allowed : Nat → Bool) (temp2 : Nat → ℚ)

/-- The search finds a state that it may change, unless there is none. -/
theorem flexibleState_spec :
    (flexibleState size allowed temp2 = -1 ∧ ∀ i, 1 ≤ i → i < size → allowed i = false) ∨
      ∃ i : Nat, flexibleState size allowed temp2 = i ∧ 1 ≤ i ∧ i < size ∧ allowed i = true := by
  have hsearch : ∀ xs : List Nat,
      let s := xs.foldl (fun (s : Int × ℚ) i =>
        if allowed i ∧ (s.1 < 0 ∨ s.2 < temp2 i) then ((i : Int), temp2 i) else s) (-1, 0)
      (s.1 = -1 ∧ ∀ i ∈ xs, allowed i = false) ∨ ∃ i ∈ xs, s.1 = (i : Int) ∧ allowed i = true := by
    intro xs
    refine foldl_prefix_induction (fun pre (s : Int × ℚ) =>
      (s.1 = -1 ∧ ∀ i ∈ pre, allowed i = false) ∨ ∃ i ∈ pre, s.1 = (i : Int) ∧ allowed i = true)
      (.inl ⟨rfl, fun i hi => absurd hi List.not_mem_nil⟩) ?_
    intro pre x post _ s hs
    by_cases htake : allowed x ∧ (s.1 < 0 ∨ s.2 < temp2 x)
    · rw [if_pos htake]
      exact .inr ⟨x, List.mem_append_right _ List.mem_cons_self, rfl, htake.1⟩
    · rw [if_neg htake]
      rcases hs with ⟨hnone, hpre⟩ | ⟨i, hi, hs⟩
      · -- nothing is found yet, so that the state is not one to change
        refine .inl ⟨hnone, fun i hi => ?_⟩
        rcases List.mem_append.mp hi with hi | hi
        · exact hpre i hi
        · rw [List.mem_singleton.mp hi]
          exact Bool.eq_false_iff.mpr fun hx => htake ⟨hx, .inl (by omega)⟩
      · exact .inr ⟨i, List.mem_append_left _ hi, hs⟩
  have hmem : ∀ i, i ∈ List.range' 1 (size - 1) ↔ 1 ≤ i ∧ i < size := by
    intro i
    rw [List.mem_range'_1]
    omega
  rcases hsearch (List.range' 1 (size - 1)) with ⟨hnone, hall⟩ | ⟨i, hi, hfound, hallowed⟩
  · exact .inl ⟨hnone, fun i hpos hlt => hall i ((hmem i).mpr ⟨hpos, hlt⟩)⟩
  · exact .inr ⟨i, hfound, ((hmem i).mp hi).1, ((hmem i).mp hi).2, hallowed⟩

/-- The search starts at 1, so it never finds state 0. -/
theorem flexibleState_ne_zero : flexibleState size allowed temp2 ≠ 0 := by
  rcases flexibleState_spec size allowed temp2 with ⟨hnone, -⟩ | ⟨i, hi, hpos, -⟩
  · omega
  · omega

end Flexible

-- ---------------------------------------------------------------------------
-- The loop
-- ---------------------------------------------------------------------------

section Loop

variable (mean vari : Nat → ℚ) (size : Nat) (rho : ℚ) (target_length : Int)

/-- No turn changes the duration of the first state. -/
theorem first_adaptDuration (s : (Int → Int) × Int) :
    (adaptDuration mean vari size rho target_length s).1 0 = s.1 0 := by
  rw [adaptDuration]
  split
  · exact Function.update_of_ne (Ne.symm (flexibleState_ne_zero _ _ _)) _ _
  · exact Function.update_of_ne (Ne.symm (flexibleState_ne_zero _ _ _)) _ _

/-- A turn moves the sum by one towards the target. -/
theorem adaptDuration_snd (s : (Int → Int) × Int) :
    (adaptDuration mean vari size rho target_length s).2
      = if target_length > s.2 then s.2 + 1 else s.2 - 1 := by
  rw [adaptDuration]
  split
  · rfl
  · rfl

/-- **The loop ends**: each turn brings the sum closer by one. -/
theorem adaptDuration_runs (s : (Int → Int) × Int) :
    WhileRuns (fun s => target_length ≠ s.2) (adaptDuration mean vari size rho target_length) s
      (target_length - s.2).natAbs
      ((adaptDuration mean vari size rho target_length)^[(target_length - s.2).natAbs] s) := by
  refine whileRuns_of_measure (fun s => (target_length - s.2).natAbs) (fun s => ?_)
    (fun s hgo => ?_) s
  · omega
  · rw [adaptDuration_snd]
    split <;> omega

/-- The cells that are no states have kept their values, each state lasts a frame at least,
and the sum is right. -/
structure Adapting (duration : Int → Int) (s : (Int → Int) × Int) : Prop where
  outside : ∀ k : Int, k < 0 ∨ size ≤ k → s.1 k = duration k
  one_le : ∀ i < size, 1 ≤ s.1 i
  sum_eq : ∑ i ∈ Finset.range size, s.1 i = s.2

variable {mean vari size rho target_length}

/-- The sum when one duration changes. -/
theorem sum_update {d : Int → Int} {i : Nat} (hi : i < size) (v : Int) :
    ∑ k ∈ Finset.range size, Function.update d (i : Int) v k
      = ∑ k ∈ Finset.range size, d k + (v - d i) := by
  have hcell : ∀ k ∈ Finset.range size,
      Function.update d (i : Int) v k = d k + if k = i then v - d i else 0 := by
    intro k _
    by_cases hk : k = i
    · subst hk
      rw [Function.update_self, if_pos rfl]
      omega
    · rw [Function.update_of_ne (by omega), if_neg hk, add_zero]
  rw [Finset.sum_congr rfl hcell, Finset.sum_add_distrib, Finset.sum_ite_eq',
    if_pos (Finset.mem_range.mpr hi)]

/-- A change of one state. -/
theorem Adapting.update {duration : Int → Int} {s : (Int → Int) × Int}
    (h : Adapting size duration s) {i : Nat} (hi : i < size) {v : Int} (hv : 1 ≤ v) :
    Adapting size duration (Function.update s.1 i v, s.2 + (v - s.1 i)) where
  outside k hk := by
    rw [← h.outside k hk]
    exact Function.update_of_ne (by omega) _ _
  one_le k hk := by
    show 1 ≤ Function.update s.1 (i : Int) v k
    by_cases hki : (k : Int) = i
    · rw [hki, Function.update_self]
      exact hv
    · rw [Function.update_of_ne hki]
      exact h.one_le k hk
  sum_eq := by
    rw [sum_update hi, h.sum_eq]

/-- A state to shorten is there when the first one leaves a frame for each of the others. -/
theorem Adapting.exists_long {duration : Int → Int} {s : (Int → Int) × Int}
    (h : Adapting size duration s) (hsize : 0 < size) (hlong : s.1 0 + size - 1 < s.2) :
    ∃ i, 1 ≤ i ∧ i < size ∧ 1 < s.1 i := by
  by_contra hnone
  push Not at hnone
  obtain ⟨n, rfl⟩ := Nat.exists_eq_succ_of_ne_zero hsize.ne'
  -- if all others were 1, the first state alone would be too long for the sum
  have hsum : ∑ i ∈ Finset.range n, s.1 ((i + 1 : Nat) : Int) ≤ n := by
    have hle : ∀ i ∈ Finset.range n, s.1 ((i + 1 : Nat) : Int) ≤ 1 := fun i hi =>
      hnone (i + 1) (Nat.succ_pos i) (Nat.succ_lt_succ (Finset.mem_range.mp hi))
    calc ∑ i ∈ Finset.range n, s.1 ((i + 1 : Nat) : Int)
        ≤ ∑ _i ∈ Finset.range n, (1 : Int) := Finset.sum_le_sum hle
      _ = n := by simp
  have htotal := h.sum_eq
  rw [Finset.sum_range_succ'] at htotal
  simp only [Nat.cast_zero] at htotal
  push_cast at hlong
  push_cast at hsum htotal
  omega

/-- **A turn keeps the durations sound**, as long as the first state leaves room. -/
theorem Adapting.turn {duration : Int → Int} {s : (Int → Int) × Int}
    (h : Adapting size duration s) (hsize : 1 < size) (hroom : s.1 0 + size - 1 ≤ target_length)
    (hgo : target_length ≠ s.2) :
    Adapting size duration (adaptDuration mean vari size rho target_length s) := by
  rw [adaptDuration]
  split
  -- too short: any state but the first may grow
  · rcases flexibleState_spec size (fun _ => true)
      (fun i => |rho - (s.1 i + 1 - mean i) / vari i|) with ⟨-, hnone⟩ | ⟨i, hi, -, hlt, -⟩
    · exact Bool.noConfusion (hnone 1 (Nat.le_refl 1) hsize)
    · have hone := h.one_le i hlt
      have hnext := h.update hlt (v := s.1 i + 1) (by omega)
      simp only [hi]
      rwa [add_sub_cancel_left] at hnext
  -- too long: a state that is longer than 1 shrinks
  · rcases flexibleState_spec size (fun i => decide (s.1 i > 1))
      (fun i => |rho - (s.1 i - 1 - mean i) / vari i|) with ⟨-, hnone⟩ | ⟨i, hi, -, hlt, hallowed⟩
    · obtain ⟨i, hpos, hlt, hlong⟩ := h.exists_long (by omega) (by omega)
      exact absurd hlong (of_decide_eq_false (hnone i hpos hlt))
    · have hlong : s.1 i > 1 := of_decide_eq_true hallowed
      have hnext := h.update hlt (v := s.1 i - 1) (by omega)
      simp only [hi]
      have hless : s.2 + (s.1 i - 1 - s.1 i) = s.2 - 1 := by omega
      rwa [hless] at hnext

/-- Where there is no room, a turn may write outside of the states, but it shortens no state
of a single frame. -/
theorem one_le_adaptDuration {s : (Int → Int) × Int} (h : ∀ i < size, 1 ≤ s.1 i) {i : Nat}
    (hi : i < size) : 1 ≤ (adaptDuration mean vari size rho target_length s).1 i := by
  have hone := h i hi
  -- only the state that was found changes
  have hupdate : ∀ (j : Int) (v : Int), (j = i → 1 ≤ v) → 1 ≤ Function.update s.1 j v i := by
    intro j v hv
    by_cases hij : j = i
    · subst hij
      rw [Function.update_self]
      exact hv rfl
    · rw [Function.update_of_ne (Ne.symm hij)]
      exact hone
  rw [adaptDuration]
  split
  · refine hupdate _ _ fun hj => ?_
    rw [hj]
    omega
  · rcases flexibleState_spec size (fun i => decide (s.1 i > 1))
      (fun i => |rho - (s.1 i - 1 - mean i) / vari i|) with ⟨hj, -⟩ | ⟨j, hj, -, -, hallowed⟩
    · simp only [hj]
      exact hupdate _ _ fun hneg => by omega
    · have hlong : s.1 j > 1 := of_decide_eq_true hallowed
      simp only [hj]
      exact hupdate _ _ fun _ => by omega

/-- A turn that finds no state to shorten takes the frame from the cell before the first. -/
theorem adaptDuration_of_short {s : (Int → Int) × Int} (hgo : ¬ target_length > s.2)
    (hshort : ∀ i : Nat, 1 ≤ i → i < size → s.1 i ≤ 1) :
    adaptDuration mean vari size rho target_length s
      = (Function.update s.1 (-1) (s.1 (-1) - 1), s.2 - 1) := by
  rw [adaptDuration, if_neg hgo]
  rcases flexibleState_spec size (fun i => decide (s.1 i > 1))
    (fun i => |rho - (s.1 i - 1 - mean i) / vari i|) with ⟨hj, -⟩ | ⟨j, -, hpos, hlt, hallowed⟩
  · simp only [hj]
  · exact absurd (of_decide_eq_true hallowed) (not_lt.mpr (hshort j hpos hlt))

/-- So do all the turns after it. -/
theorem before_iterate_of_short (n : Nat) {s : (Int → Int) × Int}
    (hgo : target_length + n ≤ s.2) (hshort : ∀ i : Nat, 1 ≤ i → i < size → s.1 i ≤ 1) :
    ((adaptDuration mean vari size rho target_length)^[n] s).1 (-1) = s.1 (-1) - n := by
  induction n generalizing s with
  | zero => exact (sub_zero _).symm
  | succ n ih =>
    have hturn := @adaptDuration_of_short mean vari size rho target_length s (by omega) hshort
    rw [Function.iterate_succ_apply, hturn, ih]
    · simp only [Function.update_self]
      omega
    · show target_length + (n : Int) ≤ s.2 - 1
      omega
    · intro i hpos hlt
      simp only
      rw [Function.update_of_ne (by omega)]
      exact hshort i hpos hlt

end Loop

/-- A voice gives every state a frame at least. -/
theorem one_le_setDuration (duration : Int → Int) (mean vari : Nat → ℚ) (size : Nat)
    (frame_length : ℚ) {i : Nat} (hi : i < size) :
    1 ≤ (mHTS_set_duration duration mean vari size frame_length).1 i := by
  have hround : ∀ value : Nat → ℚ, ∀ i < size, 1 ≤ (roundDurations value size duration).1 i := by
    intro value i hi
    rw [(roundDurations_spec value size duration).1 i hi]
    exact le_max_left _ _
  rw [mHTS_set_duration]
  split
  · exact hround _ i hi
  · simp only
    split
    · exact (foldl_update_one duration hi).ge
    · -- after each turn of the loop
      have hturns : ∀ (rho : ℚ) (target_length : Int) (n : Nat) (s : (Int → Int) × Int),
          (∀ i < size, 1 ≤ s.1 i) → ∀ i < size,
            1 ≤ ((adaptDuration mean vari size rho target_length)^[n] s).1 i := by
        intro rho target_length n
        induction n with
        | zero => exact fun s hs => hs
        | succ n ih => exact fun s hs => ih _ fun i hi => one_le_adaptDuration hs hi
      exact hturns _ _ _ _ (hround _) i hi

-- ---------------------------------------------------------------------------
-- The durations of a target
-- ---------------------------------------------------------------------------

section Target

variable (duration : Int → Int) (mean vari : Nat → ℚ) (size : Nat) (frame_length : ℚ)

/-- The first estimate of the durations, and their sum. -/
def firstEstimate : (Int → Int) × Int :=
  let rho := rhoOf mean vari size (targetLength frame_length)
  roundDurations (fun i => mean i + rho * vari i) size duration

/-- The turns of `while( target_length != sum )`, for a frame length. -/
def targetTurn : (Int → Int) × Int → (Int → Int) × Int :=
  adaptDuration mean vari size (rhoOf mean vari size (targetLength frame_length))
    (targetLength frame_length)

/-- **The durations have the requested length**: the loop ends, in the durations of
`mHTS_set_duration`; no cell but those of the states has changed; and each state lasts a
frame at least, all of them together the target that is returned. -/
structure SetsTarget : Prop where
  runs : ∃ turns, WhileRuns (fun s => targetLength frame_length ≠ s.2)
    (targetTurn mean vari size frame_length) (firstEstimate duration mean vari size frame_length)
    turns (mHTS_set_duration duration mean vari size frame_length)
  outside : ∀ k : Int, k < 0 ∨ size ≤ k →
    (mHTS_set_duration duration mean vari size frame_length).1 k = duration k
  one_le : ∀ i < size, 1 ≤ (mHTS_set_duration duration mean vari size frame_length).1 i
  sum_eq : ∑ i ∈ Finset.range size, (mHTS_set_duration duration mean vari size frame_length).1 i
    = (mHTS_set_duration duration mean vari size frame_length).2
  returns : (mHTS_set_duration duration mean vari size frame_length).2 = targetLength frame_length

variable {duration mean vari size frame_length}

/-- Nothing is written outside the states. -/
theorem roundDurations_outside (value : Nat → ℚ) (k : Int) (hk : k < 0 ∨ size ≤ k) :
    (roundDurations value size duration).1 k = duration k := by
  rw [roundDurations]
  refine foldl_range_induction (fun _ (s : (Int → Int) × Int) => s.1 k = duration k) rfl ?_
  intro i hi s hs
  exact (Function.update_of_ne (by omega) _ _).trans hs

/-- The first estimate is sound, though its sum is not the target. -/
theorem adapting_firstEstimate :
    Adapting size duration (firstEstimate duration mean vari size frame_length) := by
  have hspec := roundDurations_spec
    (fun i => mean i + rhoOf mean vari size (targetLength frame_length) * vari i) size duration
  refine ⟨roundDurations_outside _, fun i hi => ?_, ?_⟩
  · rw [firstEstimate, hspec.1 i hi]
    exact le_max_left _ _
  · rw [firstEstimate, hspec.2]
    -- the estimate's sum is the loop's
    have hsum : ∀ n, (List.range n).foldl (fun (sum : Int) i => sum + max 1 (truncate
        (mean i + rhoOf mean vari size (targetLength frame_length) * vari i + 1 / 2))) 0
          = ∑ i ∈ Finset.range n, max 1 (truncate
        (mean i + rhoOf mean vari size (targetLength frame_length) * vari i + 1 / 2)) := by
      intro n
      induction n with
      | zero => rfl
      | succ n ih => rw [List.range_succ, List.foldl_append, ih, Finset.sum_range_succ]; rfl
    rw [hsum]
    exact Finset.sum_congr rfl fun i hi => hspec.1 i (Finset.mem_range.mp hi)

variable (htarget : (size : Int) < targetLength frame_length)

include htarget

/-- A target above the number of states is what the loop is entered for. -/
theorem mHTS_set_duration_eq :
    mHTS_set_duration duration mean vari size frame_length
      = (((targetTurn mean vari size frame_length)^[(targetLength frame_length
            - (firstEstimate duration mean vari size frame_length).2).natAbs]
          (firstEstimate duration mean vari size frame_length)).1, targetLength frame_length) := by
  have hlength : frame_length ≠ 0 := by
    rintro rfl
    have hzero : targetLength 0 = 0 := by norm_num [targetLength, truncate]
    omega
  rw [mHTS_set_duration, if_neg hlength]
  exact if_neg (not_le.mpr htarget)

/-- The loop takes as many turns as the first estimate is off. -/
theorem setDuration_runs :
    WhileRuns (fun s => targetLength frame_length ≠ s.2) (targetTurn mean vari size frame_length)
      (firstEstimate duration mean vari size frame_length)
      (targetLength frame_length - (firstEstimate duration mean vari size frame_length).2).natAbs
      (mHTS_set_duration duration mean vari size frame_length) := by
  have hruns := adaptDuration_runs mean vari size
    (rhoOf mean vari size (targetLength frame_length)) (targetLength frame_length)
    (firstEstimate duration mean vari size frame_length)
  have hsum := not_ne_iff.mp hruns.not_cond
  have hresult : mHTS_set_duration duration mean vari size frame_length
      = (targetTurn mean vari size frame_length)^[(targetLength frame_length
            - (firstEstimate duration mean vari size frame_length).2).natAbs]
          (firstEstimate duration mean vari size frame_length) := by
    rw [mHTS_set_duration_eq htarget]
    exact Prod.ext rfl hsum
  rw [hresult]
  exact hruns

/-- The first state keeps its estimate. -/
theorem first_setDuration :
    (mHTS_set_duration duration mean vari size frame_length).1 0
      = (firstEstimate duration mean vari size frame_length).1 0 :=
  (setDuration_runs htarget).keeps (fun s => s.1 0) fun _ => first_adaptDuration ..

/-- The estimate of the first state leaves a frame for each of the others. -/
theorem first_room_iff (hsize : 1 < size) :
    (firstEstimate duration mean vari size frame_length).1 0 + size - 1
        ≤ targetLength frame_length ↔
      mean 0 + rhoOf mean vari size (targetLength frame_length) * vari 0
        < targetLength frame_length - size + 3 / 2 := by
  have hfirst : (firstEstimate duration mean vari size frame_length).1 0
      = max 1 (truncate
          (mean 0 + rhoOf mean vari size (targetLength frame_length) * vari 0 + 1 / 2)) :=
    (roundDurations_spec _ size duration).1 0 (by omega)
  rw [hfirst]
  -- the target is above the number of states, so the maximum with 1 is no matter
  have hmax : ∀ d t : Int, (size : Int) < t →
      (max 1 d + size - 1 ≤ t ↔ d < t - size + 2) := by
    intro d t ht
    omega
  rw [hmax _ _ htarget, truncate_lt_iff (by omega)]
  push_cast
  constructor
  · intro h
    linarith
  · intro h
    linarith

end Target

/-- A first state of ten frames and four of one. -/
def longFirst (i : Nat) : ℚ := if i = 0 then 10 else 1

end Vox.Mage
