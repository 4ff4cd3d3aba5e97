import Vox.Mage.DurationTarget
import Vox.Mage.DurationUpdate
import Vox.Mage.SilentVoice
import Vox.Mage.SlotHistory

/-!
# MAGE — interpolated state durations

With interpolation a state lasts as long as the voices say on average — almost:
`computeDuration` rounds the share of every voice before it adds it up, where
`HTS_ModelSet_get_duration` adds up the shares of its models first. Three voices that agree
on one frame give the state none, and two of them give it two.

* `state_timed` — without an update by the user, a state's duration is the sum of the rounded
  shares; no more than half a frame for each voice off the average (`abs_sharedDuration_sub_le`).
* `between_when` — it is between the durations of the voices where few shares have a fractional
  part, for how far the voices are apart. Where at most two shares have one, nowhere else.
* `Interpolating.between_iff_dvd` — voices of equal weight that agree are followed where their
  number divides the durations.
-/

set_option linter.dupNamespace false

namespace Vox.Mage

open Lib

namespace Model

variable {label : Label} {stale : Int → Int}

/-- The duration that a voice gives state `i`, where the slot held `stale`: a rejected label
leaves the durations as they are. -/
def givenDuration (label : Label) (stale : Int → Int) (e : Engine × Option (Nat → ℚ)) (i : Nat) :
    Int :=
  if label.Rejected then stale i else e.1.stateDuration label i

-- ---------------------------------------------------------------------------
-- The scratch durations of a slot
-- ---------------------------------------------------------------------------

/-- The durations that a slot holds are those of an earlier label, or 0. -/
def DurationsHeld (model : Model) : Prop :=
  ∀ i : Nat, i < nOfStates → 0 ≤ model.modelMemory.duration_array i

/-- Each state of a label that is not rejected has a frame. -/
theorem one_le_setDurations (engine : Engine) (h : ¬ label.Rejected) (model : Model) {i : Nat}
    (hi : i < nOfStates) : 1 ≤ (model.setDurations engine label).modelMemory.duration_array i := by
  rw [setDurations]
  simp only
  split
  · next hforced =>
    split
    · exact one_le_setDuration _ _ _ _ _ hi
    · next hend => exact absurd ⟨hforced, by omega⟩ h
  · split
    · exact one_le_setDuration _ _ _ _ _ hi
    · exact one_le_setDuration _ _ _ _ _ hi

/-- What a voice gives is not negative. -/
theorem givenDuration_nonneg {model : Model} (h : model.DurationsHeld)
    (e : Engine × Option (Nat → ℚ)) {i : Nat} (hi : i < nOfStates) :
    0 ≤ givenDuration label model.modelMemory.duration_array e i := by
  rw [givenDuration]
  split
  · exact h i hi
  · next hrejected =>
    have hone := @one_le_setDurations label e.1 hrejected default i hi
    rw [Engine.stateDuration]
    omega

/-- A voice leaves durations that are not negative. -/
theorem DurationsHeld.setDurations {model : Model} (h : model.DurationsHeld) (engine : Engine)
    (label : Label) : (model.setDurations engine label).DurationsHeld := by
  intro i hi
  by_cases hrejected : label.Rejected
  · rw [duration_array_rejected hrejected]
    exact h i hi
  · have hone := @one_le_setDurations label engine hrejected model i hi
    omega

theorem DurationsHeld.modelOf {slot : Model} (h : slot.DurationsHeld) (m : Mage) (label : Label) :
    (m.modelOf label slot).DurationsHeld := by
  have htimed : (m.usedEngines.foldl (fun model e => model.computeDuration e.1 label e.2)
      slot.initDuration).DurationsHeld :=
    foldl_invariant (I := DurationsHeld) (fun r e hr => hr.setDurations e.1 label) m.usedEngines
      slot.initDuration h
  -- the parameters leave the durations alone
  refine foldl_invariant (I := DurationsHeld) (fun r e hr i hi => ?_) m.usedEngines _ htimed
  rw [(computeGlobalVariances_keeps _ _ _).2, (computeParameters_keeps _ _ _ _).2]
  exact hr i hi

end Model

/-- Labels never leave a negative duration in a slot. -/
theorem SlotHolds.durationsHeld {used : Bool} {slot : Model} (h : SlotHolds used slot) :
    slot.DurationsHeld := by
  induction h with
  | constructed hconstructed =>
    intro i hi
    rw [hconstructed.duration_array i hi]
  | labelled hslot hregistered hne hlabel ih =>
    obtain ⟨voice, hvoice⟩ := hregistered.exists_default hne
    rw [Mage.labelModel_writeModel hregistered hvoice] at hlabel
    obtain rfl := Option.some.inj hlabel
    refine Model.DurationsHeld.modelOf (fun i hi => ?_) _ _
    rw [(Model.checkInterpolationWeights_keeps _ _).1]
    exact ih i hi

namespace Mage

variable {m : Mage} {label : Label} {slot : Model} {used : Bool}

-- ---------------------------------------------------------------------------
-- The sum of the shares
-- ---------------------------------------------------------------------------

/-- The rounded shares of the voices in state `i`. -/
def sharedDuration (m : Mage) (label : Label) (stale : Int → Int) (i : Nat) : Int :=
  (m.usedEngines.map fun e => Model.addedDuration label stale e i).sum

/-- The durations of all voices are their shares, summed with wraps. -/
theorem voiceDurations_eq (m : Mage) (label : Label) (stale : Int → Int) (i : Nat) :
    m.voiceDurations label stale i = toInt (m.sharedDuration label stale i) :=
  foldl_toInt _ _

/-- No voice takes part with a negative weight. -/
def WeightsNonneg (m : Mage) : Prop := ∀ e ∈ m.usedEngines, 0 ≤ weightOf e.2 durStreamIndex

/-- The weights of the voices sum up to 1. -/
def WeightsSumToOne (m : Mage) : Prop :=
  (m.usedEngines.map fun e => weightOf e.2 durStreamIndex).sum = 1

instance (m : Mage) : Decidable m.WeightsNonneg :=
  inferInstanceAs (Decidable (∀ e ∈ m.usedEngines, 0 ≤ weightOf e.2 durStreamIndex))

instance (m : Mage) : Decidable m.WeightsSumToOne :=
  inferInstanceAs (Decidable ((m.usedEngines.map fun e => weightOf e.2 durStreamIndex).sum = 1))

theorem sharedDuration_nonneg (hweights : m.WeightsNonneg) (hheld : slot.DurationsHeld) {i : Nat}
    (hi : i < nOfStates) : 0 ≤ m.sharedDuration label slot.modelMemory.duration_array i := by
  refine List.sum_nonneg fun d hd => ?_
  obtain ⟨e, he, rfl⟩ := List.mem_map.mp hd
  have hshare : 0 ≤ weightOf e.2 durStreamIndex
      * (Model.givenDuration label slot.modelMemory.duration_array e i : ℚ) :=
    mul_nonneg (hweights e he) (by exact_mod_cast Model.givenDuration_nonneg hheld e hi)
  rw [Model.addedDuration, Round]
  exact Int.floor_nonneg.mpr (add_nonneg hshare (by norm_num))

/-- The durations of all states, before anything is cut down. -/
def sharedTotal (m : Mage) (label : Label) (stale : Int → Int) : Int :=
  ((List.range nOfStates).map (m.sharedDuration label stale)).sum

theorem sharedDuration_le_total (hweights : m.WeightsNonneg) (hheld : slot.DurationsHeld) {i : Nat}
    (hi : i < nOfStates) :
    m.sharedDuration label slot.modelMemory.duration_array i
      ≤ m.sharedTotal label slot.modelMemory.duration_array := by
  refine List.single_le_sum (fun d hd => ?_) _
    (List.mem_map.mpr ⟨i, List.mem_range.mpr hi, rfl⟩)
  obtain ⟨j, hj, rfl⟩ := List.mem_map.mp hd
  exact sharedDuration_nonneg hweights hheld (List.mem_range.mp hj)

/-- **The durations without an update**: short enough not to be cut down, they are the sums of
the rounded shares. -/
theorem state_timed (haction : m.action = noaction) (hweights : m.WeightsNonneg)
    (hheld : slot.DurationsHeld)
    (hfits : m.sharedTotal label slot.modelMemory.duration_array
      ≤ maxDuration nOfBackup nOfLookup) {i : Nat} (hi : i < nOfStates) :
    ((m.timed label slot).state i).duration
      = m.sharedDuration label slot.modelMemory.duration_array i := by
  have hmax : (maxDuration nOfBackup nOfLookup : Int) = 170 := rfl
  set model := m.usedEngines.foldl (fun model e => model.computeDuration e.1 label e.2)
    slot.initDuration with hmodel
  -- no sum overflows
  have hstate : ∀ j < nOfStates, (model.state j).duration
      = m.sharedDuration label slot.modelMemory.duration_array j := by
    intro j hj
    have hnonneg := @sharedDuration_nonneg m label slot hweights hheld j hj
    have hle := @sharedDuration_le_total m label slot hweights hheld j hj
    rw [hmodel, state_foldl_durations m label slot hj]
    show m.voiceDurations label slot.modelMemory.duration_array j = _
    rw [voiceDurations_eq, toInt_of_mem (by omega) (by omega)]
  -- without an action an update asks for the durations as they are
  have hacted : ∀ j, Model.actedDuration (m.updateFunction j) m.action (model.state j).duration
      = (model.state j).duration := by
    intro j
    rw [haction]
    rfl
  have hrep : model.Representable m.updateFunction m.action := by
    intro j hj
    have hnonneg := @sharedDuration_nonneg m label slot hweights hheld j hj
    have hle := @sharedDuration_le_total m label slot hweights hheld j hj
    rw [hacted, hstate j hj]
    omega
  have hrequested : ∀ j < nOfStates, model.requested m.updateFunction m.action j
      = m.sharedDuration label slot.modelMemory.duration_array j := by
    intro j hj
    have hnonneg := @sharedDuration_nonneg m label slot hweights hheld j hj
    rw [Model.requested, Model.requestedDuration, hacted, hstate j hj, if_neg (by omega)]
  have htotal : model.requestedTotal m.updateFunction m.action
      = m.sharedTotal label slot.modelMemory.duration_array :=
    congrArg List.sum (List.map_congr_left fun j hj => hrequested j (List.mem_range.mp hj))
  -- and their total is short enough to be kept
  have hnowrap : ¬ toInt (model.requestedTotal m.updateFunction m.action)
      > maxDuration nOfBackup nOfLookup := by
    have hnonneg := @Model.requestedTotal_nonneg model m.updateFunction m.action
    rw [htotal] at hnonneg ⊢
    rw [toInt_of_mem (by omega) (by omega)]
    omega
  have hspec := (@Model.updateDuration_spec model m.updateFunction m.action nOfBackup nOfLookup
    hrep).1 i hi
  rw [if_neg hnowrap, hrequested i hi] at hspec
  exact hspec

/-- `Mage::computeDuration` leaves these durations in the slot. -/
theorem computeDuration_eq (h : m.Registered) (hne : m.engine.keys ≠ []) (label : Label)
    (slot : Model) :
    ∃ m', (m.writeModel slot).computeDuration label = some m' ∧
      m'.nextModel = m.timed label slot := by
  have hregistered := registered_writeModel h slot
  refine ⟨{ (m.writeModel slot).writeModel (m.timed label slot) with action := noaction }, ?_,
    nextModel_writeModel hregistered.write_lt (m.timed label slot)⟩
  rw [computeDuration, forEngines_eq hregistered hne, nextModel_writeModel h.write_lt]
  rfl

-- ---------------------------------------------------------------------------
-- Between the voices
-- ---------------------------------------------------------------------------

/-- **The property**: each state lasts no shorter and no longer than some voice gives it. -/
def Between (m : Mage) (label : Label) (slot : Model) : Prop :=
  ∃ m', (m.writeModel slot).computeDuration label = some m' ∧ ∀ i < nOfStates,
    (∃ e ∈ m.usedEngines, Model.givenDuration label slot.modelMemory.duration_array e i
      ≤ (m'.nextModel.state i).duration) ∧
    ∃ e ∈ m.usedEngines, (m'.nextModel.state i).duration
      ≤ Model.givenDuration label slot.modelMemory.duration_array e i

/-- The weighted average of the durations of state `i`. -/
def averageDuration (m : Mage) (label : Label) (stale : Int → Int) (i : Nat) : ℚ :=
  (m.usedEngines.map fun e => weightOf e.2 durStreamIndex
    * (Model.givenDuration label stale e i : ℚ)).sum

/-- How many weighted durations of state `i` have a fractional part, below one half. -/
def sharesBelowHalf (m : Mage) (label : Label) (stale : Int → Int) (i : Nat) : Nat :=
  belowHalf m.usedEngines fun e => weightOf e.2 durStreamIndex
    * (Model.givenDuration label stale e i : ℚ)

/-- How many have a fractional part of one half or more. -/
def sharesFromHalf (m : Mage) (label : Label) (stale : Int → Int) (i : Nat) : Nat :=
  fromHalf m.usedEngines fun e => weightOf e.2 durStreamIndex
    * (Model.givenDuration label stale e i : ℚ)

/-- In state `i` few weighted durations have a fractional part: below one half, at most two, and
two more for each frame that some voice is shorter than the average; of one half or more, less
than two, and two more for each frame that some voice is longer. -/
def FewParts (m : Mage) (label : Label) (stale : Int → Int) (i : Nat) : Prop :=
  (∃ e ∈ m.usedEngines, (m.sharesBelowHalf label stale i / 2 : ℚ)
    ≤ m.averageDuration label stale i - Model.givenDuration label stale e i + 1) ∧
  ∃ e ∈ m.usedEngines, (m.sharesFromHalf label stale i / 2 : ℚ)
    < Model.givenDuration label stale e i - m.averageDuration label stale i + 1

/-- What interpolation takes: voices with weights that are not negative and sum up to 1, no
update by the user, a slot as labels leave it, and durations that are not cut down. -/
structure Interpolating (m : Mage) (label : Label) (slot : Model) : Prop where
  registered : m.Registered
  nonempty : m.engine.keys ≠ []
  enabled : m.interpolationFlag = true
  noUpdate : m.action = noaction
  nonneg : m.WeightsNonneg
  sumToOne : m.WeightsSumToOne
  slotHolds : ∃ used, SlotHolds used slot
  fits : m.sharedTotal label slot.modelMemory.duration_array ≤ maxDuration nOfBackup nOfLookup

/-- The durations that `Mage::computeDuration` leaves. -/
theorem Interpolating.computeDuration_eq (h : m.Interpolating label slot) :
    ∃ m', (m.writeModel slot).computeDuration label = some m' ∧ ∀ i < nOfStates,
      (m'.nextModel.state i).duration
        = m.sharedDuration label slot.modelMemory.duration_array i := by
  obtain ⟨m', hm', hmodel⟩ := Mage.computeDuration_eq h.registered h.nonempty label slot
  obtain ⟨used, hslot⟩ := h.slotHolds
  refine ⟨m', hm', fun i hi => ?_⟩
  rw [hmodel]
  exact state_timed h.noUpdate h.nonneg hslot.durationsHeld h.fits hi

/-- When no sum wraps, the states have the sums of the shares. -/
theorem Interpolating.between_iff_shared (h : m.Interpolating label slot) :
    m.Between label slot ↔ ∀ i < nOfStates,
      (∃ e ∈ m.usedEngines, Model.givenDuration label slot.modelMemory.duration_array e i
        ≤ m.sharedDuration label slot.modelMemory.duration_array i) ∧
      ∃ e ∈ m.usedEngines, m.sharedDuration label slot.modelMemory.duration_array i
        ≤ Model.givenDuration label slot.modelMemory.duration_array e i := by
  obtain ⟨m', hm', hstate⟩ := h.computeDuration_eq
  constructor
  · rintro ⟨m'', hm'', hall⟩ i hi
    obtain rfl := Option.some.inj (hm'.symm.trans hm'')
    rw [← hstate i hi]
    exact hall i hi
  · intro hall
    refine ⟨m', hm', fun i hi => ?_⟩
    rw [hstate i hi]
    exact hall i hi

/-- Voices of equal weight that agree are followed exactly where their number divides the
durations. -/
theorem Interpolating.between_iff_dvd (h : m.Interpolating label slot) {d : Nat → Int}
    (hequal : ∀ e ∈ m.usedEngines, weightOf e.2 durStreamIndex = 1 / m.usedEngines.length)
    (hagree : ∀ i < nOfStates, ∀ e ∈ m.usedEngines,
      Model.givenDuration label slot.modelMemory.duration_array e i = d i) :
    m.Between label slot ↔ ∀ i < nOfStates, (m.usedEngines.length : Int) ∣ d i := by
  rw [h.between_iff_shared]
  obtain ⟨e, he⟩ : ∃ e, e ∈ m.usedEngines := by
    obtain ⟨e, he, -⟩ := exists_weight_pos h.sumToOne
    exact ⟨e, he⟩
  have hlength : (0 : ℚ) < m.usedEngines.length := by
    exact_mod_cast List.length_pos_of_mem he
  refine forall₂_congr fun i hi => ?_
  -- all shares are the same, and so are the rounded ones
  have hshared : m.sharedDuration label slot.modelMemory.duration_array i
      = m.usedEngines.length * ⌊(d i / m.usedEngines.length : ℚ) + 1 / 2⌋ := by
    have hshare : ∀ e ∈ m.usedEngines,
        Model.addedDuration label slot.modelMemory.duration_array e i
          = ⌊(d i / m.usedEngines.length : ℚ) + 1 / 2⌋ := by
      intro e he
      have hgiven := hagree i hi e he
      rw [Model.givenDuration] at hgiven
      rw [Model.addedDuration, Round, hequal e he, hgiven, one_div_mul_eq_div]
    rw [sharedDuration, List.map_congr_left hshare, List.map_const', List.sum_replicate,
      nsmul_eq_mul]
  constructor
  · rintro ⟨⟨lo, hlo, hle⟩, hi', hhi, hge⟩
    rw [hagree i hi lo hlo] at hle
    rw [hagree i hi hi' hhi] at hge
    exact ⟨_, (le_antisymm hle hge).trans hshared⟩
  · rintro ⟨k, hk⟩
    have hsame : m.sharedDuration label slot.modelMemory.duration_array i = d i := by
      have hdiv : (d i / m.usedEngines.length : ℚ) = k := by
        rw [hk]
        push_cast
        field_simp
      have hfloor : ⌊(k : ℚ) + 1 / 2⌋ = k := by
        rw [Int.floor_eq_iff]
        constructor
        · linarith
        · linarith
      rw [hshared, hdiv, hfloor, hk]
    exact ⟨⟨e, he, (hagree i hi e he).trans_le hsame.ge⟩,
      e, he, hsame.le.trans_eq (hagree i hi e he).symm⟩

/-- **When an interpolated duration is between those of the voices**: where few weighted
durations have a fractional part in every state. If at most two have one, only there; and if
voices of equal weight agree, where their number divides the durations. -/
theorem between_when (h : m.Interpolating label slot) :
    ((∀ i < nOfStates, m.FewParts label slot.modelMemory.duration_array i) →
      m.Between label slot) ∧
    ((∀ i < nOfStates, m.sharesBelowHalf label slot.modelMemory.duration_array i
        + m.sharesFromHalf label slot.modelMemory.duration_array i ≤ 2) →
      m.Between label slot →
      ∀ i < nOfStates, m.FewParts label slot.modelMemory.duration_array i) ∧
    ∀ d : Nat → Int,
      (∀ e ∈ m.usedEngines, weightOf e.2 durStreamIndex = 1 / m.usedEngines.length) →
      (∀ i < nOfStates, ∀ e ∈ m.usedEngines,
        Model.givenDuration label slot.modelMemory.duration_array e i = d i) →
      (m.Between label slot ↔ ∀ i < nOfStates, (m.usedEngines.length : Int) ∣ d i) := by
  refine ⟨fun hfew => ?_, fun htwo hbetween i hi => ?_, fun d => h.between_iff_dvd⟩
  · rw [h.between_iff_shared]
    intro i hi
    obtain ⟨⟨lo, hlo, hbelow⟩, hi', hhi, hfrom⟩ := hfew i hi
    exact ⟨exists_le_sum_round _ h.nonneg h.sumToOne hlo hbelow, exists_sum_round_le _ hhi hfrom⟩
  · have hall := h.between_iff_shared.mp hbetween
    exact few_of_sum_round _ h.nonneg h.sumToOne (htwo i hi) (hall i hi).2

/-- In any case a state is no more than half a frame for each voice off the average. -/
theorem abs_sharedDuration_sub_le (label : Label) (stale : Int → Int) (i : Nat) :
    |(m.sharedDuration label stale i : ℚ)
        - (m.usedEngines.map fun e => weightOf e.2 durStreamIndex
            * (Model.givenDuration label stale e i : ℚ)).sum| ≤ m.usedEngines.length / 2 := by
  have hsum : (m.sharedDuration label stale i : ℚ) = _ :=
    sum_round m.usedEngines (fun e => weightOf e.2 durStreamIndex)
      fun e => Model.givenDuration label stale e i
  rw [hsum, add_sub_cancel_left]
  exact abs_sum_roundingError_le _ _

/-- Voices of equal weight. -/
def equalVoices (voices : List (List Char × Engine)) : Mage :=
  voices.foldl (fun m voice => m.withVoice voice.1 (fun _ => 1 / voices.length, voice.2))
    soloInterpolated

theorem registered_equalVoices (voices : List (List Char × Engine)) :
    (equalVoices voices).Registered ∧ (equalVoices voices).engine.keys ≠ [] := by
  refine foldl_invariant (I := fun m : Mage => m.Registered ∧ m.engine.keys ≠ [])
    (fun m voice hm => registered_withVoice hm.1 hm.2 voice.1 _) voices soloInterpolated
    ⟨registered_soloInterpolated, by decide⟩

/-- Such voices, in a fresh slot. -/
theorem interpolating_equalVoices (voices : List (List Char × Engine))
    (hone : (equalVoices voices).interpolationFlag = true ∧ (equalVoices voices).action = noaction)
    (hweights : (equalVoices voices).WeightsNonneg ∧ (equalVoices voices).WeightsSumToOne)
    (hfits : (equalVoices voices).sharedTotal default (default : Model).modelMemory.duration_array
      ≤ maxDuration nOfBackup nOfLookup) : (equalVoices voices).Interpolating default default where
  registered := (registered_equalVoices voices).1
  nonempty := (registered_equalVoices voices).2
  enabled := hone.1
  noUpdate := hone.2
  nonneg := hweights.1
  sumToOne := hweights.2
  slotHolds := ⟨false, .constructed ⟨rfl, rfl, fun _ _ => rfl⟩⟩
  fits := hfits

/-- One voice gives each state one frame, the other one three. -/
def apartVoices : List (List Char × Engine) :=
  [(['a'], plainEngine), (['b'], ratedEngine 1 (fun _ => 1) 3 fun _ => 1)]

/-- The weighted durations are 1/2 and 3/2, and the states get three frames. -/
theorem between_apart : (equalVoices apartVoices).Between default default := by
  refine (between_when (interpolating_equalVoices apartVoices (by decide) (by decide +kernel)
    (by decide +kernel))).1 fun i hi => ?_
  unfold FewParts
  revert i
  decide +kernel

/-- One frame of three voices is none, and one frame of two voices is two. -/
theorem not_between_equal :
    ((equalVoices [(['a'], plainEngine), (['b'], plainEngine), (['c'], plainEngine)]).Interpolating
          default default ∧
        ¬ (equalVoices [(['a'], plainEngine), (['b'], plainEngine), (['c'], plainEngine)]).Between
          default default) ∧
      (equalVoices [(['a'], plainEngine), (['b'], plainEngine)]).Interpolating default default ∧
        ¬ (equalVoices [(['a'], plainEngine), (['b'], plainEngine)]).Between default default := by
  have hthirds := interpolating_equalVoices
    [(['a'], plainEngine), (['b'], plainEngine), (['c'], plainEngine)] (by decide)
    (by decide +kernel) (by decide +kernel)
  have hhalves := interpolating_equalVoices [(['a'], plainEngine), (['b'], plainEngine)]
    (by decide) (by decide +kernel) (by decide +kernel)
  refine ⟨⟨hthirds, ?_⟩, hhalves, ?_⟩
  · rw [hthirds.between_iff_shared]
    decide +kernel
  · rw [hhalves.between_iff_shared]
    decide +kernel

end Mage

end Vox.Mage
