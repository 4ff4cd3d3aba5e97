import Vox.Lib.Sawtooth
import Vox.Mage.Constants
import Mathlib.Data.Rat.Floor
import Mathlib.Tactic.NormNum

/-!
# MAGE — the vocoder's state and its pitch control

The state of `Vocoder` and the two functions that set its pitch: `setPitch`,
which applies a control to the pitch the vocoder has, and `prepare`, which
applies the registered control to the pitch of a new frame. The scalars are an
ordered field; the library functions of the filter preparation are the fields
of `Libm`.

`SCMage_genThread` calls `setPitch` with the same control on every turn of its
loop, any number of times between two frames. Under `shift` the calls walk by
the control value, with a reset to the default pitch below zero
(`Lib.sawtooth`); under `scale` they multiply.

Main results:

* `prepare_f0` — a frame's pitch under each registered control.
* `spinPitch_eq_iff` — when `k` repeated calls leave the frame's pitch as it
  was, exactly.
-/

namespace Vox.Mage

open Lib

/-- The functions of the C mathematical library that the vocoder calls. -/
structure Libm (K : Type*) where
  exp : K → K
  log : K → K
  pow : K → K → K
  sqrt : K → K

/-- The identity in place of each function. -/
def Libm.trivial : Libm ℚ := ⟨id, id, fun x _ => x, id⟩

-- ---------------------------------------------------------------------------
-- Frames and the vocoder
-- ---------------------------------------------------------------------------

structure Frame (K : Type*) where
  streams : Nat → Nat → K
  voiced : Bool

/-- The members of `Vocoder`. The filter memory is one array in the source, of
which `c`, `cc`, `inc` and `d` are consecutive parts. -/
structure Vocoder (K : Type*) where
  alpha : K
  gamma : K
  action : Int
  voiced : Bool
  f0 : K
  t0 : K
  volume : K
  c : List K
  cc : List K
  inc : List K
  d : List K
  m : Nat
  fprd : Int
  iprd : Int
  stage : Int
  pd : Int
  ngain : Bool
  flagFirstPush : Bool
  count : Int
  actionValue : K
  nOfPopSinceLastPush : Int

variable {K : Type*} [Field K] [LinearOrder K]

/-- `mc2b`: from the last coefficient down, each less `a` times the next result. -/
def mc2b (mc : List K) (a : K) : List K :=
  mc.foldr (fun x bs => (x - a * bs.headD 0) :: bs) []

/-- `gnorm`, in place. -/
def gnorm (libm : Libm K) (c1 : List K) (g : K) : List K :=
  match c1 with
  | [] => []
  | c0 :: cs =>
    if g ≠ 0 then
      let k := 1 + g * c0
      libm.pow k (1 / g) :: cs.map (· / k)
    else libm.exp c0 :: cs

namespace Vocoder

/-- The coefficients of a frame's spectrum, as the filter takes them. -/
def coefficients (libm : Libm K) (v : Vocoder K) (frame : Frame K) : List K :=
  let b := mc2b ((List.range (v.m + 1)).map (frame.streams mgcStreamIndex)) v.alpha
  -- MGLSA
  if v.stage ≠ 0 then
    match gnorm libm b v.gamma with
    | [] => []
    | c0 :: cs => libm.log c0 :: cs.map (· * v.gamma)
  else b

/-- `Vocoder::setPitch`. -/
def setPitch (v : Vocoder K) (pitch : K) (action : Int) (forceVoiced : Bool) : Vocoder K :=
  let f0 :=
    if action = overwrite then pitch
    else if action = shift then v.f0 + pitch
    else if action = scale then v.f0 * pitch
    else if action = synthetic ∨ action = noaction then v.f0
    else pitch
  -- set a default value for the pitch in case a negative value is entered
  let f0 := if f0 < 0 then (defaultPitch : K) else f0
  { v with
    action := action
    actionValue := pitch
    f0 := f0
    t0 := defaultSamplingRate / f0
    voiced := if forceVoiced then true else v.voiced }

/-- `Vocoder::prepare`. -/
def prepare (libm : Libm K) (v : Vocoder K) (frame : Frame K) (voiced ignoreVoicing : Bool) :
    Vocoder K :=
  let b := coefficients libm v frame
  let c := if v.flagFirstPush then b else v.cc
  let cc := b
  let inc := List.zipWith (fun y x : K => (y - x) * (v.iprd : K) / (v.fprd : K)) cc c
  let f0 :=
    if v.action = overwrite then v.actionValue
    else if v.action = shift then frame.streams lf0StreamIndex 0 + v.actionValue
    else if v.action = scale then frame.streams lf0StreamIndex 0 * v.actionValue
    else frame.streams lf0StreamIndex 0
  let f0 := if f0 < 0 then (defaultPitch : K) else f0
  { v with
    c := c
    cc := cc
    inc := inc
    flagFirstPush := false
    f0 := f0
    t0 := defaultSamplingRate / f0
    voiced := if ignoreVoicing then v.voiced else voiced
    nOfPopSinceLastPush := 0 }

/-- The default pitch in place of a negative one. -/
def audiblePitch (f : K) : K := if f < 0 then (defaultPitch : K) else f

theorem audiblePitch_of_nonneg {f : K} (h : 0 ≤ f) : audiblePitch f = f :=
  if_neg (not_lt.mpr h)

/-- What a control makes of a pitch. -/
def controlled (action : Int) (value f : K) : K :=
  audiblePitch
    (if action = overwrite then value
     else if action = shift then f + value
     else if action = scale then f * value
     else f)

theorem controlled_scale (value f : K) :
    controlled scale value f = audiblePitch (f * value) := rfl

/-- The controls that the help file and `Constants.h` name. -/
def NamedAction (action : Int) : Prop :=
  action = noaction ∨ action = overwrite ∨ action = shift ∨ action = scale ∨
    action = synthetic

instance (action : Int) : Decidable (NamedAction action) := by
  unfold NamedAction
  infer_instance

theorem prepare_f0 (libm : Libm K) (v : Vocoder K) (frame : Frame K) (voiced ignore : Bool) :
    (v.prepare libm frame voiced ignore).f0 =
      controlled v.action v.actionValue (frame.streams lf0StreamIndex 0) := rfl

/-- On the named actions, the two functions apply the same control; on any
other, `prepare` leaves the frame's pitch and `setPitch` replaces it. -/
theorem setPitch_f0 (v : Vocoder K) (pitch : K) {action : Int} (force : Bool)
    (h : NamedAction action) : (v.setPitch pitch action force).f0 =
      controlled action pitch v.f0 := by
  rcases h with rfl | rfl | rfl | rfl | rfl <;> rfl

-- ---------------------------------------------------------------------------
-- Repeated calls between two frames
-- ---------------------------------------------------------------------------

/-- The calls `setPitch( value, action )` of `k` turns of the generator loop. -/
def spin (v : Vocoder K) (value : K) (action : Int) (k : Nat) : Vocoder K :=
  (fun v => v.setPitch value action false)^[k] v

theorem spin_f0 (v : Vocoder K) (value : K) {action : Int} (h : NamedAction action) (k : Nat) :
    (v.spin value action k).f0 = (controlled action value)^[k] v.f0 := by
  induction k generalizing v with
  | zero => rfl
  | succ k ih =>
    rw [spin, Function.iterate_succ_apply, Function.iterate_succ_apply]
    rw [← setPitch_f0 v value false h]
    exact ih (v.setPitch value action false)

/-- The turns of the loop change nothing for a frame of pitch `f`: there are
none, the action does not use the pitch it finds, or the control happens to
lead back to the pitch it has set. -/
def SpinStable [FloorRing K] (action : Int) (f value : K) (k : Nat) : Prop :=
  k = 0 ∨ action = noaction ∨ action = overwrite ∨ action = synthetic ∨
    (action = shift ∧
      (value = 0 ∨
        (value < 0 ∧
          (f + value < 0 ∨ ∃ j : Nat, f + value = (defaultPitch : K) + j * value) ∧
          teeth (defaultPitch : K) value ∣ k))) ∨
    (action = scale ∧
      (f = 0 ∨ value = 0 ∨ value = 1 ∨
        (value < 0 ∧ (0 < f ∨ f * value = (defaultPitch : K)))))

section Ordered

variable [IsStrictOrderedRing K]

theorem defaultPitch_pos : (0 : K) < (defaultPitch : K) := by
  norm_num [defaultPitch]

theorem audiblePitch_nonneg (f : K) : 0 ≤ audiblePitch f := by
  unfold audiblePitch
  split
  · exact defaultPitch_pos.le
  · linarith

/-- A control that ignores the pitch it finds sets the same pitch again. -/
theorem controlled_iterate_fixed {action : Int} (value f : K) (k : Nat)
    (h : action = noaction ∨ action = overwrite ∨ action = synthetic) :
    (controlled action value)^[k] (controlled action value f) = controlled action value f := by
  apply Function.iterate_fixed
  rcases h with rfl | rfl | rfl
  · exact audiblePitch_of_nonneg (audiblePitch_nonneg _)
  · rfl
  · exact audiblePitch_of_nonneg (audiblePitch_nonneg _)

/-- A negative factor: the second call gives the default pitch, which stays. -/
theorem controlled_scale_iterate_of_neg {value : K} (hv : value < 0) (f : K) {k : Nat}
    (hk : 0 < k) :
    (controlled scale value)^[k] (controlled scale value f) = controlled scale value f ↔
      f = 0 ∨ 0 < f ∨ f * value = (defaultPitch : K) := by
  set x := controlled scale value f with hx
  have hx0 : 0 ≤ x := audiblePitch_nonneg _
  have hdef : controlled scale value (defaultPitch : K) = (defaultPitch : K) := by
    rw [controlled_scale, audiblePitch, if_pos (mul_neg_of_pos_of_neg defaultPitch_pos hv)]
  have hzero : controlled scale value (0 : K) = 0 := by
    rw [controlled_scale, zero_mul, audiblePitch_of_nonneg le_rfl]
  rcases hx0.eq_or_lt with h0 | hpos
  · -- the first call gives zero, which it does for a frame of pitch zero only
    have hf : f = 0 := by
      rw [hx, controlled_scale, audiblePitch] at h0
      split at h0
      · exact absurd h0 defaultPitch_pos.ne
      · exact (mul_eq_zero.mp h0.symm).resolve_right hv.ne
    rw [← h0, Function.iterate_fixed hzero k]
    simp [hf]
  · have hnext : controlled scale value x = (defaultPitch : K) := by
      rw [controlled_scale, audiblePitch, if_pos (mul_neg_of_pos_of_neg hpos hv)]
    obtain ⟨n, rfl⟩ : ∃ n, k = n + 1 := ⟨k - 1, by omega⟩
    rw [Function.iterate_succ_apply, hnext, Function.iterate_fixed hdef n]
    have hf : f ≠ 0 := by
      rintro rfl
      rw [hx, hzero] at hpos
      exact lt_irrefl _ hpos
    -- so the question is whether the first call gave the default pitch already
    rw [hx, controlled_scale, audiblePitch]
    by_cases hneg : f * value < 0
    · have hfpos : 0 < f := by
        by_contra hle
        exact absurd (mul_nonneg_of_nonpos_of_nonpos (not_lt.mp hle) hv.le) (not_le.mpr hneg)
      rw [if_pos hneg]
      simp [hfpos]
    · have hfneg : ¬ 0 < f := fun hpos => hneg (mul_neg_of_pos_of_neg hpos hv)
      rw [if_neg hneg]
      simp [hf, hfneg, eq_comm]

/-- A positive factor: `k` calls multiply by a power of it. -/
theorem controlled_scale_iterate_of_pos {value : K} (hv : 0 < value) (f : K) {k : Nat}
    (hk : 0 < k) :
    (controlled scale value)^[k] (controlled scale value f) = controlled scale value f ↔
      f = 0 ∨ value = 1 := by
  set x := controlled scale value f with hx
  have hx0 : 0 ≤ x := audiblePitch_nonneg _
  have hpow : ∀ n : Nat, (controlled scale value)^[n] x = x * value ^ n := by
    intro n
    induction n with
    | zero => simp
    | succ n ih =>
      rw [Function.iterate_succ_apply', ih, controlled_scale,
        audiblePitch_of_nonneg (by positivity)]
      ring
  have hf : x = 0 ↔ f = 0 := by
    rw [hx, controlled_scale, audiblePitch]
    split
    · rename_i hneg
      have : f ≠ 0 := by
        rintro rfl
        simp at hneg
      simp [this, defaultPitch_pos.ne']
    · simp [hv.ne']
  -- the pitch is zero, or the power is one
  rw [hpow, mul_right_eq_self₀, hf, pow_eq_one_iff_of_nonneg hv.le hk.ne', or_comm]

/-- Repeated multiplication, with the default pitch below zero. -/
theorem controlled_scale_iterate_iff (value f : K) (k : Nat) :
    (controlled scale value)^[k] (controlled scale value f) = controlled scale value f ↔
      k = 0 ∨ f = 0 ∨ value = 0 ∨ value = 1 ∨
        (value < 0 ∧ (0 < f ∨ f * value = (defaultPitch : K))) := by
  rcases Nat.eq_zero_or_pos k with rfl | hk
  · simp
  rcases lt_trichotomy value 0 with hv | rfl | hv
  · have hne : value ≠ 1 := by linarith
    rw [controlled_scale_iterate_of_neg hv f hk]
    simp [hk.ne', hv, hv.ne, hne]
  · -- zero: the pitch is zero from the first call on
    have hzero : ∀ x : K, controlled scale 0 x = 0 := by
      intro x
      rw [controlled_scale, mul_zero, audiblePitch_of_nonneg le_rfl]
    rw [hzero, Function.iterate_fixed (hzero 0) k]
    simp
  · rw [controlled_scale_iterate_of_pos hv f hk]
    simp [hk.ne', hv.ne', not_lt.mpr hv.le]

/--
**When the spinning loop leaves the pitch alone.** After a frame of pitch
`frame.streams lf0StreamIndex 0` prepared under a registered control, `k` more
calls with that control leave the controlled pitch of the frame exactly when
`SpinStable` says so. -/
theorem spinPitch_eq_iff [FloorRing K] (libm : Libm K) {v : Vocoder K} (frame : Frame K)
    (voiced ignoreVoicing : Bool) {action : Int} {value : K} (hnamed : NamedAction action)
    (haction : v.action = action) (hvalue : v.actionValue = value) (k : Nat) :
    ((v.prepare libm frame voiced ignoreVoicing).spin value action k).f0 =
        controlled action value (frame.streams lf0StreamIndex 0) ↔
      SpinStable action (frame.streams lf0StreamIndex 0) value k := by
  subst haction hvalue
  rw [spin_f0 _ _ hnamed, prepare_f0]
  unfold SpinStable
  by_cases hfixed : v.action = noaction ∨ v.action = overwrite ∨ v.action = synthetic
  · -- the control does not use the pitch it finds
    simp only [controlled_iterate_fixed _ _ k hfixed, true_iff]
    tauto
  · have hshift : v.action = shift ∨ v.action = scale := by
      unfold NamedAction at hnamed
      tauto
    rcases hshift with h | h
    · -- a shift with the default pitch below zero is a sawtooth
      have hsaw : controlled shift v.actionValue = sawtooth (defaultPitch : K) v.actionValue := rfl
      rw [h, hsaw, sawtooth_iterate_image_iff defaultPitch_pos.le]
      simp [shift, noaction, overwrite, synthetic, scale]
    · -- a factor
      rw [h, controlled_scale_iterate_iff]
      simp [shift, noaction, overwrite, synthetic, scale]

end Ordered

-- ---------------------------------------------------------------------------
-- A vocoder before its first frame
-- ---------------------------------------------------------------------------

/-- A vocoder with a registered control, its filter memory empty. -/
def silent (action : Int) (value : ℚ) : Vocoder ℚ where
  alpha := 0
  gamma := 0
  action := action
  voiced := false
  f0 := defaultPitch
  t0 := defaultSamplingRate / defaultPitch
  volume := 1
  c := []
  cc := []
  inc := []
  d := []
  m := 0
  fprd := defaultFrameRate
  iprd := 1
  stage := 0
  pd := 5
  ngain := false
  flagFirstPush := true
  count := 0
  actionValue := value
  nOfPopSinceLastPush := 0

/-- A voiced frame with a pitch and an empty spectrum. -/
def pitched (f : ℚ) : Frame ℚ where
  streams := fun stream i => if stream = lf0StreamIndex ∧ i = 0 then f else 0
  voiced := true

/-- Five turns of the loop under `shift` by `-30` on a frame of pitch 100: the
pitch falls from 70 through 40 and 10 to the default pitch, and on to 80. -/
theorem spinPitch_eq_iff_falling :
    (((silent shift (-30)).prepare Libm.trivial (pitched 100) true false).spin (-30) shift 5).f0 =
        controlled shift (-30) 100 ↔ SpinStable shift (100 : ℚ) (-30) 5 :=
  spinPitch_eq_iff Libm.trivial (pitched 100) true false (by decide) rfl rfl 5

/-- One turn of the loop under `shift` by 10: a frame of pitch 100 sounds at
120, not at 110. -/
theorem spin_once_shifts_twice :
    NamedAction shift ∧
      (((silent shift 10).prepare Libm.trivial (pitched 100) true false).spin 10 shift 1).f0 ≠
        controlled shift 10 (100 : ℚ) := by
  refine ⟨by decide, ?_⟩
  rw [spin_f0 _ _ (by decide), prepare_f0]
  simp [controlled, audiblePitch, silent, pitched, shift, overwrite]
  norm_num

end Vocoder

end Vox.Mage
