import Vox.Mage.VocoderReset

/-!
# MAGE — gamma and the stage of the filter

With a stage `s` the filter is an MGLSA filter, whose gamma is `-1 / s`: the constructor sets
both members. `setGamma` sets the stage alone, and `getGamma` writes the stage to gamma and
returns it.

* `matchesStage_iff` — in every state of a run gamma is the one of the stage, whatever frame
  is prepared there, exactly when no stage is set that gamma is not already the one of, and
  gamma is not got while there is a stage.
* `samples_withoutGetters` — in such a run the samples do not depend on the calls of
  `getGamma`.
-/

namespace Vox.Mage

open Lib

namespace Vocoder

variable {K : Type*} [Field K] [LinearOrder K]

-- ---------------------------------------------------------------------------
-- Calls
-- ---------------------------------------------------------------------------

/-- `Vocoder::setGamma` -/
def setGamma [FloorRing K] (v : Vocoder K) (gamma : K) : Vocoder K :=
  { v with stage := truncate gamma }

/-- `Vocoder::getGamma`: what is returned, and the vocoder. -/
def getGamma (v : Vocoder K) : K × Vocoder K := (v.stage, { v with gamma := v.stage })

/-- A call of the vocoder, those of gamma included. -/
inductive GammaCall (K : Type*)
  | setGamma (gamma : K)
  | getGamma
  | call (c : Call K)

def GammaCall.isGetter : GammaCall K → Bool
  | .getGamma => true
  | _ => false

/-- The sample that a call returns, if it does, and what it leaves of the vocoder and of the
random numbers. -/
def gammaCall [FloorRing K] (libm : Libm K) (v : Vocoder K) (random : Nat → K) :
    GammaCall K → Option K × Vocoder K × (Nat → K)
  | .setGamma gamma => (none, v.setGamma gamma, random)
  | .getGamma => (none, v.getGamma.2, random)
  | .call c => v.call libm random c

def gammaStep [FloorRing K] (libm : Libm K) (s : Vocoder K × (Nat → K)) (c : GammaCall K) :
    Vocoder K × (Nat → K) := (gammaCall libm s.1 s.2 c).2

/-- The vocoder after some calls. -/
def gammaRun [FloorRing K] (libm : Libm K) (v : Vocoder K) (random : Nat → K)
    (calls : List (GammaCall K)) : Vocoder K :=
  (calls.foldl (gammaStep libm) (v, random)).1

/-- The samples of some calls. -/
def gammaSamples [FloorRing K] (libm : Libm K) :
    Vocoder K → (Nat → K) → List (GammaCall K) → List K
  | _, _, [] => []
  | v, random, c :: cs =>
    let r := gammaCall libm v random c
    r.1.toList ++ gammaSamples libm r.2.1 r.2.2 cs

-- ---------------------------------------------------------------------------
-- The relation of the two members
-- ---------------------------------------------------------------------------

/-- Where there is a stage, gamma is the one that belongs to it. -/
def MatchesStage (v : Vocoder K) : Prop := v.stage ≠ 0 → v.gamma = -1 / (v.stage : K)

/-- A call that leaves gamma and the stage in their relation: a stage is set to zero, or to
the one of the gamma that is there; gamma is got without a stage. -/
def KeepsGamma [FloorRing K] (v : Vocoder K) : GammaCall K → Prop
  | .setGamma gamma => truncate gamma ≠ 0 → v.gamma = -1 / (truncate gamma : K)
  | .getGamma => v.stage = 0
  | .call _ => True

/-- Calls of the rest of the vocoder do not set gamma, nor the stage, but a reset. -/
theorem call_gamma_stage [FloorRing K] (libm : Libm K) (v : Vocoder K) (random : Nat → K)
    (c : Call K) :
    ((v.call libm random c).2.1.gamma = v.gamma ∧ (v.call libm random c).2.1.stage = v.stage) ∨
      (v.call libm random c).2.1.stage = 0 := by
  cases c with
  | pop =>
    obtain ⟨count, d, hpop⟩ := v.pop_eq libm random
    show ((v.pop libm random).2.1.gamma = v.gamma ∧ (v.pop libm random).2.1.stage = v.stage) ∨ _
    rw [hpop]
    exact .inl ⟨rfl, rfl⟩
  | reset => exact .inr rfl
  | _ => exact .inl ⟨rfl, rfl⟩

section Ordered

variable [IsStrictOrderedRing K] [FloorRing K] (libm : Libm K)

/-- No stage is the gamma of itself. -/
theorem stage_ne_gamma {s : Int} (hs : s ≠ 0) : (s : K) ≠ -1 / (s : K) := by
  intro heq
  have hs' : (s : K) ≠ 0 := Int.cast_ne_zero.mpr hs
  have hsquare : (s : K) * s = -1 := by
    rw [eq_div_iff hs'] at heq
    exact heq
  -- a square is not -1
  have := mul_self_nonneg (s : K)
  linarith

/-- The calls that keep the relation, exactly. -/
theorem matchesStage_call_iff {v : Vocoder K} (h : v.MatchesStage) (random : Nat → K)
    (c : GammaCall K) : (gammaCall libm v random c).2.1.MatchesStage ↔ v.KeepsGamma c := by
  cases c with
  | setGamma gamma => exact Iff.rfl
  | getGamma =>
    show (v.stage ≠ 0 → (v.stage : K) = -1 / (v.stage : K)) ↔ v.stage = 0
    -- the getter makes the stage the gamma, which is right for no stage but zero
    constructor
    · intro hmatches
      by_contra hs
      exact stage_ne_gamma hs (hmatches hs)
    · exact fun hzero hs => absurd hzero hs
  | call c =>
    refine iff_of_true ?_ trivial
    rcases call_gamma_stage libm v random c with ⟨hgamma, hstage⟩ | hstage
    · show (v.call libm random c).2.1.stage ≠ 0 → (v.call libm random c).2.1.gamma =
        -1 / ((v.call libm random c).2.1.stage : K)
      rw [hgamma, hstage]
      exact h
    · exact fun hs => absurd hstage hs

omit [LinearOrder K] [IsStrictOrderedRing K] [FloorRing K] in
theorem matchesStage_construct (am : Nat) (aalpha : K) (afprd aiprd astage apd : Int)
    (angain : Bool) (gamma actionValue : K) :
    (construct am aalpha afprd aiprd astage apd angain gamma actionValue).MatchesStage :=
  fun hs => if_pos hs

end Ordered

-- ---------------------------------------------------------------------------
-- Getters and samples
-- ---------------------------------------------------------------------------

section Getters

/-- Without the calls of `getGamma` gamma may be another, where there is no stage and gamma
is zero. -/
def DiffersInGamma (v w : Vocoder K) : Prop :=
  ∃ gamma, w = { v with gamma := gamma } ∧ (gamma = v.gamma ∨ (v.stage = 0 ∧ v.gamma = 0))

variable [FloorRing K] (libm : Libm K)

/-- A pop does not read gamma. -/
theorem pop_with_gamma (v : Vocoder K) (gamma : K) (random : Nat → K) :
    Vocoder.pop libm { v with gamma := gamma } random =
      ((v.pop libm random).1, { (v.pop libm random).2.1 with gamma := gamma },
        (v.pop libm random).2.2) := by
  rw [Vocoder.pop, Vocoder.pop, Vocoder.excite, Vocoder.excite]
  simp only
  cases v.voiced with
  | false => rfl
  | true =>
    -- voiced: a pulse or none, by the counter
    by_cases hcount : v.count ≤ 0
    · simp only [hcount, if_true]
      rfl
    · simp only [hcount, if_true, if_false]
      rfl

omit [FloorRing K] in
/-- Without a stage a push does not read gamma either. -/
theorem prepare_with_gamma {v : Vocoder K} (hstage : v.stage = 0) (gamma : K) (frame : Frame K)
    (voiced ignoreVoicing : Bool) :
    Vocoder.prepare libm { v with gamma := gamma } frame voiced ignoreVoicing =
      { v.prepare libm frame voiced ignoreVoicing with gamma := gamma } := by
  have hv := coefficients_of_stage libm hstage frame
  have hw := coefficients_of_stage libm (v := { v with gamma := gamma }) hstage frame
  rw [Vocoder.prepare, Vocoder.prepare]
  simp only [hv, hw]

theorem DiffersInGamma.call {v w : Vocoder K} (h : v.DiffersInGamma w) (random : Nat → K)
    (c : Call K) :
    (w.call libm random c).1 = (v.call libm random c).1 ∧
      (w.call libm random c).2.2 = (v.call libm random c).2.2 ∧
      (v.call libm random c).2.1.DiffersInGamma (w.call libm random c).2.1 := by
  obtain ⟨gamma, rfl, hgamma⟩ := h
  cases c with
  | push frame ignoreVoicing =>
    rcases hgamma with rfl | ⟨hstage, hzero⟩
    · exact ⟨rfl, rfl, _, rfl, .inl rfl⟩
    -- gamma differs only where a push does not read it
    · refine ⟨rfl, rfl, gamma, ?_, .inr ⟨hstage, hzero⟩⟩
      exact prepare_with_gamma libm hstage gamma frame frame.voiced ignoreVoicing
  | pop =>
    have hpop := pop_with_gamma libm v gamma random
    obtain ⟨count, d, heq⟩ := v.pop_eq libm random
    simp only [Vocoder.call, hpop, true_and]
    refine ⟨gamma, rfl, ?_⟩
    rw [heq]
    exact hgamma
  | reset => exact ⟨rfl, rfl, _, rfl, .inl rfl⟩
  | setPitch pitch action forceVoiced => exact ⟨rfl, rfl, gamma, rfl, hgamma⟩
  | setVoiced forceVoiced => exact ⟨rfl, rfl, gamma, rfl, hgamma⟩
  | setAlpha alpha => exact ⟨rfl, rfl, gamma, rfl, hgamma⟩
  | setVolume volume => exact ⟨rfl, rfl, gamma, rfl, hgamma⟩

theorem DiffersInGamma.setGamma [IsStrictOrderedRing K] {v w : Vocoder K}
    (h : v.DiffersInGamma w) {x : K} (hkeeps : v.KeepsGamma (.setGamma x)) :
    (v.setGamma x).DiffersInGamma (w.setGamma x) := by
  obtain ⟨gamma, rfl, hgamma⟩ := h
  refine ⟨gamma, rfl, hgamma.imp_right fun ⟨hstage, hzero⟩ => ⟨?_, hzero⟩⟩
  -- a stage that is not zero has a gamma that is not zero
  by_contra hs
  have hgamma' : v.gamma = -1 / (truncate x : K) := hkeeps hs
  rw [hzero] at hgamma'
  exact div_ne_zero (neg_ne_zero.mpr one_ne_zero) (Int.cast_ne_zero.mpr hs) hgamma'.symm

/-- **The getter does not show.** -/
theorem samples_withoutGetters [IsStrictOrderedRing K] {v w : Vocoder K} (h : v.DiffersInGamma w)
    (random : Nat → K) (calls : List (GammaCall K))
    (hkeeps : StepsMeet (gammaStep libm) (fun s c => s.1.KeepsGamma c) (v, random) calls) :
    gammaSamples libm w random (calls.filter fun c => !c.isGetter) =
      gammaSamples libm v random calls := by
  induction calls generalizing v w random with
  | nil => rfl
  | cons c calls ih =>
    obtain ⟨hkeep, hrest⟩ := hkeeps
    cases c with
    | setGamma gamma => exact ih (h.setGamma hkeep) random hrest
    | getGamma =>
      obtain ⟨gamma, rfl, hgamma⟩ := h
      -- the one side has no getter; on the other it makes gamma zero, without a stage
      have hstage : v.stage = 0 := hkeep
      refine ih (v := v.getGamma.2) ⟨gamma, rfl, .inr ⟨hstage, ?_⟩⟩ random hrest
      show ((v.stage : Int) : K) = 0
      rw [hstage, Int.cast_zero]
    | call c =>
      obtain ⟨hsample, hrandom, hnext⟩ := h.call libm random c
      show (w.call libm random c).1.toList ++
          gammaSamples libm (w.call libm random c).2.1 (w.call libm random c).2.2 _ =
        (v.call libm random c).1.toList ++
          gammaSamples libm (v.call libm random c).2.1 (v.call libm random c).2.2 calls
      rw [hsample, hrandom]
      exact congrArg _ (ih hnext _ hrest)

end Getters

-- ---------------------------------------------------------------------------
-- Runs
-- ---------------------------------------------------------------------------

/--
**When gamma matches the stage.** From any new vocoder: in every state of a run, whatever
frame is prepared there, gamma is the one of the stage, exactly when the calls of the run keep
the two in their relation. In such a run the samples are those of the run without its calls
of `getGamma`. -/
theorem matchesStage_iff [IsStrictOrderedRing K] [FloorRing K] (libm : Libm K) (am : Nat)
    (aalpha : K) (afprd aiprd astage apd : Int) (angain : Bool) (gamma actionValue : K)
    (random : Nat → K) (calls : List (GammaCall K)) :
    let v := construct am aalpha afprd aiprd astage apd angain gamma actionValue
    (StepsMeet (gammaStep libm) (fun s c => s.1.KeepsGamma c) (v, random) calls ↔
        ∀ before, before <+: calls → (gammaRun libm v random before).MatchesStage) ∧
      (StepsMeet (gammaStep libm) (fun s c => s.1.KeepsGamma c) (v, random) calls →
        gammaSamples libm v random (calls.filter fun c => !c.isGetter) =
          gammaSamples libm v random calls) := by
  intro v
  constructor
  · refine stepsMeet_iff_all_states (I := fun s : Vocoder K × (Nat → K) => s.1.MatchesStage)
      ?_ ?_ calls
    · exact fun s c h => matchesStage_call_iff libm h s.2 c
    · exact matchesStage_construct am aalpha afprd aiprd astage apd angain gamma actionValue
  · exact samples_withoutGetters libm ⟨v.gamma, rfl, .inl rfl⟩ random calls

/-- A filter of two stages whose stage is set again, which is reset, and whose gamma is got
then; and one without stages whose gamma is got between two pops. -/
theorem matchesStage_iff_stages :
    (∀ before, before <+: [.call (.push (pitched 100) false), .call .pop, .setGamma 2, .call .pop,
        .call .reset, .getGamma, .setGamma 0] →
      (gammaRun Libm.trivial (construct 2 (1 / 2) 240 1 2 5 false 0 0) (fun _ => 0)
        before).MatchesStage) ∧
    gammaSamples Libm.trivial (construct 2 (1 / 2) 240 1 0 5 false 7 0) (fun _ => 0)
        [.call (.push (pitched 100) false), .call .pop, .call .pop] =
      gammaSamples Libm.trivial (construct 2 (1 / 2) 240 1 0 5 false 7 0) (fun _ => 0)
        [.call (.push (pitched 100) false), .call .pop, .getGamma, .call .pop] := by
  constructor
  · refine (matchesStage_iff Libm.trivial 2 (1 / 2) 240 1 2 5 false 0 0 (fun _ => 0) _).1.mp ?_
    have hzero : truncate (0 : ℚ) = 0 := truncate_intCast 0
    have htwo : truncate (2 : ℚ) = 2 := truncate_intCast 2
    refine ⟨trivial, trivial, ?_, trivial, trivial, rfl, fun h => absurd hzero h, trivial⟩
    -- the gamma of two stages
    intro _
    rw [htwo]
    rfl
  · exact (matchesStage_iff Libm.trivial 2 (1 / 2) 240 1 0 5 false 7 0 (fun _ => 0)
      [.call (.push (pitched 100) false), .call .pop, .getGamma, .call .pop]).2
      ⟨trivial, trivial, rfl, trivial, trivial⟩

/-- Where gamma does not match the stage: after a reset a stage of two is set, and a filter of
two stages is asked for its gamma. -/
theorem not_matchesStage :
    ¬ (gammaRun Libm.trivial (new 0 0) (fun _ => 0)
        [.call .reset, .setGamma 2]).MatchesStage ∧
      ¬ (gammaRun Libm.trivial (construct 2 (1 / 2) 240 1 2 5 false 0 0) (fun _ => 0)
        [.getGamma]).MatchesStage := by
  have hset : (gammaRun Libm.trivial (new 0 0) (fun _ => 0)
      [.call .reset, .setGamma 2]).stage = 2 := by
    have htwo := truncate_intCast (K := ℚ) 2
    rwa [Int.cast_ofNat] at htwo
  have hreset : (gammaRun Libm.trivial (new 0 0) (fun _ => 0)
      [.call .reset, .setGamma 2]).gamma = ((0 : Int) : ℚ) := rfl
  have hgot : (gammaRun Libm.trivial (construct 2 (1 / 2) 240 1 2 5 false 0 0) (fun _ => 0)
      [.getGamma]).gamma = ((2 : Int) : ℚ) := rfl
  constructor
  · intro hmatches
    have hgamma := hmatches (by rw [hset]; decide)
    rw [hset, hreset] at hgamma
    norm_num at hgamma
  · intro hmatches
    have hgamma : _ = -1 / ((2 : Int) : ℚ) := hmatches (by decide)
    rw [hgot] at hgamma
    norm_num at hgamma

end Vocoder

end Vox.Mage
