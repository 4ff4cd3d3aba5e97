import Vox.Lib.Run
import Vox.Script.Effects

/-!
# Script — the variables stay valid

Which values the variables of the script may have, and which runs keep them
there. Every effect of a handler but one assigns a value of the parameter's
range: a map of a controlspec, a toggle, or a step that turns back at the end.
The exception is K3 on `scale`: above 60 it assigns `voxmin`, a global the
script does not have, and the variable is nil until something sets it again.

Main results:

* `run_varOk` — every variable but `scale` is valid in every state.
* `run_valid_iff` — every state of a run is valid, and can be drawn, exactly
  when no event of the run presses K3 where `scale` leaves its range.
-/

namespace Vox.Script

open Lib

/-! ## Valid values -/

/-- An integer of a range. -/
def IntIn (lo hi : Int) (x : ℚ) : Prop := ∃ n : Int, x = n ∧ lo ≤ n ∧ n ≤ hi

/-- The values that the variable of a parameter may have. -/
def Param.Ok : Param → ℚ → Prop
  | .mute, x => IntIn 0 1 x
  | .voice, x => IntIn 0 5 x
  | .phrase, x => IntIn 0 15 x
  | .freq, x => IntIn 1 20000 x
  | .mode, x => IntIn (-1) 2 x
  | .scale, x => 1 / 100 ≤ x ∧ x ≤ 60
  | .alpha, x => 1 / 100 ≤ x ∧ x ≤ 1
  | .gap, x => 1 / 100 ≤ x ∧ x ≤ 60

/-- The variable of a parameter has a valid value, and is not nil. -/
def VarOk (w : World) (p : Param) : Prop := ∃ x, w.var p = some x ∧ p.Ok x

/-- All variables have valid values. -/
structure Valid (w : World) : Prop where
  var : ∀ p, VarOk w p
  edit : IntIn 0 7 w.edit

/-- The value of a valid variable is an allowed one. -/
theorem VarOk.ok {w : World} {p : Param} (h : VarOk w p) {x : ℚ} (hx : w.var p = some x) :
    p.Ok x := by
  obtain ⟨y, hy, hok⟩ := h
  rwa [Option.some.inj (hx.symm.trans hy)]

/-- A lookup with an integer in range finds an entry. -/
theorem luaIndex_isSome {α : Type} (xs : List α) (off : Int) {lo hi : Int} {x : ℚ}
    (h : IntIn lo hi x)
    (hlo : 1 ≤ lo + off) (hhi : hi + off ≤ xs.length) : (luaIndex xs (x + off)).isSome := by
  obtain ⟨n, rfl, hn, hn'⟩ := h
  rw [← Int.cast_add, luaIndex_intCast xs (by omega)]
  simp
  omega

theorem formatD_isSome {lo hi : Int} {x : ℚ} (h : IntIn lo hi x) : (formatD x).isSome := by
  obtain ⟨n, rfl, -, -⟩ := h
  simp

/-- A valid world has a screen: every lookup and every format has its value. -/
theorem Valid.screen_isSome {w : World} (h : Valid w) : (screen w).isSome := by
  have hvoice := luaIndex_isSome voiceNames 1 ((h.var .voice).ok rfl) (by omega) (by decide)
  have hphrase := formatD_isSome ((h.var .phrase).ok rfl)
  have hmode := luaIndex_isSome freqModes 2 ((h.var .mode).ok rfl) (by omega) (by decide)
  have hfreq := formatD_isSome ((h.var .freq).ok rfl)
  obtain ⟨scale, hscale, -⟩ := h.var .scale
  obtain ⟨name, hname⟩ := Option.isSome_iff_exists.mp hvoice
  obtain ⟨hex, hhex⟩ := Option.isSome_iff_exists.mp hphrase
  obtain ⟨freqMode, hfreqMode⟩ := Option.isSome_iff_exists.mp hmode
  obtain ⟨frq, hfrq⟩ := Option.isSome_iff_exists.mp hfreq
  have hscale : w.scale = some scale := hscale
  push_cast at hname hfreqMode
  simp [screen, displayedMode, hname, hhex, hfreqMode, hfrq, hscale]

/-! ## The ranges -/

section Ranges

variable {norns : Norns}

/-- The exponential warp covers the range of `freq`. -/
abbrev FreqWarps (norns : Norns) : Prop := Warps (norns.expWarp 1 freqMax) 1 freqMax

/-- The ranges of the parameters can be warped. -/
theorem spec_fits (hexp : FreqWarps norns) (p : Param) : p.spec.Fits norns := by
  have hgrid : ∀ n : Int, ∃ k : Int, (n : ℚ) = k * 1 := fun n => ⟨n, by ring⟩
  have hcent : ∀ n : Int, ∃ k : Int, (n : ℚ) = k * voxMin := fun n =>
    ⟨100 * n, by simp only [voxMin]; push_cast; ring⟩
  have hmin : ∃ k : Int, voxMin = k * voxMin := ⟨1, by simp⟩
  cases p
  -- the one exponential warp
  case freq =>
    exact ⟨one_pos, ⟨1, by simp [Param.spec, csFreq]⟩, hgrid 20000, hexp⟩
  -- linear, in steps of a hundredth
  case scale | gap =>
    exact Controlspec.fits_lin (by norm_num [voxMin, scaleMax, gapMax]) (by norm_num [voxMin]) hmin
      (hcent 60)
  case alpha =>
    exact Controlspec.fits_lin (by norm_num [voxMin, alphaMax]) (by norm_num [voxMin]) hmin
      ⟨100, by norm_num [voxMin, alphaMax]⟩
  -- linear, in steps of one
  case mute =>
    exact Controlspec.fits_lin (by norm_num) one_pos ⟨0, by simp⟩ ⟨1, by simp⟩
  case voice =>
    exact Controlspec.fits_lin (by norm_num) one_pos ⟨0, by simp⟩ (hgrid 5)
  case phrase =>
    exact Controlspec.fits_lin (by norm_num) one_pos ⟨0, by simp⟩ (hgrid 15)
  case mode =>
    exact Controlspec.fits_lin (by norm_num) one_pos ⟨-1, by simp⟩ (hgrid 2)

/-- An integer value that a specification allows. -/
theorem intIn_of_allows (lo hi : Int) {warp : Warp} {x : ℚ}
    (h : Controlspec.Allows ⟨lo, hi, warp, 1⟩ x) : IntIn lo hi x := by
  obtain ⟨hlo, hhi, n, hn⟩ := h
  rw [mul_one] at hn
  subst hn
  exact ⟨n, rfl, Int.cast_le.mp hlo, Int.cast_le.mp hhi⟩

/-- What a parameter's range allows can be shown. -/
theorem ok_of_allows {p : Param} {x : ℚ} (h : p.spec.Allows x) : p.Ok x := by
  cases p
  case mute => exact intIn_of_allows 0 1 (by simpa [Param.spec, csMute] using h)
  case voice => exact intIn_of_allows 0 5 (by simpa [Param.spec, csVoice] using h)
  case phrase =>
    exact intIn_of_allows 0 15 (by simpa [Param.spec, csPhrase] using h)
  case freq =>
    exact intIn_of_allows 1 20000 (by simpa [Param.spec, csFreq, freqMax] using h)
  case mode => exact intIn_of_allows (-1) 2 (by simpa [Param.spec, csMode] using h)
  all_goals exact ⟨h.1, h.2.1⟩

/-- What a setter assigns is valid. -/
theorem map_ok (hexp : FreqWarps norns) (p : Param) (x : ℚ) : p.Ok (p.spec.map norns x) :=
  ok_of_allows ((spec_fits hexp p).allows_map x)

/-- A valid value has its message. -/
theorem message_isSome_of_ok {p : Param} {x : ℚ} (h : p.Ok x) : (p.message x).isSome := by
  cases p
  case phrase =>
    rw [Param.message, Option.isSome_map]
    have := luaIndex_isSome Engine.voxPhrases 1 h (by omega) (by decide)
    simpa using this
  all_goals rfl

theorem toggled_ok (x : ℚ) : Param.mute.Ok (toggled x) := by
  unfold toggled
  split
  · exact ⟨0, by simp, by omega, by omega⟩
  · exact ⟨1, by simp, by omega, by omega⟩

/-- Counting up by one stays with the integers of the range. -/
theorem stepUp_intIn {lo hi : Int} {x : ℚ} (h : IntIn lo hi x) :
    IntIn lo hi (stepUp x 1 hi lo) := by
  obtain ⟨n, rfl, hlo, hhi⟩ := h
  unfold stepUp
  split
  · -- above the range: back to its start
    exact ⟨lo, rfl, le_rfl, hlo.trans hhi⟩
  · rename_i hle
    refine ⟨n + 1, by push_cast; ring, by omega, ?_⟩
    have : ((n + 1 : Int) : ℚ) ≤ hi := by push_cast; linarith
    exact_mod_cast this

/-- Counting up stays in the range or starts again. -/
theorem stepUp_mem {x increment hi lo : ℚ} (hinc : 0 ≤ increment) (hlo : lo ≤ x) (hhi : lo ≤ hi) :
    lo ≤ stepUp x increment hi lo ∧ stepUp x increment hi lo ≤ hi := by
  unfold stepUp
  split
  · exact ⟨le_rfl, hhi⟩
  · rename_i hle
    have hlow : lo ≤ x + increment := by linarith
    exact ⟨hlow, not_lt.mp hle⟩

end Ranges

/-! ## Effects on valid variables -/

/-- The effects that leave the variable of a parameter valid. -/
def Effect.OkFor (p : Param) : Effect → Prop
  | .assign q x => p = q → q.Ok x
  | .loseScale => p ≠ .scale
  | .edit _ | .heard | .drawn | .sendVoice _ => True

/-- An effect that is right for a parameter keeps its variable right. -/
theorem perform_varOk {w : World} {p : Param} (hw : VarOk w p) {f : Effect} (hf : f.OkFor p) :
    VarOk (perform w f) p := by
  cases f with
  | assign q x =>
    by_cases hq : p = q
    · subst hq
      exact ⟨x, var_assign_self, hf rfl⟩
    · rw [VarOk, perform, var_assign_of_ne hq]
      exact hw
  | drawn =>
    rw [VarOk, perform, var_drawn]
    exact hw
  | loseScale => cases p <;> first | exact hw | exact absurd rfl hf
  | _ => cases p <;> exact hw

/-- K3 on `scale` where the next step leaves the range. -/
def ScaleWraps (w : World) (e : Event) : Prop :=
  e = .key 3 1 ∧ w.edit = 5 ∧ ∃ scale, w.scale = some scale ∧ scaleMax < scale + 1 / 10

/-- A scale above its maximum is lost, and the screen is drawn. -/
theorem effects_of_scaleWraps {norns : Norns} {w : World} {e : Event} (h : ScaleWraps w e) :
    effects norns w e = [.loseScale, .drawn] := by
  obtain ⟨rfl, hedit, scale, hscale, hwrap⟩ := h
  rw [one_div] at hwrap
  simp [effects, keyEffects, hedit, hscale, hwrap]

section Steps

variable {w : World} {p : Param}

/-- A step of K3 from a valid value is valid. -/
theorem keyEffects_okFor (hw : VarOk w p) (hscale : p = .scale → ¬ ScaleWraps w (.key 3 1)) :
    ∀ f ∈ keyEffects w, f.OkFor p := by
  have hdrawn : Effect.drawn.OkFor p := trivial
  -- one bullet for each edit position of the handler
  unfold keyEffects
  split
  · have hok : (Effect.assign .mute (toggled w.mute)).OkFor p := fun _ => toggled_ok w.mute
    simp [hok, hdrawn]
  split
  · have hok : (Effect.assign .voice (stepUp w.voice 1 5 0)).OkFor p := by
      rintro rfl
      simpa [Param.Ok] using stepUp_intIn (hw.ok rfl : IntIn 0 5 w.voice)
    simp [hok, hdrawn]
  split
  · have hok : (Effect.assign .mode (stepUp w.mode 1 2 (-1))).OkFor p := by
      rintro rfl
      simpa [Param.Ok] using stepUp_intIn (hw.ok rfl : IntIn (-1) 2 w.mode)
    simp [hok, hdrawn]
  split
  · have hok : (Effect.assign .freq (stepUp w.freq 1 freqMax 1)).OkFor p := by
      rintro rfl
      simpa [Param.Ok, freqMax] using stepUp_intIn (hw.ok rfl : IntIn 1 20000 w.freq)
    simp [hok, hdrawn]
  split
  · rename_i hedit
    split
    · -- a nil scale: the handler ends in the error
      simp
    rename_i scale hvar
    split
    · -- above the maximum, which the hypothesis excludes for `scale` itself
      rename_i hgt
      have hok : Effect.loseScale.OkFor p := fun hp => hscale hp ⟨rfl, hedit, scale, hvar, hgt⟩
      simp [hok, hdrawn]
    · rename_i hle
      have hok : (Effect.assign .scale (scale + 1 / 10)).OkFor p := by
        rintro rfl
        have hlo := (hw.ok hvar).1
        exact ⟨by linarith, not_lt.mp hle⟩
      simpa [hdrawn] using hok
  split
  · have hok : (Effect.assign .alpha (stepUp w.alpha (1 / 100) alphaMax voxMin)).OkFor p := by
      rintro rfl
      exact stepUp_mem (by norm_num) (hw.ok rfl).1 (by norm_num [voxMin, alphaMax])
    simpa [hdrawn] using hok
  split
  · have hok : (Effect.assign .gap (stepUp w.gap 1 gapMax voxMin)).OkFor p := by
      rintro rfl
      exact stepUp_mem (by norm_num) (hw.ok rfl).1 (by norm_num [voxMin, gapMax])
    simpa [hdrawn] using hok
  · simpa using hdrawn

variable {norns : Norns} (hexp : FreqWarps norns)
include hexp

/-- Every other event has right effects. -/
theorem effects_okFor (hw : VarOk w p) {e : Event} (hscale : p = .scale → ¬ ScaleWraps w e) :
    ∀ f ∈ effects norns w e, f.OkFor p := by
  apply effects_forall
  case hassign =>
    intro q x _
    exact map_ok hexp q x
  case hmute =>
    intro _
    exact toggled_ok w.mute
  case hkey =>
    rintro rfl
    exact keyEffects_okFor hw hscale
  all_goals intros; trivial

theorem step_varOk (hw : VarOk w p) {e : Event} (hscale : p = .scale → ¬ ScaleWraps w e) :
    VarOk (step norns w e) p := by
  have hperform : ∀ w f, VarOk w p → f.OkFor p → VarOk (perform w f) p :=
    fun w f hw hf => perform_varOk hw hf
  exact step_invariant norns hperform (effects_okFor hexp hw hscale) hw

end Steps

/-! ## The edit position -/

theorem nextEdit_intIn {x : ℚ} (h : IntIn 0 7 x) :
    IntIn 0 7 (if x + 1 = 8 then 0 else x + 1) := by
  obtain ⟨n, rfl, hlo, hhi⟩ := h
  split
  · exact ⟨0, by simp, by omega, by omega⟩
  · rename_i hne
    refine ⟨n + 1, by push_cast; ring, by omega, ?_⟩
    have : n ≠ 7 := by
      rintro rfl
      norm_num at hne
    omega

def Effect.EditOk : Effect → Prop
  | .edit x => IntIn 0 7 x
  | _ => True

/-- The edit position stays one of the eight. -/
theorem step_edit (norns : Norns) {w : World} (hw : IntIn 0 7 w.edit) (e : Event) :
    IntIn 0 7 (step norns w e).edit := by
  have hperform : ∀ w f, IntIn 0 7 w.edit → f.EditOk → IntIn 0 7 (perform w f).edit := by
    intro w f hw hf
    cases f with
    | assign p x => rwa [perform, edit_assign]
    | edit x => exact hf
    | drawn => rwa [perform, edit_drawn]
    | _ => exact hw
  have heffects : ∀ f ∈ effects norns w e, f.EditOk := by
    apply effects_forall
    case hedit => exact ⟨0, by simp, by omega, by omega⟩
    case hnext => exact nextEdit_intIn hw
    case hkey =>
      exact fun _ => keyEffects_forall (fun _ _ => trivial) trivial fun _ _ _ _ => trivial
    all_goals intros; trivial
  exact step_invariant norns (I := fun w => IntIn 0 7 w.edit) hperform heffects hw

/-! ## Events and runs -/

/-- An event keeps a valid world valid exactly when it does not lose the scale. -/
theorem step_valid_iff {norns : Norns} (hexp : FreqWarps norns) {w : World} (hw : Valid w)
    (e : Event) : Valid (step norns w e) ↔ ¬ ScaleWraps w e := by
  refine ⟨?_, ?_⟩
  · -- the variable is nil after the slip, and drawing does not set it
    intro hvalid hwraps
    have hlost : ((perform w .loseScale).drawn).var .scale = none := by
      rw [var_drawn]
      rfl
    obtain ⟨x, hx, -⟩ := hvalid.var .scale
    rw [step_eq_effects, effects_of_scaleWraps hwraps, List.foldl_cons, List.foldl_cons,
      List.foldl_nil, perform, hlost] at hx
    cases hx
  · intro hkeeps
    exact ⟨fun p => step_varOk hexp (hw.var p) fun _ => hkeeps, step_edit norns hw.edit e⟩

/-- The variables that the script starts with are valid. -/
theorem initial_valid : Valid World.initial where
  var := by
    intro p
    cases p
    case mute => exact ⟨1, rfl, 1, by simp, by omega, by omega⟩
    case voice => exact ⟨5, rfl, 5, by simp, by omega, by omega⟩
    case phrase => exact ⟨0, rfl, 0, by simp, by omega, by omega⟩
    case freq => exact ⟨200, rfl, 200, by simp, by omega, by omega⟩
    case mode => exact ⟨1, rfl, 1, by simp, by omega, by omega⟩
    all_goals exact ⟨_, rfl, by norm_num [World.initial], by norm_num [World.initial]⟩
  edit := ⟨0, rfl, by omega, by omega⟩

/-- Every variable but `scale` is valid in every state of every run. -/
theorem run_varOk {norns : Norns} (hexp : FreqWarps norns) (es : List Event) {p : Param}
    (hp : p ≠ .scale) : VarOk (run norns es) p :=
  foldl_invariant (I := fun w => VarOk w p)
    (fun _ _ hw => step_varOk hexp hw fun h => absurd h hp) es _ (initial_valid.var p)

/--
**The variables stay valid, up to the slip on `scale`.** Along a run, all
variables have valid values and the screen can be drawn in every state reached
exactly when no event presses K3 on `scale` where the next step exceeds its
maximum. -/
theorem run_valid_iff (norns : Norns) (hexp : FreqWarps norns) (es : List Event) :
    (∀ es', es' <+: es → Valid (run norns es') ∧ (screen (run norns es')).isSome) ↔
      StepsMeet (step norns) (fun w e => ¬ ScaleWraps w e) World.initial es := by
  have hstep : ∀ w e, Valid w → (Valid (step norns w e) ↔ ¬ ScaleWraps w e) :=
    fun w e hw => step_valid_iff hexp hw e
  rw [stepsMeet_iff_all_states hstep initial_valid]
  refine ⟨?_, ?_⟩
  · intro h es' hpre
    exact (h es' hpre).1
  · -- a valid world can be drawn
    intro h es' hpre
    exact ⟨h es' hpre, (h es' hpre).screen_isSome⟩

theorem run_valid_iff_one_press :
    (∀ es', es' <+: [Event.enc 2 none, .key 3 1] →
        Valid (run .chord es') ∧ (screen (run .chord es')).isSome) ↔
      StepsMeet (step .chord) (fun w e => ¬ ScaleWraps w e) World.initial
        [.enc 2 none, .key 3 1] :=
  run_valid_iff .chord (chord_warps (by norm_num [freqMax])) _

/-- Five turns of E2 to `scale`, 10 volts, one press of K3: the scale goes from
60 to nil. -/
def pressAtMaximum : List Event :=
  [.enc 2 none, .enc 2 none, .enc 2 none, .enc 2 none, .enc 2 none, .cv 10, .key 3 1]

theorem press_at_maximum_loses_scale :
    ¬ Valid (run .chord pressAtMaximum) ∧ screen (run .chord pressAtMaximum) = none := by
  have hscale : (run .chord pressAtMaximum).scale = none := by decide +kernel
  refine ⟨?_, ?_⟩
  · intro h
    obtain ⟨x, hx, -⟩ := h.var .scale
    rw [World.var, hscale] at hx
    cases hx
  · simp [screen, hscale]

end Vox.Script
