import Vox.Mage.Vocoder
import Vox.Script.Agreement

/-!
# Engine — the pitch mode shown and the pitch mode applied

A pitch mode crosses four layers: the variable `mode` of the script, -1 to 2,
which the screen shows as `off`, `rep`, `add`, `mul`; the engine's command
`mode`, which stores its argument less one; the control `mode` of the synth,
which SCMage hands to `setPitch` as it is; and the actions of MAGE, where -1 is
`noaction`, 0 `overwrite`, 1 `shift` and 2 `scale`. The script and MAGE number
the modes alike, and the engine is loaded with mode 1 beside a script that
shows `add`; the subtraction shifts every mode that is sent.

Main results:

* `startedSynth_controls` — a phrase trigger starts a synth with the engine's
  mode and frequency of that moment.
* `showsPitch_iff` — the synth sounds as the screen shows exactly when no mode
  was sent since loading, or the mode shown is `off`.
-/

namespace Vox.Engine

open Lib Vox.Script Vox.Mage Vox.Mage.Vocoder

-- ---------------------------------------------------------------------------
-- The engine behind the script
-- ---------------------------------------------------------------------------

/-- The engine once it has received the messages of a log. -/
def engineOf (log : List Message) : VoxExMachina :=
  log.foldr (fun m s =>
    match m with
    | .engine command x => s.receive command x
    | .levelDac _ => s) VoxExMachina.new

theorem engineOf_voxMode (log : List Message) :
    (engineOf log).voxMode =
      match lastSent .mode log with
      | none => 1
      | some m => truncate m - 1 := by
  induction log with
  | nil => rfl
  | cons m log ih =>
    rcases m with ⟨_ | _ | _ | _ | _ | _ | _ | _, x⟩ | x
    case engine.mode => rfl
    all_goals exact ih

theorem engineOf_voxFreq (log : List Message) :
    (engineOf log).voxFreq =
      match lastSent .freq log with
      | none => 200
      | some x => truncate x := by
  induction log with
  | nil => rfl
  | cons m log ih =>
    rcases m with ⟨_ | _ | _ | _ | _ | _ | _ | _, x⟩ | x
    case engine.freq => rfl
    all_goals exact ih

-- ---------------------------------------------------------------------------
-- Phrase triggers
-- ---------------------------------------------------------------------------

/-- The events that start a phrase: an edit of the parameter, an encoder turn
or a voltage at its edit position, and `/hexvoltage`. -/
def TriggersPhrase (w : World) (e : Event) : Prop :=
  (∃ x, e = .param .phrase x) ∨ (∃ x, e = .enc 3 (some x) ∧ w.edit = 2) ∨
    (∃ v, e = .trigger v ∧ w.edit = 2) ∨ ∃ x args, e = .osc "/hexvoltage" (x :: args)

variable (norns : Norns)

/-- A trigger sends its phrase first, and nothing after it concerns the phrase,
the mode or the frequency. -/
theorem effects_of_trigger {w : World} {e : Event} (h : TriggersPhrase w e) :
    ∃ x rest, effects norns w e = .assign .phrase (csPhrase.map norns x) :: rest ∧
      ∀ f ∈ rest, f.Leaves .phrase ∧ f.Leaves .mode ∧ f.Leaves .freq := by
  have hdrawn : Effect.drawn.Leaves .phrase ∧ Effect.drawn.Leaves .mode ∧
      Effect.drawn.Leaves .freq := ⟨trivial, trivial, trivial⟩
  rcases h with ⟨x, rfl⟩ | ⟨x, rfl, hedit⟩ | ⟨v, rfl, hedit⟩ | ⟨x, args, rfl⟩
  · -- the parameter
    exact ⟨x, [], by simp [effects, actionEffect, Param.spec], by simp⟩
  · -- the encoder
    exact ⟨x, [.drawn], by simp [effects, encEffects, editedParam, hedit, actionEffect, Param.spec],
      by simpa using hdrawn⟩
  · -- the voltage
    exact ⟨v / 5, [.drawn], by simp [effects, voltEffects, triggerParam, hedit, Param.spec],
      by simpa using hdrawn⟩
  · -- `/hexvoltage`, with or without its alpha and its voice
    have halpha : ∀ y, (Effect.assign .alpha y).Leaves .phrase ∧
        (Effect.assign .alpha y).Leaves .mode ∧ (Effect.assign .alpha y).Leaves .freq :=
      fun _ => ⟨Effect.leaves_assign (by decide), Effect.leaves_assign (by decide),
        Effect.leaves_assign (by decide)⟩
    have hvoice : ∀ y, (Effect.assign .voice y).Leaves .phrase ∧
        (Effect.assign .voice y).Leaves .mode ∧ (Effect.assign .voice y).Leaves .freq :=
      fun _ => ⟨Effect.leaves_assign (by decide), Effect.leaves_assign (by decide),
        Effect.leaves_assign (by decide)⟩
    have hheard : Effect.heard.Leaves .phrase ∧ Effect.heard.Leaves .mode ∧
      Effect.heard.Leaves .freq := ⟨trivial, trivial, trivial⟩
    refine ⟨x, _, rfl, ?_⟩
    split
    · simp
    split
    · simpa using halpha _
    · simp only [List.forall_mem_cons]
      exact ⟨halpha _, hvoice _, hheard, hdrawn, by simp⟩

theorem synths_perform_of_leaves {w : World} {f : Effect} (h : f.Leaves .phrase) :
    (engineOf (perform w f).log).synths = (engineOf w.log).synths := by
  cases f with
  | assign p x => cases p <;> first | rfl | exact absurd rfl h
  | drawn => rw [perform, log_drawn]
  | _ => rfl

theorem synths_foldl_of_leaves {w : World} {fs : List Effect} (h : ∀ f ∈ fs, f.Leaves .phrase) :
    (engineOf (fs.foldl perform w).log).synths = (engineOf w.log).synths :=
  foldl_invariant_of_forall
    (I := fun v => (engineOf v.log).synths = (engineOf w.log).synths)
    (fun _ _ hv hf => (synths_perform_of_leaves hf).trans hv) fs w rfl h

/-- The synth that the latest phrase command has started. -/
def startedSynth (w : World) : Option Synth := (engineOf w.log).synths.head?

theorem csPhrase_fits : csPhrase.Fits norns :=
  Controlspec.fits_lin (by norm_num) one_pos ⟨0, by simp⟩ ⟨15, by simp⟩

/-- **A trigger starts a synth** with the mode and the frequency of the engine
at that moment, and changes neither, nor what the screen shows of them. -/
theorem startedSynth_controls {w : World} {e : Event} (h : TriggersPhrase w e) :
    ∃ synth, startedSynth (step norns w e) = some synth ∧
      synth.mode = (engineOf w.log).voxMode ∧ synth.val = (engineOf w.log).voxFreq ∧
      (step norns w e).mode = w.mode ∧ (step norns w e).sent .freq = w.sent .freq := by
  obtain ⟨x, rest, heffects, hrest⟩ := effects_of_trigger norns h
  have hok : Param.phrase.Ok (csPhrase.map norns x) :=
    ok_of_allows (p := .phrase) ((csPhrase_fits norns).allows_map x)
  -- the phrase has a command, whatever the exponential warp
  rw [step_eq_effects, heffects, List.foldl_cons, perform]
  generalize csPhrase.map norns x = y at hok
  obtain ⟨m, hm⟩ := Option.isSome_iff_exists.mp (message_isSome_of_ok hok)
  obtain ⟨p, -, rfl⟩ := Option.map_eq_some_iff.mp hm
  have hlog : (w.assign .phrase y).log = .engine (.phrase p) y :: w.log := by
    simp [World.assign, hm]
  obtain ⟨hmode, -⟩ := foldl_perform_of_leaves (w := w.assign .phrase y) fun f hf =>
    (hrest f hf).2.1
  obtain ⟨-, hfreq⟩ := foldl_perform_of_leaves (w := w.assign .phrase y) fun f hf =>
    (hrest f hf).2.2
  -- the command starts the synth from the engine's fields
  let s := engineOf w.log
  refine ⟨⟨p.buf, s.voxFreq, s.voxMode, s.voxScale, s.voxAlpha, s.voxAmp, s.voxVoice⟩, ?_, rfl, rfl,
    Option.some.inj hmode, hfreq.trans (sent_assign_of_ne (by decide))⟩
  rw [startedSynth, synths_foldl_of_leaves fun f hf => (hrest f hf).1, hlog]
  rfl

-- ---------------------------------------------------------------------------
-- Shown and applied
-- ---------------------------------------------------------------------------

/-- The pitch that a mode names, of a frame's pitch `f` and a frequency `v`. -/
def pitchOf (m : FreqMode) (f v : ℚ) : ℚ :=
  audiblePitch
    (match m with
    | .off => f
    | .rep => v
    | .add => f + v
    | .mul => f * v)

/-- The frequency last sent to the engine, or the one it is loaded with. -/
def sentFreq (w : World) : ℚ := (w.sent .freq).getD 200

/-- The latest synth sounds as the screen shows: whatever the frame's pitch, a
vocoder that `setPitch` has given the controls of the synth prepares the pitch
that the mode on the screen names. -/
def ShowsPitch (w : World) : Prop :=
  ∃ synth m, startedSynth w = some synth ∧ displayedMode w = some m ∧
    ∀ (libm : Libm ℚ) (v : Vocoder ℚ) (frame : Frame ℚ) (force voiced ignoreVoicing : Bool),
      ((v.setPitch synth.val synth.mode force).prepare libm frame voiced ignoreVoicing).f0 =
        pitchOf m (frame.streams lf0StreamIndex 0) (sentFreq w)

/-- The pitch under the controls of a synth is that of MAGE's action of the
same number. -/
theorem showsPitch_iff_controlled {w : World} {synth : Synth} {m : FreqMode}
    (hsynth : startedSynth w = some synth) (hm : displayedMode w = some m) :
    ShowsPitch w ↔
      ∀ f : ℚ, controlled synth.mode (synth.val : ℚ) f = pitchOf m f (sentFreq w) := by
  refine ⟨?_, ?_⟩
  · rintro ⟨synth', m', hsynth', hm', h⟩ f
    obtain rfl := Option.some.inj (hsynth.symm.trans hsynth')
    obtain rfl := Option.some.inj (hm.symm.trans hm')
    -- a frame of pitch `f`
    exact h Libm.trivial (silent 0 0) (pitched f) false false false
  · intro h
    refine ⟨synth, m, hsynth, hm, ?_⟩
    intro libm v frame force voiced ignore
    exact h _

-- ---------------------------------------------------------------------------
-- The modes of a run
-- ---------------------------------------------------------------------------

/-- Mode and frequency are out of reach of the slips on `scale` and `voice`: they
agree with what was sent in every state. -/
theorem run_agrees {p : Param} (hp : p.HasCommand) (hvoice : p ≠ .voice) (hscale : p ≠ .scale)
    (es : List Event) : Agrees (run norns es) p := by
  have hperform : ∀ w f, Agrees w p → True → Agrees (perform w f) p := by
    intro w f hw _
    cases f with
    | assign q x =>
      by_cases hq : p = q
      · subst hq
        exact agrees_assign hp x
      · exact hw.of_leaves (f := .assign q x) hq
    | sendVoice x => exact hw.of_leaves (f := .sendVoice x) hvoice
    | loseScale => exact hw.of_leaves (f := .loseScale) hscale
    | edit x => exact hw.of_leaves (f := .edit x) trivial
    | heard => exact hw.of_leaves (f := .heard) trivial
    | drawn => exact hw.of_leaves (f := .drawn) trivial
  have hstep : ∀ w e, Agrees w p → Agrees (step norns w e) p := fun w e hw =>
    step_invariant norns (I := fun w => Agrees w p) hperform (fun _ _ => trivial) hw
  exact foldl_invariant hstep es _ (initial_agreed p hp)

/-- The frequency that the engine holds is the one last sent, at least 1. -/
theorem run_voxFreq (hexp : FreqWarps norns) (es : List Event) :
    ((engineOf (run norns es).log).voxFreq : ℚ) = sentFreq (run norns es) ∧
      1 ≤ sentFreq (run norns es) := by
  have hvar : IntIn 1 20000 (run norns es).freq :=
    (run_varOk hexp es (p := .freq) (by decide)).ok rfl
  obtain ⟨n, hn, hlo, -⟩ := hvar
  rw [engineOf_voxFreq, sentFreq]
  rcases run_agrees norns (p := .freq) ⟨by decide, by decide⟩ (by decide) (by decide) es with
    ⟨hnone, -⟩ | ⟨x, hx, hv⟩
  · -- never sent: 200 on both sides
    rw [hnone, show lastSent .freq (run norns es).log = none from hnone]
    norm_num
  · -- an integer, which the engine's truncation keeps
    obtain rfl : (run norns es).freq = x := Option.some.inj hv
    rw [hx, show lastSent .freq (run norns es).log = _ from hx, hn]
    simp only [truncate_intCast, Option.getD_some, true_and]
    exact_mod_cast hlo

theorem displayedMode_intCast {w : World} {n : Int} (hn : w.mode = n) (hlo : -1 ≤ n) :
    displayedMode w = freqModes[(n + 1).toNat]? := by
  have hcast : w.mode + 2 = ((n + 2 : Int) : ℚ) := by rw [hn]; push_cast; ring
  rw [displayedMode, hcast, luaIndex_intCast freqModes (by omega)]
  congr 2
  omega

/-- One less than the number of a mode is another mode's number, except for
`off`: below it MAGE leaves the pitch too. -/
theorem controlled_pred_eq_pitchOf_iff {n : Int} (hlo : -1 ≤ n) (hhi : n ≤ 2) {m : FreqMode}
    (hm : freqModes[(n + 1).toNat]? = some m) {v : ℚ} (hv : 1 ≤ v) :
    (∀ f : ℚ, controlled (n - 1) v f = pitchOf m f v) ↔ n = -1 := by
  obtain rfl | rfl | rfl | rfl : n = -1 ∨ n = 0 ∨ n = 1 ∨ n = 2 := by omega
  · obtain rfl : FreqMode.off = m := Option.some.inj hm
    exact ⟨fun _ => rfl, fun _ f => rfl⟩
  · -- shown `rep`, applied nothing
    obtain rfl : FreqMode.rep = m := Option.some.inj hm
    refine ⟨?_, by omega⟩
    intro h
    have h := h (v + 1)
    change audiblePitch (v + 1) = audiblePitch v at h
    rw [audiblePitch_of_nonneg (by linarith), audiblePitch_of_nonneg (by linarith)] at h
    linarith
  · -- shown `add`, applied `overwrite`
    obtain rfl : FreqMode.add = m := Option.some.inj hm
    refine ⟨?_, by omega⟩
    intro h
    have h := h 1
    change audiblePitch v = audiblePitch (1 + v) at h
    rw [audiblePitch_of_nonneg (by linarith), audiblePitch_of_nonneg (by linarith)] at h
    linarith
  · -- shown `mul`, applied `shift`
    obtain rfl : FreqMode.mul = m := Option.some.inj hm
    refine ⟨?_, by omega⟩
    intro h
    have h := h 0
    change audiblePitch (0 + v) = audiblePitch (0 * v) at h
    rw [audiblePitch_of_nonneg (by linarith), audiblePitch_of_nonneg (by linarith)] at h
    linarith

/--
**The mode shown is the mode applied**, up to the engine's subtraction: after
any run and any phrase trigger, the new synth sounds as the screen shows exactly
when the run has sent no mode, or has left the mode at `off`. -/
theorem showsPitch_iff (norns : Norns) (hexp : FreqWarps norns) (es : List Event) (e : Event)
    (htrigger : TriggersPhrase (run norns es) e) :
    ShowsPitch (step norns (run norns es) e) ↔
      (run norns es).sent .mode = none ∨ (run norns es).mode = -1 := by
  obtain ⟨synth, hsynth, hmode, hval, hsame, hfreq⟩ :=
    startedSynth_controls norns htrigger
  -- the frequency shown and the one applied are the same, and positive
  obtain ⟨hvoxFreq, hV⟩ := run_voxFreq norns hexp es
  have hV' : sentFreq (step norns (run norns es) e) = (synth.val : ℚ) := by
    rw [sentFreq, hfreq, hval, hvoxFreq, sentFreq]
  have hsynthV : (1 : ℚ) ≤ synth.val := by
    rw [hval, hvoxFreq]
    exact hV
  -- the mode shown is one of the four
  have hvar : IntIn (-1) 2 (run norns es).mode :=
    (run_varOk hexp es (p := .mode) (by decide)).ok rfl
  obtain ⟨n, hn, hlo, hhi⟩ := hvar
  have hdisplay := displayedMode_intCast (hsame.trans hn) hlo
  obtain ⟨m, hm⟩ : ∃ m, freqModes[(n + 1).toNat]? = some m :=
    ⟨_, List.getElem?_eq_getElem (by simp [freqModes]; omega)⟩
  rw [showsPitch_iff_controlled hsynth (hdisplay.trans hm), hV', hmode, engineOf_voxMode]
  rcases run_agrees norns (p := .mode) ⟨by decide, by decide⟩ (by decide) (by decide) es with
    ⟨hnone, hloaded⟩ | ⟨x, hx, hv⟩
  · -- as loaded: the engine's 1 beside the script's 1
    have hn1 : (n : ℚ) = 1 := by rw [← hn]; exact Option.some.inj hloaded
    obtain rfl : n = 1 := by exact_mod_cast hn1
    obtain rfl : FreqMode.add = m := Option.some.inj hm
    rw [show lastSent .mode (run norns es).log = none from hnone]
    exact ⟨fun _ => .inl hnone, fun _ f => rfl⟩
  · -- sent: what is shown, less one
    obtain rfl : (run norns es).mode = x := Option.some.inj hv
    rw [show lastSent .mode (run norns es).log = _ from hx, hx, hn]
    simp only [truncate_intCast]
    rw [controlled_pred_eq_pitchOf_iff hlo hhi hm hsynthV]
    have hcast : (n : ℚ) = -1 ↔ n = -1 := by
      rw [← Int.cast_one, ← Int.cast_neg, Int.cast_inj]
    simp [hcast]

/-- Two presses of K3 take the mode from `add` through `mul` to `off`, which is applied. -/
theorem showsPitch_iff_two_presses :
    let presses : List Event := [.enc 2 none, .enc 2 none, .enc 2 none, .key 3 1, .key 3 1]
    ((run .chord presses).sent .mode).isSome ∧ displayedMode (run .chord presses) = some .off ∧
      ShowsPitch (step .chord (run .chord presses) (.param .phrase 0)) := by
  intro presses
  refine ⟨by decide +kernel, by decide +kernel, ?_⟩
  exact (showsPitch_iff .chord (chord_warps (by norm_num [freqMax])) presses (.param .phrase 0)
    (.inl ⟨0, rfl⟩)).mpr (.inr (by decide +kernel))

/-- Three turns of E2 to the pitch mode, one press of K3, and phrase 0. -/
def pressToMul : World :=
  step .chord (run .chord [.enc 2 none, .enc 2 none, .enc 2 none, .key 3 1]) (.param .phrase 0)

/-- The screen goes from `add` to `mul`, and the synth adds. -/
theorem mul_shown_adds : displayedMode pressToMul = some .mul ∧ ¬ ShowsPitch pressToMul := by
  have hdisplay : displayedMode pressToMul = some .mul := by decide +kernel
  have hsynth : startedSynth pressToMul = some ⟨0, 200, 1, 1, 55 / 100, 1, 0⟩ := by decide +kernel
  refine ⟨hdisplay, ?_⟩
  intro h
  have h := (showsPitch_iff_controlled hsynth hdisplay).mp h 0
  change audiblePitch (0 + ((200 : Int) : ℚ)) = audiblePitch (0 * sentFreq pressToMul) at h
  rw [zero_mul, audiblePitch_of_nonneg (by norm_num), audiblePitch_of_nonneg le_rfl] at h
  norm_num at h

end Vox.Engine
