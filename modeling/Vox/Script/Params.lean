import Vox.Script.Validity

/-!
# Script — what a parameter edit does

norns edits a parameter by calling its action with a value of its
specification. The actions map that value once more, as if it were a raw value
of the unit interval, so all but a few values come out as an end of the range;
the action of `voice` is wired to the setter of `mute`, and that setter toggles
whatever value it gets.

Main results:

* `map_eq_self_iff` — the allowed values that a second map leaves.
* `action_setsExactly_iff` — an edit sets its parameter to the value asked for,
  and changes nothing else, exactly for these values.
-/

namespace Vox.Script

open Lib

/-! ## Mapping a mapped value -/

section Map

variable {norns : Norns} {v : ℚ}

/-- On the integers a second map goes to an end of the range. -/
theorem map_eq_self_iff_of_int {cs : Controlspec} (hfits : cs.Fits norns) (hv : ∃ n : Int, v = n) :
    cs.map norns v = v ↔ (v ≤ 0 ∧ v = cs.minval) ∨ (1 ≤ v ∧ v = cs.maxval) := by
  obtain ⟨n, rfl⟩ := hv
  -- the clamp sends an integer to 0 or to 1
  rcases le_or_gt n 0 with hn | hn
  · have hle : (n : ℚ) ≤ 0 := by exact_mod_cast hn
    have hlt : ¬ 1 ≤ (n : ℚ) := by linarith
    rw [hfits.map_of_nonpos hle]
    simp [hle, hlt, eq_comm]
  · have hge : 1 ≤ (n : ℚ) := by exact_mod_cast hn
    have hlt : ¬ (n : ℚ) ≤ 0 := by linarith
    rw [hfits.map_of_one_le hge]
    simp [hge, hlt, eq_comm]

/-- Below 1, a second map of a hundredth moves it towards the maximum, and
rounds back only where the move is less than half a step. -/
theorem map_eq_self_iff_of_lt_one {hi : ℚ} (hhi : 1 ≤ hi)
    (hv : Controlspec.Allows ⟨voxMin, hi, .lin, voxMin⟩ v) (hlt : v < 1) :
    Controlspec.map norns ⟨voxMin, hi, .lin, voxMin⟩ v = v ↔
      v * (hi - voxMin) < v - voxMin / 2 := by
  obtain ⟨hlo, -, n, hn⟩ := hv
  have hpos : (0 : ℚ) < voxMin := by norm_num [voxMin]
  have h0 : 0 ≤ v := hpos.le.trans hlo
  have hgrow : v ≤ voxMin + v * (hi - voxMin) := by
    have : 0 ≤ v * (hi - 1) := mul_nonneg h0 (by linarith)
    have : 0 ≤ voxMin * (1 - v) := mul_nonneg hpos.le (by linarith)
    linarith
  rw [Controlspec.map, clamp_of_mem h0 hlt.le]
  show roundStep voxMin (voxMin + v * (hi - voxMin)) = v ↔ _
  set y := voxMin + v * (hi - voxMin) with hy
  have hround : roundStep voxMin y = v ↔ (n - 1 / 2) * voxMin ≤ y ∧ y < (n + 1 / 2) * voxMin := by
    rw [← roundStep_eq_iff hpos, ← hn]
  have hn : n * voxMin = v := hn.symm
  -- the value only grows, so the lower bound is free
  rw [hround, and_iff_right (by linarith)]
  refine ⟨?_, ?_⟩
  · intro h
    linarith
  · intro h
    linarith

/-- The values of each parameter that a second map leaves. -/
def Param.Fixed : Param → ℚ → Prop
  | .mute, v => v = 0 ∨ v = 1
  | .voice, v => v = 0 ∨ v = 5
  | .phrase, v => v = 0 ∨ v = 15
  | .freq, v => v = 20000
  | .mode, v => v = -1 ∨ v = 2
  | .scale, v => v = 60
  | .alpha, v => 51 / 100 ≤ v
  | .gap, v => v = 60

theorem allows_int {p : Param} (hp : p.spec.step = 1) (hv : p.spec.Allows v) :
    ∃ n : Int, v = n := by
  obtain ⟨-, -, n, hn⟩ := hv
  exact ⟨n, by rw [hn, hp, mul_one]⟩

/-- On a wide range of hundredths only the maximum stays. -/
theorem map_eq_self_iff_of_wide {hi : ℚ} (hhi : 2 ≤ hi)
    (hfits : Controlspec.Fits norns ⟨voxMin, hi, .lin, voxMin⟩)
    (hv : Controlspec.Allows ⟨voxMin, hi, .lin, voxMin⟩ v) :
    Controlspec.map norns ⟨voxMin, hi, .lin, voxMin⟩ v = v ↔ v = hi := by
  have hpos : (0 : ℚ) < voxMin := by norm_num [voxMin]
  rcases lt_or_ge v 1 with hlt | hge
  · rw [map_eq_self_iff_of_lt_one (by linarith) hv hlt]
    have hsmall : voxMin < 1 := by norm_num [voxMin]
    have hmove : v ≤ v * (hi - voxMin) :=
      le_mul_of_one_le_right (hpos.le.trans hv.1) (by linarith)
    -- below 1 neither side holds
    refine ⟨?_, ?_⟩
    · intro h
      linarith
    · intro h
      linarith
  · rw [hfits.map_of_one_le hge]
    exact eq_comm

theorem map_eq_self_iff_alpha (hfits : csAlpha.Fits norns) (hv : csAlpha.Allows v) :
    csAlpha.map norns v = v ↔ 51 / 100 ≤ v := by
  obtain ⟨-, hhi, n, hn⟩ := id hv
  rcases lt_or_ge v 1 with hlt | hge
  · have hone : (1 : ℚ) ≤ alphaMax := le_rfl
    rw [csAlpha, map_eq_self_iff_of_lt_one hone hv hlt]
    -- no value of the grid lies between
    have hgrid : 1 / 2 < v ↔ 51 / 100 ≤ v := by
      simp only [csAlpha, voxMin] at hn
      refine ⟨?_, ?_⟩
      · intro h
        have : (50 : ℚ) < n := by linarith
        have : (51 : ℚ) ≤ n := by exact_mod_cast (by exact_mod_cast this : (50 : Int) < n)
        linarith
      · intro h
        linarith
    rw [← hgrid]
    simp only [alphaMax, voxMin]
    refine ⟨?_, ?_⟩
    · intro h
      linarith
    · intro h
      linarith
  · -- the maximum itself
    have hone : csAlpha.maxval = 1 := rfl
    rw [hfits.map_of_one_le hge]
    rw [hone] at hhi ⊢
    refine ⟨?_, ?_⟩
    · intro
      linarith
    · intro
      linarith

/-- **The values that survive a second map.** -/
theorem map_eq_self_iff (hexp : FreqWarps norns) {p : Param} (hv : p.spec.Allows v) :
    p.spec.map norns v = v ↔ p.Fixed v := by
  have hfits := spec_fits hexp p
  have hint : p.spec.step = 1 → (p.spec.map norns v = v ↔
      (v ≤ 0 ∧ v = p.spec.minval) ∨ (1 ≤ v ∧ v = p.spec.maxval)) :=
    fun hp => map_eq_self_iff_of_int hfits (allows_int hp hv)
  cases p
  case scale | gap => exact map_eq_self_iff_of_wide (by norm_num [scaleMax, gapMax]) hfits hv
  case alpha => exact map_eq_self_iff_alpha hfits hv
  -- the minimum of `freq` is 1, which a second map sends to the maximum
  case freq =>
    rw [hint rfl]
    simp only [Param.spec, csFreq, freqMax, Param.Fixed]
    refine ⟨?_, ?_⟩
    · rintro (⟨h, rfl⟩ | ⟨-, rfl⟩)
      · norm_num at h
      · rfl
    · rintro rfl
      norm_num
  all_goals
    rw [hint rfl]
    simp only [Param.spec, csMute, csVoice, csPhrase, csMode, Param.Fixed]
    refine ⟨?_, ?_⟩
    · rintro (⟨h, rfl⟩ | ⟨h, rfl⟩) <;> norm_num at h ⊢
    · intro h
      rcases h with rfl | rfl <;> norm_num

end Map

/-! ## Edits -/

/-- The world goes from `w` to `w'` by setting the variable and the sent value
of `p` to `v`, and by nothing else. -/
structure SetsExactly (p : Param) (v : ℚ) (w w' : World) : Prop where
  var : w'.var p = some v
  sent : w'.sent p = some v
  frame_var : ∀ q, q ≠ p → w'.var q = w.var q
  frame_sent : ∀ q, q ≠ p → w'.sent q = w.sent q
  frame_edit : w'.edit = w.edit
  frame_rxOsc : w'.rxOsc = w.rxOsc

/-- An assignment sets exactly its parameter. -/
theorem assign_setsExactly_iff {w : World} {p : Param} {x v : ℚ} (hx : (p.message x).isSome) :
    SetsExactly p v w (w.assign p x) ↔ x = v := by
  refine ⟨?_, ?_⟩
  · intro h
    exact Option.some.inj (var_assign_self.symm.trans h.var)
  · rintro rfl
    exact ⟨var_assign_self, sent_assign_self hx, fun q hq => var_assign_of_ne hq,
      fun q hq => sent_assign_of_ne hq, edit_assign, rxOsc_assign⟩

theorem toggled_ne (x : ℚ) : toggled x ≠ x := by
  unfold toggled
  split
  · rename_i h
    rw [h]
    norm_num
  · rename_i h
    exact fun heq => h heq.symm

theorem toggled_eq_iff {x v : ℚ} (hx : IntIn 0 1 x) (hv : IntIn 0 1 v) : toggled x = v ↔ v ≠ x := by
  refine ⟨?_, ?_⟩
  · rintro rfl
    exact toggled_ne x
  · intro hne
    obtain ⟨n, rfl, hn0, hn1⟩ := hx
    obtain ⟨m, rfl, hm0, hm1⟩ := hv
    have hnm : m ≠ n := fun h => hne (by rw [h])
    obtain rfl | rfl : n = 0 ∨ n = 1 := by omega
    · obtain rfl : m = 1 := by omega
      simp [toggled]
    · obtain rfl : m = 0 := by omega
      simp [toggled]

/-- The values that an edit of a parameter gets right: `mute` is toggled, so it
must differ from what it is; `voice` is never set; the others must survive a
second map. -/
def EditHolds (w : World) (p : Param) (v : ℚ) : Prop :=
  match p with
  | .mute => v ≠ w.mute
  | .voice => False
  | p => p.Fixed v

/--
**What a parameter edit does.** In every state of every run, the action of a
parameter, called with an allowed value, sets exactly that parameter to that
value if and only if `EditHolds` says so. -/
theorem action_setsExactly_iff (norns : Norns) (hexp : FreqWarps norns) (es : List Event)
    (p : Param) (v : ℚ) (hv : p.spec.Allows v) :
    SetsExactly p v (run norns es) ((action norns p v).exec (run norns es)) ↔
      EditHolds (run norns es) p v := by
  rw [Cmd.exec, action_apply, actionEffect]
  generalize hw : run norns es = w
  by_cases hmv : p = .mute ∨ p = .voice
  · rw [if_pos hmv]
    rcases hmv with rfl | rfl
    · -- a toggle is right when there is something to toggle
      rw [perform, assign_setsExactly_iff rfl]
      have hmute : VarOk (run norns es) .mute := run_varOk hexp es (by decide)
      exact toggled_eq_iff (hw ▸ hmute.ok rfl) (ok_of_allows hv)
    · -- the setter of `mute` moves `mute`
      refine ⟨?_, False.elim⟩
      intro h
      have hmute := h.frame_var .mute (by decide)
      rw [perform, var_assign_self] at hmute
      exact toggled_ne w.mute (Option.some.inj hmute)
  · -- an assignment of the value mapped once more
    rw [if_neg hmv, perform, assign_setsExactly_iff (message_isSome_of_ok (map_ok hexp p v)),
      map_eq_self_iff hexp hv]
    rw [not_or] at hmv
    cases p
    case mute => exact absurd rfl hmv.1
    case voice => exact absurd rfl hmv.2
    all_goals rfl

/-- An edit of `phrase` to its maximum. -/
theorem phrase_edit_setsExactly_iff :
    SetsExactly .phrase 15 (run .chord []) ((action .chord .phrase 15).exec (run .chord [])) ↔
      EditHolds (run .chord []) .phrase 15 :=
  action_setsExactly_iff .chord (chord_warps (by norm_num [freqMax])) [] .phrase 15
    ⟨by norm_num [Param.spec, csPhrase], by norm_num [Param.spec, csPhrase], 15, by
      norm_num [Param.spec, csPhrase]⟩

/-- An edit of `voice` to 3 in the script as it is loaded: the voice stays 5
and the output is turned off. -/
theorem voice_edit_turns_output_off :
    Param.voice.spec.Allows 3 ∧
      ¬ SetsExactly .voice 3 World.initial ((action .chord .voice 3).exec World.initial) := by
  refine ⟨⟨by norm_num [Param.spec, csVoice], by norm_num [Param.spec, csVoice], 3, by
    norm_num [Param.spec, csVoice]⟩, ?_⟩
  intro h
  have hmute := h.frame_var .mute (by decide)
  have hoff : ((action .chord .voice 3).exec World.initial).var .mute = some 0 := by decide +kernel
  rw [hoff] at hmute
  exact absurd (Option.some.inj hmute) (by norm_num [World.initial])

end Vox.Script
