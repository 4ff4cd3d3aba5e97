import Vox.Mage.EngineMap
import Vox.Mage.VocoderReset

/-!
# MAGE — resetting the weights of the voices

Each voice has a weight for every stream and for the durations. `reset` is to discard what
the host has set: it gives the weights their default value and normalises them. It does so
only for a stream whose entry of `interpolationWeights` is not zero. The entry is the sum of
the weights at the last reset; before the first one nothing has set it.

* `reset_restores_iff` — in every history the weights after a reset are those of voices that
  count alike, exactly when no entry is zero where the weights differ or are not positive;
  and the reset leaves nothing for a second one to do, exactly when no entry is zero where a
  weight is not the default one.
-/

namespace Vox.Mage

open Lib

-- ---------------------------------------------------------------------------
-- The weights and their sums
-- ---------------------------------------------------------------------------

/-- `Mage`, with the members that `reset` sets. -/
structure Mixer where
  mage : Mage
  interpolationWeights : Nat → ℚ
  sampleCount : Int
  hopLen : Int
  vocoder : Vocoder ℚ

namespace Mixer

/-- `init()`; what the constructors leave uninitialised is given. -/
def init (updateFunction : Nat → ℚ) (model : Nat → Model) (interpolationWeights : Nat → ℚ)
    (gamma actionValue : ℚ) : Mixer where
  mage := Mage.init updateFunction model
  interpolationWeights := interpolationWeights
  sampleCount := 0
  hopLen := defaultFrameRate
  vocoder := Vocoder.new gamma actionValue

/-- The voices of the map, in its order. -/
def voices (m : Mixer) : List Voice := m.mage.engine.values.filterMap id

/-- The weights of the voices for stream `i`. -/
def weights (m : Mixer) (i : Nat) : List ℚ := m.voices.map fun voice => voice.1 i

/-- The same function of the weights, for all voices and the entries of their arrays. -/
def mapWeights (m : Mixer) (f : Nat → ℚ → ℚ) : Mixer :=
  let each (voice : Voice) : Voice :=
    (fun i => if i < nOfStreams + 1 then f i (voice.1 i) else voice.1 i, voice.2)
  { m with mage := { m.mage with engine := m.mage.engine.map (Option.map each) } }

/-- `Mage::checkInterpolationFunctions` -/
def checkInterpolationFunctions (m : Mixer) : Mixer :=
  let m := { m with
    interpolationWeights := fun i =>
      if i < nOfStreams + 1 then m.voices.foldl (fun sum (voice : Voice) => sum + |voice.1 i|) 0
      else m.interpolationWeights i }
  m.mapWeights fun i w =>
    if m.interpolationWeights i ≠ 0 then w / m.interpolationWeights i else w

/-- The first part of `Mage::reset`. -/
def resetControls (m : Mixer) : Mixer :=
  { m with
    mage := { m.mage with
      flag := true, labelSpeed := 1, action := noaction, interpolationFlag := false }
    sampleCount := 0
    hopLen := defaultFrameRate
    vocoder := m.vocoder.reset }

/-- `Mage::reset` -/
def reset (m : Mixer) : Mixer :=
  let m := m.resetControls
  let m := m.mapWeights fun i w =>
    if m.interpolationWeights i ≠ 0 then (defaultInterpolationWeight : ℚ) else w
  m.checkInterpolationFunctions

/-- `Mage::setInterpolationFunctions` -/
def setInterpolationFunctions (m : Mixer)
    (interpolationFunctionsSet : SortedMap (List Char) (Nat → ℚ)) : Mixer :=
  let assign (mage : Mage) (it : List Char × (Nat → ℚ)) : Mage :=
    let each (voice : Voice) : Voice :=
      (fun i => if i < nOfStreams + 1 then it.2 i else voice.1 i, voice.2)
    { mage with engine := mage.engine.adjust it.1 (Option.map each) }
  { m with mage := interpolationFunctionsSet.entries.foldl assign m.mage }

inductive Call
  | addEngine (EngineName : List Char) (loaded : Engine)
  | removeEngine (EngineName : List Char)
  | setInterpolationFunctions (interpolationFunctionsSet : SortedMap (List Char) (Nat → ℚ))
  | reset

def call (m : Mixer) : Call → Mixer
  | .addEngine EngineName loaded => { m with mage := m.mage.addEngine EngineName loaded }
  | .removeEngine EngineName => { m with mage := m.mage.removeEngine EngineName }
  | .setInterpolationFunctions set => m.setInterpolationFunctions set
  | .reset => m.reset

-- ---------------------------------------------------------------------------
-- One stream
-- ---------------------------------------------------------------------------

/-- The weight that a reset starts from. -/
def restart (sum w : ℚ) : ℚ := if sum ≠ 0 then defaultInterpolationWeight else w

/-- The sum that a reset leaves. -/
def newSum (sum : ℚ) (ws : List ℚ) : ℚ := (ws.map fun w => |restart sum w|).sum

/-- The weight that a reset leaves. -/
def newWeight (sum : ℚ) (ws : List ℚ) (w : ℚ) : ℚ :=
  if newSum sum ws ≠ 0 then restart sum w / newSum sum ws else restart sum w

theorem sum_map_const (ws : List ℚ) (c : ℚ) : (ws.map fun _ => c).sum = ws.length * c := by
  rw [List.map_const', List.sum_replicate, nsmul_eq_mul]

/-- A sum that is not 0 makes every weight 1 first. -/
theorem newSum_of_ne {sum : ℚ} (h : sum ≠ 0) (ws : List ℚ) : newSum sum ws = ws.length := by
  simp only [newSum, restart, if_pos h]
  rw [sum_map_const]
  norm_num [defaultInterpolationWeight]

/-- A sum of 0 leaves the weights, and then sums them. -/
theorem newSum_of_const {c : ℚ} (hc : 0 ≤ c) {ws : List ℚ} (h : ∀ w ∈ ws, w = c) :
    newSum 0 ws = ws.length * c := by
  rw [← sum_map_const, newSum]
  congr 1
  refine List.map_congr_left fun w hw => ?_
  rw [restart, if_neg (not_not.mpr rfl), h w hw, abs_of_nonneg hc]

/-- The sum that is stored is not negative. -/
theorem newSum_nonneg (sum : ℚ) (ws : List ℚ) : 0 ≤ newSum sum ws :=
  List.sum_nonneg fun x hx => by
    obtain ⟨w, -, rfl⟩ := List.mem_map.mp hx
    exact abs_nonneg _

/-- The weights of a stream count alike after a reset. -/
theorem newWeight_uniform_iff (sum : ℚ) {ws : List ℚ} (hne : ws ≠ []) :
    (∀ w ∈ ws, newWeight sum ws w = 1 / ws.length) ↔
      sum ≠ 0 ∨ ∃ c, 0 < c ∧ ∀ w ∈ ws, w = c := by
  have hlength : (0 : ℚ) < ws.length := Nat.cast_pos.mpr (List.length_pos_iff.mpr hne)
  by_cases hsum : sum = 0
  · subst hsum
    have hweight : ∀ w, newWeight 0 ws w = if newSum 0 ws ≠ 0 then w / newSum 0 ws else w :=
      fun w => rfl
    simp only [hweight, ne_eq, not_true_eq_false, false_or]
    by_cases hnew : newSum 0 ws = 0
    · -- nothing is divided
      simp only [hnew, not_true_eq_false, if_false]
      constructor
      · exact fun h => ⟨1 / ws.length, by positivity, h⟩
      · rintro ⟨c, hc, h⟩
        rw [newSum_of_const hc.le h] at hnew
        exact absurd hnew (mul_pos hlength hc).ne'
    -- each weight is divided by the sum, so equal quotients are equal weights
    · have hpos : 0 < newSum 0 ws := lt_of_le_of_ne (newSum_nonneg 0 ws) (Ne.symm hnew)
      simp only [hnew, not_false_eq_true, if_true]
      constructor
      · intro h
        refine ⟨newSum 0 ws / ws.length, by positivity, fun w hw => ?_⟩
        have := h w hw
        field_simp at this ⊢
        linarith
      · rintro ⟨c, hc, h⟩ w hw
        rw [newSum_of_const hc.le h, h w hw]
        field_simp
  · -- the default weights, of which there are as many as voices
    refine iff_of_true (fun w _ => ?_) (.inl hsum)
    rw [newWeight, newSum_of_ne hsum, if_pos hlength.ne', restart, if_pos hsum]
    norm_num [defaultInterpolationWeight]

/-- Weights that count alike are left as they are by another reset. -/
theorem newWeight_of_uniform (sum : ℚ) {ws : List ℚ} (hne : ws ≠ [])
    (h : ∀ w ∈ ws, w = 1 / ws.length) {w : ℚ} (hw : w ∈ ws) : newWeight sum ws w = w := by
  have hlength : (0 : ℚ) < ws.length := Nat.cast_pos.mpr (List.length_pos_iff.mpr hne)
  have huniform := (newWeight_uniform_iff sum hne).mpr (.inr ⟨1 / ws.length, by positivity, h⟩)
  rw [huniform w hw, h w hw]

/-- The sum that the first reset has left is the one that a second one leaves. -/
theorem newSum_newSum_iff (sum : ℚ) {ws : List ℚ} (hne : ws ≠ [])
    (huniform : ∀ w ∈ ws, newWeight sum ws w = 1 / ws.length) :
    newSum (newSum sum ws) (ws.map (newWeight sum ws)) = newSum sum ws ↔
      sum ≠ 0 ∨ ∀ w ∈ ws, w = 1 := by
  have hlength : (0 : ℚ) < ws.length := Nat.cast_pos.mpr (List.length_pos_iff.mpr hne)
  by_cases hsum : sum = 0
  · subst hsum
    -- the first reset leaves the sum of the weights, the second one their number
    obtain ⟨c, hc, hall⟩ := ((newWeight_uniform_iff 0 hne).mp huniform).resolve_left (by simp)
    have hfirst := newSum_of_const hc.le hall
    have hpos : newSum 0 ws ≠ 0 := by
      rw [hfirst]
      positivity
    rw [newSum_of_ne hpos, List.length_map, hfirst]
    simp only [ne_eq, not_true_eq_false, false_or]
    -- the two agree when the common weight is 1
    obtain ⟨w, hw⟩ := List.exists_mem_of_ne_nil ws hne
    constructor
    · intro heq w hw
      rw [hall w hw]
      exact mul_left_cancel₀ hlength.ne' (heq.symm.trans (mul_one _).symm)
    · intro hone
      rw [← hall w hw, hone w hw, mul_one]
  · have hfirst := newSum_of_ne hsum ws
    refine iff_of_true ?_ (.inl hsum)
    rw [newSum_of_ne (by rw [hfirst]; exact hlength.ne'), hfirst, List.length_map]

-- ---------------------------------------------------------------------------
-- All streams
-- ---------------------------------------------------------------------------

/-- The weights of a stream are those that were set. -/
theorem weights_mapWeights (m : Mixer) (f : Nat → ℚ → ℚ) {i : Nat} (hi : i < nOfStreams + 1) :
    (m.mapWeights f).weights i = (m.weights i).map (f i) := by
  simp only [weights, voices, Mixer.mapWeights, SortedMap.values_map, List.filterMap_map,
    List.map_filterMap, Function.comp_def, id_eq, Option.map_map, if_pos hi]

/-- Setting them twice is setting them once. -/
theorem mapWeights_mapWeights (m : Mixer) (f g : Nat → ℚ → ℚ) :
    (m.mapWeights f).mapWeights g = m.mapWeights fun i w => g i (f i w) := by
  simp only [Mixer.mapWeights, SortedMap.map_map]
  congr 3
  funext voice
  cases voice with
  | none => rfl
  | some voice =>
    simp only [Function.comp_apply, Option.map_some, Option.some.injEq, Prod.mk.injEq, and_true]
    funext i
    split <;> rfl

/-- Only the streams that there are count. -/
theorem mapWeights_congr (m : Mixer) {f g : Nat → ℚ → ℚ}
    (h : ∀ i < nOfStreams + 1, ∀ w, f i w = g i w) : m.mapWeights f = m.mapWeights g := by
  simp only [Mixer.mapWeights]
  congr 3
  funext voice
  refine Option.map_congr fun voice _ => ?_
  simp only [Prod.mk.injEq, and_true]
  funext i
  split
  · rename_i hi
    exact h i hi _
  · rfl

/-- The weights that a function leaves as they are. -/
theorem mapWeights_eq_self_iff (m : Mixer) (f : Nat → ℚ → ℚ) :
    m.mapWeights f = m ↔ ∀ i < nOfStreams + 1, ∀ w ∈ m.weights i, f i w = w := by
  constructor
  · intro heq i hi
    have hmap : (m.weights i).map (f i) = (m.weights i).map id := by
      rw [← weights_mapWeights m f hi, heq, List.map_id]
    exact List.map_inj_left.mp hmap
  · intro h
    have hengine : m.mage.engine.map (Option.map fun voice : Voice =>
        (fun i => if i < nOfStreams + 1 then f i (voice.1 i) else voice.1 i, voice.2)) =
        m.mage.engine := by
      -- entry by entry, as two functions mapped over the same map
      conv_rhs => rw [← SortedMap.map_id m.mage.engine]
      rw [SortedMap.map_eq_map_iff]
      intro entry hentry
      cases entry with
      | none => rfl
      | some voice =>
        simp only [Option.map_some, id_eq, Option.some.injEq]
        refine Prod.ext (funext fun i => ?_) rfl
        simp only
        split
        · rename_i hi
          exact h i hi _ (List.mem_map.mpr ⟨voice, List.mem_filterMap.mpr ⟨_, hentry, rfl⟩, rfl⟩)
        · rfl
    rw [Mixer.mapWeights]
    simp only [hengine]

/-- The sum of the weights of a stream. -/
theorem foldl_abs (m : Mixer) (i : Nat) :
    m.voices.foldl (fun sum (voice : Voice) => sum + |voice.1 i|) 0 =
      ((m.weights i).map abs).sum := by
  -- the induction needs the sum so far
  have hfoldl : ∀ (vs : List Voice) (start : ℚ),
      vs.foldl (fun sum (voice : Voice) => sum + |voice.1 i|) start =
        start + ((vs.map fun voice => voice.1 i).map abs).sum := by
    intro vs
    induction vs with
    | nil => simp
    | cons v vs ih =>
      intro start
      rw [List.foldl_cons, ih, List.map_cons, List.map_cons, List.sum_cons, add_assoc]
  rw [hfoldl, zero_add, weights]

/-- The entries that a reset leaves. -/
def newSums (m : Mixer) (i : Nat) : ℚ :=
  if i < nOfStreams + 1 then newSum (m.interpolationWeights i) (m.weights i)
  else m.interpolationWeights i

theorem newSums_of_lt (m : Mixer) {i : Nat} (hi : i < nOfStreams + 1) :
    m.newSums i = newSum (m.interpolationWeights i) (m.weights i) := if_pos hi

/-- A reset, as a function of the sums and the weights before it. -/
theorem reset_eq (m : Mixer) :
    m.reset = Mixer.mapWeights { m.resetControls with interpolationWeights := m.newSums }
      fun i w => newWeight (m.interpolationWeights i) (m.weights i) w := by
  set restarted := m.resetControls.mapWeights fun i w => restart (m.interpolationWeights i) w
    with hrestarted
  have hsums : (fun i => if i < nOfStreams + 1 then
      restarted.voices.foldl (fun sum (voice : Voice) => sum + |voice.1 i|) 0
      else restarted.interpolationWeights i) = m.newSums := by
    funext i
    rw [newSums]
    split
    · rename_i hi
      rw [foldl_abs, hrestarted, weights_mapWeights _ _ hi, List.map_map]
      rfl
    · rfl
  -- the sums are stored first, and the division reads the stored ones
  have hcheck : m.reset = (fun S : Nat → ℚ =>
      Mixer.mapWeights { restarted with interpolationWeights := S }
        fun i w => if S i ≠ 0 then w / S i else w) (fun i => if i < nOfStreams + 1 then
      restarted.voices.foldl (fun sum (voice : Voice) => sum + |voice.1 i|) 0
      else restarted.interpolationWeights i) := rfl
  rw [hsums] at hcheck
  calc m.reset = (Mixer.mapWeights { m.resetControls with interpolationWeights := m.newSums }
          fun i w => restart (m.interpolationWeights i) w).mapWeights
          fun i w => if m.newSums i ≠ 0 then w / m.newSums i else w := hcheck
    _ = _ := by
        rw [mapWeights_mapWeights]
        refine mapWeights_congr _ fun i hi w => ?_
        rw [newSums_of_lt m hi, newWeight]

/-- The reset stores the sums that it finds. -/
theorem interpolationWeights_reset (m : Mixer) : m.reset.interpolationWeights = m.newSums := by
  rw [reset_eq]
  rfl

/-- The reset divides the weights by their sum. -/
theorem weights_reset (m : Mixer) {i : Nat} (hi : i < nOfStreams + 1) :
    m.reset.weights i =
      (m.weights i).map (newWeight (m.interpolationWeights i) (m.weights i)) := by
  rw [reset_eq, weights_mapWeights _ _ hi]
  rfl

/-- When setting weights and sums changes nothing. -/
theorem mapWeights_with_eq_self_iff (m : Mixer) (sums : Nat → ℚ) (f : Nat → ℚ → ℚ) :
    Mixer.mapWeights { m with interpolationWeights := sums } f = m ↔
      sums = m.interpolationWeights ∧ m.mapWeights f = m := by
  constructor
  · intro heq
    obtain rfl : sums = m.interpolationWeights := congrArg Mixer.interpolationWeights heq
    exact ⟨rfl, heq⟩
  · rintro ⟨rfl, heq⟩
    exact heq

/-- A second reset finds only weights to change. -/
theorem reset_reset_eq (m : Mixer) :
    m.reset.reset = Mixer.mapWeights { m.reset with interpolationWeights := m.reset.newSums }
      fun i w => newWeight (m.newSums i) (m.reset.weights i) w := by
  -- what is not a weight was reset by the first one
  have hcontrols : m.reset.resetControls = m.reset := by
    rw [reset_eq]
    simp only [resetControls, Mixer.mapWeights, Vocoder.reset, List.map_map, Function.comp_def]
  have hsecond := reset_eq m.reset
  rwa [hcontrols, interpolationWeights_reset] at hsecond

/-- A second reset changes nothing when the sums and the weights are fixed. -/
theorem reset_reset_iff (m : Mixer) :
    m.reset.reset = m.reset ↔
      m.reset.newSums = m.newSums ∧
        ∀ i < nOfStreams + 1, ∀ w ∈ m.reset.weights i,
          newWeight (m.newSums i) (m.reset.weights i) w = w := by
  rw [reset_reset_eq, mapWeights_with_eq_self_iff, interpolationWeights_reset,
    mapWeights_eq_self_iff]

-- ---------------------------------------------------------------------------
-- No voice is null
-- ---------------------------------------------------------------------------

/-- The entries of the map have their voices. -/
def Loaded (m : Mixer) : Prop := ∀ e ∈ m.mage.engine.entries, e.2 ≠ none

variable {m : Mixer}

/-- Nothing is left out of a list of values that are there. -/
theorem length_filterMap_of_some {α : Type*} {os : List (Option α)} (h : ∀ o ∈ os, o ≠ none) :
    (os.filterMap id).length = os.length := by
  induction os with
  | nil => rfl
  | cons o os ih =>
    obtain ⟨x, rfl⟩ := Option.ne_none_iff_exists'.mp (h o List.mem_cons_self)
    rw [List.filterMap_cons_some (f := id) (b := x) rfl, List.length_cons, List.length_cons,
      ih fun o ho => h o (List.mem_cons_of_mem _ ho)]

theorem Loaded.length_voices (h : m.Loaded) : m.voices.length = m.mage.engine.keys.length := by
  have hvalues : ∀ o ∈ m.mage.engine.values, o ≠ none := by
    intro o ho
    obtain ⟨e, he, rfl⟩ := List.mem_map.mp ho
    exact h e he
  rw [voices, length_filterMap_of_some hvalues, SortedMap.values, SortedMap.keys, List.length_map,
    List.length_map]

theorem Loaded.mapWeights (h : m.Loaded) (f : Nat → ℚ → ℚ) : (m.mapWeights f).Loaded := by
  intro e he
  obtain ⟨d, hd, rfl⟩ := List.mem_map.mp he
  exact fun hnone => h d hd (Option.map_eq_none_iff.mp hnone)

theorem Loaded.reset (h : m.Loaded) : m.reset.Loaded := by
  rw [reset_eq]
  exact Loaded.mapWeights
    (m := { m.resetControls with interpolationWeights := m.newSums }) h _

theorem Loaded.call (h : m.Loaded) (c : Call) : (m.call c).Loaded := by
  cases c with
  | addEngine name loaded =>
    show ∀ e ∈ (m.mage.addEngine name loaded).engine.entries, e.2 ≠ none
    rw [Mage.addEngine]
    split
    · exact h
    · have hinsert : ∀ e ∈ (m.mage.engine.insert name
          (some (fun _ => (defaultInterpolationWeight : ℚ), loaded))).entries, e.2 ≠ none := by
        intro e he
        -- the new entry has a voice, and so had the others
        rcases SortedMap.mem_insert.mp he with rfl | ⟨he, -⟩
        · exact Option.some_ne_none _
        · exact h e he
      simp only
      split <;> exact hinsert
  | removeEngine name =>
    show ∀ e ∈ (m.mage.removeEngine name).engine.entries, e.2 ≠ none
    rw [Mage.removeEngine]
    split
    · exact h
    · have herase : ∀ e ∈ (m.mage.engine.erase name).entries, e.2 ≠ none :=
        fun e he => h e (SortedMap.mem_erase.mp he).1
      simp only
      split
      · exact herase
      · split <;> exact herase
  | setInterpolationFunctions set =>
    refine foldl_invariant (I := fun mage : Mage => ∀ e ∈ mage.engine.entries, e.2 ≠ none)
      ?_ set.entries m.mage h
    intro mage it hmage e he
    dsimp only at he
    obtain ⟨d, hd, rfl⟩ := SortedMap.mem_adjust.mp he
    split
    · exact fun hnone => hmage d hd (Option.map_eq_none_iff.mp hnone)
    · exact hmage d hd
  | reset => exact h.reset

-- ---------------------------------------------------------------------------
-- What a reset restores
-- ---------------------------------------------------------------------------

/-- The voices count alike in every stream: of `n` voices each has the weight `1 / n`. -/
def Uniform (m : Mixer) : Prop :=
  ∀ e ∈ m.mage.engine.entries, ∃ voice, e.2 = some voice ∧
    ∀ i < nOfStreams + 1, voice.1 i = 1 / m.mage.engine.keys.length

/-- The streams whose entry is zero have weights that are equal and positive. -/
def EqualWhereZero (m : Mixer) : Prop :=
  ∀ i < nOfStreams + 1, m.interpolationWeights i ≠ 0 ∨ ∃ c, 0 < c ∧ ∀ w ∈ m.weights i, w = c

/-- The streams whose entry is zero have the default weights. -/
def DefaultWhereZero (m : Mixer) : Prop :=
  ∀ i < nOfStreams + 1, m.interpolationWeights i ≠ 0 ∨ ∀ w ∈ m.weights i, w = 1

/-- Equal weights, stream by stream. -/
theorem Loaded.uniform_iff (h : m.Loaded) :
    m.Uniform ↔ ∀ i < nOfStreams + 1, ∀ w ∈ m.weights i, w = 1 / (m.weights i).length := by
  have hlength : ∀ i, (m.weights i).length = m.mage.engine.keys.length := by
    intro i
    rw [weights, List.length_map, h.length_voices]
  simp only [hlength]
  constructor
  · intro huniform i hi w hw
    obtain ⟨voice, hvoice, rfl⟩ := List.mem_map.mp hw
    obtain ⟨entry, hentry, hsome⟩ := List.mem_filterMap.mp hvoice
    obtain ⟨e, he, rfl⟩ := List.mem_map.mp hentry
    obtain ⟨voice', hvoice', hweights⟩ := huniform e he
    obtain rfl : voice' = voice := Option.some.inj (hvoice'.symm.trans hsome)
    exact hweights i hi
  · intro hweights e he
    obtain ⟨voice, hvoice⟩ := Option.ne_none_iff_exists'.mp (h e he)
    refine ⟨voice, hvoice, fun i hi => hweights i hi _ ?_⟩
    refine List.mem_map.mpr ⟨voice, List.mem_filterMap.mpr ⟨e.2, ?_, hvoice⟩, rfl⟩
    exact List.mem_map.mpr ⟨e, he, rfl⟩

/-- With a voice there is a weight for every stream. -/
theorem Loaded.weights_ne_nil (h : m.Loaded) (hne : m.mage.engine.keys ≠ []) (i : Nat) :
    m.weights i ≠ [] := by
  rw [ne_eq, ← List.length_eq_zero_iff, weights, List.length_map, h.length_voices,
    List.length_eq_zero_iff]
  exact hne

/-- The weights after a reset. -/
theorem Loaded.uniform_reset_iff (h : m.Loaded) (hne : m.mage.engine.keys ≠ []) :
    m.reset.Uniform ↔ m.EqualWhereZero := by
  rw [h.reset.uniform_iff]
  refine forall₂_congr fun i hi => ?_
  rw [weights_reset m hi, List.forall_mem_map, List.length_map]
  exact newWeight_uniform_iff _ (h.weights_ne_nil hne i)

/-- Voices that count alike are left as they are. -/
theorem Loaded.second_weights (h : m.Loaded) (hne : m.mage.engine.keys ≠ [])
    (huniform : m.reset.Uniform) :
    ∀ i < nOfStreams + 1, ∀ w ∈ m.reset.weights i,
      newWeight (m.newSums i) (m.reset.weights i) w = w := by
  intro i hi w hw
  have hkeys : m.reset.mage.engine.keys ≠ [] := by
    rw [reset_eq]
    show (m.mage.engine.map _).keys ≠ []
    rwa [SortedMap.keys_map]
  exact newWeight_of_uniform _ (h.reset.weights_ne_nil hkeys i)
    (h.reset.uniform_iff.mp huniform i hi) hw

/-- The entries after a second reset. -/
theorem Loaded.second_sums_iff (h : m.Loaded) (hne : m.mage.engine.keys ≠ [])
    (huniform : m.reset.Uniform) : m.reset.newSums = m.newSums ↔ m.DefaultWhereZero := by
  have hstream : ∀ i < nOfStreams + 1, m.reset.newSums i = m.newSums i ↔
      m.interpolationWeights i ≠ 0 ∨ ∀ w ∈ m.weights i, w = 1 := by
    intro i hi
    have hweights := h.reset.uniform_iff.mp huniform i hi
    rw [weights_reset m hi, List.forall_mem_map, List.length_map] at hweights
    rw [newSums_of_lt _ hi, interpolationWeights_reset, weights_reset m hi, newSums_of_lt _ hi]
    exact newSum_newSum_iff _ (h.weights_ne_nil hne i) hweights
  constructor
  · exact fun heq i hi => (hstream i hi).mp (congrFun heq i)
  · intro hdefault
    funext i
    by_cases hi : i < nOfStreams + 1
    · exact (hstream i hi).mpr (hdefault i hi)
    -- past the streams no entry changes
    · rw [newSums, if_neg hi, interpolationWeights_reset]

-- ---------------------------------------------------------------------------
-- Histories
-- ---------------------------------------------------------------------------

def run (m : Mixer) (calls : List Call) : Mixer := calls.foldl call m

/-- The voices are there after all calls. -/
theorem loaded_run (h : m.Loaded) (calls : List Call) : (m.run calls).Loaded :=
  foldl_invariant (fun _ c h => h.call c) calls m h

/--
**What a reset of the weights depends on.** After any calls, whatever the sums were before
the first of them, and with a voice in the map: the voices count alike after a reset, and a
second one leaves the map as it is, exactly when no sum is zero where the weights differ or
are not positive; and a second one changes nothing at all, exactly when no sum is zero where
a weight is not the default one. -/
theorem reset_restores_iff (updateFunction : Nat → ℚ) (model : Nat → Model)
    (interpolationWeights : Nat → ℚ) (gamma actionValue : ℚ) (calls : List Call)
    (hne : ((init updateFunction model interpolationWeights gamma actionValue).run
      calls).mage.engine.keys ≠ []) :
    let m := (init updateFunction model interpolationWeights gamma actionValue).run calls
    (m.reset.Uniform ∧ m.reset.reset.mage.engine = m.reset.mage.engine ↔ m.EqualWhereZero) ∧
      (m.reset.Uniform ∧ m.reset.reset = m.reset ↔ m.DefaultWhereZero) := by
  intro m
  have h : m.Loaded := loaded_run (fun e he => absurd he List.not_mem_nil) calls
  constructor
  · rw [h.uniform_reset_iff hne, and_iff_left_iff_imp]
    intro hequal
    have hweights := h.second_weights hne ((h.uniform_reset_iff hne).mpr hequal)
    -- the sums may change here, the voices do not
    have hmap := (mapWeights_eq_self_iff m.reset _).mpr hweights
    have hengine : (m.reset.mapWeights fun i => newWeight (m.newSums i)
        (m.reset.weights i)).mage.engine = m.reset.mage.engine := by rw [hmap]
    rw [reset_reset_eq]
    exact hengine
  · rw [reset_reset_iff]
    constructor
    · exact fun ⟨huniform, hsums, _⟩ => (h.second_sums_iff hne huniform).mp hsums
    · intro hdefault
      -- default weights are equal weights, so the first part applies
      have huniform : m.reset.Uniform := by
        rw [h.uniform_reset_iff hne]
        exact fun i hi => (hdefault i hi).imp_right fun hone => ⟨1, one_pos, hone⟩
      exact ⟨huniform, (h.second_sums_iff hne huniform).mpr hdefault, h.second_weights hne huniform⟩

/-- Two voices, weighted three to one. -/
def weighted : List Call :=
  [.addEngine ['a'] plainEngine, .addEngine ['b'] plainEngine,
    .setInterpolationFunctions (SortedMap.empty.insert ['b'] fun _ => 3)]

/-- The weighted voices, where the sums have been set to one before. -/
theorem reset_restores_iff_weighted :
    let m := (init (fun _ => 0) (fun _ => default) (fun _ => 1) 0 0).run weighted
    (m.reset.Uniform ∧ m.reset.reset.mage.engine = m.reset.mage.engine ↔ m.EqualWhereZero) ∧
      (m.reset.Uniform ∧ m.reset.reset = m.reset ↔ m.DefaultWhereZero) :=
  reset_restores_iff (fun _ => 0) (fun _ => default) (fun _ => 1) 0 0 weighted (by decide)

/-- With sums of zero the weights stay three to one. -/
theorem weighted_not_uniform :
    let m := (init (fun _ => 0) (fun _ => default) (fun _ => 0) 0 0).run weighted
    m.mage.engine.keys ≠ [] ∧ ¬ m.reset.Uniform := by
  have hne : ((init (fun _ => 0) (fun _ => default) (fun _ => 0) 0 0).run
      weighted).mage.engine.keys ≠ [] := by decide
  refine ⟨hne, ?_⟩
  rw [Loaded.uniform_reset_iff (loaded_run (fun e he => absurd he List.not_mem_nil) weighted) hne]
  intro hequal
  obtain ⟨c, -, hc⟩ := (hequal 0 (by decide)).resolve_left fun hsum => hsum rfl
  have hone := hc 1 (by decide)
  have hthree := hc 3 (by decide)
  exact absurd (hone.trans hthree.symm) (by decide)

end Mixer

end Vox.Mage
