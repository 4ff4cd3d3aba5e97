import Vox.Lib.Loops
import Vox.Mage.Label
import Vox.Mage.Model
import Vox.Mage.Words

/-!
# MAGE — the model of a label

How a slot of the model queue becomes the model of a label. For every voice that takes
part, `computeDuration` adds the voice's state durations to those of the slot,
`computeParameters` its means and variances, and `computeGlobalVariances` writes its
global variances; the init functions clear some of what the slot holds before that.
The interpolation weights of a voice itself are normalised in place, in the voice
(`checkInterpolationWeights`).

A loop over the cells of one array is written as a function of the index. The texts
that `HTS_error` prints are left out: with a negative code it returns.
-/

namespace Vox.Mage

open Lib

-- ---------------------------------------------------------------------------
-- Voices
-- ---------------------------------------------------------------------------

/-- `HTS_Global`, what models read of it. -/
@[ext]
structure Global where
  sampling_rate : Int
  fperiod : Int
  msd_threshold : Nat → ℚ
  duration_iw : Nat → ℚ
  parameter_iw : Nat → Nat → ℚ
  gv_iw : Nat → Nat → ℚ
  deriving Inhabited

/-- A loaded voice, of the kind that a model has memory for: with `nOfStates` states,
and streams that are not longer than `maxStreamLen`. -/
@[ext]
structure Engine where
  ms : ModelSet
  global : Global
  nstate_eq : ms.nstate = nOfStates
  vector_length_le : ∀ k < nOfStreams, (ms.stream k).vector_length ≤ maxStreamLen

/-- A voice without global variances, whose weights are 1. -/
def plainEngine : Engine where
  ms := plainVoice
  global := ⟨48000, 240, fun _ => 0, fun _ => 1, fun _ _ => 1, fun _ _ => 1⟩
  nstate_eq := rfl
  vector_length_le := fun _ _ => by
    show 1 ≤ maxStreamLen
    decide

-- ---------------------------------------------------------------------------
-- Distributions of a label
-- ---------------------------------------------------------------------------

/-- `Σ iw[i] * value[i]`, added up in a cleared cell. -/
def interpolate (size : Nat) (iw value : Nat → ℚ) : ℚ :=
  (List.range size).foldl (fun sum i => sum + iw i * value i) 0

/-- `Σ iw[i] * iw[i] * value[i]`. -/
def interpolateSquared (size : Nat) (iw value : Nat → ℚ) : ℚ :=
  (List.range size).foldl (fun sum i => sum + iw i * iw i * value i) 0

/-- `HTS_ModelSet_get_duration`: into `mean` and `vari`. -/
def HTS_ModelSet_get_duration (ms : ModelSet) (string : List Char) (mean vari iw : Nat → ℚ) :
    (Nat → ℚ) × (Nat → ℚ) :=
  let pdf := ms.duration.pdf string
  (fun j =>
    if j < ms.nstate then interpolate ms.duration.interpolation_size iw fun i => pdf i j
    else mean j,
  fun j =>
    if j < ms.nstate then
      interpolateSquared ms.duration.interpolation_size iw fun i =>
        pdf i (j + ms.duration.vector_length)
    else vari j)

/-- `HTS_ModelSet_get_parameter`: into `mean` and `vari`, and the MSD value. -/
def HTS_ModelSet_get_parameter (ms : ModelSet) (string : List Char) (mean vari : Nat → ℚ)
    (stream_index state_index : Nat) (iw : Nat → ℚ) : (Nat → ℚ) × (Nat → ℚ) × ℚ :=
  let stream := ms.stream stream_index
  let pdf := stream.pdf string state_index
  (fun j =>
    if j < stream.vector_length then
      interpolate stream.interpolation_size iw fun i => pdf i j
    else mean j,
  fun j =>
    if j < stream.vector_length then
      interpolateSquared stream.interpolation_size iw fun i => pdf i (j + stream.vector_length)
    else vari j,
  interpolate stream.interpolation_size iw fun i => pdf i (2 * stream.vector_length))

/-- `HTS_ModelSet_get_gv`: into `mean` and `vari`. -/
def HTS_ModelSet_get_gv (gv : Pdfs) (string : List Char) (mean vari iw : Nat → ℚ) :
    (Nat → ℚ) × (Nat → ℚ) :=
  (fun j =>
    if j < gv.vector_length then interpolate gv.interpolation_size iw fun i => gv.pdf string i j
    else mean j,
  fun j =>
    if j < gv.vector_length then
      interpolateSquared gv.interpolation_size iw fun i => gv.pdf string i (j + gv.vector_length)
    else vari j)

-- ---------------------------------------------------------------------------
-- State durations of a length
-- ---------------------------------------------------------------------------

/-- `Round` -/
def Round (x : ℚ) : Int := ⌊x + 1 / 2⌋

/-- `duration[i] = ( int )( value[i] + 0.5 )`, but at least 1, and their sum. -/
def roundDurations (value : Nat → ℚ) (size : Nat) (duration : Int → Int) : (Int → Int) × Int :=
  (List.range size).foldl
    (fun s i =>
      let d := max 1 (truncate (value i + 1 / 2))
      (Function.update s.1 i d, s.2 + d)) (duration, 0)

/-- The search for the state to change: `j`, where it has the largest `temp2`, or -1. -/
def flexibleState (size : Nat) (allowed : Nat → Bool) (temp2 : Nat → ℚ) : Int :=
  ((List.range' 1 (size - 1)).foldl
    (fun (s : Int × ℚ) i =>
      if allowed i ∧ (s.1 < 0 ∨ s.2 < temp2 i) then ((i : Int), temp2 i) else s) (-1, 0)).1

/-- A turn of the loop `while( target_length != sum )`. -/
def adaptDuration (mean vari : Nat → ℚ) (size : Nat) (rho : ℚ) (target_length : Int)
    (s : (Int → Int) × Int) : (Int → Int) × Int :=
  if target_length > s.2 then
    let j := flexibleState size (fun _ => true) fun i => |rho - (s.1 i + 1 - mean i) / vari i|
    (Function.update s.1 j (s.1 j + 1), s.2 + 1)
  else
    let j := flexibleState size (fun i => s.1 i > 1) fun i =>
      |rho - (s.1 i - 1 - mean i) / vari i|
    (Function.update s.1 j (s.1 j - 1), s.2 - 1)

/-- `mHTS_set_duration`: the durations, and what it returns. -/
def mHTS_set_duration (duration : Int → Int) (mean vari : Nat → ℚ) (size : Nat)
    (frame_length : ℚ) : (Int → Int) × Int :=
  -- if the frame length is not specified, only the mean vector is used
  if frame_length = 0 then roundDurations mean size duration
  else
    let target_length := truncate (frame_length + 1 / 2)
    if target_length ≤ size then
      ((List.range size).foldl (fun duration (i : Nat) => Function.update duration i 1) duration,
        size)
    else
      let temp1 := (List.range size).foldl (fun t i => t + mean i) 0
      let temp2 := (List.range size).foldl (fun t i => t + vari i) 0
      let rho := (target_length - temp1) / temp2
      let s := roundDurations (fun i => mean i + rho * vari i) size duration
      -- the loop moves the sum by one towards the target in every turn
      (((adaptDuration mean vari size rho target_length)^[(target_length - s.2).natAbs] s).1,
        target_length)

/-- The turns of the loop are as many as it takes. -/
theorem sum_adaptDuration (mean vari : Nat → ℚ) (size : Nat) (rho : ℚ) (target_length : Int)
    (s : (Int → Int) × Int) :
    ((adaptDuration mean vari size rho target_length)^[(target_length - s.2).natAbs] s).2
      = target_length := by
  generalize hn : (target_length - s.2).natAbs = n
  induction n generalizing s with
  | zero =>
    show s.2 = target_length
    omega
  | succ n ih =>
    rw [Function.iterate_succ_apply]
    refine ih _ ?_
    rw [adaptDuration]
    split
    · show (target_length - (s.2 + 1)).natAbs = n
      omega
    · show (target_length - (s.2 - 1)).natAbs = n
      omega

-- ---------------------------------------------------------------------------
-- Interpolation weights
-- ---------------------------------------------------------------------------

/-- `iw[i] /= temp`, where `temp` is the sum of the weights and not 0. -/
def normalise (size : Nat) (iw : Nat → ℚ) : Nat → ℚ :=
  let temp := (List.range size).foldl (fun temp i => temp + iw i) 0
  if temp ≠ 0 then fun i => if i < size ∧ iw i ≠ 0 then iw i / temp else iw i else iw

/-- `interpolationWeight[k]`, or 1 without weights. -/
def weightOf (interpolationWeight : Option (Nat → ℚ)) (k : Nat) : ℚ :=
  match interpolationWeight with
  | some weight => weight k
  | none => 1

/-- The weights of a voice, all normalised. -/
def Engine.normaliseWeights (engine : Engine) : Engine :=
  let ms := engine.ms
  let global := engine.global
  { engine with
    global :=
      { global with
        duration_iw := normalise ms.duration.interpolation_size global.duration_iw
        parameter_iw := fun i =>
          if i < nOfStreams then
            normalise (ms.stream i).interpolation_size (global.parameter_iw i)
          else global.parameter_iw i
        gv_iw := fun i =>
          match ms.gv with
          | some gv =>
            if i < nOfStreams ∧ ms.use_gv i then
              normalise (gv i).interpolation_size (global.gv_iw i)
            else global.gv_iw i
          | none => global.gv_iw i } }

namespace Model

/-- Normalises the weights of a voice, but only once for a slot. -/
def checkInterpolationWeights (model : Model) (engine : Engine) : Model × Engine :=
  if model.weightsChecked then (model, engine)
  else ({ model with weightsChecked := true }, engine.normaliseWeights)

-- ---------------------------------------------------------------------------
-- Durations
-- ---------------------------------------------------------------------------

def initDuration (model : Model) : Model :=
  { model with
    state := fun i =>
      if i < nOfStates then { model.state i with duration := 0 } else model.state i }

/-- The durations of the states by one voice, in `duration_array`. -/
def setDurations (model : Model) (engine : Engine) (label : Label) : Model :=
  let ms := engine.ms
  let global := engine.global
  let rate : ℚ := global.sampling_rate / (global.fperiod * 10 ^ 7)
  let memory := model.modelMemory
  let pdf := HTS_ModelSet_get_duration ms label.query memory.duration_mean memory.duration_vari
    global.duration_iw
  let set (frame_length : ℚ) : (Int → Int) × Int :=
    mHTS_set_duration memory.duration_array pdf.1 pdf.2 nOfStates frame_length
  let s :=
    if label.isDurationForcedFlag then
      -- use duration set by user
      if label.end_ > 0 then set (toInt (label.end_ - label.begin_) * rate)
      else (memory.duration_array, model.duration)
    else if label.speed ≠ 1 then
      set ((List.range nOfStates).foldl (fun temp i => temp + pdf.1 i) 0 / label.speed)
    else set 0
  { model with
    duration := s.2
    modelMemory :=
      { memory with duration_mean := pdf.1, duration_vari := pdf.2, duration_array := s.1 } }

def computeDuration (model : Model) (engine : Engine) (label : Label)
    (interpolationWeight : Option (Nat → ℚ)) : Model :=
  let iw := weightOf interpolationWeight durStreamIndex
  let model := model.setDurations engine label
  { model with
    state := fun i =>
      if i < nOfStates then
        { model.state i with
          duration := toInt
            ((model.state i).duration + Round (iw * model.modelMemory.duration_array i)) }
      else model.state i }

/-- A new duration, by the action. -/
def updatedDuration (update : ℚ) (action duration : Int) : Int :=
  let duration :=
    if action = overwrite then toInt (truncate update)
    else if action = shift then toInt (truncate (duration + update))
    else if action = scale then toInt (truncate (duration * update))
    else duration
  if duration < 0 then 1 else duration

/-- `updateDuration`, with a function to update by. -/
def updateDuration (nOfBackup nOfLookup : Nat) (model : Model) (updateFunction : Nat → ℚ)
    (action : Int) : Model :=
  let maxDuration : Int := maxDuration nOfBackup nOfLookup
  let updated (i : Nat) : Int := updatedDuration (updateFunction i) action (model.state i).duration
  let duration := (List.range nOfStates).foldl (fun sum i => toInt (sum + updated i)) 0
  -- fix for memory overflow: ModelQueueMemory has only maxNumOfFrames allocated
  let scaled (i : Nat) : Int :=
    if duration > maxDuration then (toInt (updated i * maxDuration)).tdiv duration else updated i
  { model with
    state := fun i =>
      if i < nOfStates then { model.state i with duration := scaled i } else model.state i
    duration :=
      if duration > maxDuration then
        (List.range nOfStates).foldl (fun tmp i => toInt (tmp + scaled i)) 0
      else duration }

-- ---------------------------------------------------------------------------
-- Parameters
-- ---------------------------------------------------------------------------

def initParameters (model : Model) : Model :=
  { model with
    state := fun i =>
      if i < nOfStates then
        { model.state i with
          streams := fun k j =>
            if k < nOfStreams ∧ j < maxStreamLen then
              { (model.state i).streams k j with mean := 0, vari := 0 }
            else (model.state i).streams k j }
      else model.state i }

/-- Stream `k` of state `i` by one voice. -/
def computeStream (engine : Engine) (label : Label) (interpolationWeight : Option (Nat → ℚ))
    (k i : Nat) (model : Model) : Model :=
  let ms := engine.ms
  let iw := weightOf interpolationWeight k
  let memory := model.modelMemory
  let pdf := HTS_ModelSet_get_parameter ms label.query (memory.stream_mean k)
    (memory.stream_vari k) k (i + 2) (engine.global.parameter_iw k)
  let lf0_msd := if (ms.stream k).msd_flag then pdf.2.2 else defaultMSDflag
  { model with
    state := Function.update model.state i
      { model.state i with
        streams := Function.update (model.state i).streams k fun j =>
          if j < (ms.stream k).vector_length then
            { mean := ((model.state i).streams k j).mean + iw * pdf.1 j
              vari := ((model.state i).streams k j).vari + iw * iw * pdf.2.1 j
              msdFlag := lf0_msd }
          else (model.state i).streams k j }
    modelMemory :=
      { memory with
        stream_mean := Function.update memory.stream_mean k pdf.1
        stream_vari := Function.update memory.stream_vari k pdf.2.1 } }

def computeParameters (model : Model) (engine : Engine) (label : Label)
    (interpolationWeight : Option (Nat → ℚ)) : Model :=
  (List.range nOfStreams).foldl
    (fun model k =>
      (List.range nOfStates).foldl
        (fun model i => computeStream engine label interpolationWeight k i model) model) model

-- ---------------------------------------------------------------------------
-- Global variances
-- ---------------------------------------------------------------------------

/-- Stream `k` of all states by one voice, if the voice has global variances. -/
def computeGlobalVariance (engine : Engine) (label : Label) (k : Nat) (model : Model) : Model :=
  let ms := engine.ms
  let memory := model.modelMemory
  match ms.gv with
  | none => model
  | some gv =>
    if ms.use_gv k then
      let pdf := HTS_ModelSet_get_gv (gv k) label.query (memory.stream_mean k)
        (memory.stream_vari k) (engine.global.gv_iw k)
      { model with
        state := fun i =>
          if i < nOfStates then
            { model.state i with
              gv_streams := Function.update (model.state i).gv_streams k fun j =>
                if j < (ms.stream k).vector_length then
                  { (model.state i).gv_streams k j with mean := pdf.1 j, vari := pdf.2 j }
                else (model.state i).gv_streams k j }
          else model.state i
        modelMemory :=
          { memory with
            stream_mean := Function.update memory.stream_mean k pdf.1
            stream_vari := Function.update memory.stream_vari k pdf.2 } }
    else model

/-- `computeGlobalVariances`: the switches are set manually for now. -/
def computeGlobalVariances (model : Model) (engine : Engine) (label : Label) : Model :=
  let model := (List.range nOfStreams).foldl
    (fun model k => computeGlobalVariance engine label k model) model
  { model with
    state := fun i =>
      if i < nOfStates then
        { model.state i with
          gv_switch_streams := fun j =>
            if j < nOfStreams then false else (model.state i).gv_switch_streams j }
      else model.state i }

-- ---------------------------------------------------------------------------
-- What the computations leave alone
-- ---------------------------------------------------------------------------

theorem weightsChecked_checkInterpolationWeights (model : Model) (engine : Engine) :
    (model.checkInterpolationWeights engine).1.weightsChecked = true := by
  rw [checkInterpolationWeights]
  split
  · assumption
  · rfl

/-- Normalising leaves the slot as it is. -/
theorem checkInterpolationWeights_keeps (slot : Model) (engine : Engine) :
    (slot.checkInterpolationWeights engine).1.modelMemory = slot.modelMemory ∧
      (slot.checkInterpolationWeights engine).1.state = slot.state ∧
      (slot.checkInterpolationWeights engine).2.ms = engine.ms := by
  rw [checkInterpolationWeights]
  split
  · exact ⟨rfl, rfl, rfl⟩
  · exact ⟨rfl, rfl, rfl⟩

/-- The parameters leave the weights and the durations alone. -/
theorem computeParameters_keeps (model : Model) (engine : Engine) (label : Label)
    (interpolationWeight : Option (Nat → ℚ)) :
    (model.computeParameters engine label interpolationWeight).weightsChecked
        = model.weightsChecked ∧
      (model.computeParameters engine label interpolationWeight).modelMemory.duration_array
        = model.modelMemory.duration_array := by
  rw [computeParameters]
  refine foldl_range_induction (fun _ (r : Model) => r.weightsChecked = model.weightsChecked ∧
    r.modelMemory.duration_array = model.modelMemory.duration_array) ⟨rfl, rfl⟩ ?_
  intro k _ r hr
  refine foldl_range_induction (fun _ (r : Model) => r.weightsChecked = model.weightsChecked ∧
    r.modelMemory.duration_array = model.modelMemory.duration_array) hr ?_
  intro i _ r hr
  exact hr

/-- So do the global variances. -/
theorem computeGlobalVariances_keeps (model : Model) (engine : Engine) (label : Label) :
    (model.computeGlobalVariances engine label).weightsChecked = model.weightsChecked ∧
      (model.computeGlobalVariances engine label).modelMemory.duration_array
        = model.modelMemory.duration_array := by
  rw [computeGlobalVariances]
  refine foldl_range_induction (fun _ (r : Model) => r.weightsChecked = model.weightsChecked ∧
    r.modelMemory.duration_array = model.modelMemory.duration_array) ⟨rfl, rfl⟩ ?_
  intro k _ r hr
  rw [computeGlobalVariance]
  split
  · exact hr
  · simp only
    split
    · exact hr
    · exact hr

end Model

end Vox.Mage
