import Mathlib.Data.Char
import Mathlib.Data.List.Lex
import Vox.Lib.SortedMap
import Vox.Mage.LabelModel
import Vox.Mage.ModelQueue

/-!
# MAGE — voices and labels

The control part of MAGE: the map of voices with the default one, and `run`, which
turns a label into a model in the next slot of the model queue and lets the queue
generate frames.

`engine[name]` is `std::map`'s access that inserts a null entry for a name that is not
there (`engineRef`). What follows a null `Engine *` is undefined, so that the steps of
`run` return `none` there. The frames that are generated and the label queue are left
out: the label that `popLabel` finds is part of the call.
-/

set_option linter.dupNamespace false

namespace Vox.Mage

open Lib

/-- `std::pair < double * , Engine * >`: the weights of a voice in an interpolation. -/
abbrev Voice := (Nat → ℚ) × Engine

/-- `Mage`, less its label and frame queues and the vocoder. A null entry is `none`. -/
structure Mage where
  engine : SortedMap (List Char) (Option Voice)
  defaultEngine : List Char
  flagReady : Bool
  interpolationFlag : Bool
  flag : Bool
  labelSpeed : ℚ
  action : Int
  updateFunction : Nat → ℚ
  modelQueue : MemQueue Model

namespace Mage

/-- `init()`; what the constructors leave uninitialised is given. -/
def init (updateFunction : Nat → ℚ) (model : Nat → Model) : Mage where
  engine := .empty
  defaultEngine := []
  flagReady := false
  interpolationFlag := false
  flag := true
  labelSpeed := 1
  action := noaction
  updateFunction := updateFunction
  modelQueue :=
    ⟨(List.range (maxModelQueueLen nOfBackup nOfLookup)).map fun k =>
      { model k with duration := 0, weightsChecked := false }, 0, 0, 0⟩

-- ---------------------------------------------------------------------------
-- The map of voices
-- ---------------------------------------------------------------------------

/-- `engine[name]` -/
def engineRef (m : Mage) (name : List Char) : Mage × Option Voice :=
  match m.engine.get? name with
  | some voice => (m, voice)
  | none => ({ m with engine := m.engine.insert name none }, none)

/-- `addEngine( EngineName )`, where `load` loads the voice. -/
def addEngine (m : Mage) (EngineName : List Char) (loaded : Engine) : Mage :=
  match m.engine.get? EngineName with
  | some _ => m
  | none =>
    let m := { m with
      engine := m.engine.insert EngineName
        (some (fun _ => (defaultInterpolationWeight : ℚ), loaded)) }
    if m.defaultEngine = [] then { m with defaultEngine := EngineName, flagReady := true } else m

/-- `addEngine( EngineName, confFilename )`, where the file has `argc` arguments. -/
def addEngineFile (m : Mage) (EngineName : List Char) (argc : Nat) (loaded : Engine) : Mage :=
  if argc > 0 then m.addEngine EngineName loaded else m

def removeEngine (m : Mage) (EngineName : List Char) : Mage :=
  match m.engine.get? EngineName with
  | none => m
  | some _ =>
    let m := { m with engine := m.engine.erase EngineName }
    match m.engine.keys with
    | [] => { m with defaultEngine := [], flagReady := false }
    | first :: _ =>
      -- we removed the default Engine, better switch to another one
      if m.defaultEngine = EngineName then { m with defaultEngine := first, flagReady := true }
      else m

def setDefaultEngine (m : Mage) (defaultEngine : List Char) : Mage :=
  match m.engine.get? defaultEngine with
  | some _ => { m with defaultEngine := defaultEngine }
  | none => m

def checkReady (m : Mage) : Mage :=
  { m with flagReady := !m.engine.isEmpty && m.defaultEngine ≠ [] }

def enableInterpolation (m : Mage) (interpolationFlag : Bool) : Mage :=
  { m with interpolationFlag := interpolationFlag }

-- ---------------------------------------------------------------------------
-- The model of a label
-- ---------------------------------------------------------------------------

/-- `modelQueue->next()` -/
def nextModel (m : Mage) : Model := m.modelQueue.rawData.getD m.modelQueue.write default

def writeModel (m : Mage) (model : Model) : Mage :=
  { m with modelQueue := m.modelQueue.writeNext model }

/-- The weights of the default voice, normalised in place. -/
def prepareModel (m : Mage) : Option Mage := do
  let voice ← (m.engineRef m.defaultEngine).2
  let r := m.nextModel.checkInterpolationWeights voice.2
  some { m.writeModel r.1 with
    engine := m.engine.adjust m.defaultEngine fun _ => some (voice.1, r.2) }

/-- The voices that are used: the default one, or all with their weights. -/
def forEngines (m : Mage) (compute : Engine → Option (Nat → ℚ) → Model → Model)
    (model : Model) : Option Model :=
  if m.interpolationFlag then
    m.engine.values.foldlM
      (fun model voice => do
        let voice ← voice
        some (compute voice.2 (some voice.1) model)) model
  else do
    let voice ← (m.engineRef m.defaultEngine).2
    some (compute voice.2 none model)

def computeDuration (m : Mage) (label : Label) : Option Mage := do
  let model ← m.forEngines
    (fun engine weight model => model.computeDuration engine label weight)
    m.nextModel.initDuration
  some { m.writeModel (model.updateDuration nOfBackup nOfLookup m.updateFunction m.action) with
    action := noaction }

def computeParameters (m : Mage) (label : Label) : Option Mage := do
  let model ← m.forEngines
    (fun engine weight model =>
      (model.computeParameters engine label weight).computeGlobalVariances engine label)
    m.nextModel.initParameters
  let m := m.writeModel model
  some { m with modelQueue := m.modelQueue.push 1 }

/-- The model that the first three steps of `run` leave in the slot of a label. -/
def labelModel (m : Mage) (label : Label) : Option Model := do
  let prepared ← m.prepareModel
  let timed ← prepared.computeDuration label
  let computed ← timed.computeParameters label
  some (computed.modelQueue.rawData.getD m.modelQueue.write default)

/-- The frames of the window are generated, and a model that is not needed any more is
dropped. -/
def optimizeParameters (m : Mage) : Option Mage :=
  match ModelQueue.windowOf nOfBackup nOfLookup m.modelQueue.getNumOfItems m.flag with
  | none => some m
  | some _ => do
    let _ ← (m.engineRef m.defaultEngine).2
    if m.modelQueue.getNumOfItems > nOfLookup + nOfBackup then
      some { m with flag := false, modelQueue := m.modelQueue.pop 1 }
    else some m

/-- `run()`, with the label that is popped, if there is one. -/
def run (m : Mage) : Option Label → Option Mage
  | none => some m
  | some label => do
    let label := label.setSpeed m.labelSpeed
    let m ← m.prepareModel
    let m ← m.computeDuration label
    let m ← m.computeParameters label
    m.optimizeParameters

end Mage

-- ---------------------------------------------------------------------------
-- Calls
-- ---------------------------------------------------------------------------

/-- A call of the host. -/
inductive EngineCall
  | addEngine (EngineName : List Char) (loaded : Engine)
  | addEngineFile (EngineName : List Char) (argc : Nat) (loaded : Engine)
  | removeEngine (EngineName : List Char)
  | setDefaultEngine (defaultEngine : List Char)
  | checkReady
  | enableInterpolation (interpolationFlag : Bool)
  | run (label : Option Label)

/-- Engine names are not empty. -/
def EngineCall.Named : EngineCall → Prop
  | .addEngine EngineName _ => EngineName ≠ []
  | .addEngineFile EngineName _ _ => EngineName ≠ []
  | .removeEngine EngineName => EngineName ≠ []
  | .setDefaultEngine defaultEngine => defaultEngine ≠ []
  | _ => True

/-- What a call does; `run` is called when MAGE is ready. -/
def Mage.call (m : Mage) : EngineCall → Option Mage
  | .addEngine EngineName loaded => some (m.addEngine EngineName loaded)
  | .addEngineFile EngineName argc loaded => some (m.addEngineFile EngineName argc loaded)
  | .removeEngine EngineName => some (m.removeEngine EngineName)
  | .setDefaultEngine defaultEngine => some (m.setDefaultEngine defaultEngine)
  | .checkReady => some m.checkReady
  | .enableInterpolation interpolationFlag => some (m.enableInterpolation interpolationFlag)
  | .run label => if m.flagReady then m.run label else some m

end Vox.Mage
