import Mathlib.Algebra.Order.Field.Rat
import Vox.Mage.Constants

/-!
# MAGE — voices and models

The data that synthesis works on. A `ModelSet` is what hts_engine keeps of a
voice: for durations, for each stream of parameters and for each global variance
the pdfs of its interpolated models, and for each stream the windows of its
dynamic features. A `Model` is a label's HMM, a slot of the model queue: its
states with their durations and distributions, and the scratch arrays with which
they are computed.

A `double` is a rational number; an array is a function of its index. What a tree
search finds for a label — the tree of the state, the pdf of the leaf — is one
function of the label's query, `pdf`.
-/

namespace Vox.Mage

-- ---------------------------------------------------------------------------
-- A voice
-- ---------------------------------------------------------------------------

/-- `HTS_Window`: the dynamic windows of a stream, the first of them static. -/
structure Window (K : Type*) where
  size : Nat
  l_width : Nat → Int
  r_width : Nat → Int
  coefficient : Nat → Int → K
  max_width : Nat
  deriving Inhabited

/-- `HTS_Stream`: `pdf query state i` is the pdf of interpolated model `i`, means
first, then variances, then the MSD weight. -/
structure Stream where
  vector_length : Nat
  msd_flag : Bool
  window : Window ℚ
  interpolation_size : Nat
  pdf : List Char → Nat → Nat → Nat → ℚ
  deriving Inhabited

/-- The `HTS_Stream` of state durations, or of a global variance. -/
structure Pdfs where
  vector_length : Nat
  interpolation_size : Nat
  pdf : List Char → Nat → Nat → ℚ
  deriving Inhabited

/-- `HTS_ModelSet`. -/
structure ModelSet where
  nstate : Nat
  duration : Pdfs
  stream : Nat → Stream
  gv : Option (Nat → Pdfs)
  deriving Inhabited

/-- `HTS_ModelSet_use_gv`. -/
def ModelSet.use_gv (ms : ModelSet) (stream_index : Nat) : Bool :=
  match ms.gv with
  | none => false
  | some gv => (gv stream_index).vector_length > 0

/-- One static feature in every stream. -/
def plainVoice : ModelSet where
  nstate := nOfStates
  duration := default
  stream i := ⟨1, i == lf0StreamIndex, ⟨1, fun _ => 0, fun _ => 0, fun _ _ => 1, 0⟩, 1,
    fun _ _ _ _ => 0⟩
  gv := none

/-- A static window, and one for the difference of the neighbours. -/
def deltaWindow {K : Type*} [Field K] : Window K where
  size := 2
  l_width i := if i = 1 then -1 else 0
  r_width i := if i = 1 then 1 else 0
  coefficient i j := if i = 1 then 0.5 * j else if j = 0 then 1 else 0
  max_width := 1

/-- One feature and its difference in every stream. -/
def deltaVoice : ModelSet :=
  { plainVoice with stream := fun i =>
      { plainVoice.stream i with vector_length := 2, window := deltaWindow } }

-- ---------------------------------------------------------------------------
-- A model
-- ---------------------------------------------------------------------------

structure Distribution where
  mean : ℚ
  vari : ℚ
  msdFlag : ℚ
  deriving Inhabited, DecidableEq

structure State where
  duration : Int
  gv_switch_streams : Nat → Bool
  streams : Nat → Nat → Distribution
  gv_streams : Nat → Nat → Distribution
  deriving Inhabited

/-- The scratch arrays of a model. The durations can be indexed from `-1`, as
`mHTS_set_duration` does it. -/
structure ModelMemory where
  duration_mean : Nat → ℚ
  duration_vari : Nat → ℚ
  duration_array : Int → Int
  stream_mean : Nat → Nat → ℚ
  stream_vari : Nat → Nat → ℚ
  deriving Inhabited

structure Model where
  state : Nat → State
  duration : Int
  weightsChecked : Bool
  modelMemory : ModelMemory
  deriving Inhabited

end Vox.Mage
