/-!
# MAGE — constants

The compile-time constants of `Constants.h` that the modelled functions read,
under their own names.
-/

namespace Vox.Mage

/-- Maximum number of characters in a string. -/
def maxStrLen : Nat := 1024

/-- Maximum number of arguments passed by the configuration file. -/
def maxNumOfArguments : Nat := 100

/-- Number of states in the HMM. -/
def nOfStates : Nat := 5

/-- Number of streams: spectrum, fundamental frequency, low-pass filter. -/
def nOfStreams : Nat := 3

def mgcStreamIndex : Nat := 0

def lf0StreamIndex : Nat := 1

def durStreamIndex : Nat := 3

/-- Number of derivations. -/
def nOfDers : Nat := 3

/-- Number of spectral coefficients. -/
def nOfMGCs : Nat := 35

def maxStreamLen : Nat := nOfDers * nOfMGCs

/-- Number of frames that generation has memory for. -/
def maxNumOfFrames : Nat := 512

/-- Number of coming models that are looked at. -/
def nOfLookup : Nat := 0

/-- Number of models already used that are kept. -/
def nOfBackup : Nat := 2

/-- Maximum number of frames of a model, where `nOfBackup` used and `nOfLookup`
coming models are kept with it. -/
def maxDuration (nOfBackup nOfLookup : Nat) : Nat := maxNumOfFrames / (nOfBackup + nOfLookup + 1)

/-- Number of models that can be kept. -/
def maxModelQueueLen (nOfBackup nOfLookup : Nat) : Nat := nOfLookup + nOfBackup + 2

/-- Maximum number of labels that can wait. -/
def maxLabelQueueLen : Nat := 512

/-- Maximum number of frames that can wait. -/
def maxFrameQueueLen : Nat := 200

def defaultFrameRate : Int := 240

def defaultInterpFrameRate : Int := 1

def defaultSamplingRate : Int := 48000

def defaultPadeOrder : Int := 5

def defaultGamma : Int := 0

def defaultVolume : Int := 1

def defaultPitch : Int := 110

/-- Weight of a voice in an interpolation. -/
def defaultInterpolationWeight : Int := 1

/-- MSD value of a stream that has none. -/
def defaultMSDflag : Int := 0

-- ---------------------------------------------------------------------------
-- Actions
-- ---------------------------------------------------------------------------

/-- Take no action over a variable. -/
def noaction : Int := -1

/-- Replace a variable. -/
def overwrite : Int := 0

/-- Add the given value to a variable. -/
def shift : Int := 1

/-- Multiply a variable by the given value. -/
def scale : Int := 2

/-- Keep the variable generated by the model. -/
def synthetic : Int := 3

end Vox.Mage
