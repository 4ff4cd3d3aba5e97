import Vox.Lib.Rounding

/-!
# Engine — the commands of `Engine_VoxExMachina`

The variables of the engine and what each command does to them. A phrase
command starts a synth: the controls of the SynthDef `vox`, with the buffer of
the variant and the rest from the variables. An argument of format `i` arrives
as an integer.
-/

namespace Vox.Engine

open Lib

/-- The phrases of `voxPhrases`: each names a command, a variant of the
SynthDef and an utterance. -/
inductive Phrase
  | zero | one | two | three | four | five | six | seven
  | eight | nine | aay | bee | see | dee | eee | eff
  deriving DecidableEq, Repr

open Phrase in
def voxPhrases : List Phrase :=
  [zero, one, two, three, four, five, six, seven, eight, nine, aay, bee, see, dee, eee, eff]

/-- The utterance of a phrase. -/
def Phrase.text : Phrase → String
  | .zero => "zero" | .one => "one" | .two => "two" | .three => "three"
  | .four => "four" | .five => "five" | .six => "six" | .seven => "seven"
  | .eight => "eight" | .nine => "nine" | .aay => "aay" | .bee => "bee"
  | .see => "see" | .dee => "dee" | .eee => "eee" | .eff => "eff"

/-- The variants of the SynthDef `vox`. -/
def Phrase.buf : Phrase → Nat
  | .zero => 0 | .one => 1 | .two => 2 | .three => 3
  | .four => 4 | .five => 5 | .six => 6 | .seven => 7
  | .eight => 8 | .nine => 9 | .aay => 10 | .bee => 11
  | .see => 12 | .dee => 13 | .eee => 14 | .eff => 15

/-- Phrase `k` of the list has the variant of buffer `k`. -/
theorem voxPhrases_buf (p : Phrase) : voxPhrases[p.buf]? = some p := by
  cases p <;> rfl

inductive Command
  | voice
  | phrase (p : Phrase)
  | mode
  | freq
  | scale
  | alpha
  | gap
  | mute
  deriving DecidableEq, Repr

/-- The controls of a synth of the SynthDef `vox`. -/
structure Synth where
  buf : Nat
  val : Int
  mode : Int
  scale : ℚ
  alpha : ℚ
  amp : ℚ
  voice : Int
  deriving DecidableEq

/-- The variables of the engine and the synths it has started, the latest
first. -/
structure VoxExMachina where
  voxPhrase : Int
  voxVoice : Int
  voxScale : ℚ
  voxAlpha : ℚ
  voxGap : ℚ
  voxFreq : Int
  voxMode : Int
  voxAmp : ℚ
  synths : List Synth

def VoxExMachina.new : VoxExMachina where
  voxPhrase := 0
  voxVoice := 0
  voxScale := 1
  voxAlpha := 55 / 100
  voxGap := 2
  voxFreq := 200
  voxMode := 1
  voxAmp := 1
  synths := []

/-- `addCommand`: the function of each command, on its argument `msg[1]`. -/
def VoxExMachina.receive (s : VoxExMachina) (command : Command) (msg : ℚ) : VoxExMachina :=
  match command with
  | .voice => { s with voxVoice := truncate msg }
  | .phrase p =>
    { s with
      voxPhrase := truncate msg
      synths :=
        { buf := p.buf
          val := s.voxFreq
          mode := s.voxMode
          scale := s.voxScale
          alpha := s.voxAlpha
          amp := s.voxAmp
          voice := s.voxVoice } :: s.synths }
  | .mode => { s with voxMode := truncate msg - 1 }
  | .freq => { s with voxFreq := truncate msg }
  | .scale => { s with voxScale := msg }
  | .alpha => { s with voxAlpha := msg }
  | .gap => { s with voxGap := msg }
  | .mute => { s with voxAmp := truncate msg }

end Vox.Engine
