import Vox.Engine.Commands
import Vox.Lib.Cmd
import Vox.Script.Controlspec

/-!
# Script — the variables of `vox.lua` and its screen

The local variables of the script, what it has sent so far (engine commands
and output levels), and `redraw`, which shows the variables. Lua numbers are
rationals here; a variable that a handler can set to nil is an option.

`redraw` raises an error where `string.format` or `screen.text_right` does: on
a number without an integer value under `%d`, on nil, and on a table index
without an entry.
-/

namespace Vox.Script

open Lib Vox.Engine

/-! ## Variables -/

/-- The local variables of the script. `scale` is nil once a handler has
assigned it a global that does not exist. -/
structure Locals where
  voice : ℚ
  mode : ℚ
  mute : ℚ
  edit : ℚ
  phrase : ℚ
  freq : ℚ
  scale : Option ℚ
  gap : ℚ
  alpha : ℚ
  rxOsc : ℚ

/-- What the script sends: a command of the engine with its argument, or the
level of the output. -/
inductive Message
  | engine (command : Command) (x : ℚ)
  | levelDac (x : ℚ)
  deriving DecidableEq

/-- The script's variables and the messages it has sent, the latest first. -/
structure World extends Locals where
  log : List Message

def voxMin : ℚ := 1 / 100

def freqMax : ℚ := 20000

def scaleMax : ℚ := 60

def gapMax : ℚ := 60

def alphaMax : ℚ := 1

/-- The script as it is loaded. -/
def World.initial : World where
  voice := 5
  mode := 1
  mute := 1
  edit := 0
  phrase := 0
  freq := 200
  scale := some 1
  gap := 2
  alpha := 55 / 100
  rxOsc := 0
  log := []

def csVoice : Controlspec := ⟨0, 5, .lin, 1⟩

def csMode : Controlspec := ⟨-1, 2, .lin, 1⟩

def csPhrase : Controlspec := ⟨0, 15, .lin, 1⟩

def csMute : Controlspec := ⟨0, 1, .lin, 1⟩

def csFreq : Controlspec := ⟨1, freqMax, .exp, 1⟩

def csAlpha : Controlspec := ⟨voxMin, alphaMax, .lin, voxMin⟩

def csScale : Controlspec := ⟨voxMin, scaleMax, .lin, voxMin⟩

def csGap : Controlspec := ⟨voxMin, gapMax, .lin, voxMin⟩

/-! ## The screen -/

/-- A table lookup: keys from 1, nil where there is no entry. -/
def luaIndex {α : Type} (xs : List α) (k : ℚ) : Option α :=
  if k.den = 1 ∧ 1 ≤ k.num then xs[(k.num - 1).toNat]? else none

/-- `string.format( "%d", x )`. -/
def formatD (x : ℚ) : Option Int := if x.den = 1 then some x.num else none

theorem luaIndex_intCast {α : Type} (xs : List α) {k : Int} (h : 1 ≤ k) :
    luaIndex xs (k : ℚ) = xs[(k - 1).toNat]? := by
  simp [luaIndex, h]

@[simp] theorem formatD_intCast (n : Int) : formatD (n : ℚ) = some n := by
  simp [formatD]

inductive FreqMode
  | off
  | rep
  | add
  | mul
  deriving DecidableEq, Repr

/-- The table `freq_modes`. -/
def freqModes : List FreqMode := [.off, .rep, .add, .mul]

def FreqMode.text : FreqMode → String
  | .off => "off"
  | .rep => "rep"
  | .add => "add"
  | .mul => "mul"

def voiceNames : List String := ["awb", "bdl", "clb", "jmk", "rms", "slt"]

/-- What is printed on the right of a row: a text, a number under `%d` or a
number under `%.2f`. -/
inductive Shown
  | text (s : String)
  | d (n : Int)
  | f2 (x : ℚ)

structure Row where
  label : String
  shown : Shown
  indicator : Bool

structure Screen where
  title : String
  indicator : Bool
  rx : Bool
  rows : List Row

/-- `freq_modes[mode+2]`. -/
def displayedMode (w : World) : Option FreqMode := luaIndex freqModes (w.mode + 2)

/-- The screen of these variables, none where a text cannot be made. -/
def screen (w : World) : Option Screen := do
  let name ← luaIndex voiceNames (w.voice + 1)
  let hex ← formatD w.phrase
  let freqMode ← displayedMode w
  let frq ← formatD w.freq
  let scale ← w.scale
  return {
    title := if w.mute = 1 then "Vox Ex Machina !! " else "Vox Ex Machina > "
    indicator := w.edit = 0
    rx := w.rxOsc = 1
    rows :=
      [⟨"vox: ", .text name, w.edit = 1⟩, ⟨"hex: ", .d hex, w.edit = 2⟩,
        ⟨"sin: ", .text freqMode.text, w.edit = 3⟩, ⟨"frq: ", .d frq, w.edit = 4⟩,
        ⟨"tim: ", .f2 scale, w.edit = 5⟩, ⟨"shp: ", .f2 w.alpha, w.edit = 6⟩,
        ⟨"win: ", .f2 w.gap, w.edit = 7⟩] }

/-- `redraw`. The sign of OSC traffic is drawn, and cleared, before any text
that can fail. -/
def redraw : Cmd World Screen := do
  let w ← Cmd.get
  Cmd.modify fun w => if w.rxOsc = 1 then { w with rxOsc := 0 } else w
  Cmd.orRaise (screen w)

/-- The world after a `redraw`. -/
def World.drawn (w : World) : World := if w.rxOsc = 1 then { w with rxOsc := 0 } else w

/-- Drawing changes nothing but that sign, whether it raises an error or not. -/
@[simp] theorem redraw_exec (w : World) : redraw.exec w = w.drawn := by
  cases h : screen w <;> simp [redraw, Cmd.exec, World.drawn, h]

end Vox.Script
