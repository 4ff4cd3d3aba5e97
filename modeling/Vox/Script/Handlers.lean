import Vox.Script.State

/-!
# Script — the handlers of `vox.lua`

Every function of the script that norns calls: the keys, the encoders, the
actions of the parameters, the voltages of crow and the OSC messages, with the
setters they share. `step` is one event: norns reports an error of a handler
and keeps the script running on the state that the error has left.
-/

namespace Vox.Script

open Lib Vox.Engine

/-! ## Sending -/

/-- `engine.<command>( x )`. A nil argument fails the type check of the
command's format, and nothing is sent. -/
def engine (command : Command) (x : Option ℚ) : Cmd World PUnit :=
  Cmd.modify fun w =>
    match x with
    | some x => { w with log := .engine command x :: w.log }
    | none => w

/-- `audio.level_dac( x )`. -/
def levelDac (x : ℚ) : Cmd World PUnit :=
  Cmd.modify fun w => { w with log := .levelDac x :: w.log }

/-! ## Setters -/

section Setters

variable (norns : Norns)

/-- `set_mute`: a toggle, whatever its arguments. -/
def setMute : Cmd World PUnit := do
  let w ← Cmd.get
  let mute := if w.mute = 1 then 0 else 1
  Cmd.modify fun w => { w with mute := mute }
  levelDac mute

def setVoice (cs : Controlspec) (x : ℚ) : Cmd World PUnit := do
  engine .voice (cs.map norns x)
  Cmd.modify fun w => { w with voice := cs.map norns x }

def setMode (cs : Controlspec) (x : ℚ) : Cmd World PUnit := do
  engine .mode (cs.map norns x)
  Cmd.modify fun w => { w with mode := cs.map norns x }

/-- `set_phrase`: the command of the phrase with this number, if it is one of
`0` to `15`. -/
def setPhrase (cs : Controlspec) (x : ℚ) : Cmd World PUnit := do
  Cmd.modify fun w => { w with phrase := cs.map norns x }
  match luaIndex voxPhrases (cs.map norns x + 1) with
  | some p => engine (.phrase p) (cs.map norns x)
  | none => pure ⟨⟩

def setFreq (cs : Controlspec) (x : ℚ) : Cmd World PUnit := do
  engine .freq (cs.map norns x)
  Cmd.modify fun w => { w with freq := cs.map norns x }

def setScale (cs : Controlspec) (x : ℚ) : Cmd World PUnit := do
  engine .scale (cs.map norns x)
  Cmd.modify fun w => { w with scale := cs.map norns x }

def setAlpha (cs : Controlspec) (x : ℚ) : Cmd World PUnit := do
  engine .alpha (cs.map norns x)
  Cmd.modify fun w => { w with alpha := cs.map norns x }

def setGap (cs : Controlspec) (x : ℚ) : Cmd World PUnit := do
  engine .gap (cs.map norns x)
  Cmd.modify fun w => { w with gap := cs.map norns x }

/-- `set_edit`. -/
def setEdit : Cmd World PUnit :=
  Cmd.modify fun w => { w with edit := if w.edit + 1 = 8 then 0 else w.edit + 1 }

end Setters

/-! ## Parameter actions -/

/-- The parameters that `init` adds, by their ids. -/
inductive Param
  | mute
  | voice
  | phrase
  | freq
  | mode
  | scale
  | alpha
  | gap
  deriving DecidableEq, Repr

def Param.spec : Param → Controlspec
  | .mute => csMute
  | .voice => csVoice
  | .phrase => csPhrase
  | .freq => csFreq
  | .mode => csMode
  | .scale => csScale
  | .alpha => csAlpha
  | .gap => csGap

/-- The action that `init` gives a parameter. The action of `voice` is the
setter of `mute`. -/
def action (norns : Norns) : Param → ℚ → Cmd World PUnit
  | .mute, _ => setMute
  | .voice, _ => setMute
  | .phrase, x => setPhrase norns csPhrase x
  | .freq, x => setFreq norns csFreq x
  | .mode, x => setMode norns csMode x
  | .scale, x => setScale norns csScale x
  | .alpha, x => setAlpha norns csAlpha x
  | .gap, x => setGap norns csGap x

/-! ## Handlers -/

/-- The global that `key` assigns to `scale`. The script declares `vox_min`,
and no `voxmin`. -/
def voxmin : Option ℚ := none

/-- `key`: K3 steps the variable that is being edited. -/
def key (n z : Int) : Cmd World PUnit := do
  if n = 3 ∧ z = 1 then
    let w ← Cmd.get
    if w.edit = 0 then
      setMute
    if w.edit = 1 then
      let voice := if w.voice + 1 > 5 then 0 else w.voice + 1
      Cmd.modify fun w => { w with voice := voice }
      engine .voice voice
    if w.edit = 3 then
      let mode := if w.mode + 1 > 2 then -1 else w.mode + 1
      Cmd.modify fun w => { w with mode := mode }
      engine .mode mode
    if w.edit = 4 then
      let freq := if w.freq + 1 > freqMax then 1 else w.freq + 1
      Cmd.modify fun w => { w with freq := freq }
      engine .freq freq
    if w.edit = 5 then
      -- nil plus a number is an error
      let scale ← Cmd.orRaise w.scale
      let scale := if scale + 1 / 10 > scaleMax then voxmin else some (scale + 1 / 10)
      Cmd.modify fun w => { w with scale := scale }
      engine .scale scale
    if w.edit = 6 then
      let alpha := if w.alpha + 1 / 100 > alphaMax then voxMin else w.alpha + 1 / 100
      Cmd.modify fun w => { w with alpha := alpha }
      engine .alpha alpha
    if w.edit = 7 then
      let gap := if w.gap + 1 > gapMax then voxMin else w.gap + 1
      Cmd.modify fun w => { w with gap := gap }
      engine .gap gap
    let _ ← redraw

/-- The parameter that an encoder turn changes. -/
def editedParam (edit : ℚ) : Option Param :=
  if edit = 0 then some .mute
  else if edit = 1 then some .voice
  else if edit = 2 then some .phrase
  else if edit = 3 then some .mode
  else if edit = 4 then some .freq
  else if edit = 5 then some .scale
  else if edit = 6 then some .alpha
  else if edit = 7 then some .gap
  else none

/-- `enc`. `params:delta` hands `value` to the action of the parameter, or
does not call it where the parameter keeps its value. -/
def enc (norns : Norns) (n : Int) (value : Option ℚ) : Cmd World PUnit := do
  let w ← Cmd.get
  if n = 3 then
    match editedParam w.edit, value with
    | some p, some x => action norns p x
    | some _, none => pure ⟨⟩
    | none, _ => Cmd.modify fun w => { w with edit := 0 }
  if n = 2 then
    setEdit
  let _ ← redraw

/-- `process_cv_stream`. -/
def processCvStream (norns : Norns) (v : ℚ) : Cmd World PUnit := do
  let w ← Cmd.get
  let volt := v / 10
  if w.edit = 5 then
    setScale norns csScale volt
  else if w.edit = 6 then
    setAlpha norns csAlpha volt
  else if w.edit = 7 then
    setGap norns csGap volt
  let _ ← redraw

/-- `process_trigger_stream`. -/
def processTriggerStream (norns : Norns) (v : ℚ) : Cmd World PUnit := do
  let w ← Cmd.get
  let volt := v / 5
  if w.edit = 1 then
    setVoice norns csVoice volt
  else if w.edit = 2 then
    setPhrase norns csPhrase volt
  else if w.edit = 3 then
    setMode norns csMode volt
  else if w.edit = 4 then
    setFreq norns csFreq volt
  let _ ← redraw

/-- `args[k]`, nil past the end. -/
def arg (args : List ℚ) (k : Nat) : Option ℚ := args[k - 1]?

/-- `osc.event`, on numeric arguments. -/
def oscEvent (norns : Norns) (path : String) (args : List ℚ) : Cmd World PUnit := do
  if path = "/netvoltage" then
    engine .voice (arg args 2)
    setFreq norns csFreq ((← Cmd.orRaise (arg args 3)) / (33 / 10))
    setScale norns csScale ((← Cmd.orRaise (arg args 4)) / 10000)
    let a6 ← Cmd.orRaise (arg args 6)
    let a5 ← Cmd.orRaise (arg args 5)
    let gap := (a6 - a5) / 100
    Cmd.modify fun w => { w with gap := gap }
    setGap norns csGap gap
  else if path = "/hexvoltage" then
    setPhrase norns csPhrase (← Cmd.orRaise (arg args 1))
    setAlpha norns csAlpha (← Cmd.orRaise (arg args 2))
    setVoice norns csVoice (← Cmd.orRaise (arg args 3))
  else if path = "/voxvoltage" then
    setMute
  Cmd.modify fun w => { w with rxOsc := 1 }
  let _ ← redraw

/-! ## Events -/

inductive Event
  | key (n z : Int)
  | enc (n : Int) (value : Option ℚ)
  | param (p : Param) (x : ℚ)
  | cv (v : ℚ)
  | trigger (v : ℚ)
  | osc (path : String) (args : List ℚ)

def handler (norns : Norns) : Event → Cmd World PUnit
  | .key n z => key n z
  | .enc n value => enc norns n value
  | .param p x => action norns p x
  | .cv v => processCvStream norns v
  | .trigger v => processTriggerStream norns v
  | .osc path args => oscEvent norns path args

/-- One event. -/
def step (norns : Norns) (w : World) (e : Event) : World := (handler norns e).exec w

/-- The world after a list of events. -/
def run (norns : Norns) (es : List Event) : World := es.foldl (step norns) World.initial

end Vox.Script
