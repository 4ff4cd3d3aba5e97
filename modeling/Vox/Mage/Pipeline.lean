import Vox.Lib.Context
import Vox.Mage.LabelQueue
import Vox.Mage.MemQueue
import Vox.Mage.Words

/-!
# MAGE — from labels to frames

Two threads share a `Mage`. The generator thread calls `run` over and over: it
pops a label, builds its model in the next slot of the model queue, pushes it,
and emits the frames of one of the stored models, waiting while the frame queue
is full. The audio thread calls `updateSamples` for every sample, which hands a
frame to the vocoder whenever a hop is over.

* **Interleaving.** Each thread has a program counter (`Generator`, `Audio`) and
  one step of it makes at most one operation on a shared queue. A run is any
  list of `Event`s: steps of the two threads, labels pushed from outside, and
  resets. A thread that waits takes steps that change nothing.
* **Models.** What a model contains is left open: `duration model s` is the
  duration of its state `s`, and the step that builds a model takes it from the
  event. A frame is described by what its numbers are computed from (`FrameOf`):
  the models of the window that `optimizeParameters` has read, and the place of
  the frame in one of them.
* **History.** `accepted`, `popped`, `built` and `spoken` record what has passed
  so far; no step reads them.
-/

namespace Vox.Mage

open Lib

/-- Frame `q` of state `state` of the model at place `backup` of `window`. -/
structure FrameOf (M : Type*) where
  window : List M
  backup : Nat
  state : Nat
  q : Nat
  deriving DecidableEq, Repr

instance {M : Type*} : Inhabited (FrameOf M) := ⟨⟨[], 0, 0, 0⟩⟩

/-- Where the generator thread is in `Mage::run`. -/
inductive Generator (M : Type*)
  /-- Before `popLabel`. -/
  | idle
  /-- Before the model of the popped label is built. -/
  | build (label : Label)
  /-- Before `modelQueue->push()`. -/
  | pushModel (label : Label)
  /-- Before `Mage::optimizeParameters`. -/
  | optimize
  /-- In the loops of `generate`, before the frame `at_`. `full` is set when the
  window was full, so that a model is popped afterwards. -/
  | emit (at_ : FrameOf M) (full : Bool)
  /-- After `frameQueue->isFull()` was false. -/
  | fill (at_ : FrameOf M) (full : Bool)
  /-- Before `frameQueue->push()`. -/
  | pushFrame (at_ : FrameOf M) (full : Bool)
  /-- Before `modelQueue->pop()`. -/
  | popModel
  deriving DecidableEq, Repr

/-- Where the audio thread is in `Mage::updateSamples`. -/
inductive Audio
  | idle
  /-- After `frameQueue->isEmpty()` was false. -/
  | hand
  /-- Before `frameQueue->pop()`. -/
  | popFrame
  deriving DecidableEq, Repr

structure Pipeline (M : Type*) where
  input : LabelInput
  modelQueue : MemQueue M
  frameQueue : MemQueue (FrameOf M)
  flag : Bool
  sampleCount : Int
  hopLen : Int
  generator : Generator M
  audio : Audio
  /-- The labels that `pushLabel` has not refused. -/
  accepted : List Label
  /-- The labels that `run` has popped, as they were queued. -/
  popped : List Label
  /-- The models that were pushed, each with its label. -/
  built : List (Label × M)
  /-- The frames that were handed to `Vocoder::push`. -/
  spoken : List (FrameOf M)

/-- One step of a run. -/
inductive Event (M : Type*)
  | pushLabel (label : Label)
  /-- A step of the generator thread; if it builds a model, then `model`. -/
  | generator (model : M)
  | audio
  | reset
  deriving DecidableEq, Repr

namespace Pipeline

variable {M : Type*} [Inhabited M]

/-- `Mage::init`. -/
def start (nOfBackup nOfLookup : Nat) : Pipeline M where
  input := ⟨LabelQueue.new maxLabelQueueLen, default, 1⟩
  modelQueue := MemQueue.new (nOfLookup + nOfBackup + 2)
  frameQueue := MemQueue.new maxFrameQueueLen
  flag := true
  sampleCount := 0
  hopLen := defaultFrameRate
  generator := .idle
  audio := .idle
  accepted := []
  popped := []
  built := []
  spoken := []

/-- `ModelQueue::optimizeParameters( backup, lookup )` reads its window from the
oldest model on; the loops of `generate( backup )` then start on these numbers. -/
def firstFrame (modelQueue : MemQueue M) (backup lookup : Nat) : FrameOf M where
  window := window modelQueue.rawData modelQueue.read (backup + lookup + 1)
  backup := backup
  state := 0
  q := 0

/-- `rawData[head]`, with `head = ( read + backup ) % length`. -/
def headModel (modelQueue : MemQueue M) (backup : Nat) : M :=
  modelQueue.rawData.getD ((modelQueue.read + backup) % modelQueue.length) default

/-- A step of the generator thread. -/
def generatorStep (duration : M → Nat → Int) (nOfBackup nOfLookup : Nat) (p : Pipeline M)
    (model : M) : Pipeline M :=
  match p.generator with
  | .idle =>
    if p.input.popLabel.1 then
      { p with
        input := p.input.popLabel.2
        generator := .build p.input.labelQueue.pop.1
        popped := p.popped ++ [p.input.labelQueue.pop.1] }
    else p
  | .build label =>
    -- prepareModel, computeDuration and computeParameters write through next()
    { p with modelQueue := p.modelQueue.writeNext model, generator := .pushModel label }
  | .pushModel label =>
    { p with
      modelQueue := p.modelQueue.push 1
      generator := .optimize
      built := p.built ++ [(label, p.modelQueue.next)] }
  | .optimize =>
    let n := p.modelQueue.getNumOfItems
    if n > nOfLookup + nOfBackup then
      { p with
        flag := false
        generator := .emit (firstFrame p.modelQueue nOfBackup nOfLookup) true }
    else if n > nOfLookup ∧ p.flag then
      -- warm-up: fewer than nOfBackup models have come before
      { p with generator := .emit (firstFrame p.modelQueue (n - nOfLookup - 1) nOfLookup) false }
    else { p with generator := .idle }
  | .emit at_ full =>
    if at_.state < nOfStates then
      if at_.q < unsignedInt (duration (headModel p.modelQueue at_.backup) at_.state) then
        -- while( frameQueue->isFull() ) usleep( 1000 );
        if p.frameQueue.isFull then p else { p with generator := .fill at_ full }
      else { p with generator := .emit { at_ with state := at_.state + 1, q := 0 } full }
    else { p with generator := if full then .popModel else .idle }
  | .fill at_ full =>
    { p with frameQueue := p.frameQueue.writeNext at_, generator := .pushFrame at_ full }
  | .pushFrame at_ full =>
    { p with
      frameQueue := p.frameQueue.push 1
      generator := .emit { at_ with q := at_.q + 1 } full }
  | .popModel => { p with modelQueue := p.modelQueue.pop 1, generator := .idle }

/-- A step of the audio thread. -/
def audioStep (p : Pipeline M) : Pipeline M :=
  match p.audio with
  | .idle =>
    if p.sampleCount ≥ p.hopLen - 1 then
      if !p.frameQueue.isEmpty then { p with audio := .hand }
      else { p with sampleCount := 0 }
    else { p with sampleCount := p.sampleCount + 1 }
  | .hand => { p with spoken := p.spoken ++ [p.frameQueue.get], audio := .popFrame }
  | .popFrame =>
    { p with frameQueue := p.frameQueue.pop 1, sampleCount := 0, audio := .idle }

/-- `Mage::pushLabel`. -/
def pushLabel (p : Pipeline M) (label : Label) : Pipeline M :=
  { p with
    input := p.input.pushLabel label
    accepted := if p.input.labelQueue.isFull then p.accepted else p.accepted ++ [label] }

/-- `Mage::reset`, as far as the pipeline reads what it sets. It may come at any
time, not only between two runs. -/
def reset (p : Pipeline M) : Pipeline M :=
  { p with
    flag := true
    input := { p.input with labelSpeed := 1 }
    sampleCount := 0
    hopLen := defaultFrameRate }

def step (duration : M → Nat → Int) (nOfBackup nOfLookup : Nat) (p : Pipeline M) :
    Event M → Pipeline M
  | .pushLabel label => p.pushLabel label
  | .generator model => p.generatorStep duration nOfBackup nOfLookup model
  | .audio => p.audioStep
  | .reset => p.reset

/-- The state after a run. -/
def run (duration : M → Nat → Int) (nOfBackup nOfLookup : Nat) (es : List (Event M)) :
    Pipeline M :=
  es.foldl (step duration nOfBackup nOfLookup) (start nOfBackup nOfLookup)

end Pipeline

end Vox.Mage
