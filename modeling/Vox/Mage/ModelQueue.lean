import Vox.Lib.Loops
import Vox.Mage.MemQueue
import Vox.Mage.Model
import Vox.Mage.Words

/-!
# MAGE — parameter generation over a window of models

`ModelQueue::optimizeParameters` lays out the frames of a window of models — the
model that is spoken, those before it that are kept and those after it that are
known — and hands the parameter solver one problem for each stream.
`ModelQueue::generate` then emits the frames of the model that is spoken, reading
the solved parameters back.

The functions are translated with their loops: over the models of the window,
their states and the states' frames, with the counters `frame` and `msd_frame` that
index the memory. `accesses` logs the indices used, and which frame a row is stored
for. What the solver computes in `par` are floating-point numbers; of it only the
rows it accesses are modelled (`HTS_PStream_mlpg`), and of the emitted frames the
rows they read.
-/

namespace Vox.Mage

-- ---------------------------------------------------------------------------
-- The window
-- ---------------------------------------------------------------------------

/-- Frame `q` of state `state` of model `w` of the window. -/
structure Place where
  w : Nat
  state : Nat
  q : Nat
  deriving DecidableEq, Repr

/-- A frame of the window: its place, its model and its state. -/
structure WindowFrame where
  place : Place
  model : Model
  state : State

namespace ModelQueue

variable {σ : Type*}

/-- Model `w` after the oldest one. -/
def modelAt (queue : MemQueue Model) (w : Nat) : Model :=
  queue.rawData.getD ((queue.read + w) % queue.length) default

/-- The loop over the models of the window: `head` starts at `read` and advances
around the ring. -/
def forModels (queue : MemQueue Model) (window : Nat) (body : Nat → Model → σ → σ) (s : σ) : σ :=
  ((List.range window).foldl
    (fun p w => ((p.1 + 1) % queue.length, body w (queue.rawData.getD p.1 default) p.2))
    (queue.read, s)).2

/-- The loops over the states of a model and the frames of a state. -/
def forFrames (w : Nat) (model : Model) (body : WindowFrame → σ → σ) (s : σ) : σ :=
  (List.range nOfStates).foldl
    (fun s state =>
      (List.range (model.state state).duration.toNat).foldl
        (fun s j => body ⟨⟨w, state, j⟩, model, model.state state⟩ s) s) s

-- ---------------------------------------------------------------------------
-- Memory
-- ---------------------------------------------------------------------------

/-- An index into an array of `ModelQueueMemory`. -/
inductive Access
  /-- `voiced_unvoiced[frame]` -/
  | voiced_unvoiced (frame : Nat)
  /-- `voiced_unvoiced[frame+l]`, of a dynamic window -/
  | look_around (frame : Int)
  /-- `mean[i][frame]` and `ivar[i][frame]`, stored for the frame at a place -/
  | row (i frame : Nat) (place : Place)
  /-- `gv_switch[i][index]` -/
  | gv_switch (i index : Nat)
  deriving DecidableEq, Repr

/-- `ModelQueueMemory`, less the arrays that only the solver uses. -/
structure Memory where
  voiced_unvoiced : Nat → Bool
  mean : Nat → Nat → Nat → ℚ
  ivar : Nat → Nat → Nat → ℚ
  gv_mean : Nat → Nat → ℚ
  gv_vari : Nat → Nat → ℚ
  gv_switch : Nat → Nat → Bool
  accesses : List Access

/-- `HTS_finv` -/
def HTS_finv (x : ℚ) : ℚ :=
  if x ≥ 10 ^ 19 then 0
  else if x ≤ -10 ^ 19 then 0
  else if x ≤ 1 / 10 ^ 19 ∧ x ≥ 0 then 10 ^ 38
  else if x ≥ -1 / 10 ^ 19 ∧ x < 0 then -10 ^ 38
  else 1 / x

/-- `for( l = l_width; l <= r_width; l++ )` -/
def offsets (l_width r_width : Int) : List Int :=
  (List.range (r_width + 1 - l_width).toNat).map fun d => l_width + d

/-- The loops over the windows `k` of a stream and its static features `l`, which write
`value k m` at `m = static_length * k + l`. They write several arrays, each on its
own. -/
def storeCells {α : Type*} (stream : Stream) (value : Nat → Nat → α) (cells : Nat → α) : Nat → α :=
  let static_length := stream.vector_length / stream.window.size
  (List.range stream.window.size).foldl
    (fun cells k =>
      (List.range static_length).foldl
        (fun cells l =>
          Function.update cells (static_length * k + l) (value k (static_length * k + l))) cells)
    cells

/-- `HTS_finv( vari )` if window `k` keeps its inverse variance. -/
def ivarOf (dist : Nat → Distribution) (not_bound : Nat → Bool) (k m : Nat) : ℚ :=
  if not_bound k || k == 0 then HTS_finv (dist m).vari else 0

-- ---------------------------------------------------------------------------
-- The first pass: voicing
-- ---------------------------------------------------------------------------

/-- Voicing of all frames: the counter, the length of the window and the memory. -/
structure Voicing where
  frame : Nat
  total_duration : Int
  memory : Memory

/-- `msdFlag > msd_threshold` for the lf0 stream. -/
def voiced (msd_threshold : Nat → ℚ) (state : State) : Bool :=
  (state.streams lf0StreamIndex 0).msdFlag > msd_threshold lf0StreamIndex

def markFrame (msd_threshold : Nat → ℚ) (f : WindowFrame) (s : Voicing) : Voicing :=
  { s with
    frame := s.frame + 1
    memory :=
      { s.memory with
        voiced_unvoiced :=
          Function.update s.memory.voiced_unvoiced s.frame (voiced msd_threshold f.state)
        accesses := s.memory.accesses ++ [.voiced_unvoiced s.frame] } }

def markModel (msd_threshold : Nat → ℚ) (w : Nat) (model : Model) (s : Voicing) : Voicing :=
  let s := forFrames w model (markFrame msd_threshold) s
  { s with total_duration := s.total_duration + model.duration }

def markVoicing (queue : MemQueue Model) (window : Nat) (msd_threshold : Nat → ℚ)
    (memory : Memory) : Voicing :=
  forModels queue window (markModel msd_threshold) ⟨0, 0, memory⟩

-- ---------------------------------------------------------------------------
-- The second pass: the equations of a stream
-- ---------------------------------------------------------------------------

/-- Whether a dynamic window around a frame stays inside the voiced frames of the
window of models, and the indices looked at: the loop stops at the first that does
not. -/
def lookAround (voiced_unvoiced : Nat → Bool) (total_duration : Int) (frame : Nat) :
    List Int → Bool × List Access
  | [] => (true, [])
  | l :: ls =>
    if frame + l < 0 ∨ total_duration ≤ frame + l then (false, [])
    else if !voiced_unvoiced (frame + l).toNat then (false, [.look_around (frame + l)])
    else
      let rest := lookAround voiced_unvoiced total_duration frame ls
      (rest.1, .look_around (frame + l) :: rest.2)

/-- The same where voicing does not matter: nothing is looked at. -/
def notBound (total_duration : Int) (frame : Nat) : List Int → Bool
  | [] => true
  | l :: ls =>
    if frame + l < 0 ∨ total_duration ≤ frame + l then false
    else notBound total_duration frame ls

/-- The two counters and the memory. -/
structure Rows where
  frame : Nat
  msd_frame : Nat
  memory : Memory

/-- A frame of an MSD stream: a voiced one gets row `msd_frame`. -/
def storeMsdFrame (i : Nat) (stream : Stream) (total_duration : Int) (f : WindowFrame)
    (s : Rows) : Rows :=
  -- the window must stay on voiced frames
  let look (k : Nat) : Bool × List Access :=
    lookAround s.memory.voiced_unvoiced total_duration s.frame
      (offsets (stream.window.l_width k) (stream.window.r_width k))
  let accesses := s.memory.accesses ++ [.voiced_unvoiced s.frame]
  if s.memory.voiced_unvoiced s.frame then
    let dist := f.state.streams i
    let gv := (f.model.state 0).gv_streams i
    { frame := s.frame + 1
      msd_frame := s.msd_frame + 1
      memory :=
        { s.memory with
          mean := Function.update s.memory.mean i
            (Function.update (s.memory.mean i) s.msd_frame
              (storeCells stream (fun _ m => (dist m).mean) (s.memory.mean i s.msd_frame)))
          ivar := Function.update s.memory.ivar i
            (Function.update (s.memory.ivar i) s.msd_frame
              (storeCells stream (ivarOf dist fun k => (look k).1)
                (s.memory.ivar i s.msd_frame)))
          gv_mean := Function.update s.memory.gv_mean i
            (storeCells stream (fun _ m => (gv m).mean) (s.memory.gv_mean i))
          gv_vari := Function.update s.memory.gv_vari i
            (storeCells stream (fun _ m => (gv m).vari) (s.memory.gv_vari i))
          gv_switch := Function.update s.memory.gv_switch i
            (Function.update (s.memory.gv_switch i) s.msd_frame (f.state.gv_switch_streams i))
          accesses := accesses
            ++ (List.range stream.window.size).flatMap (fun k => (look k).2)
            ++ [.row i s.msd_frame f.place, .gv_switch i s.msd_frame] } }
  else { s with frame := s.frame + 1, memory := { s.memory with accesses := accesses } }

/-- A frame of another stream: every one gets row `frame`, and `gv_switch` is written
by coefficient. -/
def storeFrame (i : Nat) (stream : Stream) (total_duration : Int) (f : WindowFrame)
    (s : Rows) : Rows :=
  -- the window must only stay inside
  let not_bound (k : Nat) : Bool :=
    notBound total_duration s.frame
      (offsets (stream.window.l_width k) (stream.window.r_width k))
  let dist := f.state.streams i
  let gv := (f.model.state 0).gv_streams i
  { s with
    frame := s.frame + 1
    memory :=
      { s.memory with
        mean := Function.update s.memory.mean i
          (Function.update (s.memory.mean i) s.frame
            (storeCells stream (fun _ m => (dist m).mean) (s.memory.mean i s.frame)))
        ivar := Function.update s.memory.ivar i
          (Function.update (s.memory.ivar i) s.frame
            (storeCells stream (ivarOf dist not_bound) (s.memory.ivar i s.frame)))
        gv_mean := Function.update s.memory.gv_mean i
          (storeCells stream (fun _ m => (gv m).mean) (s.memory.gv_mean i))
        gv_vari := Function.update s.memory.gv_vari i
          (storeCells stream (fun _ m => (gv m).vari) (s.memory.gv_vari i))
        gv_switch := Function.update s.memory.gv_switch i
          (storeCells stream (fun _ _ => (f.model.state 0).gv_switch_streams i)
            (s.memory.gv_switch i))
        accesses := s.memory.accesses ++ [.row i s.frame f.place]
          ++ (List.range stream.window.size).flatMap (fun k =>
            (List.range (stream.vector_length / stream.window.size)).map fun l =>
              .gv_switch i (stream.vector_length / stream.window.size * k + l)) } }

def storeStream (queue : MemQueue Model) (window : Nat) (i : Nat) (stream : Stream)
    (total_duration : Int) (memory : Memory) : Rows :=
  if stream.msd_flag then
    forModels queue window
      (fun w model => forFrames w model (storeMsdFrame i stream total_duration)) ⟨0, 0, memory⟩
  else
    forModels queue window
      (fun w model => forFrames w model (storeFrame i stream total_duration)) ⟨0, 0, memory⟩

-- ---------------------------------------------------------------------------
-- The problems handed to the solver
-- ---------------------------------------------------------------------------

/-- `HTS_PStream`, less what only the solver uses: a problem of the parameter solver. -/
structure PStream (K : Type*) where
  vector_length : Nat
  length : Nat
  width : Nat
  window : Window K
  static_length : Nat
  gv_length : Nat
  gv_mean : Nat → K
  gv_vari : Nat → K
  gv_switch : Nat → Bool
  mean : Nat → Nat → K
  ivar : Nat → Nat → K

/-- The assignments to `pss` after the loops of stream `i`. -/
def assign (ms : ModelSet) (i : Nat) (s : Rows) : PStream ℚ :=
  let stream := ms.stream i
  let length := if stream.msd_flag then s.msd_frame else s.frame
  { vector_length := stream.vector_length
    length := length
    width := stream.window.max_width * 2 + 1
    window := stream.window
    static_length := stream.vector_length / stream.window.size
    gv_length := if ms.use_gv i then length else 0
    gv_mean := s.memory.gv_mean i
    gv_vari := s.memory.gv_vari i
    gv_switch := s.memory.gv_switch i
    mean := s.memory.mean i
    ivar := s.memory.ivar i }

/-- `ModelQueue::optimizeParameters( engine, backup, lookup )`: the problems handed to
the solver, stream by stream, and the memory with the log of this call. -/
def optimizeParameters (queue : MemQueue Model) (ms : ModelSet) (msd_threshold : Nat → ℚ)
    (backup lookup : Nat) (memory : Memory) : (Nat → PStream ℚ) × Memory :=
  let window := backup + lookup + 1
  let marked := markVoicing queue window msd_threshold { memory with accesses := [] }
  (List.range nOfStreams).foldl
    (fun r i =>
      let rows := storeStream queue window i (ms.stream i) marked.total_duration r.2
      (Function.update r.1 i (assign ms i rows), rows.memory))
    (fun i => assign ms i ⟨0, 0, memory⟩, marked.memory)

-- ---------------------------------------------------------------------------
-- The window of MAGE
-- ---------------------------------------------------------------------------

/-- `Mage::optimizeParameters`: `backup` and `lookup` of the call that it makes. The
`flag` is up until enough models are kept. -/
def windowOf (nOfBackup nOfLookup numOfItems : Nat) (flag : Bool) : Option (Nat × Nat) :=
  if numOfItems > nOfLookup + nOfBackup then some (nOfBackup, nOfLookup)
  else if numOfItems > nOfLookup ∧ flag then some (numOfItems - nOfLookup - 1, nOfLookup)
  else none

-- ---------------------------------------------------------------------------
-- Reading the parameters back
-- ---------------------------------------------------------------------------

/-- A frame that `generate` emits: its place, its voicing and the row of `par` that
is read for each stream. -/
structure Emission where
  place : Place
  voiced : Bool
  index : Nat → Nat

/-- Counts the frames of a state of an earlier model in every stream. -/
def countState (msd_threshold : Nat → ℚ) (state : State) (qStream : Nat → Nat) : Nat → Nat :=
  (List.range nOfStreams).foldl
    (fun qStream i =>
      if i ≠ lf0StreamIndex ∨ (state.streams i 0).msdFlag > msd_threshold i then
        Function.update qStream i (qStream i + unsignedInt state.duration)
      else qStream)
    qStream

/-- Emits a frame, and advances the streams that have a row for it. -/
def emitFrame (msd_threshold : Nat → ℚ) (place : Place) (state : State)
    (s : (Nat → Nat) × List Emission) : (Nat → Nat) × List Emission :=
  ((List.range nOfStreams).foldl
      (fun qStream i =>
        if i ≠ lf0StreamIndex ∨ (state.streams i 0).msdFlag > msd_threshold i then
          Function.update qStream i (qStream i + 1)
        else qStream) s.1,
    s.2 ++ [⟨place, voiced msd_threshold state, s.1⟩])

/-- `ModelQueue::generate( engine, frameQueue, backup )`: the frames emitted. -/
def generate (queue : MemQueue Model) (msd_threshold : Nat → ℚ) (backup : Nat) :
    List Emission :=
  let head := modelAt queue backup
  let qStream := (List.range backup).foldl
    (fun qStream w =>
      (List.range nOfStates).foldl
        (fun qStream s => countState msd_threshold ((modelAt queue w).state s) qStream) qStream)
    (fun _ => 0)
  ((List.range nOfStates).foldl
    (fun s state =>
      (List.range (unsignedInt (head.state state).duration)).foldl
        (fun s q => emitFrame msd_threshold ⟨backup, state, q⟩ (head.state state) s) s)
    (qStream, [])).2

end ModelQueue

end Vox.Mage
