import Mathlib.Algebra.BigOperators.Ring.Finset
import Vox.Lib.Run
import Vox.Mage.Pipeline

/-!
# MAGE — every label is spoken once and in order

Which model `optimizeParameters` has spoken depends on how many are stored:
none before the window reaches the newest label that has all its look-ahead, the
newest such label while the window fills up (`flag`), and the label `nOfBackup`
places from the oldest once it is full. All three say the same thing: the frames
are those of the newest label that `nOfLookup` labels have followed, computed
from its sliding context (`Lib.context`).

The argument has three parts, one for each thing the threads share:

* `LabelsInv` — popped and waiting labels are the accepted ones, in order.
* `ModelsInv` — the model queue holds the newest models, no more of them than the
  window needs, so that the place the ring is read at is the label's own model.
* `FramesInv` — what was handed to the vocoder, what is in the frame queue and
  what the loops of `generate` still have to push make up the blocks of the
  labels, in order.

Main results:

* `run_inv` — all of it holds in every state of every run.
* `length_block` — a block has as many frames as the model of its own label.
* `spoken_in_order` — the frames handed to the vocoder are a prefix of the blocks.
-/

namespace Vox.Mage

open Lib

section Blocks

variable {M : Type*} [Inhabited M] (duration : M → Nat → Int)

-- ---------------------------------------------------------------------------
-- Blocks
-- ---------------------------------------------------------------------------

/-- The first `q` frames of a state. -/
def stateFrames (window : List M) (backup state q : Nat) : List (FrameOf M) :=
  (List.range q).map fun q => ⟨window, backup, state, q⟩

/-- How many frames a state has. -/
def frameCount (window : List M) (backup state : Nat) : Nat :=
  unsignedInt (duration (window.getD backup default) state)

/-- The frames of the first `n` states of the model at place `backup`. -/
def statesFrames (window : List M) (backup n : Nat) : List (FrameOf M) :=
  (List.range n).flatMap fun s =>
    stateFrames window backup s (frameCount duration window backup s)

/-- The frames of one label: all states of its model. -/
def block (window : List M) (backup : Nat) : List (FrameOf M) :=
  statesFrames duration window backup nOfStates

/-- The blocks of the first `n` labels, in order. -/
def blocks (nOfBackup nOfLookup : Nat) (models : List M) (n : Nat) : List (FrameOf M) :=
  (List.range n).flatMap fun k =>
    block duration (context nOfBackup nOfLookup models k) (min k nOfBackup)

/-- **What is to be spoken**: a block for every label that `nOfLookup` labels
have followed. -/
def speech (nOfBackup nOfLookup : Nat) (models : List M) : List (FrameOf M) :=
  blocks duration nOfBackup nOfLookup models (models.length - nOfLookup)

/-- What `generate` has emitted of a block when its loops are at `at_`. -/
def emitted (at_ : FrameOf M) : List (FrameOf M) :=
  statesFrames duration at_.window at_.backup at_.state
    ++ stateFrames at_.window at_.backup at_.state at_.q

theorem blocks_succ (nOfBackup nOfLookup : Nat) (models : List M) (n : Nat) :
    blocks duration nOfBackup nOfLookup models (n + 1) =
      blocks duration nOfBackup nOfLookup models n ++
        block duration (context nOfBackup nOfLookup models n) (min n nOfBackup) := by
  simp [blocks, List.range_succ]

/-- The loops emit their block from its first frame on. -/
theorem emitted_isPrefix (at_ : FrameOf M)
    (h : (at_.state < nOfStates ∧ at_.q ≤ frameCount duration at_.window at_.backup at_.state) ∨
      (at_.state = nOfStates ∧ at_.q = 0)) :
    emitted duration at_ <+: block duration at_.window at_.backup := by
  rcases h with ⟨hstate, hq⟩ | ⟨hstate, hq⟩
  · -- part of the frames of this state, after all frames of the states before
    have hframes : stateFrames at_.window at_.backup at_.state at_.q
        <+: stateFrames at_.window at_.backup at_.state
          (frameCount duration at_.window at_.backup at_.state) := by
      obtain ⟨d, hd⟩ := Nat.exists_eq_add_of_le hq
      rw [stateFrames, stateFrames, hd, List.range_add, List.map_append]
      exact List.prefix_append _ _
    have hnext : statesFrames duration at_.window at_.backup at_.state
          ++ stateFrames at_.window at_.backup at_.state
            (frameCount duration at_.window at_.backup at_.state)
        = statesFrames duration at_.window at_.backup (at_.state + 1) := by
      simp [statesFrames, List.range_succ]
    calc emitted duration at_
        <+: statesFrames duration at_.window at_.backup (at_.state + 1) := by
          rw [← hnext]
          exact (List.prefix_append_right_inj _).mpr hframes
      _ <+: block duration at_.window at_.backup := flatMap_range_prefix _ hstate
  · simp [emitted, block, stateFrames, hstate, hq]

/-- Later labels do not change the blocks of labels that have their look-ahead. -/
theorem blocks_append {nOfBackup nOfLookup n : Nat} {models : List M}
    (hn : n ≤ models.length - nOfLookup) (more : List M) :
    blocks duration nOfBackup nOfLookup (models ++ more) n
      = blocks duration nOfBackup nOfLookup models n := by
  unfold blocks
  rw [List.flatMap_congr]
  intro k hk
  -- the context of such a label ends before the new models
  have hlt : k + nOfLookup < models.length := by
    have := List.mem_range.mp hk
    omega
  rw [context_append hlt]

/-- After the last frame of a state comes the next state. -/
theorem emitted_nextState (at_ : FrameOf M)
    (hq : at_.q = frameCount duration at_.window at_.backup at_.state) :
    emitted duration { at_ with state := at_.state + 1, q := 0 } = emitted duration at_ := by
  simp [emitted, statesFrames, List.range_succ, stateFrames, hq]

theorem emitted_nextFrame (at_ : FrameOf M) :
    emitted duration { at_ with q := at_.q + 1 } = emitted duration at_ ++ [at_] := by
  simp [emitted, stateFrames, List.range_succ]

/-- Behind the last state the whole block is emitted. -/
theorem emitted_end (at_ : FrameOf M) (hstate : at_.state = nOfStates) (hq : at_.q = 0) :
    emitted duration at_ = block duration at_.window at_.backup := by
  simp [emitted, block, stateFrames, hstate, hq]

/-- How many frames `generate` emits for a model. -/
def modelFrames (model : M) : Nat :=
  ((List.range nOfStates).map fun s => unsignedInt (duration model s)).sum

omit [Inhabited M] in
/-- For durations that are no negative numbers this is their sum. -/
theorem modelFrames_eq (model : M)
    (hdur : ∀ s < nOfStates, 0 ≤ duration model s ∧ duration model s < 2 ^ 32) :
    (modelFrames duration model : Int) = ((List.range nOfStates).map (duration model)).sum := by
  have hcast : ((List.range nOfStates).map fun s => (unsignedInt (duration model s) : Int))
      = (List.range nOfStates).map (duration model) := by
    apply List.map_congr_left
    intro s hs
    obtain ⟨hpos, hlt⟩ := hdur s (List.mem_range.mp hs)
    exact unsignedInt_eq hpos hlt
  rw [modelFrames, ← hcast, Nat.cast_list_sum, List.map_map]
  rfl

/-- **A block has as many frames as the model of its label.** -/
theorem length_block (nOfBackup nOfLookup k : Nat) (models : List M) :
    (block duration (context nOfBackup nOfLookup models k) (min k nOfBackup)).length
      = modelFrames duration (models.getD k default) := by
  rw [← context_getD nOfBackup nOfLookup k models default]
  simp [block, statesFrames, stateFrames, List.length_flatMap, modelFrames, frameCount]

end Blocks

-- ---------------------------------------------------------------------------
-- The invariants
-- ---------------------------------------------------------------------------

section Invariants

variable {M : Type*} [Inhabited M]

/-- The label that has been popped and whose model has not been pushed. -/
def Generator.inHand : Generator M → List Label
  | .build label | .pushModel label => [label]
  | _ => []

/-- Labels are popped in the order in which they were accepted, and each label
that was popped has its model or is in hand. -/
structure LabelsInv (input : LabelInput) (accepted popped : List Label)
    (built : List (Label × M)) (g : Generator M) : Prop where
  wf : input.labelQueue.Wf
  accepted_eq : accepted = popped ++ input.labelQueue.labels
  popped_eq : popped = built.map Prod.fst ++ g.inHand

/-- How many of `n` models are stored: one more than the window between a push
and the pop that follows it. -/
def Generator.kept (g : Generator M) (nOfBackup nOfLookup n : Nat) : Nat :=
  match g with
  | .idle | .build _ | .pushModel _ => min n (nOfBackup + nOfLookup)
  | _ => min n (nOfBackup + nOfLookup + 1)

/-- The loops of `generate` run over the newest label with all its look-ahead. -/
structure InLoops (nOfBackup nOfLookup : Nat) (models : List M) (at_ : FrameOf M)
    (full : Bool) : Prop where
  ahead : nOfLookup < models.length
  window_eq : at_.window = context nOfBackup nOfLookup models (models.length - 1 - nOfLookup)
  backup_eq : at_.backup = min (models.length - 1 - nOfLookup) nOfBackup
  full_iff : full = true ↔ nOfBackup + nOfLookup + 1 ≤ models.length

/-- What the position of the generator says about the models. -/
def Generator.Place (g : Generator M) (nOfBackup nOfLookup : Nat) (models : List M) : Prop :=
  match g with
  | .optimize => 0 < models.length
  | .emit at_ full | .fill at_ full | .pushFrame at_ full =>
    InLoops nOfBackup nOfLookup models at_ full
  | .popModel => nOfBackup + nOfLookup + 1 ≤ models.length
  | _ => True

structure ModelsInv (nOfBackup nOfLookup : Nat) (q : MemQueue M) (models : List M)
    (g : Generator M) (flag : Bool) : Prop where
  wf : q.Wf
  length_eq : q.length = nOfLookup + nOfBackup + 2
  items_eq : q.items = models.rtake q.getNumOfItems
  count_eq : q.getNumOfItems = g.kept nOfBackup nOfLookup models.length
  /-- The flag only falls with a full window. -/
  flag_of_short : models.length < nOfBackup + nOfLookup + 1 → flag = true
  place : g.Place nOfBackup nOfLookup models

variable (duration : M → Nat → Int)

/-- What the generator has emitted so far. -/
def Generator.progress (g : Generator M) (nOfBackup nOfLookup : Nat) (models : List M) :
    List (FrameOf M) :=
  match g with
  | .idle | .build _ | .pushModel _ | .popModel => speech duration nOfBackup nOfLookup models
  | .optimize => blocks duration nOfBackup nOfLookup models (models.length - 1 - nOfLookup)
  | .emit at_ _ | .fill at_ _ | .pushFrame at_ _ =>
    blocks duration nOfBackup nOfLookup models (models.length - 1 - nOfLookup)
      ++ emitted duration at_

/-- What the position of the generator says about its loops and the frame queue. -/
def Generator.LoopsOk (g : Generator M) (q : MemQueue (FrameOf M)) : Prop :=
  match g with
  | .emit at_ _ =>
    (at_.state < nOfStates ∧ at_.q ≤ frameCount duration at_.window at_.backup at_.state) ∨
      (at_.state = nOfStates ∧ at_.q = 0)
  | .fill at_ _ =>
    at_.state < nOfStates ∧ at_.q < frameCount duration at_.window at_.backup at_.state ∧
      q.getNumOfItems < q.length
  | .pushFrame at_ _ =>
    at_.state < nOfStates ∧ at_.q < frameCount duration at_.window at_.backup at_.state ∧
      q.getNumOfItems < q.length ∧ q.next = at_
  | _ => True

/-- The frames of the queue that the vocoder has not got: between `get` and
`pop` the oldest one has been handed over. -/
def Audio.waiting (audio : Audio) (q : MemQueue (FrameOf M)) : List (FrameOf M) :=
  if audio = .popFrame then q.items.tail else q.items

structure FramesInv (nOfBackup nOfLookup : Nat) (q : MemQueue (FrameOf M)) (audio : Audio)
    (spoken : List (FrameOf M)) (models : List M) (g : Generator M) : Prop where
  wf : q.Wf
  nonempty : audio ≠ .idle → 0 < q.getNumOfItems
  progress_eq : spoken ++ audio.waiting q = g.progress duration nOfBackup nOfLookup models
  loops : g.LoopsOk duration q

/-- **The invariant of the pipeline.** -/
structure Pipeline.Inv (nOfBackup nOfLookup : Nat) (p : Pipeline M) : Prop where
  labels : LabelsInv p.input p.accepted p.popped p.built p.generator
  models : ModelsInv nOfBackup nOfLookup p.modelQueue (p.built.map Prod.snd) p.generator p.flag
  frames : FramesInv duration nOfBackup nOfLookup p.frameQueue p.audio p.spoken
    (p.built.map Prod.snd) p.generator

namespace Pipeline

variable {duration} {nOfBackup nOfLookup : Nat}

/-- At the start nothing has happened. -/
theorem inv_start : (start nOfBackup nOfLookup : Pipeline M).Inv duration nOfBackup nOfLookup where
  labels := ⟨LabelQueue.wf_new (by decide) (by decide), by simp [start, LabelQueue.labels_new],
    by simp [start, Generator.inHand]⟩
  models :=
    { wf := MemQueue.wf_new (by omega)
      length_eq := MemQueue.length_new _
      items_eq := by simp [start]
      count_eq := by simp [start, MemQueue.new, MemQueue.getNumOfItems, Generator.kept]
      flag_of_short := fun _ => rfl
      place := trivial }
  frames :=
    { wf := MemQueue.wf_new (by decide)
      nonempty := fun h => absurd rfl h
      progress_eq := by
        simp [start, Audio.waiting, Generator.progress, speech, blocks]
      loops := trivial }

-- ---------------------------------------------------------------------------
-- Steps from outside
-- ---------------------------------------------------------------------------

/-- A label is accepted last, or refused. -/
theorem inv_pushLabel {p : Pipeline M} (h : p.Inv duration nOfBackup nOfLookup) (label : Label) :
    (p.pushLabel label).Inv duration nOfBackup nOfLookup := by
  obtain ⟨⟨hwf, hacc, hpop⟩, hmodels, hframes⟩ := h
  refine ⟨?_, hmodels, hframes⟩
  by_cases hfull : p.input.labelQueue.isFull = true
  · -- a refused label changes nothing
    refine ⟨?_, ?_, hpop⟩
    · simpa [pushLabel, LabelInput.pushLabel, hfull] using hwf
    · simpa [pushLabel, LabelInput.pushLabel, hfull] using hacc
  · have hroom : p.input.labelQueue.nOfLabels < p.input.labelQueue.queue.length := by
      rw [LabelQueue.isFull_iff, LabelQueue.length_labels] at hfull
      omega
    refine ⟨?_, ?_, hpop⟩
    · simpa [pushLabel, LabelInput.pushLabel, hfull] using LabelQueue.wf_push hwf hroom label
    · simp [pushLabel, LabelInput.pushLabel, hfull, LabelQueue.labels_push hwf hroom, hacc]

/-- A reset of the vocoder touches neither queue. -/
theorem inv_reset {p : Pipeline M} (h : p.Inv duration nOfBackup nOfLookup) :
    p.reset.Inv duration nOfBackup nOfLookup where
  labels := ⟨h.labels.wf, h.labels.accepted_eq, h.labels.popped_eq⟩
  models := { h.models with flag_of_short := fun _ => rfl }
  frames := h.frames

-- ---------------------------------------------------------------------------
-- Steps of the audio thread
-- ---------------------------------------------------------------------------

/-- The consumer only makes room, and leaves the next slot alone. -/
theorem loopsOk_pop {g : Generator M} {q : MemQueue (FrameOf M)} (h : g.LoopsOk duration q)
    (hne : 0 < q.getNumOfItems) : g.LoopsOk duration (q.pop 1) := by
  have hcount := MemQueue.getNumOfItems_pop hne
  cases g with
  | fill at_ full =>
    obtain ⟨hstate, hq, hroom⟩ := h
    exact ⟨hstate, hq, by rw [hcount, MemQueue.length_pop]; omega⟩
  | pushFrame at_ full =>
    obtain ⟨hstate, hq, hroom, hnext⟩ := h
    exact ⟨hstate, hq, by rw [hcount, MemQueue.length_pop]; omega, hnext⟩
  | _ => exact h

/-- The audio thread hands over the oldest frame and then drops it. -/
theorem inv_audioStep {p : Pipeline M} (h : p.Inv duration nOfBackup nOfLookup) :
    p.audioStep.Inv duration nOfBackup nOfLookup := by
  obtain ⟨hlabels, hmodels, hframes⟩ := h
  unfold audioStep
  split
  next haudio =>
    have hprogress := hframes.progress_eq
    rw [haudio] at hprogress
    split
    · split
      · -- a frame is there, and only this thread takes frames away
        next hne =>
        have hpos : 0 < p.frameQueue.getNumOfItems := by
          rw [Bool.not_eq_true', ← Bool.not_eq_true, MemQueue.isEmpty_iff] at hne
          omega
        exact ⟨hlabels, hmodels, hframes.wf, fun _ => hpos, hprogress, hframes.loops⟩
      · exact ⟨hlabels, hmodels, hframes⟩
    · exact ⟨hlabels, hmodels, hframes⟩
  next haudio =>
    -- the oldest frame goes over to the vocoder
    have hne := hframes.nonempty (by rw [haudio]; decide)
    have hprogress := hframes.progress_eq
    rw [haudio] at hprogress
    refine ⟨hlabels, hmodels, hframes.wf, fun _ => hne, ?_, hframes.loops⟩
    rw [← hprogress]
    show (p.spoken ++ [p.frameQueue.get]) ++ p.frameQueue.items.tail
      = p.spoken ++ p.frameQueue.items
    rw [List.append_assoc, List.singleton_append, ← MemQueue.items_eq_cons hframes.wf hne]
  next haudio =>
    -- the frame that was handed over is dropped
    have hne := hframes.nonempty (by rw [haudio]; decide)
    have hprogress := hframes.progress_eq
    rw [haudio] at hprogress
    refine ⟨hlabels, hmodels, MemQueue.wf_pop hframes.wf hne, fun hidle => absurd rfl hidle, ?_,
      loopsOk_pop hframes.loops hne⟩
    rw [← hprogress]
    show p.spoken ++ (p.frameQueue.pop 1).items = p.spoken ++ p.frameQueue.items.tail
    rw [MemQueue.items_pop hframes.wf hne]

-- ---------------------------------------------------------------------------
-- Steps of the generator thread
-- ---------------------------------------------------------------------------

/-- The generator takes the oldest label. -/
theorem inv_popLabel {p : Pipeline M} (h : p.Inv duration nOfBackup nOfLookup)
    (hg : p.generator = .idle) (model : M) :
    (p.generatorStep duration nOfBackup nOfLookup model).Inv duration nOfBackup nOfLookup := by
  unfold generatorStep
  simp only [hg]
  by_cases hempty : p.input.labelQueue.isEmpty = true
  · -- nothing to pop: the thread comes back
    rw [LabelInput.popLabel, if_pos hempty]
    exact h
  rw [LabelInput.popLabel, if_neg hempty]
  obtain ⟨hlabels, hmodels, hframes⟩ := h
  rw [hg] at hlabels hmodels hframes
  have hne : 0 < p.input.labelQueue.nOfLabels := by
    rw [LabelQueue.isEmpty_iff, ← List.length_eq_zero_iff, LabelQueue.length_labels] at hempty
    omega
  -- the label goes from the waiting ones to the hand
  have hpopped : p.popped = p.built.map Prod.fst ++ [] := hlabels.popped_eq
  refine ⟨⟨LabelQueue.wf_pop hlabels.wf hne, ?_, ?_⟩, ?_, ?_⟩
  · show p.accepted = (p.popped ++ [_]) ++ p.input.labelQueue.pop.2.labels
    rw [hlabels.accepted_eq, LabelQueue.labels_pop hlabels.wf hne]
    simp
  · show p.popped ++ [_] = p.built.map Prod.fst ++ [_]
    rw [hpopped, List.append_nil]
  · exact { hmodels with place := trivial }
  · exact { hframes with loops := trivial }

/-- A model is built into the next slot. -/
theorem inv_build {p : Pipeline M} {label : Label} (h : p.Inv duration nOfBackup nOfLookup)
    (hg : p.generator = .build label) (model : M) :
    (p.generatorStep duration nOfBackup nOfLookup model).Inv duration nOfBackup nOfLookup := by
  obtain ⟨hlabels, hmodels, hframes⟩ := h
  rw [hg] at hlabels hmodels hframes
  -- there is a free slot, and building a model in it leaves the stored ones alone
  have hcount : p.modelQueue.getNumOfItems = min _ (nOfBackup + nOfLookup) := hmodels.count_eq
  have hroom : p.modelQueue.getNumOfItems < p.modelQueue.length := by
    rw [hmodels.length_eq]
    omega
  unfold generatorStep
  simp only [hg]
  refine ⟨⟨hlabels.wf, hlabels.accepted_eq, hlabels.popped_eq⟩, ?_, ?_⟩
  · exact
      { wf := MemQueue.wf_writeNext hmodels.wf model
        length_eq := by rw [MemQueue.length_writeNext, hmodels.length_eq]
        items_eq := by
          rw [MemQueue.items_writeNext hmodels.wf hroom, hmodels.items_eq,
            MemQueue.getNumOfItems_writeNext]
        count_eq := hmodels.count_eq
        flag_of_short := hmodels.flag_of_short
        place := trivial }
  · exact { hframes with loops := trivial }

/-- The model is pushed; its label counts as built. -/
theorem inv_pushModel {p : Pipeline M} {label : Label} (h : p.Inv duration nOfBackup nOfLookup)
    (hg : p.generator = .pushModel label) (model : M) :
    (p.generatorStep duration nOfBackup nOfLookup model).Inv duration nOfBackup nOfLookup := by
  obtain ⟨hlabels, hmodels, hframes⟩ := h
  rw [hg] at hlabels hmodels hframes
  have hcount : p.modelQueue.getNumOfItems = min _ (nOfBackup + nOfLookup) := hmodels.count_eq
  have hroom : p.modelQueue.getNumOfItems < p.modelQueue.length := by
    rw [hmodels.length_eq]
    omega
  have hpush := MemQueue.getNumOfItems_push hmodels.wf
  have hpopped : p.popped = p.built.map Prod.fst ++ [label] := hlabels.popped_eq
  have hbuilt : (p.built ++ [(label, p.modelQueue.next)]).map Prod.snd
      = p.built.map Prod.snd ++ [p.modelQueue.next] := by simp
  unfold generatorStep
  simp only [hg]
  refine ⟨⟨hlabels.wf, hlabels.accepted_eq, ?_⟩, ?_, ?_⟩
  · show p.popped = (p.built ++ [(label, p.modelQueue.next)]).map Prod.fst ++ []
    simpa using hpopped
  · show ModelsInv _ _ _ ((p.built ++ [(label, p.modelQueue.next)]).map Prod.snd) _ _
    rw [hbuilt]
    exact
      { wf := MemQueue.wf_push hmodels.wf hroom
        length_eq := by rw [MemQueue.length_push, hmodels.length_eq]
        items_eq := by
          rw [MemQueue.items_push hmodels.wf, hpush, List.rtake_concat_succ, hmodels.items_eq]
        count_eq := by
          rw [hpush, hcount]
          simp only [Generator.kept, List.length_append, List.length_singleton]
          omega
        flag_of_short := by
          intro hshort
          rw [List.length_append] at hshort
          exact hmodels.flag_of_short (by omega)
        place := by
          show 0 < (_ ++ [_]).length
          simp }
  · -- the new label has no look-ahead yet that the one before it had not
    refine ⟨hframes.wf, hframes.nonempty, ?_, trivial⟩
    rw [hframes.progress_eq]
    show speech duration nOfBackup nOfLookup (p.built.map Prod.snd)
      = blocks duration nOfBackup nOfLookup
        ((p.built ++ [(label, p.modelQueue.next)]).map Prod.snd) _
    have hn : (p.built.map Prod.snd ++ [p.modelQueue.next]).length - 1 - nOfLookup
        = (p.built.map Prod.snd).length - nOfLookup := by simp
    rw [hbuilt, hn, blocks_append duration (le_refl _), speech]

/-- The loops start on the newest label with all its look-ahead, wherever the
window lies. -/
theorem inLoops_firstFrame {q : MemQueue M} {models : List M} {backup : Nat} {full : Bool}
    (hitems : q.items = models.rtake q.getNumOfItems)
    (hcount : q.getNumOfItems = min models.length (nOfBackup + nOfLookup + 1))
    (hahead : nOfLookup < models.length)
    (hbackup : backup = min (models.length - 1 - nOfLookup) nOfBackup)
    (hfull : full = true ↔ nOfBackup + nOfLookup + 1 ≤ models.length) :
    InLoops nOfBackup nOfLookup models (firstFrame q backup nOfLookup) full where
  ahead := hahead
  window_eq := by
    have hwindow : backup + nOfLookup + 1 = q.getNumOfItems := by omega
    rw [context_newest hahead, ← hcount, ← hitems]
    show window q.rawData q.read (backup + nOfLookup + 1) = q.items
    rw [hwindow]
    rfl
  backup_eq := hbackup
  full_iff := hfull

/-- The window of models decides which block comes. -/
theorem inv_optimize {p : Pipeline M} (h : p.Inv duration nOfBackup nOfLookup)
    (hg : p.generator = .optimize) (model : M) :
    (p.generatorStep duration nOfBackup nOfLookup model).Inv duration nOfBackup nOfLookup := by
  obtain ⟨hlabels, hmodels, hframes⟩ := h
  rw [hg] at hlabels hmodels hframes
  have hcount : p.modelQueue.getNumOfItems
      = min (p.built.map Prod.snd).length (nOfBackup + nOfLookup + 1) := hmodels.count_eq
  have hpos : 0 < (p.built.map Prod.snd).length := hmodels.place
  have hprogress : p.spoken ++ p.audio.waiting p.frameQueue = blocks duration nOfBackup nOfLookup
      (p.built.map Prod.snd) ((p.built.map Prod.snd).length - 1 - nOfLookup) :=
    hframes.progress_eq
  have hstart : ∀ backup : Nat, blocks duration nOfBackup nOfLookup (p.built.map Prod.snd)
        ((p.built.map Prod.snd).length - 1 - nOfLookup) =
      (Generator.emit (firstFrame p.modelQueue backup nOfLookup) true).progress duration
        nOfBackup nOfLookup (p.built.map Prod.snd) :=
    fun _ => (List.append_nil _).symm
  unfold generatorStep
  simp only [hg]
  split
  next hfull =>
    -- the window is full: the label nOfBackup places from the oldest
    have hmodels' : ModelsInv nOfBackup nOfLookup p.modelQueue (p.built.map Prod.snd)
        (.emit (firstFrame p.modelQueue nOfBackup nOfLookup) true) false :=
      { wf := hmodels.wf
        length_eq := hmodels.length_eq
        items_eq := hmodels.items_eq
        count_eq := hcount
        flag_of_short := fun hshort => by omega
        place := inLoops_firstFrame hmodels.items_eq hcount (by omega) (by omega)
          (iff_of_true rfl (by omega)) }
    exact ⟨⟨hlabels.wf, hlabels.accepted_eq, hlabels.popped_eq⟩, hmodels', hframes.wf,
      hframes.nonempty, hprogress.trans (hstart _), Or.inl ⟨Nat.zero_lt_succ _, Nat.zero_le _⟩⟩
  next hnotfull =>
    split
    next hahead =>
      -- warm-up: the label that is followed by nOfLookup stored ones
      have hmodels' : ModelsInv nOfBackup nOfLookup p.modelQueue (p.built.map Prod.snd)
          (.emit (firstFrame p.modelQueue (p.modelQueue.getNumOfItems - nOfLookup - 1) nOfLookup)
            false) p.flag :=
        { wf := hmodels.wf
          length_eq := hmodels.length_eq
          items_eq := hmodels.items_eq
          count_eq := hcount
          flag_of_short := hmodels.flag_of_short
          place := inLoops_firstFrame hmodels.items_eq hcount (by omega) (by omega)
            (iff_of_false (by decide) (by omega)) }
      exact ⟨⟨hlabels.wf, hlabels.accepted_eq, hlabels.popped_eq⟩, hmodels', hframes.wf,
        hframes.nonempty, hprogress.trans (hstart _), Or.inl ⟨Nat.zero_lt_succ _, Nat.zero_le _⟩⟩
    next hnone =>
      -- the flag is still up, so too few labels have come for any to be spoken
      have hshort : (p.built.map Prod.snd).length ≤ nOfLookup := by
        by_contra hlong
        have hflag := hmodels.flag_of_short (by omega)
        exact hnone ⟨by omega, hflag⟩
      have hmodels' : ModelsInv nOfBackup nOfLookup p.modelQueue (p.built.map Prod.snd)
          .idle p.flag :=
        { wf := hmodels.wf
          length_eq := hmodels.length_eq
          items_eq := hmodels.items_eq
          count_eq := by
            show p.modelQueue.getNumOfItems = min _ (nOfBackup + nOfLookup)
            omega
          flag_of_short := hmodels.flag_of_short
          place := trivial }
      have hsilent : (p.built.map Prod.snd).length - 1 - nOfLookup
          = (p.built.map Prod.snd).length - nOfLookup := by omega
      rw [hsilent] at hprogress
      exact ⟨⟨hlabels.wf, hlabels.accepted_eq, hlabels.popped_eq⟩, hmodels', hframes.wf,
        hframes.nonempty, hprogress, trivial⟩

/-- In its loops `generate` reads the model the window has at `backup`. -/
theorem headModel_eq {q : MemQueue M} {models : List M} {at_ : FrameOf M} {full : Bool}
    (hitems : q.items = models.rtake q.getNumOfItems)
    (hcount : q.getNumOfItems = min models.length (nOfBackup + nOfLookup + 1))
    (hloops : InLoops nOfBackup nOfLookup models at_ full) :
    headModel q at_.backup = at_.window.getD at_.backup default := by
  have hahead := hloops.ahead
  have hbackup : at_.backup < q.getNumOfItems := by
    rw [hloops.backup_eq]
    omega
  rw [headModel, MemQueue.rawData_getD hbackup, hitems, hcount, hloops.window_eq,
    context_newest hahead]

/-- The loops over states and frames. -/
theorem inv_emit {p : Pipeline M} {at_ : FrameOf M} {full : Bool}
    (h : p.Inv duration nOfBackup nOfLookup) (hg : p.generator = .emit at_ full) (model : M) :
    (p.generatorStep duration nOfBackup nOfLookup model).Inv duration nOfBackup nOfLookup := by
  have hstay := h
  obtain ⟨hlabels, hmodels, hframes⟩ := h
  rw [hg] at hlabels hmodels hframes
  have hcount : p.modelQueue.getNumOfItems
      = min (p.built.map Prod.snd).length (nOfBackup + nOfLookup + 1) := hmodels.count_eq
  have hloops : InLoops nOfBackup nOfLookup (p.built.map Prod.snd) at_ full := hmodels.place
  have hlen : unsignedInt (duration (headModel p.modelQueue at_.backup) at_.state)
      = frameCount duration at_.window at_.backup at_.state := by
    rw [headModel_eq hmodels.items_eq hcount hloops, frameCount]
  have hprogress := hframes.progress_eq
  have hplace := hframes.loops
  unfold generatorStep
  simp only [hg, hlen]
  split
  next hstate =>
    have hq : at_.q ≤ frameCount duration at_.window at_.backup at_.state := by
      rcases hplace with ⟨-, hq⟩ | ⟨hend, -⟩
      · exact hq
      · omega
    split
    next hmore =>
      split
      -- full: the thread sleeps and looks again
      next => exact hstay
      next hfull =>
        have hroom : p.frameQueue.getNumOfItems < p.frameQueue.length := by
          rw [MemQueue.isFull_iff] at hfull
          omega
        exact ⟨⟨hlabels.wf, hlabels.accepted_eq, hlabels.popped_eq⟩,
          { hmodels with place := hloops }, hframes.wf, hframes.nonempty, hprogress,
          hstate, hmore, hroom⟩
    next hdone =>
      -- on to the next state, which may be behind the last one
      refine ⟨⟨hlabels.wf, hlabels.accepted_eq, hlabels.popped_eq⟩,
        { hmodels with place := ⟨hloops.ahead, hloops.window_eq, hloops.backup_eq,
            hloops.full_iff⟩ }, hframes.wf, hframes.nonempty, ?_, ?_⟩
      · rw [hprogress]
        show _ ++ emitted duration at_
          = _ ++ emitted duration { at_ with state := at_.state + 1, q := 0 }
        rw [emitted_nextState duration at_ (by omega)]
      · show (at_.state + 1 < nOfStates ∧ 0 ≤ _) ∨ (at_.state + 1 = nOfStates ∧ 0 = 0)
        omega
  next hend =>
    -- the block is complete
    obtain ⟨hstate, hq⟩ : at_.state = nOfStates ∧ at_.q = 0 := by
      rcases hplace with ⟨hlt, -⟩ | hlast
      · exact absurd hlt hend
      · exact hlast
    have hahead := hloops.ahead
    have hlast : (p.built.map Prod.snd).length - nOfLookup
        = (p.built.map Prod.snd).length - 1 - nOfLookup + 1 := by omega
    have hspeech : p.spoken ++ p.audio.waiting p.frameQueue
        = speech duration nOfBackup nOfLookup (p.built.map Prod.snd) := by
      rw [hprogress, speech, hlast, blocks_succ, ← hloops.window_eq, ← hloops.backup_eq]
      show _ ++ emitted duration at_ = _
      rw [emitted_end duration at_ hstate hq]
    cases hfull : full with
    | true =>
      -- the oldest model is popped next
      have hlong := hloops.full_iff.mp hfull
      exact ⟨⟨hlabels.wf, hlabels.accepted_eq, hlabels.popped_eq⟩,
        { hmodels with place := hlong }, hframes.wf, hframes.nonempty, hspeech, trivial⟩
    | false =>
      -- no pop is due: the window had not been full
      have hshort : ¬ nOfBackup + nOfLookup + 1 ≤ (p.built.map Prod.snd).length := by
        rw [← hloops.full_iff, hfull]
        decide
      have hcount' : p.modelQueue.getNumOfItems
          = min (p.built.map Prod.snd).length (nOfBackup + nOfLookup) := by omega
      exact ⟨⟨hlabels.wf, hlabels.accepted_eq, hlabels.popped_eq⟩,
        { hmodels with count_eq := hcount', place := trivial }, hframes.wf, hframes.nonempty,
        hspeech, trivial⟩

/-- A frame is written into the next slot. -/
theorem inv_fill {p : Pipeline M} {at_ : FrameOf M} {full : Bool}
    (h : p.Inv duration nOfBackup nOfLookup) (hg : p.generator = .fill at_ full) (model : M) :
    (p.generatorStep duration nOfBackup nOfLookup model).Inv duration nOfBackup nOfLookup := by
  obtain ⟨hlabels, hmodels, hframes⟩ := h
  rw [hg] at hlabels hmodels hframes
  -- the slot that is written is no frame's that waits
  obtain ⟨hstate, hq, hroom⟩ := hframes.loops
  have hitems := MemQueue.items_writeNext hframes.wf hroom at_
  unfold generatorStep
  simp only [hg]
  refine ⟨⟨hlabels.wf, hlabels.accepted_eq, hlabels.popped_eq⟩,
    { hmodels with place := hmodels.place }, MemQueue.wf_writeNext hframes.wf at_,
    hframes.nonempty, ?_, hstate, hq, ?_, MemQueue.next_writeNext hframes.wf at_⟩
  · show p.spoken ++ p.audio.waiting (p.frameQueue.writeNext at_) = _
    rw [Audio.waiting, hitems]
    exact hframes.progress_eq
  · simpa using hroom

/-- The frame is pushed and counts as emitted. -/
theorem inv_pushFrame {p : Pipeline M} {at_ : FrameOf M} {full : Bool}
    (h : p.Inv duration nOfBackup nOfLookup) (hg : p.generator = .pushFrame at_ full)
    (model : M) :
    (p.generatorStep duration nOfBackup nOfLookup model).Inv duration nOfBackup nOfLookup := by
  obtain ⟨hlabels, hmodels, hframes⟩ := h
  rw [hg] at hlabels hmodels hframes
  obtain ⟨hstate, hq, hroom, hnext⟩ := hframes.loops
  have hloops : InLoops nOfBackup nOfLookup (p.built.map Prod.snd) at_ full := hmodels.place
  have hitems := MemQueue.items_push hframes.wf
  rw [hnext] at hitems
  -- the frame goes behind those that wait, also behind one that is being handed over
  have hwaiting : p.audio.waiting (p.frameQueue.push 1)
      = p.audio.waiting p.frameQueue ++ [at_] := by
    rw [Audio.waiting, Audio.waiting, hitems]
    split
    next haudio =>
      have hne := hframes.nonempty (by rw [haudio]; decide)
      rw [MemQueue.items_eq_cons hframes.wf hne]
      rfl
    next => rfl
  unfold generatorStep
  simp only [hg]
  refine ⟨⟨hlabels.wf, hlabels.accepted_eq, hlabels.popped_eq⟩,
    { hmodels with place := ⟨hloops.ahead, hloops.window_eq, hloops.backup_eq,
        hloops.full_iff⟩ }, MemQueue.wf_push hframes.wf hroom, ?_, ?_, Or.inl ⟨hstate, hq⟩⟩
  · intro _
    rw [MemQueue.getNumOfItems_push hframes.wf]
    omega
  · show p.spoken ++ p.audio.waiting (p.frameQueue.push 1)
      = _ ++ emitted duration { at_ with q := at_.q + 1 }
    rw [hwaiting, emitted_nextFrame, ← List.append_assoc, ← List.append_assoc]
    congr 1
    exact hframes.progress_eq

/-- The oldest model leaves a full queue. -/
theorem inv_popModel {p : Pipeline M} (h : p.Inv duration nOfBackup nOfLookup)
    (hg : p.generator = .popModel) (model : M) :
    (p.generatorStep duration nOfBackup nOfLookup model).Inv duration nOfBackup nOfLookup := by
  obtain ⟨hlabels, hmodels, hframes⟩ := h
  rw [hg] at hlabels hmodels hframes
  have hcount : p.modelQueue.getNumOfItems
      = min (p.built.map Prod.snd).length (nOfBackup + nOfLookup + 1) := hmodels.count_eq
  have hlong : nOfBackup + nOfLookup + 1 ≤ (p.built.map Prod.snd).length := hmodels.place
  have hne : 0 < p.modelQueue.getNumOfItems := by omega
  have hpop := MemQueue.getNumOfItems_pop hne
  -- back to the window less one
  have hcount' : (p.modelQueue.pop 1).getNumOfItems
      = min (p.built.map Prod.snd).length (nOfBackup + nOfLookup) := by omega
  unfold generatorStep
  simp only [hg]
  refine ⟨⟨hlabels.wf, hlabels.accepted_eq, hlabels.popped_eq⟩, ?_,
    { hframes with loops := trivial }⟩
  exact
    { wf := MemQueue.wf_pop hmodels.wf hne
      length_eq := by rw [MemQueue.length_pop, hmodels.length_eq]
      items_eq := by
        rw [MemQueue.items_pop hmodels.wf hne, hpop, hmodels.items_eq,
          tail_rtake hne (by omega)]
      count_eq := hcount'
      flag_of_short := hmodels.flag_of_short
      place := trivial }

-- ---------------------------------------------------------------------------
-- Runs
-- ---------------------------------------------------------------------------

/-- Every event keeps the invariant. -/
theorem inv_step {p : Pipeline M} (h : p.Inv duration nOfBackup nOfLookup) (e : Event M) :
    (p.step duration nOfBackup nOfLookup e).Inv duration nOfBackup nOfLookup := by
  cases e with
  | pushLabel label => exact inv_pushLabel h label
  | audio => exact inv_audioStep h
  | reset => exact inv_reset h
  | generator model =>
    cases hg : p.generator with
    | idle => exact inv_popLabel h hg model
    | build label => exact inv_build h hg model
    | pushModel label => exact inv_pushModel h hg model
    | optimize => exact inv_optimize h hg model
    | emit at_ full => exact inv_emit h hg model
    | fill at_ full => exact inv_fill h hg model
    | pushFrame at_ full => exact inv_pushFrame h hg model
    | popModel => exact inv_popModel h hg model

/-- The invariant holds after every run. -/
theorem run_inv (es : List (Event M)) :
    (run duration nOfBackup nOfLookup es).Inv duration nOfBackup nOfLookup :=
  foldl_invariant (I := fun p : Pipeline M => p.Inv duration nOfBackup nOfLookup)
    (fun _ e h => inv_step h e)
    es _ inv_start

/-- What the generator has emitted is a part of what is to be spoken. -/
theorem progress_isPrefix {p : Pipeline M} (h : p.Inv duration nOfBackup nOfLookup) :
    p.generator.progress duration nOfBackup nOfLookup (p.built.map Prod.snd)
      <+: speech duration nOfBackup nOfLookup (p.built.map Prod.snd) := by
  obtain ⟨-, hmodels, hframes⟩ := h
  have hplace := hmodels.place
  have hloopsOk := hframes.loops
  -- inside the loops the frames of one block are still to come, in part
  have hloop : ∀ at_ full, InLoops nOfBackup nOfLookup (p.built.map Prod.snd) at_ full →
      ((at_.state < nOfStates ∧ at_.q ≤ frameCount duration at_.window at_.backup at_.state) ∨
        (at_.state = nOfStates ∧ at_.q = 0)) →
      blocks duration nOfBackup nOfLookup (p.built.map Prod.snd)
          ((p.built.map Prod.snd).length - 1 - nOfLookup) ++ emitted duration at_
        <+: speech duration nOfBackup nOfLookup (p.built.map Prod.snd) := by
    intro at_ full hin hat
    have hahead := hin.ahead
    have hlast : (p.built.map Prod.snd).length - nOfLookup
        = (p.built.map Prod.snd).length - 1 - nOfLookup + 1 := by omega
    rw [speech, hlast, blocks_succ, ← hin.window_eq, ← hin.backup_eq]
    exact (List.prefix_append_right_inj _).mpr (emitted_isPrefix duration at_ hat)
  cases hg : p.generator with
  | idle => exact List.prefix_rfl
  | build label => exact List.prefix_rfl
  | pushModel label => exact List.prefix_rfl
  | popModel => exact List.prefix_rfl
  | optimize => exact flatMap_range_prefix _ (by omega)
  | emit at_ full =>
    rw [hg] at hplace hloopsOk
    exact hloop at_ full hplace hloopsOk
  | fill at_ full =>
    rw [hg] at hplace hloopsOk
    exact hloop at_ full hplace (Or.inl ⟨hloopsOk.1, hloopsOk.2.1.le⟩)
  | pushFrame at_ full =>
    rw [hg] at hplace hloopsOk
    exact hloop at_ full hplace (Or.inl ⟨hloopsOk.1, hloopsOk.2.1.le⟩)

/-- **Every label is spoken once and in order.** After every run:

* the frames handed to the vocoder are a prefix of the blocks of the labels that
  `nOfLookup` labels have followed, one block for each;
* the block of a label has as many frames as the label's model;
* the models belong to the labels popped so far, in their order, save for the
  last one while its model is being built, and the labels popped are the first
  ones accepted;
* the model queue holds no more than `nOfBackup + nOfLookup + 1` models;
* between two runs of `run` no frame of these blocks is missing. -/
theorem spoken_in_order (duration : M → Nat → Int) (nOfBackup nOfLookup : Nat)
    (es : List (Event M)) :
    let p := run duration nOfBackup nOfLookup es
    let models := p.built.map Prod.snd
    p.spoken <+: speech duration nOfBackup nOfLookup models ∧
      (∀ k, (block duration (context nOfBackup nOfLookup models k) (min k nOfBackup)).length
        = modelFrames duration (models.getD k default)) ∧
      p.popped = p.built.map Prod.fst ++ p.generator.inHand ∧
      p.accepted = p.popped ++ p.input.labelQueue.labels ∧
      p.modelQueue.getNumOfItems ≤ nOfBackup + nOfLookup + 1 ∧
      (p.generator = .idle →
        p.spoken ++ p.audio.waiting p.frameQueue = speech duration nOfBackup nOfLookup models) := by
  intro p models
  have hinv : p.Inv duration nOfBackup nOfLookup := run_inv es
  have hprogress := hinv.frames.progress_eq
  refine ⟨?_, ?_, hinv.labels.popped_eq, hinv.labels.accepted_eq, ?_, ?_⟩
  · -- what waits in the frame queue comes after what was handed over
    refine List.IsPrefix.trans ?_ (progress_isPrefix hinv)
    rw [← hprogress]
    exact List.prefix_append _ _
  · intro k
    exact length_block duration nOfBackup nOfLookup k models
  · rw [hinv.models.count_eq]
    cases p.generator <;> simp only [Generator.kept] <;> omega
  · intro hidle
    rw [hidle] at hprogress
    exact hprogress

end Pipeline

end Invariants

end Vox.Mage
