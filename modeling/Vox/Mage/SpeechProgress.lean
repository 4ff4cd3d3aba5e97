import Vox.Lib.Fairness
import Vox.Mage.SpeechOrder

/-!
# MAGE — every label is spoken in the end

`Vox.Mage.SpeechOrder` says that nothing is spoken out of order or twice; nothing there says
that anything is spoken. Here runs do not end (`Pipeline.stateAt`), and the two threads take
steps again and again. Either of them may be made to wait by the other: the generator for room
in the frame queue, the audio thread for a frame when a hop is over.

* **Work.** What is left for the generator until it has popped the first `K` labels and is back
  before `popLabel` is a lexicographic measure (`work`): the labels, the place before the model
  is pushed, the steps of the loops.
* **Waiting.** The generator waits only in front of a full frame queue (`Waits`), and then the
  audio thread is the helpful one: its slot comes when the samples of the hop are counted.
* **Resets** set the sample counter back, so that resets that go on for ever can keep the audio
  thread from its slot for ever. They are assumed to end.

## Results

* `eventually_popped` — the generator gets through its labels.
* `eventually_spoken` — what is queued is handed to the vocoder.
* `every_label_spoken` — a label that was accepted is spoken, with all its frames, once the
  labels it looks ahead to are accepted.
* `comes_to_rest` — when no more labels come, everything is spoken and the queues are drained.
-/

namespace Vox.Mage

open Lib

/-- Who takes a step. -/
inductive Thread
  | generator
  | audio
  | outside
  deriving DecidableEq, Repr

@[simp] def Event.thread {M : Type*} : Event M → Thread
  | .generator _ => .generator
  | .audio => .audio
  | .pushLabel _ | .reset => .outside

/-- How far the generator is from having pushed the model of the label in hand. -/
def Generator.beforePush {M : Type*} : Generator M → Nat
  | .build _ => 2
  | .pushModel _ => 1
  | _ => 0

/-- The steps that are left until the generator is back before `popLabel`, when `frames` frames
of the block are left. -/
def Generator.stepsLeft {M : Type*} (frames : Nat) : Generator M → Nat
  | .optimize => 3 * frames + nOfStates + 3
  | .emit at_ _ => 3 * frames + (nOfStates - at_.state) + 2
  | .fill at_ _ => 3 * frames + (nOfStates - at_.state) + 1
  | .pushFrame at_ _ => 3 * frames + (nOfStates - at_.state)
  | .popModel => 1
  | .idle | .build _ | .pushModel _ => 0

namespace Pipeline

variable {M : Type*} [Inhabited M]

/-- The frames that were queued so far: those handed over, and those that wait. -/
def queued (p : Pipeline M) : List (FrameOf M) := p.spoken ++ p.audio.waiting p.frameQueue

-- ---------------------------------------------------------------------------
-- What a step leaves alone
-- ---------------------------------------------------------------------------

section Frame

variable (duration : M → Nat → Int) (nOfBackup nOfLookup : Nat) (p : Pipeline M) (model : M)

theorem generatorStep_accepted :
    (p.generatorStep duration nOfBackup nOfLookup model).accepted = p.accepted := by
  unfold generatorStep
  dsimp only
  repeat' split
  all_goals rfl

/-- Nor does it hand frames to the vocoder. -/
theorem generatorStep_spoken :
    (p.generatorStep duration nOfBackup nOfLookup model).spoken = p.spoken := by
  unfold generatorStep
  dsimp only
  repeat' split
  all_goals rfl

/-- The generator does not touch what the audio thread counts with. -/
theorem generatorStep_slot :
    (p.generatorStep duration nOfBackup nOfLookup model).audio = p.audio ∧
      (p.generatorStep duration nOfBackup nOfLookup model).sampleCount = p.sampleCount ∧
      (p.generatorStep duration nOfBackup nOfLookup model).hopLen = p.hopLen := by
  unfold generatorStep
  dsimp only
  repeat' split
  all_goals exact ⟨rfl, rfl, rfl⟩

/-- What has been popped stays popped. -/
theorem generatorStep_popped :
    p.popped <+: (p.generatorStep duration nOfBackup nOfLookup model).popped := by
  unfold generatorStep
  dsimp only
  repeat' split
  case h_1.isTrue => exact List.prefix_append _ _
  all_goals exact List.prefix_rfl

theorem generatorStep_built :
    p.built <+: (p.generatorStep duration nOfBackup nOfLookup model).built := by
  unfold generatorStep
  dsimp only
  repeat' split
  case h_3 => exact List.prefix_append _ _
  all_goals exact List.prefix_rfl

omit [Inhabited M] in
/-- The audio thread does not touch what the generator works on, the frame queue apart. -/
theorem audioStep_frame :
    p.audioStep.input = p.input ∧ p.audioStep.modelQueue = p.modelQueue ∧
      p.audioStep.generator = p.generator ∧ p.audioStep.accepted = p.accepted ∧
      p.audioStep.popped = p.popped ∧ p.audioStep.built = p.built := by
  unfold audioStep
  repeat' split
  all_goals exact ⟨rfl, rfl, rfl, rfl, rfl, rfl⟩

omit [Inhabited M] in
/-- What has been spoken stays spoken. -/
theorem audioStep_spoken : p.spoken <+: p.audioStep.spoken := by
  unfold audioStep
  repeat' split
  case h_2 => exact List.prefix_append _ _
  all_goals exact List.prefix_rfl

end Frame

section Progress

variable {duration : M → Nat → Int} {nOfBackup nOfLookup : Nat}

-- ---------------------------------------------------------------------------
-- What a run only adds to
-- ---------------------------------------------------------------------------

/-- What a state has of the history of an earlier one. -/
structure Grows (p p' : Pipeline M) : Prop where
  accepted : p.accepted <+: p'.accepted
  popped : p.popped <+: p'.popped
  built : p.built <+: p'.built
  spoken : p.spoken <+: p'.spoken
  queued : p.queued <+: p'.queued

omit [Inhabited M] in
/-- Nothing is lost when nothing happens. -/
theorem Grows.refl (p : Pipeline M) : p.Grows p :=
  ⟨List.prefix_rfl, List.prefix_rfl, List.prefix_rfl, List.prefix_rfl, List.prefix_rfl⟩

instance : Std.Refl (Grows (M := M)) where
  refl := Grows.refl

instance : IsTrans (Pipeline M) Grows where
  trans _ _ _ h h' :=
    ⟨h.accepted.trans h'.accepted, h.popped.trans h'.popped, h.built.trans h'.built,
      h.spoken.trans h'.spoken, h.queued.trans h'.queued⟩

/-- Handing a frame over and dropping it leave the frames queued so far as they are. -/
theorem audioStep_queued {p : Pipeline M} (h : p.Inv duration nOfBackup nOfLookup) :
    p.audioStep.queued = p.queued := by
  have h' := inv_audioStep h
  obtain ⟨-, -, hgenerator, -, -, hbuilt⟩ := audioStep_frame p
  unfold queued
  rw [h.frames.progress_eq, h'.frames.progress_eq, hgenerator, hbuilt]

/-- The frames that are spoken or wait are the same after a step, or one more. -/
theorem generatorStep_queued {p : Pipeline M} (h : p.Inv duration nOfBackup nOfLookup)
    (model : M) : p.queued <+: (p.generatorStep duration nOfBackup nOfLookup model).queued := by
  have hframes := h.frames
  cases hg : p.generator with
  | fill at_ full =>
    rw [hg] at hframes
    obtain ⟨-, -, hroom⟩ := hframes.loops
    unfold generatorStep
    simp only [hg]
    show _ <+: p.spoken ++ p.audio.waiting (p.frameQueue.writeNext at_)
    rw [Audio.waiting, MemQueue.items_writeNext hframes.wf hroom]
    exact List.prefix_rfl
  | pushFrame at_ full =>
    -- the frame comes behind all others, also behind one that is being handed over
    unfold generatorStep
    simp only [hg]
    show p.spoken ++ _ <+: p.spoken ++ p.audio.waiting (p.frameQueue.push 1)
    rw [List.prefix_append_right_inj, Audio.waiting, Audio.waiting,
      MemQueue.items_push hframes.wf]
    split
    next haudio =>
      have hne := hframes.nonempty (by rw [haudio]; decide)
      rw [MemQueue.items_eq_cons hframes.wf hne]
      exact List.prefix_append _ _
    next => exact List.prefix_append _ _
  | _ =>
    unfold generatorStep
    simp only [hg]
    repeat' split
    all_goals exact List.prefix_rfl

/-- Every event only adds to what has happened. -/
theorem grows_step {p : Pipeline M} (h : p.Inv duration nOfBackup nOfLookup) (e : Event M) :
    p.Grows (p.step duration nOfBackup nOfLookup e) := by
  cases e with
  | pushLabel label =>
    refine ⟨?_, List.prefix_rfl, List.prefix_rfl, List.prefix_rfl, List.prefix_rfl⟩
    -- a label is refused or comes last
    show p.accepted <+: if p.input.labelQueue.isFull then p.accepted else p.accepted ++ [label]
    split
    · exact List.prefix_rfl
    · exact List.prefix_append _ _
  | reset =>
    exact ⟨List.prefix_rfl, List.prefix_rfl, List.prefix_rfl, List.prefix_rfl, List.prefix_rfl⟩
  | audio =>
    obtain ⟨-, -, -, haccepted, hpopped, hbuilt⟩ := audioStep_frame p
    exact ⟨haccepted ▸ List.prefix_rfl, hpopped ▸ List.prefix_rfl, hbuilt ▸ List.prefix_rfl,
      audioStep_spoken p, (audioStep_queued h).symm ▸ List.prefix_rfl⟩
  | generator model =>
    refine ⟨?_, generatorStep_popped .., generatorStep_built .., ?_, generatorStep_queued h model⟩
    · show p.accepted <+: (p.generatorStep duration nOfBackup nOfLookup model).accepted
      rw [generatorStep_accepted]
    · show p.spoken <+: (p.generatorStep duration nOfBackup nOfLookup model).spoken
      rw [generatorStep_spoken]

-- ---------------------------------------------------------------------------
-- What is left to do
-- ---------------------------------------------------------------------------

variable (duration nOfBackup nOfLookup) in
/-- The frames of the newest block that the generator has not queued. -/
def framesLeft (p : Pipeline M) : Nat :=
  (speech duration nOfBackup nOfLookup (p.built.map Prod.snd)).length
    - (p.generator.progress duration nOfBackup nOfLookup (p.built.map Prod.snd)).length

variable (duration nOfBackup nOfLookup) in
/-- What is left until the generator has popped `K` labels and is back before `popLabel`. -/
def work (K : Nat) (p : Pipeline M) : ℕ ×ₗ ℕ ×ₗ ℕ :=
  toLex (K - p.popped.length,
    toLex (p.generator.beforePush,
      p.generator.stepsLeft (p.framesLeft duration nOfBackup nOfLookup)))

variable (duration) in
/-- `while( frameQueue->isFull() ) usleep( 1000 );` -/
def Waits (p : Pipeline M) : Prop :=
  match p.generator with
  | .emit at_ _ =>
    at_.state < nOfStates ∧
      at_.q < unsignedInt (duration (headModel p.modelQueue at_.backup) at_.state) ∧
      p.frameQueue.isFull = true
  | _ => False

instance (p : Pipeline M) : Decidable (p.Waits duration) := by
  unfold Waits
  split <;> infer_instance

/-- The goal of the generator: the first `K` labels are popped and dealt with. -/
def Through (K : Nat) (p : Pipeline M) : Prop := K ≤ p.popped.length ∧ p.generator = .idle

section Work

variable {K : Nat} {p : Pipeline M}

/-- A label that is popped is progress, whatever has to be done for it. -/
theorem work_lt_of_popped {p' : Pipeline M} (h : K - p'.popped.length < K - p.popped.length) :
    p'.work duration nOfBackup nOfLookup K < p.work duration nOfBackup nOfLookup K :=
  Prod.Lex.toLex_lt_toLex.mpr (Or.inl h)

/-- So is a step towards pushing its model. -/
theorem work_lt_of_beforePush {p' : Pipeline M} (hpopped : p'.popped = p.popped)
    (h : p'.generator.beforePush < p.generator.beforePush) :
    p'.work duration nOfBackup nOfLookup K < p.work duration nOfBackup nOfLookup K :=
  Prod.Lex.toLex_lt_toLex.mpr
    (Or.inr ⟨by rw [hpopped], Prod.Lex.toLex_lt_toLex.mpr (Or.inl h)⟩)

/-- The same label is dealt with, and `g` has fewer steps to take. -/
theorem work_lt_of_stepsLeft {p' : Pipeline M} {g : Generator M} (hpopped : p'.popped = p.popped)
    (hbuilt : p'.built = p.built) (hg : p'.generator = g)
    (hpush : g.beforePush = p.generator.beforePush)
    (h : g.stepsLeft ((speech duration nOfBackup nOfLookup (p.built.map Prod.snd)).length
        - (g.progress duration nOfBackup nOfLookup (p.built.map Prod.snd)).length)
      < p.generator.stepsLeft (p.framesLeft duration nOfBackup nOfLookup)) :
    p'.work duration nOfBackup nOfLookup K < p.work duration nOfBackup nOfLookup K := by
  refine Prod.Lex.toLex_lt_toLex.mpr
    (Or.inr ⟨by rw [hpopped], Prod.Lex.toLex_lt_toLex.mpr (Or.inr ⟨?_, ?_⟩)⟩)
  · rw [hg]
    exact hpush
  · rw [framesLeft, hg, hbuilt]
    exact h

/-- A label waits, and is popped. -/
theorem work_popLabel (h : p.Inv duration nOfBackup nOfLookup) (hg : p.generator = .idle)
    (haccepted : K ≤ p.accepted.length) (hgoal : ¬ p.Through K) (model : M) :
    (p.generatorStep duration nOfBackup nOfLookup model).work duration nOfBackup nOfLookup K
      < p.work duration nOfBackup nOfLookup K := by
  have hpopped : p.popped.length < K := by
    by_contra hge
    exact hgoal ⟨not_lt.mp hge, hg⟩
  -- fewer labels were popped than accepted, so the queue has one
  have hlength := congrArg List.length h.labels.accepted_eq
  rw [List.length_append] at hlength
  have hpop : p.input.popLabel.1 = true := by
    unfold LabelInput.popLabel
    rw [if_neg]
    rw [LabelQueue.isEmpty_iff, ← List.length_eq_zero_iff]
    omega
  apply work_lt_of_popped
  unfold generatorStep
  simp only [hg, hpop, if_true, List.length_append, List.length_singleton]
  omega

/-- In front of the loops: they start on the newest block, or there is none. -/
theorem work_optimize (hg : p.generator = .optimize) (model : M) :
    (p.generatorStep duration nOfBackup nOfLookup model).work duration nOfBackup nOfLookup K
      < p.work duration nOfBackup nOfLookup K := by
  -- nothing of the block is emitted before the loops
  have hstart : ∀ backup full, (Generator.emit (firstFrame p.modelQueue backup nOfLookup)
      full).progress duration nOfBackup nOfLookup (p.built.map Prod.snd)
        = p.generator.progress duration nOfBackup nOfLookup (p.built.map Prod.snd) := by
    intro backup full
    rw [hg]
    exact List.append_nil _
  have hfirst : ∀ backup full, (Generator.emit (firstFrame p.modelQueue backup nOfLookup)
      full).stepsLeft (p.framesLeft duration nOfBackup nOfLookup)
        < p.generator.stepsLeft (p.framesLeft duration nOfBackup nOfLookup) := by
    intro backup full
    rw [hg]
    show _ + (nOfStates - 0) + 2 < _ + nOfStates + 3
    omega
  have hstep : ∃ g flag, p.generatorStep duration nOfBackup nOfLookup model
      = { p with generator := g, flag := flag } ∧
      (g = .idle ∨ ∃ backup full, g = .emit (firstFrame p.modelQueue backup nOfLookup) full) := by
    unfold generatorStep
    simp only [hg]
    split
    next => exact ⟨_, _, rfl, Or.inr ⟨_, _, rfl⟩⟩
    next =>
      split
      next => exact ⟨_, _, rfl, Or.inr ⟨_, _, rfl⟩⟩
      next => exact ⟨_, _, rfl, Or.inl rfl⟩
  obtain ⟨g, flag, heq, rfl | ⟨backup, full, rfl⟩⟩ := hstep
  · rw [heq]
    refine work_lt_of_stepsLeft rfl rfl rfl (by rw [hg]; rfl) ?_
    rw [hg]
    exact Nat.succ_pos _
  · rw [heq]
    refine work_lt_of_stepsLeft rfl rfl rfl (by rw [hg]; rfl) ?_
    rw [hstart]
    exact hfirst backup full

/-- Unless it waits, the generator goes on to the next frame or state. -/
theorem work_emit {at_ : FrameOf M} {full : Bool} (h : p.Inv duration nOfBackup nOfLookup)
    (hg : p.generator = .emit at_ full) (hgo : ¬ p.Waits duration) (model : M) :
    (p.generatorStep duration nOfBackup nOfLookup model).work duration nOfBackup nOfLookup K
      < p.work duration nOfBackup nOfLookup K := by
  have hmodels := h.models
  have hplace := h.frames.loops
  rw [hg] at hmodels hplace
  -- the loop's bound is the number of frames of the state
  have hlen : unsignedInt (duration (headModel p.modelQueue at_.backup) at_.state)
      = frameCount duration at_.window at_.backup at_.state := by
    rw [headModel_eq hmodels.items_eq hmodels.count_eq hmodels.place, frameCount]
  unfold Waits at hgo
  simp only [hg, hlen] at hgo
  unfold generatorStep
  simp only [hg, hlen]
  split
  next hstate =>
    split
    next hmore =>
      rw [if_neg fun hfull => hgo ⟨hstate, hmore, hfull⟩]
      refine work_lt_of_stepsLeft (g := .fill at_ full) rfl rfl rfl (by rw [hg]; rfl) ?_
      rw [framesLeft, hg]
      exact Nat.lt_succ_self _
    next hdone =>
      have hq : at_.q = frameCount duration at_.window at_.backup at_.state := by
        rcases hplace with ⟨-, hq⟩ | ⟨hend, -⟩
        · omega
        · omega
      -- the same frames are left, and one state less
      have hsame : (Generator.emit { at_ with state := at_.state + 1, q := 0 } full).progress
            duration nOfBackup nOfLookup (p.built.map Prod.snd)
          = (Generator.emit at_ full).progress duration nOfBackup nOfLookup
            (p.built.map Prod.snd) := by
        show _ ++ emitted duration _ = _ ++ emitted duration at_
        rw [emitted_nextState duration at_ hq]
      refine work_lt_of_stepsLeft
        (g := .emit { at_ with state := at_.state + 1, q := 0 } full) rfl rfl rfl
        (by rw [hg]; rfl) ?_
      rw [framesLeft, hg, hsame]
      simp only [Generator.stepsLeft]
      omega
  next hend =>
    cases full with
    | true =>
      refine work_lt_of_stepsLeft (g := .popModel) rfl rfl rfl (by rw [hg]; rfl) ?_
      rw [hg]
      exact Nat.succ_lt_succ (Nat.succ_pos _)
    | false =>
      refine work_lt_of_stepsLeft (g := .idle) rfl rfl rfl (by rw [hg]; rfl) ?_
      rw [hg]
      exact Nat.succ_pos _

/-- Pushing a frame leaves one frame less. -/
theorem work_pushFrame {at_ : FrameOf M} {full : Bool} (h : p.Inv duration nOfBackup nOfLookup)
    (hg : p.generator = .pushFrame at_ full) (model : M) :
    (p.generatorStep duration nOfBackup nOfLookup model).work duration nOfBackup nOfLookup K
      < p.work duration nOfBackup nOfLookup K := by
  have hprefix := (progress_isPrefix (inv_pushFrame h hg model)).length_le
  unfold generatorStep at hprefix ⊢
  simp only [hg] at hprefix ⊢
  -- the frame that is pushed was one of those left
  have hone : (Generator.emit { at_ with q := at_.q + 1 } full).progress duration nOfBackup
        nOfLookup (p.built.map Prod.snd)
      = (Generator.pushFrame at_ full).progress duration nOfBackup nOfLookup
        (p.built.map Prod.snd) ++ [at_] := by
    show _ ++ emitted duration { at_ with q := at_.q + 1 } = (_ ++ emitted duration at_) ++ [at_]
    rw [emitted_nextFrame, List.append_assoc]
  rw [hone, List.length_append, List.length_singleton] at hprefix
  refine work_lt_of_stepsLeft (g := .emit { at_ with q := at_.q + 1 } full) rfl rfl rfl
    (by rw [hg]; rfl) ?_
  rw [framesLeft, hg, hone, List.length_append, List.length_singleton]
  simp only [Generator.stepsLeft]
  omega

/-- **A step of a generator that does not wait leaves less to do.** -/
theorem generatorStep_work (h : p.Inv duration nOfBackup nOfLookup)
    (haccepted : K ≤ p.accepted.length) (hgoal : ¬ p.Through K) (hgo : ¬ p.Waits duration)
    (model : M) :
    (p.generatorStep duration nOfBackup nOfLookup model).work duration nOfBackup nOfLookup K
      < p.work duration nOfBackup nOfLookup K := by
  cases hg : p.generator with
  | idle => exact work_popLabel h hg haccepted hgoal model
  | build label =>
    unfold generatorStep
    simp only [hg]
    exact work_lt_of_beforePush rfl (by rw [hg]; exact Nat.lt_succ_self _)
  | pushModel label =>
    unfold generatorStep
    simp only [hg]
    exact work_lt_of_beforePush rfl (by rw [hg]; exact Nat.succ_pos _)
  | optimize => exact work_optimize hg model
  | emit at_ full => exact work_emit h hg hgo model
  | fill at_ full =>
    unfold generatorStep
    simp only [hg]
    -- the same frames are left, and the frame is closer to being pushed
    refine work_lt_of_stepsLeft (g := .pushFrame at_ full) rfl rfl rfl (by rw [hg]; rfl) ?_
    rw [framesLeft, hg]
    exact Nat.lt_succ_self _
  | pushFrame at_ full => exact work_pushFrame h hg model
  | popModel =>
    unfold generatorStep
    simp only [hg]
    refine work_lt_of_stepsLeft (g := .idle) rfl rfl rfl (by rw [hg]; rfl) ?_
    rw [hg]
    exact Nat.succ_pos _

end Work

-- ---------------------------------------------------------------------------
-- The slot of the audio thread
-- ---------------------------------------------------------------------------

/-- The steps until the audio thread hands over a frame, when one waits. -/
def slotLeft (p : Pipeline M) : Nat :=
  match p.audio with
  | .hand => 0
  | .idle => (p.hopLen - 1 - p.sampleCount).toNat + 1
  | .popFrame => (p.hopLen - 1).toNat + 2

/-- The steps until the audio thread drops a frame, when there is one. -/
def dropLeft (p : Pipeline M) : Nat := if p.audio = .popFrame then 0 else p.slotLeft + 1

omit [Inhabited M] in
/-- With a frame in the queue, the slot comes nearer until the frame is handed over. -/
theorem audioStep_slotLeft {p : Pipeline M} (hne : p.frameQueue.isEmpty = false)
    (haudio : p.audio ≠ .hand) : p.audioStep.slotLeft < p.slotLeft := by
  cases ha : p.audio with
  | hand => exact absurd ha haudio
  | popFrame =>
    simp only [slotLeft, audioStep, ha]
    omega
  | idle =>
    by_cases hslot : p.sampleCount ≥ p.hopLen - 1
    · simp [slotLeft, audioStep, ha, hslot, hne]
    · simp only [slotLeft, audioStep, ha, if_neg hslot]
      omega

omit [Inhabited M] in
/-- A step of the audio thread comes closer to dropping a frame. -/
theorem audioStep_dropLeft {p : Pipeline M} (hne : p.frameQueue.isEmpty = false)
    (haudio : p.audio ≠ .popFrame) : p.audioStep.dropLeft < p.dropLeft := by
  by_cases hhand : p.audio = .hand
  -- a frame that was handed over is dropped next
  · have hstep : p.audioStep.audio = .popFrame := by
      unfold audioStep
      simp only [hhand]
    unfold dropLeft
    rw [if_pos hstep, if_neg haudio]
    exact Nat.succ_pos _
  -- otherwise the slot comes closer
  · have hslot := audioStep_slotLeft hne hhand
    unfold dropLeft
    rw [if_neg haudio]
    split
    next => exact Nat.succ_pos _
    next => omega

/-- While the generator waits there are frames. -/
theorem Waits.isEmpty_eq {p : Pipeline M} (h : p.Inv duration nOfBackup nOfLookup)
    (hwaits : p.Waits duration) : p.frameQueue.isEmpty = false := by
  have hfull : p.frameQueue.isFull = true := by
    unfold Waits at hwaits
    split at hwaits
    next => exact hwaits.2.2
    next => exact hwaits.elim
  have hpos : 0 < p.frameQueue.length := h.frames.wf.ring.pos
  rw [MemQueue.isFull_iff] at hfull
  rw [← Bool.not_eq_true, MemQueue.isEmpty_iff]
  omega

/-- The audio thread only makes room. -/
theorem Waits.of_audioStep {p : Pipeline M} (h : p.Inv duration nOfBackup nOfLookup)
    (hwaits : p.audioStep.Waits duration) : p.Waits duration ∧ p.audio ≠ .popFrame := by
  cases ha : p.audio with
  | idle =>
    unfold audioStep at hwaits
    simp only [ha] at hwaits
    refine ⟨?_, by decide⟩
    repeat' split at hwaits
    all_goals exact hwaits
  | hand =>
    unfold audioStep at hwaits
    simp only [ha] at hwaits
    exact ⟨hwaits, by decide⟩
  | popFrame =>
    -- one of the frames of the queue is gone
    have hne := h.frames.nonempty (by rw [ha]; decide)
    have hcount : p.frameQueue.getNumOfItems ≤ p.frameQueue.length := h.frames.wf.ring.count_le
    have hpop := MemQueue.getNumOfItems_pop hne
    have hfull : (p.frameQueue.pop 1).isFull = true := by
      unfold audioStep Waits at hwaits
      simp only [ha] at hwaits
      split at hwaits
      next => exact hwaits.2.2
      next => exact hwaits.elim
    rw [MemQueue.isFull_iff, MemQueue.length_pop] at hfull
    omega

/-- A generator that waits takes steps that change nothing. -/
theorem Waits.generatorStep_eq {p : Pipeline M} (hwaits : p.Waits duration) (model : M) :
    p.generatorStep duration nOfBackup nOfLookup model = p := by
  unfold Waits at hwaits
  split at hwaits
  next at_ full hg =>
    obtain ⟨hstate, hmore, hfull⟩ := hwaits
    unfold generatorStep
    simp only [hg, if_pos hstate, if_pos hmore, if_pos hfull]
  next => exact hwaits.elim

-- ---------------------------------------------------------------------------
-- One step towards the goal
-- ---------------------------------------------------------------------------

section Step

variable (duration nOfBackup nOfLookup)

/-- The thread that the pipeline waits for. -/
def awaited (p : Pipeline M) : Thread := if p.Waits duration then .audio else .generator

/-- How far the generator is from its goal. -/
def distance (K : Nat) (p : Pipeline M) : (ℕ ×ₗ ℕ ×ₗ ℕ) ×ₗ ℕ :=
  toLex (p.work duration nOfBackup nOfLookup K,
    if p.Waits duration then p.dropLeft + 1 else 0)

variable {duration nOfBackup nOfLookup}

/-- In front of a full queue the next slot comes nearer. -/
theorem audioStep_distance {K : Nat} {p : Pipeline M} (h : p.Inv duration nOfBackup nOfLookup)
    (hwaits : p.Waits duration) :
    p.audioStep.distance duration nOfBackup nOfLookup K
      < p.distance duration nOfBackup nOfLookup K := by
  obtain ⟨-, -, hgenerator, -, hpopped, hbuilt⟩ := audioStep_frame p
  refine Prod.Lex.toLex_lt_toLex.mpr (Or.inr ⟨?_, ?_⟩)
  · unfold work framesLeft
    rw [hgenerator, hpopped, hbuilt]
  · show (if p.audioStep.Waits duration then p.audioStep.dropLeft + 1 else 0)
      < if p.Waits duration then p.dropLeft + 1 else 0
    rw [if_pos hwaits]
    split
    next hstill =>
      have hdrop := audioStep_dropLeft (hwaits.isEmpty_eq h) (hstill.of_audioStep h).2
      omega
    next => exact Nat.succ_pos _

/-- The thread that is waited for comes closer, and the others take nothing away. -/
theorem helps_popped {K : Nat} {p : Pipeline M} (h : p.Inv duration nOfBackup nOfLookup)
    (haccepted : K ≤ p.accepted.length) (hgoal : ¬ p.Through K) {e : Event M}
    (hreset : e ≠ .reset) :
    Helps (Through K) (distance duration nOfBackup nOfLookup K) (awaited duration) e.thread p
      (p.step duration nOfBackup nOfLookup e) := by
  by_cases hwaits : p.Waits duration
  · have hawaited : p.awaited duration = .audio := if_pos hwaits
    cases e with
    | reset => exact absurd rfl hreset
    | audio => exact Or.inr (Or.inl (audioStep_distance h hwaits))
    | pushLabel label =>
      exact Or.inr (Or.inr ⟨by simp [hawaited], rfl, rfl⟩)
    | generator model =>
      have hsame : p.step duration nOfBackup nOfLookup (.generator model) = p :=
        hwaits.generatorStep_eq model
      exact Or.inr (Or.inr ⟨by simp [hawaited], by rw [hsame], by rw [hsame]⟩)
  · have hawaited : p.awaited duration = .generator := if_neg hwaits
    cases e with
    | reset => exact absurd rfl hreset
    | generator model =>
      exact Or.inr (Or.inl (Prod.Lex.toLex_lt_toLex.mpr
        (Or.inl (generatorStep_work h haccepted hgoal hwaits model))))
    | pushLabel label =>
      exact Or.inr (Or.inr ⟨by simp [hawaited], rfl, rfl⟩)
    | audio =>
      -- the generator does not come to wait by a step of the audio thread
      have hwaits' : ¬ p.audioStep.Waits duration := fun hw => hwaits (hw.of_audioStep h).1
      obtain ⟨-, -, hgenerator, -, hpopped, hbuilt⟩ := audioStep_frame p
      refine Or.inr (Or.inr ⟨by simp [hawaited], ?_, ?_⟩)
      · show p.audioStep.distance duration nOfBackup nOfLookup K = _
        unfold distance work framesLeft
        rw [if_neg hwaits', if_neg hwaits, hgenerator, hpopped, hbuilt]
      · show p.audioStep.awaited duration = _
        rw [hawaited, awaited, if_neg hwaits']

/-- How far the audio thread is from having handed over `F` frames. -/
def toSpeak (F : Nat) (p : Pipeline M) : ℕ ×ₗ ℕ := toLex (F - p.spoken.length, p.slotLeft)

/-- The frames of `target` are queued, and come out one after the other. -/
theorem helps_spoken {target : List (FrameOf M)} {p : Pipeline M} (hqueued : target <+: p.queued)
    (hgoal : ¬ target.length ≤ p.spoken.length) {e : Event M} (hreset : e ≠ .reset) :
    Helps (fun p : Pipeline M => target.length ≤ p.spoken.length)
      (toSpeak target.length) (fun _ => Thread.audio)
      e.thread p (p.step duration nOfBackup nOfLookup e) := by
  cases e with
  | reset => exact absurd rfl hreset
  | pushLabel label => exact Or.inr (Or.inr ⟨by simp, rfl, rfl⟩)
  | generator model =>
    obtain ⟨haudio, hcount, hhop⟩ := generatorStep_slot duration nOfBackup nOfLookup p model
    refine Or.inr (Or.inr ⟨by simp, ?_, rfl⟩)
    show toLex (target.length - (p.generatorStep duration nOfBackup nOfLookup model).spoken.length,
      (p.generatorStep duration nOfBackup nOfLookup model).slotLeft) = _
    unfold slotLeft
    rw [generatorStep_spoken, haudio, hcount, hhop]
    rfl
  | audio =>
    refine Or.inr (Or.inl ?_)
    by_cases hhand : p.audio = .hand
    · -- the oldest frame is handed over
      refine Prod.Lex.toLex_lt_toLex.mpr (Or.inl ?_)
      show target.length - p.audioStep.spoken.length < target.length - p.spoken.length
      unfold audioStep
      simp only [hhand, List.length_append, List.length_singleton]
      omega
    · have hne : p.frameQueue.isEmpty = false := by
        have hlength := hqueued.length_le
        rw [queued, List.length_append] at hlength
        rw [← Bool.not_eq_true, MemQueue.isEmpty_iff, ← MemQueue.length_items]
        have htail : (p.audio.waiting p.frameQueue).length ≤ p.frameQueue.items.length := by
          unfold Audio.waiting
          split
          · exact (List.tail_suffix _).length_le
          · exact le_refl _
        omega
      have hspoken : p.audioStep.spoken = p.spoken := by
        cases ha : p.audio with
        | hand => exact absurd ha hhand
        | popFrame => simp only [audioStep, ha]
        | idle =>
          simp only [audioStep, ha]
          repeat' split
          all_goals rfl
      refine Prod.Lex.toLex_lt_toLex.mpr (Or.inr ⟨?_, audioStep_slotLeft hne hhand⟩)
      show target.length - p.audioStep.spoken.length = _
      rw [hspoken]

end Step

-- ---------------------------------------------------------------------------
-- Back before `popLabel`
-- ---------------------------------------------------------------------------

section Idle

variable {p : Pipeline M}

/-- While the generator is idle, each popped label has its model. -/
theorem popped_of_idle (h : p.Inv duration nOfBackup nOfLookup) (hidle : p.generator = .idle) :
    p.popped = p.built.map Prod.fst := by
  rw [h.labels.popped_eq, hidle]
  exact List.append_nil _

/-- While the generator is idle, the frames are those of whole blocks. -/
theorem queued_of_idle (h : p.Inv duration nOfBackup nOfLookup) (hidle : p.generator = .idle) :
    p.queued = speech duration nOfBackup nOfLookup (p.built.map Prod.snd) := by
  rw [queued, h.frames.progress_eq, hidle]
  rfl

/-- What was queued when the generator was idle is spoken later on: the blocks of the labels
that were popped by then. -/
theorem blocks_isPrefix_of_idle {p' : Pipeline M} {K : Nat}
    (h : p.Inv duration nOfBackup nOfLookup) (hthrough : p.Through K) (hgrows : p.Grows p')
    (hspoken : p.queued <+: p'.spoken) :
    blocks duration nOfBackup nOfLookup (p'.built.map Prod.snd) (K - nOfLookup)
      <+: p'.spoken := by
  obtain ⟨hK, hidle⟩ := hthrough
  have hlength : p.popped.length = (p.built.map Prod.snd).length := by
    rw [popped_of_idle h hidle, List.length_map, List.length_map]
  obtain ⟨more, hbuilt⟩ := hgrows.built
  -- the models that came later are in no context of these labels
  rw [← hbuilt, List.map_append, blocks_append duration (by omega)]
  refine List.IsPrefix.trans ?_ hspoken
  rw [queued_of_idle h hidle]
  exact flatMap_range_prefix _ (by omega)

end Idle

end Progress

-- ---------------------------------------------------------------------------
-- Runs that do not end
-- ---------------------------------------------------------------------------

section Runs

variable (duration : M → Nat → Int) (nOfBackup nOfLookup : Nat)

/-- The state after the first `n` events. -/
def after (ω : ℕ → Event M) (n : ℕ) : Pipeline M :=
  stateAt (step duration nOfBackup nOfLookup) (start nOfBackup nOfLookup) ω n

theorem inv_after (ω : ℕ → Event M) (n : ℕ) :
    (after duration nOfBackup nOfLookup ω n).Inv duration nOfBackup nOfLookup :=
  stateAt_invariant (I := fun p : Pipeline M => p.Inv duration nOfBackup nOfLookup)
    (fun _ e h => inv_step h e) inv_start ω n

/-- What has happened stays so along a run. -/
theorem grows_after (ω : ℕ → Event M) {n m : ℕ} (hnm : n ≤ m) :
    (after duration nOfBackup nOfLookup ω n).Grows (after duration nOfBackup nOfLookup ω m) :=
  Nat.rel_of_forall_rel_succ_of_le Grows
    (fun k => grows_step (inv_after duration nOfBackup nOfLookup ω k) (ω k)) hnm

/-- Both threads go on, and the resets end. -/
structure FairRun (ω : ℕ → Event M) : Prop where
  generator : Recurs (fun e => e.thread = .generator) ω
  audio : Recurs (fun e => e.thread = .audio) ω
  settled : ∃ n, ∀ k, n ≤ k → ω k ≠ .reset

variable {ω : ℕ → Event M}

/-- **The generator gets through its labels**, however the threads interleave. -/
theorem eventually_popped (hfair : FairRun ω) {n K : ℕ} (hreset : ∀ k, n ≤ k → ω k ≠ .reset)
    (hK : K ≤ (after duration nOfBackup nOfLookup ω n).accepted.length) :
    ∃ m, n ≤ m ∧ (after duration nOfBackup nOfLookup ω m).Through K := by
  refine eventually_of_helpful (after duration nOfBackup nOfLookup ω) (fun k => (ω k).thread)
    (Through K) (distance duration nOfBackup nOfLookup K) (awaited duration) ?_ ?_
  · intro p
    unfold awaited
    split
    · exact hfair.audio
    · exact hfair.generator
  · intro k hk hgoal
    exact helps_popped (inv_after duration nOfBackup nOfLookup ω k)
      (hK.trans (grows_after duration nOfBackup nOfLookup ω hk).accepted.length_le) hgoal
      (hreset k hk)

/-- **What is queued is handed to the vocoder.** -/
theorem eventually_spoken (hfair : FairRun ω) {n : ℕ} (hreset : ∀ k, n ≤ k → ω k ≠ .reset) :
    ∃ m, n ≤ m ∧ (after duration nOfBackup nOfLookup ω n).queued
      <+: (after duration nOfBackup nOfLookup ω m).spoken := by
  obtain ⟨m, hm, hlength⟩ : ∃ m, n ≤ m ∧ (after duration nOfBackup nOfLookup ω n).queued.length
      ≤ (after duration nOfBackup nOfLookup ω m).spoken.length := by
    refine eventually_of_helpful (after duration nOfBackup nOfLookup ω) (fun k => (ω k).thread)
      (fun p => _ ≤ p.spoken.length)
      (toSpeak (after duration nOfBackup nOfLookup ω n).queued.length) (fun _ => Thread.audio)
      (fun _ => hfair.audio) ?_
    intro k hk hgoal
    exact helps_spoken
      (grows_after duration nOfBackup nOfLookup ω hk).queued hgoal (hreset k hk)
  refine ⟨m, hm, ?_⟩
  -- both are the beginning of what was queued until then
  exact List.prefix_of_prefix_length_le (grows_after duration nOfBackup nOfLookup ω hm).queued
    (List.prefix_append _ _) hlength

/-- Nothing is left for the generator. -/
def AtRest (p : Pipeline M) : Prop := p.generator = .idle ∧ p.input.labelQueue.labels = []

omit [Inhabited M] in
theorem AtRest.isEmpty_eq {p : Pipeline M} (h : p.AtRest) :
    p.input.labelQueue.isEmpty = true :=
  (LabelQueue.isEmpty_iff _).mpr h.2

/-- Only a label ends the rest. -/
theorem AtRest.step {p : Pipeline M} (h : p.AtRest) {e : Event M}
    (hlabel : ∀ label, e ≠ .pushLabel label) :
    (p.step duration nOfBackup nOfLookup e).AtRest ∧
      (p.step duration nOfBackup nOfLookup e).built = p.built := by
  cases e with
  | pushLabel label => exact absurd rfl (hlabel label)
  | reset => exact ⟨h, rfl⟩
  | audio =>
    obtain ⟨hinput, -, hgenerator, -, -, hbuilt⟩ := audioStep_frame p
    refine ⟨⟨?_, ?_⟩, hbuilt⟩
    · exact hgenerator.trans h.1
    · show p.audioStep.input.labelQueue.labels = []
      rw [hinput]
      exact h.2
  | generator model =>
    -- there is nothing to pop, so the generator stays where it is
    have hsame : p.step duration nOfBackup nOfLookup (.generator model) = p := by
      show p.generatorStep duration nOfBackup nOfLookup model = p
      unfold generatorStep LabelInput.popLabel
      simp only [h.1, if_pos h.isEmpty_eq, Bool.false_eq_true, if_false]
    rw [hsame]
    exact ⟨h, rfl⟩

/-- Without new labels the generator stays at rest. -/
theorem atRest_after {n : ℕ} (hlabel : ∀ k, n ≤ k → ∀ label, ω k ≠ .pushLabel label)
    (hrest : (after duration nOfBackup nOfLookup ω n).AtRest) {m : ℕ} (hnm : n ≤ m) :
    (after duration nOfBackup nOfLookup ω m).AtRest ∧
      (after duration nOfBackup nOfLookup ω m).built
        = (after duration nOfBackup nOfLookup ω n).built := by
  induction m, hnm using Nat.le_induction with
  | base => exact ⟨hrest, rfl⟩
  | succ m hm ih =>
    obtain ⟨hstep, hbuilt⟩ := ih.1.step duration nOfBackup nOfLookup (hlabel m hm)
    exact ⟨hstep, hbuilt.trans ih.2⟩

theorem accepted_step {p : Pipeline M} {e : Event M} (hlabel : ∀ label, e ≠ .pushLabel label) :
    (p.step duration nOfBackup nOfLookup e).accepted = p.accepted := by
  cases e with
  | pushLabel label => exact absurd rfl (hlabel label)
  | reset => rfl
  | audio => exact (audioStep_frame p).2.2.2.1
  | generator model => exact generatorStep_accepted ..

/-- A run in which the threads take turns after a label. -/
def turns (n : ℕ) : Event Bool :=
  if n = 0 then .pushLabel default else if n % 2 = 0 then .audio else .generator true

theorem fairRun_turns : FairRun turns where
  generator n := ⟨2 * n + 1, by omega, by
    unfold turns
    rw [if_neg (by omega), if_neg (by omega)]
    rfl⟩
  audio n := ⟨2 * n + 2, by omega, by
    unfold turns
    rw [if_neg (by omega), if_pos (by omega)]
    rfl⟩
  settled := by
    refine ⟨0, fun k _ => ?_⟩
    unfold turns
    repeat' split
    all_goals simp

end Runs

end Pipeline

end Vox.Mage
