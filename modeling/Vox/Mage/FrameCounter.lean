import Vox.Lib.Run
import Vox.Mage.Constants
import Vox.Mage.MemQueueBatch

/-!
# MAGE — the frame queue between two threads

The generator thread pushes frames (`ModelQueue::generate`) and the audio thread
pops them (`Mage::updateSamples`). Neither locks the queue: `push` advances
`write` and `nOfItems`, `pop` advances `read` and `nOfItems`, and each load and
each store of a field is one step of its thread. A run is the list of the threads
that step; any order is a run.

Both threads load, change and store the same `nOfItems`. When each of these
stores finds the value that its thread has loaded, no update is lost and the
queue is consistent in every state (`consistent_run`). A store between the load
and the store of the other thread is undone, and the count stays wrong by one.

Main results:

* `push_alone` / `pop_alone` — without interruption the steps are the queue's
  own operations.
* `frameCounter_of_fresh` — between operations the count, the positions, `isEmpty`
  and `isFull` agree in every run of fresh stores.
* `counted_iff_fresh` — these are exactly the runs that always count right.
-/

namespace Vox.Mage.FrameCounter

open Lib

-- ---------------------------------------------------------------------------
-- Two threads, one queue
-- ---------------------------------------------------------------------------

/-- Where `ModelQueue::generate` is in its loop over frames. -/
inductive Generator
  /-- `isFull()`: `nOfItems > 0` is about to be evaluated -/
  | testFull
  /-- `isFull()`: `nOfItems` is about to be loaded for the comparison -/
  | loadFull
  /-- `frame = frameQueue->next();` -/
  | next
  /-- `push()`: `write` is about to be loaded -/
  | loadWrite
  | storeWrite (write : Nat)
  | loadCount
  | storeCount (nOfItems : Int)
  deriving DecidableEq, Repr

/-- Where `Mage::updateSamples` is. -/
inductive Audio
  /-- `isEmpty()` -/
  | testEmpty
  /-- `frameQueue->get()` -/
  | get
  /-- `pop()`: `nOfItems > 0` is about to be evaluated for `nItem > getNumOfItems()` -/
  | testAvailable
  | loadAvailable
  /-- `pop()`: the same for `nItem = getNumOfItems()` -/
  | testItems
  | loadItems
  | loadRead (nItem : Nat)
  | storeRead (nItem read : Nat)
  | loadCount (nItem : Nat)
  | storeCount (nItem : Nat) (nOfItems : Int)
  deriving DecidableEq, Repr

/-- The queue, the threads, and how many pushes and pops are complete. -/
structure State (Item : Type*) where
  queue : MemQueue Item
  generator : Generator
  audio : Audio
  pushed : Nat
  popped : Nat
  deriving DecidableEq, Repr

inductive Thread
  | generator
  | audio
  deriving DecidableEq, Repr

variable {Item : Type*}

/-- What `isFull()` leads to. -/
def afterFull (s : State Item) (numOfItems : Nat) : State Item :=
  { s with generator := if numOfItems ≥ s.queue.length then .testFull else .next }

def stepGenerator (s : State Item) : State Item :=
  match s.generator with
  | .testFull => if s.queue.nOfItems > 0 then { s with generator := .loadFull } else afterFull s 0
  | .loadFull => afterFull s (unsignedInt s.queue.nOfItems)
  | .next => { s with generator := .loadWrite }
  | .loadWrite => { s with generator := .storeWrite s.queue.write }
  | .storeWrite write =>
    { s with
      queue := { s.queue with write := MemQueue.uintAdd write 1 % s.queue.length }
      generator := .loadCount }
  | .loadCount => { s with generator := .storeCount s.queue.nOfItems }
  | .storeCount nOfItems =>
    { s with
      queue := { s.queue with nOfItems := toInt (nOfItems + 1) }
      generator := .testFull
      pushed := s.pushed + 1 }

/-- What the comparison `1 > getNumOfItems()` leads to. -/
def afterAvailable (s : State Item) (numOfItems : Nat) : State Item :=
  { s with audio := if 1 > numOfItems then .testItems else .loadRead 1 }

def stepAudio (s : State Item) : State Item :=
  match s.audio with
  | .testEmpty => { s with audio := if s.queue.nOfItems ≤ 0 then .testEmpty else .get }
  | .get => { s with audio := .testAvailable }
  | .testAvailable =>
    if s.queue.nOfItems > 0 then { s with audio := .loadAvailable } else afterAvailable s 0
  | .loadAvailable => afterAvailable s (unsignedInt s.queue.nOfItems)
  | .testItems => { s with audio := if s.queue.nOfItems > 0 then .loadItems else .loadRead 0 }
  | .loadItems => { s with audio := .loadRead (unsignedInt s.queue.nOfItems) }
  | .loadRead nItem => { s with audio := .storeRead nItem s.queue.read }
  | .storeRead nItem read =>
    { s with
      queue := { s.queue with read := MemQueue.uintAdd read nItem % s.queue.length }
      audio := .loadCount nItem }
  | .loadCount nItem => { s with audio := .storeCount nItem s.queue.nOfItems }
  | .storeCount nItem nOfItems =>
    { s with
      queue := { s.queue with nOfItems := toInt (nOfItems - nItem) }
      audio := .testEmpty
      popped := s.popped + 1 }

def step (s : State Item) : Thread → State Item
  | .generator => stepGenerator s
  | .audio => stepAudio s

/-- The threads start with an empty queue. -/
def start [Inhabited Item] (queueLen : Nat) : State Item :=
  ⟨MemQueue.new queueLen, .testFull, .testEmpty, 0, 0⟩

/-- No push is in progress, and no `isFull()` or `next()`. -/
def Generator.Between : Generator → Prop
  | .testFull | .next | .loadWrite => True
  | _ => False

/-- No pop is in progress, and no `isEmpty()` or `get()`. -/
def Audio.Between : Audio → Prop
  | .testEmpty | .get | .testAvailable => True
  | _ => False

instance : DecidablePred Generator.Between
  | .testFull | .next | .loadWrite => .isTrue trivial
  | .loadFull | .storeWrite _ | .loadCount | .storeCount _ => .isFalse id

instance : DecidablePred Audio.Between
  | .testEmpty | .get | .testAvailable => .isTrue trivial
  | .loadAvailable | .testItems | .loadItems | .loadRead _ | .storeRead _ _ | .loadCount _
  | .storeCount _ _ => .isFalse id

/-- The count is what was pushed and not popped, the write position is as many
slots behind the read position, and the two tests say so. -/
structure Agrees (s : State Item) : Prop where
  count : s.queue.nOfItems = (s.pushed : Int) - s.popped
  write_eq : s.queue.write = (s.queue.read + s.queue.getNumOfItems) % s.queue.length
  isEmpty_iff : s.queue.isEmpty = true ↔ s.pushed = s.popped
  isFull_iff : s.queue.isFull = true ↔ s.pushed = s.popped + s.queue.length
  meet_iff : s.queue.read = s.queue.write ↔ s.queue.isEmpty = true ∨ s.queue.isFull = true

/-- A store of `nOfItems` finds the value that its thread has loaded. -/
def Fresh (s : State Item) : Thread → Prop
  | .generator =>
    match s.generator with
    | .storeCount nOfItems => nOfItems = s.queue.nOfItems
    | _ => True
  | .audio =>
    match s.audio with
    | .storeCount _ nOfItems => nOfItems = s.queue.nOfItems
    | _ => True

instance (s : State Item) : (t : Thread) → Decidable (Fresh s t)
  | .generator =>
    match h : s.generator with
    | .storeCount nOfItems =>
      decidable_of_iff (nOfItems = s.queue.nOfItems) (by simp only [Fresh, h])
    | .testFull | .loadFull | .next | .loadWrite | .storeWrite _ | .loadCount =>
      .isTrue (by simp only [Fresh, h])
  | .audio =>
    match h : s.audio with
    | .storeCount _ nOfItems =>
      decidable_of_iff (nOfItems = s.queue.nOfItems) (by simp only [Fresh, h])
    | .testEmpty | .get | .testAvailable | .loadAvailable | .testItems | .loadItems
    | .loadRead _ | .storeRead _ _ | .loadCount _ => .isTrue (by simp only [Fresh, h])

-- ---------------------------------------------------------------------------
-- Without interruption
-- ---------------------------------------------------------------------------

/-- The steps of a push are the push. -/
theorem push_alone (s : State Item) (hpc : s.generator = .loadWrite) :
    ([Thread.generator, .generator, .generator, .generator].foldl step s)
      = { s with
          queue := s.queue.advanceWrite 1
          generator := .testFull
          pushed := s.pushed + 1 } := by
  obtain ⟨queue, generator, audio, pushed, popped⟩ := s
  obtain rfl : generator = .loadWrite := hpc
  rfl

/-- The steps of a pop are the pop, when there is an item. -/
theorem pop_alone (s : State Item) (hpc : s.audio = .testAvailable)
    (hpos : 0 < s.queue.nOfItems) (hint : s.queue.nOfItems < 2 ^ 31) :
    ([Thread.audio, .audio, .audio, .audio, .audio, .audio].foldl step s)
      = { s with
          queue := s.queue.advanceRead (s.queue.available 1)
          audio := .testEmpty
          popped := s.popped + 1 } := by
  have hunsigned : unsignedInt s.queue.nOfItems = s.queue.getNumOfItems := by
    have hcast := unsignedInt_eq (d := s.queue.nOfItems) (by omega) (by omega)
    rw [MemQueue.getNumOfItems_eq]
    omega
  have hsome : ¬ 1 > s.queue.getNumOfItems := by
    rw [MemQueue.getNumOfItems_eq]
    omega
  have havailable : s.queue.available 1 = 1 := if_neg hsome
  obtain ⟨queue, generator, audio, pushed, popped⟩ := s
  obtain rfl : audio = .testAvailable := hpc
  simp only at hpos hunsigned hsome havailable
  rw [havailable]
  simp only [List.foldl_cons, List.foldl_nil, step, stepAudio, if_pos hpos, afterAvailable,
    hunsigned, if_neg hsome]
  rfl

-- ---------------------------------------------------------------------------
-- Fresh stores
-- ---------------------------------------------------------------------------

/-- Whether `write` is already one further than the completed pushes. -/
def Generator.ahead : Generator → Nat
  | .loadCount | .storeCount _ => 1
  | _ => 0

/-- Whether `read` is already one further than the completed pops. -/
def Audio.ahead : Audio → Nat
  | .loadCount _ | .storeCount _ _ => 1
  | _ => 0

/-- From the test on, the generator knows that there is a free slot: only the
audio thread changes that, by freeing another. -/
def Generator.Knows (queue : MemQueue Item) (pushed popped : Nat) : Generator → Prop
  | .testFull | .loadFull => True
  | .storeWrite write => write = queue.write ∧ pushed < popped + queue.length
  | .storeCount nOfItems => 0 ≤ nOfItems ∧ nOfItems < 2 ^ 31 - 1 ∧ pushed < popped + queue.length
  | _ => pushed < popped + queue.length

/-- From the test on, the audio thread knows that there is an item, and takes one. -/
def Audio.Knows (queue : MemQueue Item) (pushed popped : Nat) : Audio → Prop
  | .testEmpty => True
  | .testItems | .loadItems => False
  | .loadRead nItem | .loadCount nItem => nItem = 1 ∧ popped < pushed
  | .storeRead nItem read => nItem = 1 ∧ read = queue.read ∧ popped < pushed
  | .storeCount nItem nOfItems =>
    nItem = 1 ∧ 0 < nOfItems ∧ nOfItems < 2 ^ 31 ∧ popped < pushed
  | _ => popped < pushed

/-- The count counts, the positions are the numbers of pushes and pops around the
ring, and each thread's knowledge is right. -/
structure Consistent (s : State Item) : Prop where
  pos : 0 < s.queue.length
  int : s.queue.length < 2 ^ 31
  count : s.queue.nOfItems = (s.pushed : Int) - s.popped
  popped_le : s.popped ≤ s.pushed
  room : s.pushed ≤ s.popped + s.queue.length
  read_eq : s.queue.read = (s.popped + s.audio.ahead) % s.queue.length
  write_eq : s.queue.write = (s.pushed + s.generator.ahead) % s.queue.length
  generator : s.generator.Knows s.queue s.pushed s.popped
  audio : s.audio.Knows s.queue s.pushed s.popped

theorem consistent_start [Inhabited Item] {queueLen : Nat} (hpos : 0 < queueLen)
    (hint : queueLen < 2 ^ 31) : Consistent (start queueLen : State Item) := by
  have hlength : (start queueLen : State Item).queue.length = queueLen :=
    MemQueue.length_new queueLen
  refine ⟨?_, ?_, rfl, Nat.le_refl _, Nat.zero_le _, ?_, ?_, trivial, trivial⟩
  · rw [hlength]
    exact hpos
  · rw [hlength]
    exact hint
  · exact (Nat.zero_mod _).symm
  · exact (Nat.zero_mod _).symm

namespace Consistent

variable {s : State Item}

theorem unsignedInt_eq (h : Consistent s) :
    unsignedInt s.queue.nOfItems = s.pushed - s.popped := by
  have hcount := h.count
  have hle := h.popped_le
  have hroom := h.room
  have hint := h.int
  have hcast := Mage.unsignedInt_eq (d := s.queue.nOfItems) (by omega) (by omega)
  omega

theorem getNumOfItems_eq (h : Consistent s) : s.queue.getNumOfItems = s.pushed - s.popped := by
  have hcount := h.count
  rw [MemQueue.getNumOfItems_eq]
  omega

/-- One step further around the ring, in machine arithmetic. -/
theorem advance (h : Consistent s) (n : Nat) :
    MemQueue.uintAdd (n % s.queue.length) 1 % s.queue.length = (n + 1) % s.queue.length := by
  have hlt := Nat.mod_lt n h.pos
  have hint := h.int
  rw [MemQueue.uintAdd_of_lt (by unfold uintMod; omega), Nat.mod_add_mod]

/-- The two ways out of `isFull()`. -/
theorem afterFull (h : Consistent s) (hahead : s.generator.ahead = 0) {numOfItems : Nat}
    (hnum : numOfItems = s.pushed - s.popped) : Consistent (afterFull s numOfItems) := by
  have hwrite := h.write_eq
  rw [hahead] at hwrite
  by_cases hfull : numOfItems ≥ s.queue.length
  · rw [FrameCounter.afterFull, if_pos hfull]
    exact ⟨h.pos, h.int, h.count, h.popped_le, h.room, h.read_eq, hwrite, trivial, h.audio⟩
  · rw [FrameCounter.afterFull, if_neg hfull]
    have hroom : s.pushed < s.popped + s.queue.length := by omega
    exact ⟨h.pos, h.int, h.count, h.popped_le, h.room, h.read_eq, hwrite, hroom, h.audio⟩

end Consistent

/-- What the audio thread knows stays true when an item is pushed. -/
theorem Audio.Knows.push {queue queue' : MemQueue Item} {pushed popped : Nat} {a : Audio}
    (h : a.Knows queue pushed popped) (hread : queue'.read = queue.read) :
    a.Knows queue' (pushed + 1) popped := by
  cases a <;> simp only [Audio.Knows, hread] at h ⊢ <;> omega

/-- What the generator knows stays true when an item is popped. -/
theorem Generator.Knows.pop {queue queue' : MemQueue Item} {pushed popped : Nat} {g : Generator}
    (h : g.Knows queue pushed popped) (hwrite : queue'.write = queue.write)
    (hlength : queue'.length = queue.length) : g.Knows queue' pushed (popped + 1) := by
  cases g <;> simp only [Generator.Knows, hwrite, hlength] at h ⊢ <;> omega

/-- The generator keeps the queue consistent. -/
theorem consistent_stepGenerator {s : State Item} (h : Consistent s)
    (hfresh : Fresh s .generator) : Consistent (stepGenerator s) := by
  obtain ⟨queue, generator, audio, pushed, popped⟩ := s
  have hcount := h.count
  have hwrite := h.write_eq
  have hknows := h.generator
  simp only at hcount hwrite hknows
  cases generator with
  | testFull =>
    simp only [stepGenerator]
    split
    · exact ⟨h.pos, h.int, hcount, h.popped_le, h.room, h.read_eq, hwrite, trivial, h.audio⟩
    · have hle := h.popped_le
      simp only at hle
      exact h.afterFull rfl (by simp only; omega)
  | loadFull => exact h.afterFull rfl h.unsignedInt_eq
  | next =>
    exact ⟨h.pos, h.int, hcount, h.popped_le, h.room, h.read_eq, hwrite, hknows, h.audio⟩
  | loadWrite =>
    exact ⟨h.pos, h.int, hcount, h.popped_le, h.room, h.read_eq, hwrite, ⟨rfl, hknows⟩, h.audio⟩
  | storeWrite write =>
    -- `write` moves before the count does
    obtain ⟨rfl, hroom⟩ := hknows
    have hnext : MemQueue.uintAdd queue.write 1 % queue.length = (pushed + 1) % queue.length := by
      rw [hwrite]
      exact h.advance pushed
    refine ⟨h.pos, h.int, hcount, h.popped_le, h.room, h.read_eq, hnext, hroom, ?_⟩
    have haudio := h.audio
    cases audio <;> exact haudio
  | loadCount =>
    have hle := h.popped_le
    have hint := h.int
    simp only at hle hint
    -- what was read is the count of now, and one more fits an `int`
    have hroom : pushed < popped + queue.length := hknows
    have hloaded : 0 ≤ queue.nOfItems ∧ queue.nOfItems < 2 ^ 31 - 1 := ⟨by omega, by omega⟩
    exact ⟨h.pos, h.int, hcount, h.popped_le, h.room, h.read_eq, hwrite,
      ⟨hloaded.1, hloaded.2, hroom⟩, h.audio⟩
  | storeCount nOfItems =>
    -- the value stored is one more than the count
    obtain rfl : nOfItems = queue.nOfItems := hfresh
    obtain ⟨hlo, hhi, hroom⟩ := hknows
    have hstored : toInt (queue.nOfItems + 1) = ((pushed + 1 : Nat) : Int) - popped := by
      rw [toInt_of_mem (by omega) (by omega)]
      omega
    exact ⟨h.pos, h.int, hstored, Nat.le_succ_of_le h.popped_le, hroom, h.read_eq, hwrite,
      trivial, h.audio.push rfl⟩

/-- The audio thread keeps the queue consistent. -/
theorem consistent_stepAudio {s : State Item} (h : Consistent s) (hfresh : Fresh s .audio) :
    Consistent (stepAudio s) := by
  obtain ⟨queue, generator, audio, pushed, popped⟩ := s
  have hcount := h.count
  have hread := h.read_eq
  have hknows := h.audio
  have hroom := h.room
  have hint := h.int
  simp only at hcount hread hknows hroom hint
  cases audio with
  | testEmpty =>
    simp only [stepAudio]
    split
    · exact ⟨h.pos, hint, hcount, h.popped_le, hroom, hread, h.write_eq, h.generator, trivial⟩
    · have hsome : popped < pushed := by omega
      exact ⟨h.pos, hint, hcount, h.popped_le, hroom, hread, h.write_eq, h.generator, hsome⟩
  | get =>
    exact ⟨h.pos, hint, hcount, h.popped_le, hroom, hread, h.write_eq, h.generator, hknows⟩
  | testAvailable =>
    have hsome : popped < pushed := hknows
    have hpos : queue.nOfItems > 0 := by omega
    simp only [stepAudio, if_pos hpos]
    exact ⟨h.pos, hint, hcount, h.popped_le, hroom, hread, h.write_eq, h.generator, hsome⟩
  | loadAvailable =>
    have hsome : popped < pushed := hknows
    -- there is one, so one is taken
    have hone : ¬ 1 > unsignedInt queue.nOfItems := by
      have hnum := h.unsignedInt_eq
      simp only at hnum
      omega
    simp only [stepAudio, afterAvailable, if_neg hone]
    exact ⟨h.pos, hint, hcount, h.popped_le, hroom, hread, h.write_eq, h.generator, rfl, hsome⟩
  -- these read the count for more than one item
  | testItems => exact hknows.elim
  | loadItems => exact hknows.elim
  | loadRead nItem =>
    exact ⟨h.pos, hint, hcount, h.popped_le, hroom, hread, h.write_eq, h.generator,
      hknows.1, rfl, hknows.2⟩
  | storeRead nItem read =>
    -- `read` moves before the count does
    obtain ⟨rfl, rfl, hsome⟩ := hknows
    have hnext : MemQueue.uintAdd queue.read 1 % queue.length = (popped + 1) % queue.length := by
      rw [hread]
      exact h.advance popped
    refine ⟨h.pos, hint, hcount, h.popped_le, hroom, hnext, h.write_eq, ?_, rfl, hsome⟩
    have hgenerator := h.generator
    cases generator <;> exact hgenerator
  | loadCount nItem =>
    obtain ⟨rfl, hsome⟩ := hknows
    -- the count is positive, and one less is not negative
    have hloaded : 0 < queue.nOfItems ∧ queue.nOfItems < 2 ^ 31 := ⟨by omega, by omega⟩
    exact ⟨h.pos, hint, hcount, h.popped_le, hroom, hread, h.write_eq, h.generator,
      rfl, hloaded.1, hloaded.2, hsome⟩
  | storeCount nItem nOfItems =>
    -- the value stored is one less than the count
    obtain rfl : nOfItems = queue.nOfItems := hfresh
    obtain ⟨rfl, hlo, hhi, hsome⟩ := hknows
    have hstored : toInt (queue.nOfItems - (1 : Nat)) = (pushed : Int) - (popped + 1 : Nat) := by
      rw [toInt_of_mem (by omega) (by omega)]
      omega
    have hroom' : pushed ≤ popped + 1 + queue.length := by omega
    exact ⟨h.pos, hint, hstored, hsome, hroom', hread, h.write_eq, h.generator.pop rfl rfl,
      trivial⟩

theorem consistent_step {s : State Item} {t : Thread} (h : Consistent s) (hfresh : Fresh s t) :
    Consistent (step s t) := by
  cases t with
  | generator => exact consistent_stepGenerator h hfresh
  | audio => exact consistent_stepAudio h hfresh

-- ---------------------------------------------------------------------------
-- Runs
-- ---------------------------------------------------------------------------

/-- Between operations a consistent queue agrees with itself. -/
theorem Consistent.agrees {s : State Item} (h : Consistent s) (hgenerator : s.generator.Between)
    (haudio : s.audio.Between) : Agrees s := by
  have hcount := h.count
  have hle := h.popped_le
  have hroom := h.room
  have hnum := h.getNumOfItems_eq
  -- the positions are the numbers of pushes and pops
  have hwrite : s.queue.write = s.pushed % s.queue.length := by
    have hahead : s.generator.ahead = 0 := by
      cases hpc : s.generator <;> simp_all [Generator.Between, Generator.ahead]
    rw [h.write_eq, hahead, Nat.add_zero]
  have hread : s.queue.read = s.popped % s.queue.length := by
    have hahead : s.audio.ahead = 0 := by
      cases hpc : s.audio <;> simp_all [Audio.Between, Audio.ahead]
    rw [h.read_eq, hahead, Nat.add_zero]
  -- the two tests only look at the count
  have hempty : s.queue.isEmpty = true ↔ s.pushed = s.popped := by
    rw [MemQueue.isEmpty_iff, hnum]
    omega
  have hfull : s.queue.isFull = true ↔ s.pushed = s.popped + s.queue.length := by
    rw [MemQueue.isFull_iff, hnum]
    omega
  refine ⟨hcount, ?_, hempty, hfull, ?_⟩
  · rw [hwrite, hread, hnum, Nat.mod_add_mod]
    congr 1
    omega
  · rw [hempty, hfull, hread, hwrite]
    refine ⟨?_, ?_⟩
    · -- less than one revolution apart the positions differ
      intro hmeet
      by_contra hneither
      have hne := mod_ne_of_lt (r := s.popped)
        (show 0 < s.pushed - s.popped by omega)
        (show s.pushed - s.popped < 0 + s.queue.length by omega)
      rw [Nat.add_zero, Nat.add_sub_cancel' hle] at hne
      exact hne hmeet
    · rintro (heq | heq)
      · rw [heq]
      · rw [heq, Nat.add_mod_right]

/-- In a run of fresh stores the queue is consistent in every state. -/
theorem consistent_run [Inhabited Item] {queueLen : Nat} (hpos : 0 < queueLen)
    (hint : queueLen < 2 ^ 31) {ts : List Thread}
    (hfresh : StepsMeet step Fresh (start queueLen : State Item) ts) :
    Consistent (ts.foldl step (start queueLen : State Item)) :=
  foldl_invariant_of_meets (fun _ _ => consistent_step) ts _ (consistent_start hpos hint) hfresh

/--
**The frame counter.** In every run of fresh stores, whenever neither thread is in
the middle of an operation, the count, the positions and the two tests agree. -/
theorem frameCounter_of_fresh [Inhabited Item] {queueLen : Nat} (hpos : 0 < queueLen)
    (hint : queueLen < 2 ^ 31) {ts : List Thread}
    (hfresh : StepsMeet step Fresh (start queueLen : State Item) ts) :
    ∀ ts', ts' <+: ts →
      (ts'.foldl step (start queueLen : State Item)).generator.Between →
      (ts'.foldl step (start queueLen : State Item)).audio.Between →
        Agrees (ts'.foldl step (start queueLen : State Item)) := by
  intro ts' hpre hgenerator haudio
  exact (consistent_run hpos hint (hfresh.of_prefix hpre)).agrees hgenerator haudio

/-- One frame pushed, and popped. -/
def oneFrame : List Thread := List.replicate 6 .generator ++ List.replicate 8 .audio

theorem frameCounter_of_fresh_oneFrame :
    Agrees (oneFrame.foldl step (start maxFrameQueueLen : State Nat)) :=
  frameCounter_of_fresh (by decide) (by decide) (by decide +kernel) oneFrame
    (List.prefix_refl oneFrame) (by decide +kernel) (by decide +kernel)

/-- A frame is pushed, and the push of a second one loads the count. Then the audio
thread pops the first, and the generator stores one more than what it loaded. -/
def lostPop : List Thread :=
  List.replicate 12 .generator ++ List.replicate 8 .audio ++ [.generator]

/-- One frame waits and the counter says two. -/
theorem lostPop_disagrees :
    ¬ ∀ ts : List Thread,
      (ts.foldl step (start maxFrameQueueLen : State Nat)).generator.Between →
      (ts.foldl step (start maxFrameQueueLen : State Nat)).audio.Between →
        Agrees (ts.foldl step (start maxFrameQueueLen : State Nat)) := by
  intro h
  have hcount := (h lostPop (by decide +kernel) (by decide +kernel)).count
  have htwo : (lostPop.foldl step (start maxFrameQueueLen : State Nat)).queue.nOfItems = 2 := by
    decide +kernel
  have hone : ((lostPop.foldl step (start maxFrameQueueLen : State Nat)).pushed : Int)
      - (lostPop.foldl step (start maxFrameQueueLen : State Nat)).popped = 1 := by
    decide +kernel
  rw [htwo, hone] at hcount
  cases hcount

-- ---------------------------------------------------------------------------
-- Stores that are not fresh
-- ---------------------------------------------------------------------------

/-- In a consistent state a step keeps the count right exactly when its store, if it
is one, is fresh. -/
theorem counted_step_iff {s : State Item} {t : Thread} (h : Consistent s) :
    (step s t).queue.nOfItems = ((step s t).pushed : Int) - (step s t).popped ↔ Fresh s t := by
  refine ⟨?_, fun hfresh => (consistent_step h hfresh).count⟩
  obtain ⟨queue, generator, audio, pushed, popped⟩ := s
  have hcount := h.count
  simp only at hcount
  intro hnext
  cases t with
  | generator =>
    cases generator with
    | storeCount nOfItems =>
      obtain ⟨hlo, hhi, -⟩ := h.generator
      have hstored : toInt (nOfItems + 1) = ((pushed + 1 : Nat) : Int) - popped := hnext
      rw [toInt_of_mem (by omega) (by omega)] at hstored
      show nOfItems = queue.nOfItems
      omega
    | _ => trivial
  | audio =>
    cases audio with
    | storeCount nItem nOfItems =>
      obtain ⟨rfl, hlo, hhi, -⟩ := h.audio
      have hstored : toInt (nOfItems - (1 : Nat)) = (pushed : Int) - (popped + 1 : Nat) := hnext
      rw [toInt_of_mem (by omega) (by omega)] at hstored
      show nOfItems = queue.nOfItems
      omega
    | _ => trivial

/-- **No update is lost exactly in the runs of fresh stores.** -/
theorem counted_iff_fresh [Inhabited Item] {queueLen : Nat} (hpos : 0 < queueLen)
    (hint : queueLen < 2 ^ 31) (ts : List Thread) :
    StepsMeet step Fresh (start queueLen : State Item) ts ↔
      ∀ ts', ts' <+: ts →
        (ts'.foldl step (start queueLen : State Item)).queue.nOfItems
          = ((ts'.foldl step (start queueLen : State Item)).pushed : Int)
            - (ts'.foldl step (start queueLen : State Item)).popped :=
  stepsMeet_iff_all_states_of_kept (J := Consistent)
    (I := fun s => s.queue.nOfItems = (s.pushed : Int) - s.popped)
    (fun _ _ => consistent_step) (fun _ _ => counted_step_iff) ts _
    (consistent_start hpos hint) rfl

end Vox.Mage.FrameCounter
