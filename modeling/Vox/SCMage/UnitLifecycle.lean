import Vox.Lib.Run

/-!
# SCMage — the life of a unit

The server calls `SCMage_Ctor` in memory that it has not cleared, then the calculation
function once for every block, and `SCMage_Dtor` at the end. The constructor allocates the
memory of the `Mage` object and, if there are labels to read, that of a string; it returns
early where one of these fails. It starts the generator thread last. The destructor does not
look at how far the constructor has come.

What a unit does is a list of operations (`Op`), in the order in which it does them; the
pointers and the thread that it uses are those that its members hold.

* `tornDown_iff` — a unit is torn down as it should be exactly when no allocation has failed.
* `reads_buffer_iff` — the buffer that the labels are read from exists exactly when the
  number is not the one after the last local buffer.
-/

set_option linter.dupNamespace false

namespace Vox.SCMage

open Lib

-- ---------------------------------------------------------------------------
-- The server
-- ---------------------------------------------------------------------------

structure World where
  mNumSndBufs : Nat

/-- A graph of units, with the local buffers that are allocated in it. -/
structure Graph where
  localBufNum : Nat

/-- A pointer into `mSndBufs` or `mLocalSndBufs`. -/
inductive SndBufPtr
  | sndBuf (index : Int)
  | localSndBuf (index : Int)
  deriving DecidableEq, Repr

/-- The buffer is there. A graph without local buffers has no array of them. -/
def SndBufPtr.Exists (world : World) (parent : Graph) : SndBufPtr → Prop
  | .sndBuf index => 0 ≤ index ∧ index < world.mNumSndBufs
  | .localSndBuf index => 0 ≤ index ∧ index < parent.localBufNum

inductive Op
  /-- `RTAlloc`; null is `none`. -/
  | rtAlloc (memory : Option Nat)
  | rtFree (memory : Nat)
  /-- `new( memory ) MAGE::Mage()` -/
  | construct (mage : Nat)
  /-- `mage->~Mage()` -/
  | destroy (mage : Nat)
  /-- A method of the object is called. -/
  | use (mage : Nat)
  /-- `SCMage_pushLabelsFromSndBuf` reads the members of the buffer. -/
  | readBuf (buf : SndBufPtr)
  /-- `pthread_create`, of a thread that uses the object. -/
  | create (thread mage : Nat)
  /-- `pthread_cancel` -/
  | cancel (thread : Nat)
  /-- `pthread_join` -/
  | join (thread : Nat)
  deriving DecidableEq, Repr

/-- What `mCalcFunc` is set to. -/
inductive CalcFunc
  | scmageNext
  | clearUnitOutputs
  deriving DecidableEq, Repr

/-- The members of a unit that are used across its calls. -/
structure SCMage where
  mage : Nat
  thread : Nat
  calcFunc : CalcFunc

namespace SCMage

-- ---------------------------------------------------------------------------
-- The calls
-- ---------------------------------------------------------------------------

/-- `SCMage_allocFailed` -/
def allocFailed (unit : SCMage) : SCMage := { unit with calcFunc := .clearUnitOutputs }

/-- `SCMage_pushLabelsFromSndBuf`, less the labels: whether its allocation succeeded. -/
def pushLabelsFromSndBuf (buf : SndBufPtr) (mage : Nat) (stringBuf : Option Nat) :
    Bool × List Op :=
  match stringBuf with
  | none => (false, [.readBuf buf, .rtAlloc none])
  | some stringBuf =>
    (true, [.readBuf buf, .rtAlloc (some stringBuf), .use mage, .rtFree stringBuf])

/-- The buffer that `SCMage_Ctor` takes for a number that is not negative. -/
def bufferOf (world : World) (parent : Graph) (bufnum : Int) : SndBufPtr :=
  if bufnum ≥ world.mNumSndBufs then
    let localBufNum := bufnum - world.mNumSndBufs
    if localBufNum ≤ parent.localBufNum then .localSndBuf localBufNum
    else .sndBuf 0
  else .sndBuf bufnum

/-- The last part of `SCMage_Ctor`. -/
def start (unit : SCMage) (thread : Nat) : SCMage × List Op :=
  ({ unit with thread := thread, calcFunc := .scmageNext }, [.create thread unit.mage])

/-- `SCMage_Ctor`, in a unit whose members hold anything. What the allocations give, and the
thread that is created, are arguments. -/
def ctor (world : World) (parent : Graph) (bufnum : Int) (mage_memory stringBuf : Option Nat)
    (thread : Nat) (unit : SCMage) : SCMage × List Op :=
  match mage_memory with
  | none => (unit.allocFailed, [.rtAlloc none])
  | some memory =>
    let unit := { unit with mage := memory }
    let ops : List Op := [.rtAlloc (some memory), .construct memory]
    -- If the buffer number is negative, ignore it.
    if bufnum ≥ 0 then
      let pushed := pushLabelsFromSndBuf (bufferOf world parent bufnum) unit.mage stringBuf
      if !pushed.1 then (unit.allocFailed, ops ++ pushed.2)
      else
        let started := unit.start thread
        (started.1, ops ++ pushed.2 ++ started.2)
    else
      let started := unit.start thread
      (started.1, ops ++ started.2)

/-- A call of the calculation function. -/
def calculate (unit : SCMage) : List Op :=
  match unit.calcFunc with
  | .scmageNext => [.use unit.mage]
  | .clearUnitOutputs => []

/-- `SCMage_Dtor` -/
def dtor (unit : SCMage) : List Op :=
  [.cancel unit.thread, .join unit.thread, .destroy unit.mage, .rtFree unit.mage]

/-- A unit is constructed, calculates `blocks` blocks, and is destroyed. -/
def life (world : World) (parent : Graph) (bufnum : Int) (mage_memory stringBuf : Option Nat)
    (thread : Nat) (unit : SCMage) (blocks : Nat) : List Op :=
  let constructed := ctor world parent bufnum mage_memory stringBuf thread unit
  constructed.2 ++ (List.replicate blocks constructed.1.calculate).flatten ++ constructed.1.dtor

end SCMage

-- ---------------------------------------------------------------------------
-- What is allowed
-- ---------------------------------------------------------------------------

/-- After these operations the object is built and not destroyed. -/
def Live (log : List Op) (mage : Nat) : Prop := .construct mage ∈ log ∧ .destroy mage ∉ log

/-- After these operations the thread can run: it is created and not joined. -/
def Running (log : List Op) (thread mage : Nat) : Prop :=
  .create thread mage ∈ log ∧ .join thread ∉ log

/-- An operation that is right after those of the log. A thread is cancelled and joined only
if it was created; an object is used and destroyed only while it is there, and not before the
threads that use it are joined; memory is given back once, without an object in it. -/
def Allowed (log : List Op) : Op → Prop
  | .cancel thread => ∃ mage, .create thread mage ∈ log
  | .join thread => ∃ mage, .create thread mage ∈ log
  | .use mage => Live log mage
  | .create _ mage => Live log mage
  | .destroy mage => Live log mage ∧ ∀ thread, ¬ Running log thread mage
  | .rtFree memory =>
    .rtAlloc (some memory) ∈ log ∧ .rtFree memory ∉ log ∧ ¬ Live log memory
  | _ => True

/-- A unit that is torn down as it should be: every operation is allowed, what was built is
destroyed and given back, and wherever a generator thread can run its object is there. -/
structure TornDown (ops : List Op) : Prop where
  allowed : StepsMeet (fun log op => log ++ [op]) Allowed [] ops
  destroyed : ∀ mage, .construct mage ∈ ops → .destroy mage ∈ ops ∧ .rtFree mage ∈ ops
  outlived : ∀ log, log <+: ops → ∀ thread mage, Running log thread mage → Live log mage

/-- An operation that is allowed leaves no thread without its object. -/
theorem live_of_running_snoc {log : List Op}
    (h : ∀ thread mage, Running log thread mage → Live log mage) {op : Op} (hop : Allowed log op)
    (thread mage : Nat) (hrunning : Running (log ++ [op]) thread mage) :
    Live (log ++ [op]) mage := by
  obtain ⟨hcreate, hjoin⟩ := hrunning
  simp only [List.mem_append, List.mem_singleton, not_or] at hcreate hjoin
  have hlive : Live log mage := by
    rcases hcreate with hcreate | rfl
    · exact h thread mage ⟨hcreate, hjoin.1⟩
    · exact hop
  refine ⟨List.mem_append_left _ hlive.1, ?_⟩
  simp only [List.mem_append, List.mem_singleton, not_or]
  refine ⟨hlive.2, ?_⟩
  rintro rfl
  -- the object is destroyed when the thread that uses it has been joined
  rcases hcreate with hcreate | hcreate
  · exact hop.2 thread ⟨hcreate, hjoin.1⟩
  · cases hcreate

/-- Where every operation is allowed, the object of a thread that can run is there. -/
theorem live_of_running {ops : List Op}
    (h : StepsMeet (fun log op => log ++ [op]) Allowed [] ops) {log : List Op} (hlog : log <+: ops)
    (thread mage : Nat) (hrunning : Running log thread mage) : Live log mage := by
  have hinvariant := foldl_invariant_of_meets
    (I := fun log : List Op => ∀ thread mage, Running log thread mage → Live log mage)
    (fun log op hlive hop => live_of_running_snoc hlive hop) log []
    (fun thread mage hnil => absurd hnil.1 List.not_mem_nil) (StepsMeet.of_prefix hlog h)
  rw [foldl_snoc, List.nil_append] at hinvariant
  exact hinvariant thread mage hrunning

-- ---------------------------------------------------------------------------
-- Units
-- ---------------------------------------------------------------------------

namespace SCMage

theorem live_append_uses {log : List Op} {mage : Nat} (h : Live log mage) (n : Nat) :
    Live (log ++ List.replicate n (.use mage)) mage := by
  refine ⟨List.mem_append_left _ h.1, ?_⟩
  simp only [List.mem_append, List.mem_replicate, not_or, not_and]
  exact ⟨h.2, fun _ hdestroy => by cases hdestroy⟩

theorem allowed_uses {log : List Op} {mage : Nat} (h : Live log mage) (n : Nat) :
    StepsMeet (fun log op => log ++ [op]) Allowed log (List.replicate n (.use mage)) := by
  induction n generalizing log with
  | zero => trivial
  | succ n ih => exact ⟨h, ih (live_append_uses h 1)⟩

variable {world : World} {parent : Graph} {bufnum : Int} {thread : Nat} {unit : SCMage}

/-- What reading labels does: nothing to threads, and no memory of an object is given back. -/
def ReadsLabels (mage : Nat) (op : Op) : Prop :=
  (∃ buf, op = .readBuf buf) ∨ (∃ memory, op = .rtAlloc memory) ∨ op = .use mage ∨
    ∃ memory, memory ≠ mage ∧ op = .rtFree memory

/-- The life of a unit whose allocations have succeeded, whatever labels it reads. -/
theorem tornDown_started {mage : Nat} {labels : List Op} (blocks : Nat)
    (hreads : ∀ op ∈ labels, ReadsLabels mage op)
    (hlabels : StepsMeet (fun log op => log ++ [op]) Allowed
      [.rtAlloc (some mage), .construct mage] labels) :
    TornDown ([Op.rtAlloc (some mage), .construct mage] ++ labels ++ [Op.create thread mage] ++
      List.replicate blocks (Op.use mage) ++
      [Op.cancel thread, .join thread, .destroy mage, .rtFree mage]) := by
  -- reading labels creates no thread and touches no object but to use it
  have hnone : ∀ op, ¬ ReadsLabels mage op → op ∉ labels := fun op hop hmem => hop (hreads op hmem)
  have hcreate : ∀ t p, .create t p ∉ labels := fun t p => hnone _ (by simp [ReadsLabels])
  have hdestroy : ∀ p, .destroy p ∉ labels := fun p => hnone _ (by simp [ReadsLabels])
  have hconstruct : ∀ p, .construct p ∉ labels := fun p => hnone _ (by simp [ReadsLabels])
  have hfree : .rtFree mage ∉ labels := hnone _ (by simp [ReadsLabels])
  have hlive : Live
      ([Op.rtAlloc (some mage), .construct mage] ++ labels ++ [Op.create thread mage]) mage := by
    simp [Live, hdestroy]
  have hallowed : StepsMeet (fun log op => log ++ [op]) Allowed []
      ([Op.rtAlloc (some mage), .construct mage] ++ labels ++ [Op.create thread mage] ++
        List.replicate blocks (Op.use mage) ++
        [Op.cancel thread, .join thread, .destroy mage, .rtFree mage]) := by
    simp only [stepsMeet_append, foldl_snoc, List.nil_append]
    refine ⟨⟨⟨⟨⟨trivial, trivial, trivial⟩, hlabels⟩, ?_, trivial⟩, allowed_uses hlive blocks⟩, ?_⟩
    · simp [Allowed, Live, hdestroy]
    · -- the thread is joined when its object is destroyed, and that when its memory is freed
      simp [StepsMeet, Allowed, Live, Running, hcreate, hdestroy, hfree]
  refine ⟨hallowed, ?_, fun log hlog thread mage => live_of_running hallowed hlog thread mage⟩
  intro p hp
  obtain rfl : p = mage := by simpa [hconstruct] using hp
  simp

/-- A unit without its thread is not torn down as it should be: it joins one. -/
theorem not_tornDown_of_no_create {ops rest : List Op} {t : Nat}
    (hcreate : ∀ mage, .create t mage ∉ ops) : ¬ TornDown (ops ++ .cancel t :: rest) := by
  intro h
  have hallowed := (stepsMeet_append.mp h.allowed).2.1
  rw [foldl_snoc, List.nil_append] at hallowed
  obtain ⟨mage, hmem⟩ := hallowed
  exact hcreate mage hmem

/--
**When a unit is torn down as it should be.** In the life of a unit of any length, in memory
that holds anything, for every number of the buffer: exactly when the memory of the object was
allocated and, unless the number is negative, that of the string too. -/
theorem tornDown_iff (world : World) (parent : Graph) (bufnum : Int)
    {mage_memory stringBuf : Option Nat}
    (hfresh : ∀ memory, mage_memory = some memory → stringBuf ≠ some memory) (thread : Nat)
    (unit : SCMage) (blocks : Nat) :
    TornDown (life world parent bufnum mage_memory stringBuf thread unit blocks) ↔
      mage_memory ≠ none ∧ (bufnum < 0 ∨ stringBuf ≠ none) := by
  cases hmemory : mage_memory with
  | none =>
    -- the destructor uses the members that the memory happened to hold
    have hlife : life world parent bufnum none stringBuf thread unit blocks =
        [Op.rtAlloc none] ++ unit.dtor := by
      simp [life, ctor, calculate, allocFailed, dtor]
    rw [hlife]
    exact iff_of_false (not_tornDown_of_no_create (by simp)) (by simp)
  | some mage =>
    by_cases hnum : bufnum ≥ 0
    · cases hstring : stringBuf with
      | none =>
        -- the constructor stops before the thread, the destructor does not know
        have hlife : life world parent bufnum (some mage) none thread unit blocks =
            [Op.rtAlloc (some mage), .construct mage, .readBuf (bufferOf world parent bufnum),
              .rtAlloc none] ++ dtor { unit with mage := mage } := by
          simp [life, ctor, calculate, allocFailed, pushLabelsFromSndBuf, dtor, hnum]
        rw [hlife]
        exact iff_of_false (not_tornDown_of_no_create (by simp)) (by simp; omega)
      | some string =>
        -- the string is given back, the object is not: they are two pieces of memory
        have hne : string ≠ mage := by
          rintro rfl
          exact hfresh string hmemory hstring
        have hlife : life world parent bufnum (some mage) (some string) thread unit blocks =
            [Op.rtAlloc (some mage), .construct mage] ++
              [Op.readBuf (bufferOf world parent bufnum), .rtAlloc (some string), .use mage,
                .rtFree string] ++ [Op.create thread mage] ++
              List.replicate blocks (Op.use mage) ++
              [Op.cancel thread, .join thread, .destroy mage, .rtFree mage] := by
          simp [life, ctor, calculate, start, pushLabelsFromSndBuf, dtor, hnum]
        rw [hlife]
        refine iff_of_true (tornDown_started blocks ?_ ?_) (by simp)
        · simp [ReadsLabels, hne]
        · simp [StepsMeet, Allowed, Live, hne]
    · have hlife : life world parent bufnum (some mage) stringBuf thread unit blocks =
          [Op.rtAlloc (some mage), .construct mage] ++ [] ++ [Op.create thread mage] ++
            List.replicate blocks (Op.use mage) ++
            [Op.cancel thread, .join thread, .destroy mage, .rtFree mage] := by
        simp [life, ctor, calculate, start, dtor, hnum]
      rw [hlife]
      refine iff_of_true (tornDown_started blocks (by simp) trivial) ⟨by simp, .inl (by omega)⟩

/-- A unit with labels that lives for three blocks, in memory that holds 7 and 9. -/
theorem tornDown_iff_three :
    TornDown (life ⟨1024⟩ ⟨0⟩ 3 (some 100) (some 200) 5 ⟨7, 9, .clearUnitOutputs⟩ 3) ↔
      some 100 ≠ none ∧ ((3 : Int) < 0 ∨ some 200 ≠ none) :=
  tornDown_iff ⟨1024⟩ ⟨0⟩ 3 (by decide) 5 ⟨7, 9, .clearUnitOutputs⟩ 3

/-- Either allocation fails: the destructor cancels a thread that no one created. -/
theorem not_tornDown_failed :
    ¬ TornDown (life ⟨1024⟩ ⟨0⟩ 3 none none 5 ⟨7, 9, .clearUnitOutputs⟩ 0) ∧
      ¬ TornDown (life ⟨1024⟩ ⟨0⟩ 3 (some 100) none 5 ⟨7, 9, .clearUnitOutputs⟩ 0) :=
  ⟨not_tornDown_of_no_create fun mage => by simp [ctor, allocFailed],
    not_tornDown_of_no_create fun mage => by simp [ctor, allocFailed, pushLabelsFromSndBuf]⟩

-- ---------------------------------------------------------------------------
-- The buffer of the labels
-- ---------------------------------------------------------------------------

/-- The buffers that are read. -/
def buffersRead (ops : List Op) : List SndBufPtr :=
  ops.filterMap fun
    | .readBuf buf => some buf
    | _ => none

/-- The buffer that a number names: one of the server, or after these a local one. -/
def named (world : World) (parent : Graph) (bufnum : Int) : Option SndBufPtr :=
  if 0 ≤ bufnum ∧ bufnum < world.mNumSndBufs then some (.sndBuf bufnum)
  else if world.mNumSndBufs ≤ bufnum ∧ bufnum < world.mNumSndBufs + parent.localBufNum then
    some (.localSndBuf (bufnum - world.mNumSndBufs))
  else none

theorem buffersRead_ctor (world : World) (parent : Graph) (bufnum : Int) (mage : Nat)
    (stringBuf : Option Nat) (thread : Nat) (unit : SCMage) :
    buffersRead (ctor world parent bufnum (some mage) stringBuf thread unit).2 =
      if bufnum < 0 then [] else [bufferOf world parent bufnum] := by
  by_cases hnum : bufnum < 0
  · have hnot : ¬ bufnum ≥ 0 := by omega
    simp [ctor, hnum, hnot, buffersRead, start]
  · have hnot : bufnum ≥ 0 := by omega
    cases stringBuf with
    | none => simp [ctor, hnum, hnot, buffersRead, pushLabelsFromSndBuf]
    | some string => simp [ctor, hnum, hnot, buffersRead, pushLabelsFromSndBuf, start]

/-- A buffer that a number names is there. -/
theorem exists_of_named {world : World} {parent : Graph} {bufnum : Int} {buf : SndBufPtr}
    (h : named world parent bufnum = some buf) : buf.Exists world parent := by
  rw [named] at h
  split at h
  · cases h
    assumption
  · split at h
    · cases h
      rename_i hlocal
      exact ⟨by omega, by omega⟩
    · cases h

/-- The buffer that is taken is the named one or else the first, but for one number. -/
theorem bufferOf_eq {world : World} {parent : Graph} {bufnum : Int} (hnum : 0 ≤ bufnum)
    (hne : bufnum ≠ world.mNumSndBufs + parent.localBufNum) :
    bufferOf world parent bufnum = (named world parent bufnum).getD (.sndBuf 0) := by
  unfold bufferOf named
  by_cases hserver : bufnum ≥ world.mNumSndBufs
  -- `≤` in the source: `hne` leaves out the one number where `<` differs
  · by_cases hlocal : bufnum - world.mNumSndBufs ≤ parent.localBufNum
    · rw [if_pos hserver, if_pos hlocal, if_neg (by omega), if_pos (by omega)]
      rfl
    · rw [if_pos hserver, if_neg hlocal, if_neg (by omega), if_neg (by omega)]
      rfl
  · rw [if_neg hserver, if_pos (by omega)]
    rfl

/-- One number past the last local buffer. -/
theorem bufferOf_past (world : World) (parent : Graph) :
    bufferOf world parent (world.mNumSndBufs + parent.localBufNum) =
      .localSndBuf parent.localBufNum := by
  have hlocal : (world.mNumSndBufs : Int) + parent.localBufNum - world.mNumSndBufs =
      parent.localBufNum := by omega
  rw [bufferOf, if_pos (by omega)]
  simp only [hlocal, Int.le_refl, if_true]

/--
**When the constructor reads a buffer that is there.** For every number, of a server with
buffers and a graph with any number of local ones: the constructor reads no buffer if the
number is negative and otherwise the one that it names, or the first, and what it reads is
there; exactly when the number is not the one after the last local buffer. -/
theorem reads_buffer_iff {world : World} (hbufs : 1 ≤ world.mNumSndBufs) (parent : Graph)
    (bufnum : Int) (mage : Nat) (stringBuf : Option Nat) (thread : Nat) (unit : SCMage) :
    (buffersRead (ctor world parent bufnum (some mage) stringBuf thread unit).2 =
          (if bufnum < 0 then [] else [(named world parent bufnum).getD (.sndBuf 0)]) ∧
        ∀ buf ∈ buffersRead (ctor world parent bufnum (some mage) stringBuf thread unit).2,
          buf.Exists world parent) ↔
      bufnum ≠ world.mNumSndBufs + parent.localBufNum := by
  rw [buffersRead_ctor]
  by_cases hnum : bufnum < 0
  · simp only [hnum, if_true, List.not_mem_nil, false_implies, implies_true, and_self, true_iff]
    omega
  simp only [hnum, if_false, List.cons.injEq, and_true, List.forall_mem_singleton]
  constructor
  · rintro ⟨-, hexists⟩ rfl
    rw [bufferOf_past] at hexists
    exact absurd hexists.2 (Int.lt_irrefl _)
  · intro hne
    rw [bufferOf_eq (by omega) hne]
    refine ⟨rfl, ?_⟩
    cases hnamed : named world parent bufnum with
    | none => exact ⟨Int.le_refl _, by omega⟩
    | some buf => exact exists_of_named hnamed

/-- The last buffer of a server of 1024. -/
theorem reads_buffer_iff_last :
    (buffersRead (ctor ⟨1024⟩ ⟨2⟩ 1023 (some 100) (some 200) 5 ⟨7, 9, .clearUnitOutputs⟩).2 =
          (if (1023 : Int) < 0 then [] else [(named ⟨1024⟩ ⟨2⟩ 1023).getD (.sndBuf 0)]) ∧
        ∀ buf ∈ buffersRead (ctor ⟨1024⟩ ⟨2⟩ 1023 (some 100) (some 200) 5
            ⟨7, 9, .clearUnitOutputs⟩).2, buf.Exists ⟨1024⟩ ⟨2⟩) ↔
      (1023 : Int) ≠ (1024 : Nat) + (2 : Nat) :=
  reads_buffer_iff (by decide) ⟨2⟩ 1023 100 (some 200) 5 ⟨7, 9, .clearUnitOutputs⟩

/-- Number 1024, in a graph without local buffers: a pointer into an array that is not there. -/
theorem reads_no_buffer :
    buffersRead (ctor ⟨1024⟩ ⟨0⟩ 1024 (some 100) (some 200) 5 ⟨7, 9, .clearUnitOutputs⟩).2 =
        [.localSndBuf 0] ∧
      ¬ (SndBufPtr.localSndBuf 0).Exists ⟨1024⟩ ⟨0⟩ :=
  ⟨by decide, fun h => absurd h.2 (by decide)⟩

end SCMage

end Vox.SCMage
