import Vox.Lib.Ring
import Vox.Mage.Label

/-!
# MAGE — the label queue

`LabelQueue` is a ring of labels with `unsigned int` positions and an
`unsigned int` count; `Mage` pushes to it only when it is not full and pops
only when it is not empty. `toRing` reads a queue as a `Lib.RingBuf`, and under
`Wf` every operation the callers make is the ring's own (`push_toRing`,
`pop_toRing`), so that the waiting labels `labels` behave as a list.
-/

namespace Vox.Mage

open Lib

/-- `unsigned int` has 32 bits. -/
def uintMod : Nat := 2 ^ 32

/-- `n--` on an `unsigned int`, which wraps below zero. -/
def uintDec (n : Nat) : Nat := if n = 0 then uintMod - 1 else n - 1

structure LabelQueue where
  queue : List Label
  read : Nat
  write : Nat
  nOfLabels : Nat
  deriving DecidableEq, Repr

namespace LabelQueue

/-- `LabelQueue::LabelQueue( size )`. -/
def new (size : Nat) : LabelQueue := ⟨List.replicate size default, 0, 0, 0⟩

/-- `LabelQueue::push( label )`. -/
def push (q : LabelQueue) (label : Label) : LabelQueue :=
  { queue := q.queue.set q.write label
    read := q.read
    write := (q.write + 1) % q.queue.length
    nOfLabels := (q.nOfLabels + 1) % uintMod }

/-- `LabelQueue::pop( label )`: the oldest item and the queue without it. -/
def pop (q : LabelQueue) : Label × LabelQueue :=
  (q.queue.getD q.read default,
    { q with
      read := (q.read + 1) % q.queue.length
      nOfLabels := uintDec q.nOfLabels })

def isEmpty (q : LabelQueue) : Bool := q.nOfLabels ≤ 0

def isFull (q : LabelQueue) : Bool := q.nOfLabels ≥ q.queue.length

/-- `LabelQueue::clear()`: the query of the label at the read position, and the
queue with nothing waiting. -/
def clear (q : LabelQueue) : List Char × LabelQueue :=
  ((q.queue.getD q.read default).query, { q with nOfLabels := 0, read := 0, write := 0 })

-- ---------------------------------------------------------------------------
-- The queue as a ring
-- ---------------------------------------------------------------------------

def toRing (q : LabelQueue) : RingBuf Label := ⟨q.queue, q.read, q.write, q.nOfLabels⟩

/-- The waiting labels, oldest first. -/
def labels (q : LabelQueue) : List Label := q.toRing.toList

/-- A queue whose size an `unsigned int` can count and whose positions fit. -/
structure Wf (q : LabelQueue) : Prop where
  ring : q.toRing.Wf
  size_lt : q.queue.length < uintMod

@[simp] theorem length_labels (q : LabelQueue) : q.labels.length = q.nOfLabels :=
  RingBuf.length_toList q.toRing

theorem isEmpty_iff (q : LabelQueue) : q.isEmpty = true ↔ q.labels = [] := by
  rw [← List.length_eq_zero_iff, length_labels]
  simp [isEmpty]

/-- Full means: as many labels as slots. -/
theorem isFull_iff (q : LabelQueue) : q.isFull = true ↔ q.queue.length ≤ q.labels.length := by
  simp [isFull]

theorem wf_new {size : Nat} (hpos : 0 < size) (hlt : size < uintMod) : (new size).Wf where
  ring := by
    refine ⟨by simpa [new, toRing] using hpos, by simpa [new, toRing] using hpos, ?_, ?_⟩
    · simp [new, toRing]
    · simp [new, toRing]
  size_lt := by simpa [new] using hlt

theorem labels_new (size : Nat) : (new size).labels = [] := by
  rw [← List.length_eq_zero_iff, length_labels]
  rfl

/-- Below the size, the count does not wrap and the push is the ring's. -/
theorem push_toRing {q : LabelQueue} (h : q.Wf) (hroom : q.nOfLabels < q.queue.length)
    (label : Label) : (q.push label).toRing = q.toRing.push label := by
  have hlt := h.size_lt
  simp only [toRing, push, RingBuf.push, RingBuf.mk.injEq, true_and]
  exact Nat.mod_eq_of_lt (by omega)

/-- Above zero, the count does not wrap and the pop is the ring's. -/
theorem pop_toRing {q : LabelQueue} (hne : 0 < q.nOfLabels) :
    q.pop.2.toRing = q.toRing.pop := by
  simp only [toRing, pop, RingBuf.pop, RingBuf.mk.injEq, true_and]
  exact if_neg (by omega)

theorem wf_push {q : LabelQueue} (h : q.Wf) (hroom : q.nOfLabels < q.queue.length)
    (label : Label) : (q.push label).Wf where
  ring := by
    rw [push_toRing h hroom]
    exact RingBuf.wf_push h.ring hroom label
  size_lt := by simpa [push] using h.size_lt

theorem labels_push {q : LabelQueue} (h : q.Wf) (hroom : q.nOfLabels < q.queue.length)
    (label : Label) : (q.push label).labels = q.labels ++ [label] := by
  rw [labels, push_toRing h hroom]
  exact RingBuf.toList_push h.ring hroom label

/-- A pop from a queue that is not empty. -/
theorem wf_pop {q : LabelQueue} (h : q.Wf) (hne : 0 < q.nOfLabels) : q.pop.2.Wf where
  ring := by
    rw [pop_toRing hne]
    exact RingBuf.wf_pop h.ring hne
  size_lt := h.size_lt

theorem labels_pop {q : LabelQueue} (h : q.Wf) (hne : 0 < q.nOfLabels) :
    q.labels = q.pop.1 :: q.pop.2.labels := by
  rw [labels, labels, pop_toRing hne]
  exact RingBuf.toList_eq_cons h.ring hne

end LabelQueue

-- ---------------------------------------------------------------------------
-- Pushing and popping as Mage does
-- ---------------------------------------------------------------------------

/-- The label side of `Mage`: its queue, its current label and the speed it
gives to the labels it takes. -/
structure LabelInput where
  labelQueue : LabelQueue
  label : Label
  labelSpeed : ℚ
  deriving DecidableEq, Repr

namespace LabelInput

/-- `Mage::pushLabel`: a label that does not fit is reported and dropped. -/
def pushLabel (m : LabelInput) (label : Label) : LabelInput :=
  if m.labelQueue.isFull then m
  else { m with labelQueue := m.labelQueue.push label }

/-- `Mage::popLabel`. -/
def popLabel (m : LabelInput) : Bool × LabelInput :=
  if m.labelQueue.isEmpty then (false, m)
  else
    (true, { m with
      labelQueue := m.labelQueue.pop.2
      label := m.labelQueue.pop.1.setSpeed m.labelSpeed })

/-- `Mage::clearLabels`. -/
def clearLabels (m : LabelInput) : List Char × LabelInput :=
  (m.labelQueue.clear.1, { m with labelQueue := m.labelQueue.clear.2 })

/-- A push adds the label at the end, or finds the queue full. -/
theorem pushLabel_labels {m : LabelInput} (h : m.labelQueue.Wf) (label : Label) :
    (pushLabel m label).labelQueue.Wf ∧
      (pushLabel m label).labelQueue.queue.length = m.labelQueue.queue.length ∧
      (pushLabel m label).labelQueue.labels =
        (m.labelQueue.labels ++ [label]).take m.labelQueue.queue.length := by
  have hcount : m.labelQueue.nOfLabels ≤ m.labelQueue.queue.length := h.ring.count_le
  unfold pushLabel
  by_cases hfull : m.labelQueue.isFull = true
  · -- reported and dropped
    rw [if_pos hfull]
    have hge := (LabelQueue.isFull_iff _).mp hfull
    refine ⟨h, rfl, ?_⟩
    rw [List.take_append_of_le_length hge, List.take_of_length_le]
    simpa using hcount
  · rw [if_neg hfull]
    -- one more fits, so nothing is cut
    have hroom : m.labelQueue.nOfLabels < m.labelQueue.queue.length := by
      rw [LabelQueue.isFull_iff, LabelQueue.length_labels] at hfull
      omega
    refine ⟨LabelQueue.wf_push h hroom label, by simp [LabelQueue.push], ?_⟩
    rw [LabelQueue.labels_push h hroom, List.take_of_length_le]
    simp only [List.length_append, LabelQueue.length_labels, List.length_singleton]
    omega

/-- Pushing labels one after the other keeps the first ones that fit. -/
theorem foldl_pushLabel_labels (labels : List Label) {m : LabelInput} (h : m.labelQueue.Wf) :
    (labels.foldl pushLabel m).labelQueue.Wf ∧
      (labels.foldl pushLabel m).labelQueue.queue.length = m.labelQueue.queue.length ∧
      (labels.foldl pushLabel m).labelQueue.labels =
        (m.labelQueue.labels ++ labels).take m.labelQueue.queue.length := by
  induction labels generalizing m with
  | nil =>
    refine ⟨h, rfl, ?_⟩
    rw [List.foldl_nil, List.append_nil, List.take_of_length_le]
    rw [LabelQueue.length_labels]
    exact h.ring.count_le
  | cons label rest ih =>
    obtain ⟨hwf, hlen, hlabels⟩ := pushLabel_labels h label
    obtain ⟨hwf', hlen', hlabels'⟩ := ih hwf
    refine ⟨hwf', by rw [List.foldl_cons, hlen', hlen], ?_⟩
    rw [List.foldl_cons, hlabels', hlen, hlabels]
    -- once the queue is full, neither the first part nor the rest has room for more
    have hsplit : (m.labelQueue.labels ++ label :: rest).take m.labelQueue.queue.length
        = (m.labelQueue.labels ++ [label]).take m.labelQueue.queue.length
          ++ rest.take (m.labelQueue.queue.length - (m.labelQueue.labels ++ [label]).length) := by
      rw [← List.take_append, List.append_assoc, List.singleton_append]
    rw [hsplit, List.take_append, List.take_take, Nat.min_self, List.length_take]
    congr 2
    omega

end LabelInput

/-- Popping until the queue is empty, in at most `fuel` pops. -/
def LabelQueue.drain : Nat → LabelQueue → List Label
  | 0, _ => []
  | fuel + 1, q => if q.isEmpty then [] else q.pop.1 :: LabelQueue.drain fuel q.pop.2

/-- Draining returns the waiting labels in order. -/
theorem LabelQueue.drain_eq_labels {fuel : Nat} {q : LabelQueue} (h : q.Wf)
    (hfuel : q.nOfLabels ≤ fuel) : q.drain fuel = q.labels := by
  induction fuel generalizing q with
  | zero =>
    have : q.labels.length = 0 := by simpa using hfuel
    rw [List.length_eq_zero_iff.mp this]
    rfl
  | succ fuel ih =>
    unfold LabelQueue.drain
    by_cases hempty : q.isEmpty = true
    · rw [if_pos hempty, (LabelQueue.isEmpty_iff q).mp hempty]
    · rw [if_neg hempty]
      have hne : 0 < q.nOfLabels := by
        rw [LabelQueue.isEmpty_iff, ← List.length_eq_zero_iff, LabelQueue.length_labels] at hempty
        omega
      -- each pop shortens the queue by the label it returns
      have hcons := LabelQueue.labels_pop h hne
      have hlen := congrArg List.length hcons
      simp only [LabelQueue.length_labels, List.length_cons] at hlen
      rw [ih (LabelQueue.wf_pop h hne) (by omega), hcons]

end Vox.Mage
