import Vox.Lib.Ring

/-!
# MAGE — memory queues

`MemQueue<Item>` is the ring that the model queue and the frame queue are made
of. It is used through pointers: `next()` is the slot that the next `push( n )`
adds to the queue, written to beforehand; `get()` is the oldest slot, read
before `pop( n )` gives it back.

A queue is read as a `Lib.RingBuf` (`toRing`), and its items as a list
(`items`). Under `Wf` writing to the next slot leaves the items alone
(`items_writeNext`), pushing it appends what was written (`items_push`), and
popping drops the oldest item (`items_pop`).

Positions and lengths are natural numbers: a position stays below the length,
which an `int` holds, so `write + 1` does not wrap.
-/

namespace Vox.Mage

open Lib

/-- `MemQueue<Item>`, less `remain`, which its methods only use locally. -/
structure MemQueue (Item : Type*) where
  rawData : List Item
  read : Nat
  write : Nat
  nOfItems : Int
  deriving DecidableEq, Repr

namespace MemQueue

variable {Item : Type*}

-- ---------------------------------------------------------------------------
-- Positions
-- ---------------------------------------------------------------------------

def length (q : MemQueue Item) : Nat := q.rawData.length

/-- `getNumOfItems()`: `( nOfItems > 0 ) ? nOfItems : 0`. -/
def getNumOfItems (q : MemQueue Item) : Nat := if q.nOfItems > 0 then q.nOfItems.toNat else 0

def isEmpty (q : MemQueue Item) : Bool := q.nOfItems ≤ 0

def isFull (q : MemQueue Item) : Bool := q.getNumOfItems ≥ q.length

/-- `* next() = item`. -/
def writeNext (q : MemQueue Item) (item : Item) : MemQueue Item :=
  { q with rawData := q.rawData.set q.write item }

/-- `push( nItem )`. -/
def push (q : MemQueue Item) (nItem : Nat) : MemQueue Item :=
  { q with write := (q.write + nItem) % q.length, nOfItems := q.nOfItems + nItem }

/-- `pop( nItem )`: no further than available. -/
def pop (q : MemQueue Item) (nItem : Nat) : MemQueue Item :=
  let nItem := if nItem > q.getNumOfItems then q.getNumOfItems else nItem
  { q with read := (q.read + nItem) % q.length, nOfItems := q.nOfItems - nItem }

def toRing (q : MemQueue Item) : RingBuf Item := ⟨q.rawData, q.read, q.write, q.getNumOfItems⟩

/-- The count is a count, and the positions fit it. -/
structure Wf (q : MemQueue Item) : Prop where
  ring : q.toRing.Wf
  nonneg : 0 ≤ q.nOfItems

theorem getNumOfItems_eq (q : MemQueue Item) : q.getNumOfItems = q.nOfItems.toNat := by
  unfold getNumOfItems
  split <;> omega

theorem isEmpty_iff {q : MemQueue Item} : q.isEmpty = true ↔ q.getNumOfItems = 0 := by
  rw [getNumOfItems_eq]
  simp [isEmpty]

/-- Full means: the counter has reached the number of slots. -/
theorem isFull_iff {q : MemQueue Item} : q.isFull = true ↔ q.length ≤ q.getNumOfItems := by
  simp [isFull]

@[simp] theorem length_writeNext (q : MemQueue Item) (item : Item) :
    (q.writeNext item).length = q.length := by
  simp [writeNext, length]

@[simp] theorem length_push (q : MemQueue Item) (n : Nat) : (q.push n).length = q.length := rfl

@[simp] theorem length_pop (q : MemQueue Item) (n : Nat) : (q.pop n).length = q.length := rfl

@[simp] theorem getNumOfItems_writeNext (q : MemQueue Item) (item : Item) :
    (q.writeNext item).getNumOfItems = q.getNumOfItems := rfl

/-- Writing into the next slot keeps the queue as it is. -/
theorem wf_writeNext {q : MemQueue Item} (h : q.Wf) (item : Item) : (q.writeNext item).Wf where
  ring := by
    obtain ⟨hpos, hread, hcount, hwrite⟩ := h.ring
    refine ⟨?_, ?_, ?_, ?_⟩ <;> simpa [toRing, writeNext, getNumOfItems]
  nonneg := h.nonneg

theorem getNumOfItems_push {q : MemQueue Item} (h : q.Wf) :
    (q.push 1).getNumOfItems = q.getNumOfItems + 1 := by
  have hnonneg := h.nonneg
  rw [getNumOfItems_eq, getNumOfItems_eq]
  show (q.nOfItems + 1).toNat = q.nOfItems.toNat + 1
  omega

theorem wf_push {q : MemQueue Item} (h : q.Wf) (hroom : q.getNumOfItems < q.length) :
    (q.push 1).Wf where
  ring := by
    have hwrite : q.write = (q.read + q.getNumOfItems) % q.rawData.length := h.ring.write_eq
    have hcount := getNumOfItems_push h
    refine ⟨h.ring.pos, h.ring.read_lt, ?_, ?_⟩
    · show (q.push 1).getNumOfItems ≤ q.length
      omega
    · show (q.write + 1) % q.rawData.length
        = (q.read + (q.push 1).getNumOfItems) % q.rawData.length
      rw [hcount, hwrite, Nat.mod_add_mod, Nat.add_assoc]
  nonneg := by
    have hnonneg := h.nonneg
    show 0 ≤ q.nOfItems + 1
    omega

theorem getNumOfItems_pop {q : MemQueue Item} (hne : 0 < q.getNumOfItems) :
    (q.pop 1).getNumOfItems = q.getNumOfItems - 1 := by
  rw [getNumOfItems_eq] at hne
  have hone : ¬ 1 > q.getNumOfItems := by rw [getNumOfItems_eq]; omega
  rw [getNumOfItems_eq, getNumOfItems_eq, pop, if_neg hone]
  show (q.nOfItems - 1).toNat = q.nOfItems.toNat - 1
  omega

/-- Above zero a pop takes one item, and is the ring's. -/
theorem pop_toRing {q : MemQueue Item} (hne : 0 < q.getNumOfItems) :
    (q.pop 1).toRing = q.toRing.pop := by
  have hone : ¬ 1 > q.getNumOfItems := by omega
  have hcount := getNumOfItems_pop hne
  simp only [toRing, RingBuf.pop, hcount, RingBuf.mk.injEq, and_true]
  refine ⟨rfl, ?_, rfl⟩
  rw [pop, if_neg hone]
  rfl

/-- A pop from a queue that is not empty. -/
theorem wf_pop {q : MemQueue Item} (h : q.Wf) (hne : 0 < q.getNumOfItems) : (q.pop 1).Wf where
  ring := by
    rw [pop_toRing hne]
    exact RingBuf.wf_pop h.ring hne
  nonneg := by
    have hone : ¬ 1 > q.getNumOfItems := by omega
    rw [getNumOfItems_eq] at hne
    rw [pop, if_neg hone]
    show 0 ≤ q.nOfItems - 1
    omega

-- ---------------------------------------------------------------------------
-- Items
-- ---------------------------------------------------------------------------

variable [Inhabited Item]

/-- `MemQueue( queueLen )`. -/
def new (queueLen : Nat) : MemQueue Item := ⟨List.replicate queueLen default, 0, 0, 0⟩

/-- `* next()`. -/
def next (q : MemQueue Item) : Item := q.rawData.getD q.write default

/-- `* get()`. -/
def get (q : MemQueue Item) : Item := q.rawData.getD q.read default

/-- The stored items, oldest first. -/
def items (q : MemQueue Item) : List Item := q.toRing.toList

@[simp] theorem length_items (q : MemQueue Item) : q.items.length = q.getNumOfItems :=
  RingBuf.length_toList q.toRing

theorem wf_new {queueLen : Nat} (hpos : 0 < queueLen) : (new queueLen : MemQueue Item).Wf where
  ring := by
    refine ⟨by simpa [new, toRing] using hpos, by simpa [new, toRing] using hpos, ?_, ?_⟩
    · simp [new, toRing, getNumOfItems]
    · simp [new, toRing, getNumOfItems]
  nonneg := le_refl _

@[simp] theorem length_new (queueLen : Nat) : (new queueLen : MemQueue Item).length = queueLen := by
  simp [new, length]

@[simp] theorem items_new (queueLen : Nat) : (new queueLen : MemQueue Item).items = [] := by
  rw [← List.length_eq_zero_iff, length_items]
  rfl

/-- What is written to the next slot is there. -/
theorem next_writeNext {q : MemQueue Item} (h : q.Wf) (item : Item) :
    (q.writeNext item).next = item := by
  have hlt : q.write < q.rawData.length := h.ring.write_lt
  simp [next, writeNext, List.getD, hlt]

/-- Below capacity the next slot is none of the stored ones. -/
theorem items_writeNext {q : MemQueue Item} (h : q.Wf) (hroom : q.getNumOfItems < q.length)
    (item : Item) : (q.writeNext item).items = q.items := by
  have hwrite : q.write = (q.read + q.getNumOfItems) % q.rawData.length := h.ring.write_eq
  show window (q.rawData.set q.write item) q.read q.getNumOfItems = _
  rw [hwrite]
  apply window_set_outside
  intro i hi
  exact mod_ne_of_lt hi (by unfold length at hroom; omega)

/-- Pushing appends what the next slot holds. -/
theorem items_push {q : MemQueue Item} (h : q.Wf) : (q.push 1).items = q.items ++ [q.next] := by
  have hwrite : q.write = (q.read + q.getNumOfItems) % q.rawData.length := h.ring.write_eq
  show window q.rawData q.read (q.push 1).getNumOfItems = _
  rw [getNumOfItems_push h, window_succ_right, ← hwrite]
  rfl

theorem items_pop {q : MemQueue Item} (h : q.Wf) (hne : 0 < q.getNumOfItems) :
    (q.pop 1).items = q.items.tail := by
  rw [items, pop_toRing hne]
  exact RingBuf.toList_pop h.ring hne

/-- `* get()` is the oldest item. -/
theorem items_eq_cons {q : MemQueue Item} (h : q.Wf) (hne : 0 < q.getNumOfItems) :
    q.items = q.get :: q.items.tail := by
  have hcons : q.items = q.toRing.front :: q.toRing.pop.toList :=
    RingBuf.toList_eq_cons h.ring hne
  rw [hcons, List.tail_cons]
  rfl

/-- The slot `k` places after the oldest one. -/
theorem rawData_getD {q : MemQueue Item} {k : Nat} (hk : k < q.getNumOfItems) :
    q.rawData.getD ((q.read + k) % q.length) default = q.items.getD k default :=
  (window_getD q.rawData hk).symm

end MemQueue

end Vox.Mage
