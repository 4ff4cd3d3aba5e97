import Vox.Lib.Refinement
import Vox.Mage.LabelQueue
import Vox.Mage.MemQueue
import Vox.Mage.Words

/-!
# MAGE — memory queues, in batches and in machine integers

All operations of `MemQueue<Item>` with any number of items, as the machine
computes them: `write + nItem` is an `unsigned int`, the item count is an `int`,
and a copy that leaves the array has no defined result (`none`).

The queue is a list of `capacity` items at most: the ring, read from its oldest
item on, holds the stored items and then the free slots (`Slots`). What it keeps
in the count, an `int`, is smaller than what its length, an `unsigned int`, may
be; that is the only limit.

Main results:

* `Represents.call` — one operation does to the ring what it does to the list.
* `behavesAsList_iff` — in every run the ring gives the list's answers, exactly
  when an `int` holds its capacity.
-/

namespace Vox.Mage

open Lib

/-- A call to a memory queue. -/
inductive QueueCall (Item : Type*)
  /-- `push( item, nItem )` -/
  | pushItems (item : List Item)
  /-- `* next() = item` -/
  | writeNext (item : Item)
  /-- `push( nItem )` -/
  | push (nItem : Nat)
  /-- `pop( item, nItem )` -/
  | popItems (nItem : Nat)
  /-- `pop( nItem )` -/
  | pop (nItem : Nat)
  /-- `get( item, nItem )` -/
  | getItems (nItem : Nat)
  /-- `* get()` -/
  | get
  /-- `* next()` -/
  | next
  | getNumOfItems
  | isEmpty
  | isFull
  deriving DecidableEq, Repr

/-- What a call returns, or leaves in the array it is given. -/
inductive QueueAnswer (Item : Type*)
  | nothing
  | items (item : List Item)
  | item (item : Item)
  | count (n : Nat)
  | flag (b : Bool)
  deriving DecidableEq, Repr

namespace MemQueue

variable {Item : Type*} [Inhabited Item]

-- ---------------------------------------------------------------------------
-- As the machine computes it
-- ---------------------------------------------------------------------------

/-- `unsigned int` addition. -/
def uintAdd (m n : Nat) : Nat := (m + n) % uintMod

/-- `nItem > getNumOfItems()`, and then no further than available. -/
def available (q : MemQueue Item) (nItem : Nat) : Nat :=
  if nItem > q.getNumOfItems then q.getNumOfItems else nItem

/-- `write = ( write + nItem ) % length; nOfItems += nItem;` -/
def advanceWrite (q : MemQueue Item) (nItem : Nat) : MemQueue Item :=
  { q with
    write := uintAdd q.write nItem % q.length
    nOfItems := toInt (q.nOfItems + nItem) }

/-- `read = ( read + nItem ) % length; nOfItems -= nItem;` -/
def advanceRead (q : MemQueue Item) (nItem : Nat) : MemQueue Item :=
  { q with
    read := uintAdd q.read nItem % q.length
    nOfItems := toInt (q.nOfItems - nItem) }

/-- `push( item, nItem )`: one copy, or one up to the end and one from the front. -/
def pushItems (q : MemQueue Item) (item : List Item) : Option (MemQueue Item) := do
  let remain := q.length - q.write
  let rawData ← (
    if uintAdd q.write item.length ≤ q.length then splice q.rawData q.write item
    else do splice (← splice q.rawData q.write (item.take remain)) 0 (item.drop remain))
  some ({ q with rawData := rawData }.advanceWrite item.length)

/-- `get( item, nItem )`, what it copies. -/
def getItems (q : MemQueue Item) (nItem : Nat) : Option (List Item) :=
  let nItem := q.available nItem
  if uintAdd q.read nItem ≤ q.length then slice q.rawData q.read nItem
  else do
    let remain := q.length - q.read
    let first ← slice q.rawData q.read remain
    let rest ← slice q.rawData 0 (nItem - remain)
    some (first ++ rest)

/-- A call, with what it answers. -/
def call (q : MemQueue Item) : QueueCall Item → Option (QueueAnswer Item × MemQueue Item)
  | .pushItems item => do some (.nothing, ← q.pushItems item)
  | .writeNext item => some (.nothing, q.writeNext item)
  | .push nItem => some (.nothing, q.advanceWrite nItem)
  | .popItems nItem => do
    some (.items (← q.getItems nItem), q.advanceRead (q.available nItem))
  | .pop nItem => some (.nothing, q.advanceRead (q.available nItem))
  | .getItems nItem => do some (.items (← q.getItems nItem), q)
  | .get => some (.item q.get, q)
  | .next => some (.item q.next, q)
  | .getNumOfItems => some (.count q.getNumOfItems, q)
  | .isEmpty => some (.flag q.isEmpty, q)
  | .isFull => some (.flag q.isFull, q)

end MemQueue

-- ---------------------------------------------------------------------------
-- As a list
-- ---------------------------------------------------------------------------

/-- A bounded list: the items it stores, oldest first, and the contents of the
slots that are free, in the order in which they will be used. -/
structure Slots (Item : Type*) where
  stored : List Item
  free : List Item
  deriving DecidableEq, Repr

namespace Slots

variable {Item : Type*} [Inhabited Item]

/-- `capacity` free slots. -/
def new (capacity : Nat) : Slots Item := ⟨[], List.replicate capacity default⟩

/-- The oldest `n` items are given back to the free slots. -/
def drop (s : Slots Item) (n : Nat) : Slots Item :=
  ⟨s.stored.drop n, s.free ++ s.stored.take n⟩

/-- What a call does to the list, and what it answers. -/
def call (s : Slots Item) : QueueCall Item → QueueAnswer Item × Slots Item
  | .pushItems item => (.nothing, ⟨s.stored ++ item, s.free.drop item.length⟩)
  | .writeNext item => (.nothing, ⟨s.stored, item :: s.free.tail⟩)
  | .push nItem => (.nothing, ⟨s.stored ++ s.free.take nItem, s.free.drop nItem⟩)
  | .popItems nItem => (.items (s.stored.take nItem), s.drop nItem)
  | .pop nItem => (.nothing, s.drop nItem)
  | .getItems nItem => (.items (s.stored.take nItem), s)
  | .get => (.item ((s.stored ++ s.free).headD default), s)
  | .next => (.item ((s.free ++ s.stored).headD default), s)
  | .getNumOfItems => (.count s.stored.length, s)
  | .isEmpty => (.flag s.stored.isEmpty, s)
  | .isFull => (.flag s.free.isEmpty, s)

/-- What a caller has to see to: there is room for what is pushed and for what
is written to the next slot, and counts are `unsigned int`s. -/
def Allowed (s : Slots Item) : QueueCall Item → Prop
  | .pushItems item => item.length ≤ s.free.length
  | .writeNext _ => s.free ≠ []
  | .push nItem => nItem ≤ s.free.length
  | .popItems nItem | .pop nItem | .getItems nItem => nItem < uintMod
  | _ => True

end Slots

-- ---------------------------------------------------------------------------
-- The ring is the list
-- ---------------------------------------------------------------------------

namespace MemQueue

variable {Item : Type*} [Inhabited Item]

/-- Read from its oldest item on, the ring holds the stored items and then the
free slots. -/
structure Represents (q : MemQueue Item) (s : Slots Item) : Prop where
  read_lt : q.read < q.length
  cells : window q.rawData q.read q.length = s.stored ++ s.free
  write_eq : q.write = (q.read + s.stored.length) % q.length
  count : q.nOfItems = s.stored.length

namespace Represents

variable {q : MemQueue Item} {s : Slots Item}

/-- The slots are the stored ones and the free ones. -/
theorem length_eq (h : q.Represents s) : q.length = s.stored.length + s.free.length := by
  have hlength := congrArg List.length h.cells
  rwa [window_length, List.length_append] at hlength

theorem write_lt (h : q.Represents s) : q.write < q.length := by
  rw [h.write_eq]
  exact Nat.mod_lt _ (Nat.zero_lt_of_lt h.read_lt)

/-- The counter counts the stored items. -/
theorem getNumOfItems_eq (h : q.Represents s) : q.getNumOfItems = s.stored.length := by
  rw [MemQueue.getNumOfItems_eq, h.count]
  rfl

/-- No more than what is stored can be got. -/
theorem available_eq (h : q.Represents s) (n : Nat) : q.available n = min n s.stored.length := by
  rw [available, h.getNumOfItems_eq]
  split <;> omega

/-- Read from the next slot on, it holds the free slots and then the stored items. -/
theorem cells_from_write (h : q.Represents s) :
    window q.rawData q.write q.length = s.free ++ s.stored := by
  rw [h.write_eq]
  show window q.rawData (_ % q.rawData.length) _ = _
  rw [window_mod]
  exact (window_eq_append_comm q.read h.length_eq).mpr h.cells

/-- The items of the queue are the stored ones. -/
theorem items_eq (h : q.Represents s) : q.items = s.stored := by
  have hle := h.length_eq
  have hsplit : q.length = s.stored.length + s.free.length := hle
  have hcells := h.cells
  rw [hsplit, window_add] at hcells
  have hfirst := List.append_inj_left hcells (window_length _ _ _)
  rw [items, toRing, RingBuf.toList, h.getNumOfItems_eq]
  exact hfirst

/-- While there is a free slot, the next slot is none of the stored ones. -/
theorem write_ne (h : q.Represents s) (hfree : s.free ≠ []) :
    ∀ k < s.stored.length, (q.read + k) % q.length ≠ q.write := by
  intro k hk
  have hlength := h.length_eq
  have hpos := List.length_pos_of_ne_nil hfree
  rw [h.write_eq]
  exact mod_ne_of_lt hk (by omega)

end Represents

-- ---------------------------------------------------------------------------
-- One operation
-- ---------------------------------------------------------------------------

theorem uintAdd_of_lt {m n : Nat} (h : m + n < uintMod) : uintAdd m n = m + n :=
  Nat.mod_eq_of_lt h

omit [Inhabited Item] in
/-- Without a wrap of the index, pushing is a splice of the ring. -/
theorem pushItems_eq {q : MemQueue Item} {item : List Item}
    (h : q.write + item.length < uintMod) :
    q.pushItems item = (spliceRing q.rawData q.write item).map fun rawData =>
      { q with rawData := rawData }.advanceWrite item.length := by
  unfold pushItems
  rw [uintAdd_of_lt h]
  show (spliceRing q.rawData q.write item).bind _ = _
  cases spliceRing q.rawData q.write item <;> rfl

omit [Inhabited Item] in
/-- Without a wrap of the index, getting is a slice of the ring. -/
theorem getItems_eq {q : MemQueue Item} {n : Nat} (h : q.read + q.available n < uintMod) :
    q.getItems n = sliceRing q.rawData q.read (q.available n) := by
  unfold getItems sliceRing
  simp only [uintAdd_of_lt h]
  rfl

namespace Represents

variable {q : MemQueue Item} {s : Slots Item}

/-- Items written to the first free slots are there. -/
theorem splice (h : q.Represents s) {item : List Item} (hroom : item.length ≤ s.free.length) :
    ∃ rawData, spliceRing q.rawData q.write item = some rawData ∧
      rawData.length = q.rawData.length ∧
      { q with rawData := rawData }.Represents ⟨s.stored, item ++ s.free.drop item.length⟩ := by
  have hlength : q.rawData.length = s.stored.length + s.free.length := h.length_eq
  have hle : item.length ≤ q.rawData.length := by omega
  obtain ⟨rawData, hsplice, hlen, hcells⟩ := window_spliceRing h.write_lt hle
  have hfrom : window q.rawData q.write q.rawData.length = s.free ++ s.stored :=
    h.cells_from_write
  -- the array from the next slot on, and so also from the oldest item on
  rw [hfrom, List.drop_append_of_le_length hroom, ← List.append_assoc, h.write_eq] at hcells
  have hmod : (q.read + s.stored.length) % q.length
      = (q.read + s.stored.length) % rawData.length := by rw [hlen]; rfl
  rw [hmod, window_mod, ← hlen] at hcells
  have hdrop : (s.free.drop item.length).length = s.free.length - item.length := List.length_drop
  refine ⟨rawData, hsplice, hlen, ?_, ?_, ?_, h.count⟩
  · show q.read < rawData.length
    rw [hlen]
    exact h.read_lt
  · refine (window_eq_append_comm q.read ?_).mp hcells
    rw [List.length_append, hdrop, hlen]
    show q.rawData.length = s.stored.length + (item.length + (s.free.length - item.length))
    omega
  · show q.write = (q.read + s.stored.length) % rawData.length
    rw [h.write_eq, hmod]

/-- The next item is written into the first free slot and not stored yet. -/
theorem writeNext (h : q.Represents s) (hfree : s.free ≠ []) (item : Item) :
    (q.writeNext item).Represents ⟨s.stored, item :: s.free.tail⟩ := by
  have hone : [item].length ≤ s.free.length := List.length_pos_of_ne_nil hfree
  obtain ⟨rawData, hsplice, -, hrep⟩ := h.splice hone
  rw [spliceRing_singleton item h.write_lt] at hsplice
  obtain rfl := Option.some.inj hsplice
  rw [← List.drop_one]
  exact hrep

/-- The first free slots become the newest items. -/
theorem advanceWrite {stored item free : List Item} (h : q.Represents ⟨stored, item ++ free⟩)
    (hint : q.length < 2 ^ 31) :
    (q.advanceWrite item.length).Represents ⟨stored ++ item, free⟩ := by
  have hlength := h.length_eq
  have hwrite := h.write_lt
  simp only [List.length_append] at hlength
  have huint : q.write + item.length < uintMod := by unfold uintMod; omega
  refine ⟨h.read_lt, ?_, ?_, ?_⟩
  · show window q.rawData q.read q.length = stored ++ item ++ free
    rw [h.cells, List.append_assoc]
  · show uintAdd q.write item.length % q.length = (q.read + (stored ++ item).length) % q.length
    rw [uintAdd_of_lt huint, h.write_eq, Nat.mod_add_mod, List.length_append, Nat.add_assoc]
  · show toInt (q.nOfItems + item.length) = ((stored ++ item).length : Int)
    rw [h.count, List.length_append, toInt_of_mem (by omega) (by simp only; omega)]
    push_cast
    rfl

/-- The oldest items become the last free slots. -/
theorem advanceRead (h : q.Represents s) {n : Nat} (hn : n ≤ s.stored.length)
    (hint : q.length < 2 ^ 31) : (q.advanceRead n).Represents (s.drop n) := by
  have hlength := h.length_eq
  have hread := h.read_lt
  have huint : q.read + n < uintMod := by unfold uintMod; omega
  refine ⟨Nat.mod_lt _ (by omega), ?_, ?_, ?_⟩
  · show window q.rawData (uintAdd q.read n % q.rawData.length) q.rawData.length
      = s.stored.drop n ++ (s.free ++ s.stored.take n)
    have hcells : window q.rawData q.read q.rawData.length = s.stored ++ s.free := h.cells
    have hle : n ≤ q.rawData.length := by unfold length at hlength; omega
    rw [uintAdd_of_lt huint, window_mod, window_rotate _ _ _ hle, hcells,
      List.drop_append_of_le_length hn, List.take_append_of_le_length hn, List.append_assoc]
  · show q.write = (uintAdd q.read n % q.length + (s.stored.drop n).length) % q.length
    have hsum : q.read + n + (s.stored.length - n) = q.read + s.stored.length := by omega
    rw [uintAdd_of_lt huint, Nat.mod_add_mod, List.length_drop, hsum, h.write_eq]
  · show toInt (q.nOfItems - n) = ((s.stored.drop n).length : Int)
    rw [h.count, List.length_drop, toInt_of_mem (by omega) (by omega)]
    omega

/-- Getting many gives the oldest ones. -/
theorem getItems (h : q.Represents s) (hint : q.length < 2 ^ 31) (n : Nat) :
    q.getItems n = some (s.stored.take n) := by
  have hlength := h.length_eq
  have hread := h.read_lt
  have havailable := h.available_eq n
  have huint : q.read + q.available n < uintMod := by unfold uintMod; omega
  have hle : q.available n ≤ q.rawData.length := by unfold length at hlength; omega
  -- the first cells of the stored items
  have hitems : window q.rawData q.read s.stored.length = s.stored := by
    rw [← h.getNumOfItems_eq]
    exact h.items_eq
  have hsplit : s.stored.length = q.available n + (s.stored.length - q.available n) := by omega
  rw [hsplit, window_add] at hitems
  have hwindow : window q.rawData q.read (q.available n) = s.stored.take n := by
    have htake := congrArg (List.take (q.available n)) hitems
    rw [List.take_left' (window_length _ _ _)] at htake
    rw [htake, havailable, ← List.take_take, List.take_length]
  rw [getItems_eq huint, sliceRing_eq_window hread hle, hwindow]

/-- The oldest item, or what the slot held if there is none. -/
theorem get_eq (h : q.Represents s) : q.get = (s.stored ++ s.free).headD default := by
  rw [← h.cells]
  exact (headD_window q.rawData h.read_lt).symm

/-- The item behind the newest, which is the oldest of a full queue. -/
theorem next_eq (h : q.Represents s) : q.next = (s.free ++ s.stored).headD default := by
  rw [← h.cells_from_write]
  exact (headD_window q.rawData h.write_lt).symm

theorem isEmpty_eq (h : q.Represents s) : q.isEmpty = s.stored.isEmpty := by
  have hcount := h.count
  cases hs : s.stored with
  | nil => simp [isEmpty, hcount, hs]
  | cons a as =>
    simp only [isEmpty, hcount, hs, List.length_cons, List.isEmpty_cons, decide_eq_false_iff_not]
    omega

theorem isFull_eq (h : q.Represents s) : q.isFull = s.free.isEmpty := by
  have hlength := h.length_eq
  rw [isFull, h.getNumOfItems_eq, hlength]
  cases s.free <;> simp

/-- **One call.** What an allowed call does to the list and answers, it does to the
ring and answers. -/
theorem call (h : q.Represents s) (hint : q.length < 2 ^ 31) (c : QueueCall Item)
    (hallowed : s.Allowed c) :
    ∃ q', q.call c = some ((s.call c).1, q') ∧ q'.Represents (s.call c).2 ∧
      q'.length = q.length := by
  -- a pop takes no more than there is
  have hpop : ∀ n, (q.advanceRead (q.available n)).Represents (s.drop n) := by
    intro n
    have hmin : s.drop n = s.drop (q.available n) := by
      rw [h.available_eq]
      rcases le_total n s.stored.length with hn | hn
      · rw [Nat.min_eq_left hn]
      · rw [Nat.min_eq_right hn, Slots.drop, Slots.drop, List.drop_of_length_le hn,
          List.take_of_length_le hn, List.drop_length, List.take_length]
    rw [hmin]
    exact h.advanceRead (by rw [h.available_eq]; omega) hint
  cases c with
  | pushItems item =>
    have hroom : item.length ≤ s.free.length := hallowed
    have hlength := h.length_eq
    have hwrite := h.write_lt
    -- the items are copied in at most two pieces, then counted
    obtain ⟨rawData, hsplice, hlen, hrep⟩ := h.splice hroom
    have huint : q.write + item.length < uintMod := by unfold uintMod; omega
    have hraw : ({ q with rawData := rawData } : MemQueue Item).length = q.length := hlen
    refine ⟨_, ?_, hrep.advanceWrite (by omega), hraw⟩
    rw [MemQueue.call, pushItems_eq huint, hsplice]
    rfl
  | writeNext item =>
    exact ⟨_, rfl, h.writeNext hallowed item, length_writeNext q item⟩
  | push n =>
    have hn : n ≤ s.free.length := hallowed
    have htake : (s.free.take n).length = n := List.length_take_of_le hn
    -- a push without items stores what the slots held
    have hrep : (q.advanceWrite (s.free.take n).length).Represents
        ⟨s.stored ++ s.free.take n, s.free.drop n⟩ := by
      apply advanceWrite _ hint
      rw [List.take_append_drop]
      exact h
    rw [htake] at hrep
    exact ⟨_, rfl, hrep, rfl⟩
  | popItems n =>
    refine ⟨_, ?_, hpop n, rfl⟩
    rw [MemQueue.call, h.getItems hint n]
    rfl
  | pop n => exact ⟨_, rfl, hpop n, rfl⟩
  | getItems n =>
    refine ⟨q, ?_, h, rfl⟩
    rw [MemQueue.call, h.getItems hint n]
    rfl
  | get => exact ⟨q, by rw [MemQueue.call, h.get_eq]; rfl, h, rfl⟩
  | next => exact ⟨q, by rw [MemQueue.call, h.next_eq]; rfl, h, rfl⟩
  | getNumOfItems => exact ⟨q, by rw [MemQueue.call, h.getNumOfItems_eq]; rfl, h, rfl⟩
  | isEmpty => exact ⟨q, by rw [MemQueue.call, h.isEmpty_eq]; rfl, h, rfl⟩
  | isFull => exact ⟨q, by rw [MemQueue.call, h.isFull_eq]; rfl, h, rfl⟩

end Represents

-- ---------------------------------------------------------------------------
-- Runs
-- ---------------------------------------------------------------------------

/-- The ring stores the list's items in order, every position is below the
capacity, and while a slot is free the next one is none of the stored ones. -/
structure Holds (capacity : Nat) (q : MemQueue Item) (s : Slots Item) : Prop where
  read_lt : q.read < capacity
  write_lt : q.write < capacity
  room : s.stored.length + s.free.length = capacity
  items_eq : q.items = s.stored
  next_ne : s.free ≠ [] → ∀ k < s.stored.length, (q.read + k) % capacity ≠ q.write

/-- In every run of allowed calls the ring is defined, gives the list's answers
and holds the list. -/
def BehavesAsList (Item : Type*) [Inhabited Item] (capacity : Nat) : Prop :=
  ∀ calls : List (QueueCall Item),
    StepsMeet (fun s c => (Slots.call s c).2) Slots.Allowed (Slots.new capacity) calls →
      ∃ q, answersOf call (new capacity) calls
          = some ((specAnswersOf Slots.call (Slots.new capacity) calls).1, q) ∧
        q.Holds capacity (specAnswersOf Slots.call (Slots.new capacity) calls).2

/-- A new queue has all of its slots free. -/
theorem represents_new {capacity : Nat} (hpos : 0 < capacity) :
    (new capacity : MemQueue Item).Represents (Slots.new capacity) := by
  refine ⟨by rw [length_new]; exact hpos, ?_, ?_, rfl⟩
  · show window (List.replicate capacity default) 0 (List.replicate capacity default).length
      = [] ++ List.replicate capacity default
    rw [window_eq_take_drop _ (by omega), List.drop_zero, List.take_length, List.nil_append]
  · show 0 = 0 % _
    rw [Nat.zero_mod]

/-- A queue of the capacity that was asked for. -/
theorem Represents.holds {q : MemQueue Item} {s : Slots Item} {capacity : Nat}
    (h : q.Represents s) (hlength : q.length = capacity) : q.Holds capacity s := by
  subst hlength
  exact ⟨h.read_lt, h.write_lt, h.length_eq.symm, h.items_eq, h.write_ne⟩

/-- Below `2 ^ 31` slots the queue is a bounded list. -/
theorem behavesAsList {capacity : Nat} (hpos : 0 < capacity) (hint : capacity < 2 ^ 31) :
    BehavesAsList Item capacity := by
  intro calls hallowed
  -- what holds of the ring and the list after every call
  let R (q : MemQueue Item) (s : Slots Item) : Prop := q.Represents s ∧ q.length = capacity
  have hcall : ∀ (q : MemQueue Item) (s : Slots Item) (c : QueueCall Item), R q s →
      s.Allowed c → ∃ q', q.call c = some ((s.call c).1, q') ∧ R q' (s.call c).2 := by
    intro q s c hR hc
    obtain ⟨q', hq', hrep, hlength⟩ := hR.1.call (by rw [hR.2]; exact hint) c hc
    exact ⟨q', hq', hrep, hlength.trans hR.2⟩
  obtain ⟨q, hq, hR⟩ := answersOf_eq hcall calls _ _
    ⟨represents_new hpos, length_new capacity⟩ hallowed
  exact ⟨q, hq, hR.1.holds hR.2⟩

/-- As many items as an `int` cannot count: pushed all at once, they leave a
count below zero, and the ring says that it is empty. -/
theorem not_behavesAsList {capacity : Nat} (hint : 2 ^ 31 ≤ capacity) :
    ¬ BehavesAsList Item capacity := by
  intro h
  obtain ⟨n, hn⟩ : ∃ n, n = 2 ^ 31 := ⟨_, rfl⟩
  have hroom : n ≤ (Slots.new capacity : Slots Item).free.length := by
    rw [Slots.new, List.length_replicate]
    omega
  obtain ⟨q, hq, -⟩ := h [.push n, .isEmpty] ⟨hroom, trivial, trivial⟩
  -- the ring's second answer
  have hring : (advanceWrite (new capacity : MemQueue Item) n).isEmpty = true := by
    have hcount : toInt ((0 : Int) + n) = -2 ^ 31 := by
      rw [hn]
      decide
    show decide (toInt ((0 : Int) + n) ≤ 0) = true
    rw [hcount]
    rfl
  -- the list's second answer
  have hlist : ([] ++ (Slots.new capacity : Slots Item).free.take n).isEmpty = false := by
    rw [List.isEmpty_eq_false_iff, List.nil_append, ← List.length_pos_iff,
      List.length_take_of_le hroom]
    omega
  have hanswers : some ([QueueAnswer.nothing,
        .flag (advanceWrite (new capacity : MemQueue Item) n).isEmpty],
        advanceWrite (new capacity : MemQueue Item) n)
      = some ([.nothing, .flag ([] ++ (Slots.new capacity : Slots Item).free.take n).isEmpty],
        q) := hq
  rw [hring, hlist] at hanswers
  simp at hanswers

/--
**A memory queue is a bounded list** of its capacity exactly when an `int`
holds the capacity, which is an `unsigned int`. -/
theorem behavesAsList_iff {capacity : Nat} (hpos : 0 < capacity) :
    BehavesAsList Item capacity ↔ capacity < 2 ^ 31 := by
  refine ⟨?_, behavesAsList hpos⟩
  intro h
  by_contra hge
  exact not_behavesAsList (Nat.le_of_not_lt hge) h

theorem behavesAsList_iff_three : BehavesAsList Nat 3 ↔ 3 < 2 ^ 31 :=
  behavesAsList_iff (by decide)

/-- The smallest capacity that an `int` does not hold. -/
theorem behavesAsList_fails : ¬ BehavesAsList Nat 2147483648 :=
  not_behavesAsList (by decide)

end MemQueue

end Vox.Mage
