import Mathlib.Data.List.Basic
import Mathlib.Data.Nat.ModEq
import Mathlib.Tactic.Ring

/-!
# Circular arrays

A fixed array read and written through two wrapping positions and an item
count. `window xs r n` lists the `n` cells from position `r` on; a `RingBuf` is
the array with its read position, write position and count, and
`RingBuf.toList` is the window it currently stores.

* `RingBuf.Wf`: the positions are inside the array, the count is at most its
  length, and the write position is `count` cells after the read position.
* `RingBuf.toList_push` / `RingBuf.toList_pop` — on well-formed rings the two
  operations are the two ends of a list.
* `window_set_push` — writing the cell after a window extends the window.
* `slice` and `splice` are copies of several cells out of the array and into it,
  in one piece; `window_eq_drop_append_take` is for those that wrap.
-/

namespace Lib

variable {α : Type*}

/-! ## Windows of a circular array -/

section Window

variable [Inhabited α]

/-- The `n` cells of `xs` from position `r` on, wrapping at the end. -/
def window (xs : List α) (r n : Nat) : List α :=
  (List.range n).map fun i => xs.getD ((r + i) % xs.length) default

@[simp] theorem window_length (xs : List α) (r n : Nat) :
    (window xs r n).length = n := by
  simp [window]

/-- A window that is longer by one at its end. -/
theorem window_succ_right (xs : List α) (r n : Nat) :
    window xs r (n + 1) =
      window xs r n ++ [xs.getD ((r + n) % xs.length) default] := by
  simp [window, List.range_succ]

/-- A window that is longer by one at its front. -/
theorem window_succ_left (xs : List α) (r n : Nat) :
    window xs r (n + 1) =
      xs.getD (r % xs.length) default :: window xs (r + 1) n := by
  simp only [window, List.range_succ_eq_map, List.map_cons, List.map_map, Nat.add_zero]
  congr 1
  apply List.map_congr_left
  intro i _
  rw [Function.comp, Nat.succ_eq_add_one, show r + (i + 1) = r + 1 + i by omega]

/-- A window only depends on its start modulo the length. -/
theorem window_mod (xs : List α) (r n : Nat) :
    window xs (r % xs.length) n = window xs r n := by
  simp [window, Nat.mod_add_mod]

theorem window_getD (xs : List α) {r n i : Nat} (h : i < n) :
    (window xs r n).getD i default = xs.getD ((r + i) % xs.length) default := by
  simp [window, List.getD, h]

/-- Positions less than one revolution apart are different cells. -/
theorem mod_ne_of_lt {len r i j : Nat} (hij : i < j) (hj : j < i + len) :
    (r + i) % len ≠ (r + j) % len := by
  intro h
  have hdvd : len ∣ (r + j) - (r + i) := (Nat.modEq_iff_dvd' (by omega)).mp h
  have := Nat.eq_zero_of_dvd_of_lt hdvd (by omega)
  omega

/-- A write outside a window leaves the window as it was. -/
theorem window_set_outside (xs : List α) {r n k : Nat} (v : α)
    (h : ∀ i, i < n → (r + i) % xs.length ≠ k) :
    window (xs.set k v) r n = window xs r n := by
  unfold window
  apply List.map_congr_left
  intro i hi
  have hne := h i (List.mem_range.mp hi)
  simp only [List.getD, List.length_set]
  rw [List.getElem?_set_ne (Ne.symm hne)]

/-- Writing the cell after a window that does not fill the array extends the
window by the written value. -/
theorem window_set_push (xs : List α) {r n : Nat} (v : α) (h : n < xs.length) :
    window (xs.set ((r + n) % xs.length) v) r (n + 1) = window xs r n ++ [v] := by
  have hlt : (r + n) % xs.length < xs.length := Nat.mod_lt _ (by omega)
  rw [window_succ_right, window_set_outside]
  · simp [List.getD, hlt]
  · -- the cells of the window are other cells
    intro i hi
    exact mod_ne_of_lt hi (by omega)

/-- A window is the window of its first cells and the window of the others. -/
theorem window_add (xs : List α) (r m n : Nat) :
    window xs r (m + n) = window xs r m ++ window xs (r + m) n := by
  simp [window, List.range_add, Function.comp_def, Nat.add_assoc]

end Window

/-! ## Copies in and out -/

section Copies

/-- `n` cells from position `p` on, if they are all there. -/
def slice (xs : List α) (p n : Nat) : Option (List α) :=
  if p + n ≤ xs.length then some ((xs.drop p).take n) else none

/-- The cells from position `p` on overwritten by `ys`, if they are all there. -/
def splice (xs : List α) (p : Nat) (ys : List α) : Option (List α) :=
  if p + ys.length ≤ xs.length then some (xs.take p ++ ys ++ xs.drop (p + ys.length)) else none

theorem length_splice {xs xs' ys : List α} {p : Nat} (h : splice xs p ys = some xs') :
    xs'.length = xs.length := by
  unfold splice at h
  split at h
  · obtain rfl := Option.some.inj h
    simp
    omega
  · cases h

/-- What is in a cell after a copy into the array. -/
theorem getD_splice {xs xs' ys : List α} {p : Nat} (h : splice xs p ys = some xs') (k : Nat)
    (d : α) :
    xs'.getD k d = if p ≤ k ∧ k < p + ys.length then ys.getD (k - p) d else xs.getD k d := by
  unfold splice at h
  split at h
  · rename_i hfit
    obtain rfl := Option.some.inj h
    have htake : (xs.take p).length = p := by simp; omega
    simp only [List.getD_eq_getElem?_getD]
    -- before, inside and behind what is spliced in
    rcases lt_or_ge k p with hlt | hge
    · rw [if_neg (by omega), List.append_assoc, List.getElem?_append_left (by omega),
        List.getElem?_take_of_lt hlt]
    rw [List.append_assoc, List.getElem?_append_right (by omega), htake]
    rcases lt_or_ge k (p + ys.length) with hin | hout
    · rw [if_pos ⟨hge, hin⟩, List.getElem?_append_left (by omega)]
    · rw [if_neg (by omega), List.getElem?_append_right (by omega), List.getElem?_drop]
      congr 2
      omega
  · cases h

variable [Inhabited α]

/-- Cells that do not wrap are a window. -/
theorem window_eq_take_drop (xs : List α) {r n : Nat} (h : r + n ≤ xs.length) :
    window xs r n = (xs.drop r).take n := by
  apply List.ext_getElem
  · simp
    omega
  · intro i hi _
    rw [window_length] at hi
    have hmod : (r + i) % xs.length = r + i := Nat.mod_eq_of_lt (by omega)
    have hlt : r + i < xs.length := by omega
    simp [window, hmod, List.getD, hlt]

/-- Cells that wrap are the end of the array and its beginning. -/
theorem window_eq_drop_append_take (xs : List α) {r n : Nat} (hr : r < xs.length)
    (hwrap : xs.length ≤ r + n) (hn : n ≤ xs.length) :
    window xs r n = xs.drop r ++ xs.take (n - (xs.length - r)) := by
  obtain ⟨m, rfl⟩ : ∃ m, n = (xs.length - r) + m := ⟨n - (xs.length - r), by omega⟩
  have hstart : window xs (r + (xs.length - r)) m = window xs 0 m := by
    rw [show r + (xs.length - r) = xs.length by omega, ← window_mod, Nat.mod_self]
  rw [window_add, hstart, window_eq_take_drop xs (by omega), window_eq_take_drop xs (by omega),
    Nat.add_sub_cancel_left, List.drop_zero, List.take_of_length_le]
  rw [List.length_drop]

/-- `n` cells from position `r` on, wrapping at most once, in one or two pieces. -/
def sliceRing (xs : List α) (r n : Nat) : Option (List α) :=
  if r + n ≤ xs.length then slice xs r n
  else do
    let first ← slice xs r (xs.length - r)
    let rest ← slice xs 0 (n - (xs.length - r))
    some (first ++ rest)

/-- The cells from position `w` on overwritten by `ys`, wrapping at most once, in
one or two pieces. -/
def spliceRing (xs : List α) (w : Nat) (ys : List α) : Option (List α) :=
  if w + ys.length ≤ xs.length then splice xs w ys
  else do
    let front ← splice xs w (ys.take (xs.length - w))
    splice front 0 (ys.drop (xs.length - w))

omit [Inhabited α] in
/-- One cell written is a copy of one value. -/
theorem spliceRing_singleton {xs : List α} {w : Nat} (y : α) (hw : w < xs.length) :
    spliceRing xs w [y] = some (xs.set w y) := by
  have hfit : w + [y].length ≤ xs.length := hw
  rw [spliceRing, if_pos hfit, splice, if_pos hfit, List.set_eq_take_append_cons_drop, if_pos hw,
    List.append_assoc]
  rfl

/-- A copy out of a ring is a window of it. -/
theorem sliceRing_eq_window {xs : List α} {r n : Nat} (hr : r < xs.length) (hn : n ≤ xs.length) :
    sliceRing xs r n = some (window xs r n) := by
  unfold sliceRing
  split
  · rename_i hfit
    rw [slice, if_pos hfit, window_eq_take_drop xs hfit]
  · have hend : (xs.drop r).take (xs.length - r) = xs.drop r := by
      rw [List.take_of_length_le]
      rw [List.length_drop]
    have hfirst : slice xs r (xs.length - r) = some (xs.drop r) := by
      rw [slice, if_pos (by omega), hend]
    have hrest : slice xs 0 (n - (xs.length - r)) = some (xs.take (n - (xs.length - r))) := by
      rw [slice, if_pos (by omega), List.drop_zero]
    rw [hfirst, hrest, window_eq_drop_append_take xs hr (by omega) hn]
    rfl

/-- What is in a cell after a copy into a ring. -/
theorem getD_spliceRing {xs ys : List α} {w : Nat} (hw : w < xs.length)
    (hn : ys.length ≤ xs.length) :
    ∃ xs', spliceRing xs w ys = some xs' ∧ xs'.length = xs.length ∧
      ∀ i < xs.length, xs'.getD ((w + i) % xs.length) default
        = if i < ys.length then ys.getD i default
          else xs.getD ((w + i) % xs.length) default := by
  unfold spliceRing
  split
  · rename_i hfit
    have hsplice : splice xs w ys = some (xs.take w ++ ys ++ xs.drop (w + ys.length)) := if_pos hfit
    refine ⟨_, hsplice, length_splice hsplice, ?_⟩
    intro i hi
    rw [getD_splice hsplice]
    rcases lt_or_ge (w + i) xs.length with hlt | hge
    · rw [Nat.mod_eq_of_lt hlt, Nat.add_sub_cancel_left]
      congr 1
      apply propext
      omega
    · -- behind the wrap no cell is written
      have hmod : (w + i) % xs.length = w + i - xs.length := by
        rw [Nat.mod_eq_sub_mod hge, Nat.mod_eq_of_lt (by omega)]
      rw [hmod, if_neg (by omega), if_neg (by omega)]
  · rename_i hfit
    -- two pieces, up to the end and from the start
    have htake : (ys.take (xs.length - w)).length = xs.length - w := by simp; omega
    have hfirst : splice xs w (ys.take (xs.length - w))
        = some (xs.take w ++ ys.take (xs.length - w)
          ++ xs.drop (w + (ys.take (xs.length - w)).length)) := if_pos (by omega)
    have hlength := length_splice hfirst
    generalize xs.take w ++ ys.take (xs.length - w)
      ++ xs.drop (w + (ys.take (xs.length - w)).length) = mid at hfirst hlength
    have hdrop : (ys.drop (xs.length - w)).length = ys.length - (xs.length - w) :=
      List.length_drop
    have hsecond : splice mid 0 (ys.drop (xs.length - w))
        = some (mid.take 0 ++ ys.drop (xs.length - w)
          ++ mid.drop (0 + (ys.drop (xs.length - w)).length)) := if_pos (by omega)
    refine ⟨_, by rw [hfirst, Option.bind_eq_bind, Option.bind_some, hsecond],
      (length_splice hsecond).trans hlength, ?_⟩
    intro i hi
    rw [getD_splice hsecond, getD_splice hfirst, hdrop, htake]
    rcases lt_or_ge (w + i) xs.length with hlt | hge
    · -- the first piece
      rw [Nat.mod_eq_of_lt hlt, if_neg (by omega), if_pos (by omega), if_pos (by omega),
        Nat.add_sub_cancel_left]
      simp only [List.getD_eq_getElem?_getD]
      rw [List.getElem?_take_of_lt (by omega)]
    · have hmod : (w + i) % xs.length = w + i - xs.length := by
        rw [Nat.mod_eq_sub_mod hge, Nat.mod_eq_of_lt (by omega)]
      rw [hmod]
      by_cases hin : i < ys.length
      · -- the second piece
        rw [if_pos (by omega), if_pos hin]
        simp only [List.getD_eq_getElem?_getD]
        rw [List.getElem?_drop]
        congr 2
        omega
      · rw [if_neg (by omega), if_neg (by omega), if_neg hin]

/-- **A copy into a ring** puts `ys` before what the cells held behind them. -/
theorem window_spliceRing {xs ys : List α} {w : Nat} (hw : w < xs.length)
    (hn : ys.length ≤ xs.length) :
    ∃ xs', spliceRing xs w ys = some xs' ∧ xs'.length = xs.length ∧
      window xs' w xs.length = ys ++ (window xs w xs.length).drop ys.length := by
  -- cell by cell, counted from the write position
  obtain ⟨xs', hxs', hlength, hcells⟩ := getD_spliceRing hw hn
  refine ⟨xs', hxs', hlength, ?_⟩
  apply List.ext_getElem
  · simp
    omega
  intro i hi _
  rw [window_length] at hi
  have hcell := hcells i hi
  simp only [window, hlength, List.getElem_map, List.getElem_range, hcell]
  split
  · rename_i hin
    rw [List.getElem_append_left hin]
    simp [List.getD, hin]
  · rename_i hout
    rw [List.getElem_append_right (by omega)]
    simp only [List.getElem_drop, List.getElem_map, List.getElem_range]
    congr 2
    omega

/-- The whole ring, read from a later position, is rotated. -/
theorem window_rotate (xs : List α) (r n : Nat) (hn : n ≤ xs.length) :
    window xs (r + n) xs.length
      = (window xs r xs.length).drop n ++ (window xs r xs.length).take n := by
  have hsplit : window xs r xs.length
      = window xs r n ++ window xs (r + n) (xs.length - n) := by
    rw [← window_add]
    congr 1
    omega
  have hnext : window xs (r + n) xs.length
      = window xs (r + n) (xs.length - n) ++ window xs (r + xs.length) n := by
    have : r + xs.length = r + n + (xs.length - n) := by omega
    rw [this, ← window_add]
    congr 1
    omega
  -- once round the ring
  have hround : window xs (r + xs.length) n = window xs r n := by
    rw [← window_mod, Nat.add_mod_right, window_mod]
  have hlength : (window xs r n).length = n := window_length xs r n
  rw [hnext, hround, hsplit]
  rw [List.drop_left' hlength, List.take_left' hlength]

/-- A ring cut in two, read from either of the two places. -/
theorem window_eq_append_comm {xs as bs : List α} (r : Nat)
    (hlength : xs.length = as.length + bs.length) :
    window xs (r + as.length) xs.length = bs ++ as ↔ window xs r xs.length = as ++ bs := by
  have hrotate := window_rotate xs r as.length (by omega)
  have hw : (window xs r xs.length).length = xs.length := window_length xs r xs.length
  refine ⟨?_, ?_⟩
  · intro h
    have hdrop : ((window xs r xs.length).drop as.length).length = bs.length := by
      rw [List.length_drop, hw]
      omega
    obtain ⟨hbs, has⟩ := List.append_inj (hrotate.symm.trans h) hdrop
    rw [← List.take_append_drop as.length (window xs r xs.length), hbs, has]
  · intro h
    rw [hrotate, h, List.drop_left, List.take_left]

/-- The whole ring starts with the cell it is read from. -/
theorem headD_window (xs : List α) {r : Nat} (hr : r < xs.length) :
    (window xs r xs.length).headD default = xs.getD r default := by
  obtain ⟨n, hn⟩ : ∃ n, xs.length = n + 1 := ⟨xs.length - 1, by omega⟩
  have hmod : r % xs.length = r := Nat.mod_eq_of_lt hr
  rw [hn, window_succ_left]
  show xs.getD (r % xs.length) default = xs.getD r default
  rw [hmod]

end Copies

/-! ## Rings -/

/-- A circular array with its read position, write position and item count. -/
structure RingBuf (α : Type*) where
  slots : List α
  read : Nat
  write : Nat
  count : Nat

namespace RingBuf

/-- The stored items, oldest first. -/
def toList [Inhabited α] (q : RingBuf α) : List α := window q.slots q.read q.count

/-- Store a value at the write position and advance it. -/
def push (q : RingBuf α) (v : α) : RingBuf α :=
  { slots := q.slots.set q.write v
    read := q.read
    write := (q.write + 1) % q.slots.length
    count := q.count + 1 }

/-- Advance the read position. -/
def pop (q : RingBuf α) : RingBuf α :=
  { q with read := (q.read + 1) % q.slots.length, count := q.count - 1 }

/-- The oldest item. -/
def front [Inhabited α] (q : RingBuf α) : α := q.slots.getD q.read default

/-- The three counters fit the array and each other. -/
structure Wf (q : RingBuf α) : Prop where
  pos : 0 < q.slots.length
  read_lt : q.read < q.slots.length
  count_le : q.count ≤ q.slots.length
  write_eq : q.write = (q.read + q.count) % q.slots.length

theorem Wf.write_lt {q : RingBuf α} (h : q.Wf) : q.write < q.slots.length := by
  rw [h.write_eq]
  exact Nat.mod_lt _ h.pos

@[simp] theorem length_toList [Inhabited α] (q : RingBuf α) : q.toList.length = q.count := by
  simp [toList]

theorem wf_push {q : RingBuf α} (h : q.Wf) (hroom : q.count < q.slots.length) (v : α) :
    (q.push v).Wf where
  pos := by simpa [push] using h.pos
  read_lt := by simpa [push] using h.read_lt
  count_le := by simp only [push, List.length_set]; omega
  write_eq := by
    simp only [push, List.length_set, h.write_eq, Nat.mod_add_mod]
    rw [Nat.add_assoc]

theorem toList_push [Inhabited α] {q : RingBuf α} (h : q.Wf)
    (hroom : q.count < q.slots.length) (v : α) :
    (q.push v).toList = q.toList ++ [v] := by
  simp only [toList, push, h.write_eq]
  exact window_set_push q.slots v hroom

/-- A pop from a buffer that is not empty. -/
theorem wf_pop {q : RingBuf α} (h : q.Wf) (hne : 0 < q.count) : (q.pop).Wf where
  pos := h.pos
  read_lt := Nat.mod_lt _ h.pos
  count_le := by
    have := h.count_le
    simp only [pop]
    omega
  write_eq := by
    simp only [pop, h.write_eq, Nat.mod_add_mod]
    rw [show q.read + 1 + (q.count - 1) = q.read + q.count by omega]

/-- The front of a nonempty ring heads its list, and popping leaves the tail. -/
theorem toList_eq_cons [Inhabited α] {q : RingBuf α} (h : q.Wf) (hne : 0 < q.count) :
    q.toList = q.front :: q.pop.toList := by
  obtain ⟨n, hn⟩ : ∃ n, q.count = n + 1 := ⟨q.count - 1, by omega⟩
  rw [toList, hn, window_succ_left, Nat.mod_eq_of_lt h.read_lt]
  simp only [toList, pop, front, hn, Nat.add_sub_cancel]
  rw [window_mod]

theorem toList_pop [Inhabited α] {q : RingBuf α} (h : q.Wf) (hne : 0 < q.count) :
    q.pop.toList = q.toList.tail := by
  rw [toList_eq_cons h hne, List.tail_cons]

end RingBuf

end Lib
