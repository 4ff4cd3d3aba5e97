import Mathlib.Data.List.DropRight

/-!
# Sliding contexts

Item `k` of a sequence is processed together with up to `back` items before it
and `ahead` items after it. `context back ahead xs k` is that part of the
sequence; item `k` itself stands at place `min k back` of it.

A streaming reader keeps the last items of what it has seen (`List.rtake`). As
soon as `ahead` items have followed, the last `back + ahead + 1` items are the
whole context of an item (`context_newest`), and what comes later does not
change it (`context_append`).
-/

namespace Lib

variable {α : Type*}

/-- Item `k` of `xs` with the items around it. -/
def context (back ahead : Nat) (xs : List α) (k : Nat) : List α :=
  (xs.drop (k - back)).take (min k back + ahead + 1)

/-- A context that is complete stays as it is. -/
theorem context_append {back ahead k : Nat} {xs : List α} (h : k + ahead < xs.length)
    (ys : List α) : context back ahead (xs ++ ys) k = context back ahead xs k := by
  rw [context, List.drop_append_of_le_length (by omega), List.take_append_of_le_length, context]
  rw [List.length_drop]
  omega

/-- The item itself is where the context says. -/
theorem context_getD (back ahead k : Nat) (xs : List α) (d : α) :
    (context back ahead xs k).getD (min k back) d = xs.getD k d := by
  have hplace : k - back + min k back = k := by omega
  rw [context, List.getD_eq_getElem?_getD, List.getElem?_take_of_lt (by omega),
    List.getElem?_drop, hplace, List.getD_eq_getElem?_getD]

/-- The context of the newest item that has one is what a reader has kept. -/
theorem context_newest {back ahead : Nat} {xs : List α} (h : ahead < xs.length) :
    context back ahead xs (xs.length - 1 - ahead)
      = xs.rtake (min xs.length (back + ahead + 1)) := by
  have hstart : xs.length - 1 - ahead - back = xs.length - min xs.length (back + ahead + 1) := by
    omega
  rw [context, hstart, List.rtake, List.take_of_length_le]
  rw [List.length_drop]
  omega

/-- Forgetting the oldest of the kept items. -/
theorem tail_rtake {n : Nat} {xs : List α} (hpos : 0 < n) (hle : n ≤ xs.length) :
    (xs.rtake n).tail = xs.rtake (n - 1) := by
  have hstart : xs.length - n + 1 = xs.length - (n - 1) := by omega
  rw [List.rtake, List.tail_drop, hstart, List.rtake]

/-- Concatenating over the first items is the beginning of concatenating over more. -/
theorem flatMap_range_prefix (f : Nat → List α) {m n : Nat} (h : m ≤ n) :
    (List.range m).flatMap f <+: (List.range n).flatMap f := by
  obtain ⟨d, rfl⟩ := Nat.exists_eq_add_of_le h
  rw [List.range_add, List.flatMap_append]
  exact List.prefix_append _ _

end Lib
