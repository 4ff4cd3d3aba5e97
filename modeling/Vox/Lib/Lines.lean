import Mathlib.Data.List.Basic

/-!
# Separator-terminated lines

A text over any alphabet is read as a sequence of items each ended by a
separator. `terminated sep xs` are the complete items, `pending sep xs` is what
follows the last separator. A reader that consumes one symbol at a time only
needs the two `concat` lemmas: a separator closes the pending item, any other
symbol extends it. A reader that gets the whole text needs the two `intercalate`
lemmas.
-/

namespace Lib

variable {α : Type*} [DecidableEq α]

/-- The items of `xs` that a separator ends. -/
def terminated (sep : α) (xs : List α) : List (List α) := (xs.splitOn sep).dropLast

/-- The symbols of `xs` after its last separator. -/
def pending (sep : α) (xs : List α) : List α :=
  (xs.splitOn sep).getLast (List.splitOn_ne_nil sep xs)

/-- The pieces, and what comes after the last separator. -/
theorem splitOn_eq_terminated_pending (sep : α) (xs : List α) :
    xs.splitOn sep = terminated sep xs ++ [pending sep xs] :=
  (List.dropLast_concat_getLast _).symm

@[simp] theorem terminated_nil (sep : α) : terminated sep [] = [] := by
  simp [terminated]

@[simp] theorem pending_nil (sep : α) : pending sep [] = [] := by
  simp [pending]

omit [DecidableEq α] in
/-- A text splits at its last separator, if it has one. -/
theorem exists_last_separator {sep : α} {xs : List α} (h : sep ∈ xs) :
    ∃ ys zs, xs = ys ++ sep :: zs ∧ sep ∉ zs := by
  obtain ⟨as, bs, hrev, hnot⟩ := List.eq_append_cons_of_mem (List.mem_reverse.mpr h)
  refine ⟨bs.reverse, as.reverse, ?_, by simpa using hnot⟩
  rw [← List.reverse_reverse xs, hrev]
  simp

/-- Splitting after one more symbol that is not a separator extends the last item. -/
theorem splitOn_concat_ne {sep c : α} (hc : c ≠ sep) (xs : List α) :
    (xs ++ [c]).splitOn sep = terminated sep xs ++ [pending sep xs ++ [c]] := by
  by_cases hmem : sep ∈ xs
  · obtain ⟨ys, zs, rfl, hz⟩ := exists_last_separator hmem
    have hzc : sep ∉ zs ++ [c] := by simp [hz, Ne.symm hc]
    rw [List.append_assoc, List.cons_append, List.splitOn_append_cons_self,
      List.splitOn_eq_singleton hzc]
    simp [terminated, pending, List.splitOn_append_cons_self, List.splitOn_eq_singleton hz]
  · have hxc : sep ∉ xs ++ [c] := by simp [hmem, Ne.symm hc]
    simp [terminated, pending, List.splitOn_eq_singleton hxc, List.splitOn_eq_singleton hmem]

/-- A separator at the end adds an empty piece. -/
theorem splitOn_concat_sep (sep : α) (xs : List α) :
    (xs ++ [sep]).splitOn sep = terminated sep xs ++ [pending sep xs, []] := by
  rw [List.splitOn_append_cons_self, splitOn_eq_terminated_pending]
  simp

theorem terminated_concat_sep (sep : α) (xs : List α) :
    terminated sep (xs ++ [sep]) = terminated sep xs ++ [pending sep xs] := by
  rw [terminated, splitOn_concat_sep]
  simp

/-- Behind a separator nothing is pending. -/
theorem pending_concat_sep (sep : α) (xs : List α) : pending sep (xs ++ [sep]) = [] := by
  simp [pending, splitOn_concat_sep]

theorem terminated_concat_ne {sep c : α} (h : c ≠ sep) (xs : List α) :
    terminated sep (xs ++ [c]) = terminated sep xs := by
  rw [terminated, splitOn_concat_ne h]
  simp

theorem pending_concat_ne {sep c : α} (h : c ≠ sep) (xs : List α) :
    pending sep (xs ++ [c]) = pending sep xs ++ [c] := by
  simp [pending, splitOn_concat_ne h]

/-- A text of items with separators between them. No separator ends the last one. -/
theorem terminated_intercalate {sep : α} {items : List (List α)} {rest : List α}
    (hitems : ∀ item ∈ items ++ [rest], sep ∉ item) :
    terminated sep ([sep].intercalate (items ++ [rest])) = items := by
  rw [terminated, List.splitOn_intercalate sep hitems (List.concat_ne_nil _ _),
    List.dropLast_concat]

/-- What is pending is behind the last separator. -/
theorem pending_intercalate {sep : α} {items : List (List α)} {rest : List α}
    (hitems : ∀ item ∈ items ++ [rest], sep ∉ item) :
    pending sep ([sep].intercalate (items ++ [rest])) = rest := by
  simp [pending, List.splitOn_intercalate sep hitems (List.concat_ne_nil _ _)]

omit [DecidableEq α] in
/-- A piece is no longer than the whole. -/
theorem length_le_of_mem_intercalate (sep : List α) {p : List α} {items : List (List α)}
    (h : p ∈ items) :
    p.length ≤ (sep.intercalate items).length := by
  induction items with
  | nil => exact absurd h List.not_mem_nil
  | cons item rest ih =>
    cases rest with
    | nil =>
      rw [List.mem_singleton.mp h]
      simp [List.intercalate]
    | cons next rest =>
      rw [List.intercalate_cons_cons, List.length_append, List.length_append]
      rcases List.mem_cons.mp h with rfl | hrest
      · omega
      · have := ih hrest
        omega

/-- A piece of a text is no longer than the text. -/
theorem length_le_of_mem_terminated {sep : α} {xs p : List α} (h : p ∈ terminated sep xs) :
    p.length ≤ xs.length := by
  have hmem := length_le_of_mem_intercalate [sep] (List.dropLast_subset _ h)
  rwa [List.intercalate_splitOn] at hmem

end Lib
