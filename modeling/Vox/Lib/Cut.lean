import Mathlib.Data.List.Basic

/-!
# Lists that are cut behind some of their elements

Of a list some elements are marked. `cutAfter` cuts it behind each of them: every piece ends
with the one mark that it has, and the last piece, which may be empty, has none
(`exists_pieces`). A program that collects the places of the marks, and takes the segments from
one place to the next, gets these pieces (`segments_markPlaces`).
-/

namespace Lib

variable {α : Type*}

/-- The elements from place `a` on, up to place `b`. -/
def segment (l : List α) (a b : Nat) : List α := (l.take b).drop a

/-- The segments from each place to the next one. -/
def segments (l : List α) (places : List Nat) : List (List α) :=
  (List.range (places.length - 1)).map fun i => segment l (places.getD i 0) (places.getD (i + 1) 0)

theorem segments_singleton (l : List α) (a : Nat) : segments l [a] = [] := rfl

theorem segments_cons_cons (l : List α) (a b : Nat) (places : List Nat) :
    segments l (a :: b :: places) = segment l a b :: segments l (b :: places) := by
  rw [segments, segments, List.length_cons, List.length_cons, Nat.add_sub_cancel,
    Nat.add_sub_cancel, List.range_succ_eq_map, List.map_cons, List.map_map]
  rfl

section Marks

variable (p : α → Bool)

/-- The places of the marks, where the first element is at place `k`. -/
def markPlaces : Nat → List α → List Nat
  | _, [] => []
  | k, x :: xs => if p x then k :: markPlaces (k + 1) xs else markPlaces (k + 1) xs

/-- The pieces of a list that is cut behind its marks. -/
def cutAfter : List α → List (List α)
  | [] => [[]]
  | x :: xs => if p x then [x] :: cutAfter xs else (cutAfter xs).modifyHead (x :: ·)

theorem cutAfter_of_mark {x : α} (hx : p x = true) (xs : List α) :
    cutAfter p (x :: xs) = [x] :: cutAfter p xs := if_pos hx

theorem cutAfter_of_no_mark {x : α} (hx : p x = false) (xs : List α) :
    cutAfter p (x :: xs) = (cutAfter p xs).modifyHead (x :: ·) := by
  rw [cutAfter, hx]
  rfl

/-- A piece up to its mark. -/
structure Piece where
  before : List α
  mark : α
  before_unmarked : ∀ x ∈ before, p x = false
  mark_marked : p mark = true

/-- The elements of a piece. -/
def Piece.toList {p : α → Bool} (piece : Piece p) : List α := piece.before ++ [piece.mark]

/-- One more element before the mark. -/
def Piece.extend {p : α → Bool} (piece : Piece p) {x : α} (hx : p x = false) : Piece p where
  before := x :: piece.before
  mark := piece.mark
  before_unmarked y hy := by
    rcases List.mem_cons.mp hy with rfl | hy
    · exact hx
    · exact piece.before_unmarked y hy
  mark_marked := piece.mark_marked

/-- **What the pieces are**: each up to its mark, and what is behind the last one. -/
theorem exists_pieces (xs : List α) :
    ∃ (pieces : List (Piece p)) (rest : List α),
      cutAfter p xs = pieces.map Piece.toList ++ [rest] ∧ ∀ x ∈ rest, p x = false := by
  induction xs with
  | nil => exact ⟨[], [], rfl, fun x hx => absurd hx List.not_mem_nil⟩
  | cons x xs ih =>
    obtain ⟨pieces, rest, hcut, hrest⟩ := ih
    cases hx : p x with
    | true =>
      refine ⟨⟨[], x, fun y hy => absurd hy List.not_mem_nil, hx⟩ :: pieces, rest, ?_, hrest⟩
      rw [cutAfter_of_mark p hx, hcut]
      rfl
    | false =>
      rw [cutAfter_of_no_mark p hx, hcut]
      -- the element goes to the first piece, or to the rest
      cases pieces with
      | nil =>
        refine ⟨[], x :: rest, rfl, fun y hy => ?_⟩
        rcases List.mem_cons.mp hy with rfl | hy
        · exact hx
        · exact hrest y hy
      | cons piece pieces => exact ⟨piece.extend hx :: pieces, rest, rfl, hrest⟩

theorem cutAfter_ne_nil (xs : List α) : cutAfter p xs ≠ [] := by
  obtain ⟨pieces, rest, hcut, -⟩ := exists_pieces p xs
  rw [hcut]
  exact List.concat_ne_nil rest _

/-- Nothing is lost. -/
theorem flatten_cutAfter (xs : List α) : (cutAfter p xs).flatten = xs := by
  induction xs with
  | nil => rfl
  | cons x xs ih =>
    cases hx : p x with
    | true => rw [cutAfter_of_mark p hx, List.flatten_cons, ih, List.singleton_append]
    | false =>
      obtain ⟨piece, pieces, hcut⟩ := List.exists_cons_of_ne_nil (cutAfter_ne_nil p xs)
      rw [cutAfter_of_no_mark p hx, hcut, List.modifyHead_cons, List.flatten_cons,
        List.cons_append, ← List.flatten_cons, ← hcut, ih]

/-- **The segments between the places are the pieces**, where the first one has begun before. -/
theorem segments_markPlaces (pre xs : List α) {a : Nat} (ha : a ≤ pre.length) :
    segments (pre ++ xs) (a :: ((markPlaces p pre.length xs).map (· + 1) ++ [(pre ++ xs).length]))
      = (cutAfter p xs).modifyHead (pre.drop a ++ ·) := by
  induction xs generalizing pre a with
  | nil =>
    rw [markPlaces, List.map_nil, List.nil_append, List.append_nil, segments_cons_cons,
      segments_singleton, segment, List.take_length, cutAfter, List.modifyHead_cons,
      List.append_nil]
  | cons x xs ih =>
    have hsplit : pre ++ x :: xs = pre ++ [x] ++ xs := by
      rw [List.append_assoc, List.singleton_append]
    have hlength : (pre ++ [x]).length = pre.length + 1 := by
      rw [List.length_append, List.length_singleton]
    rw [hsplit, markPlaces, ← hlength]
    cases hx : p x with
    | true =>
      -- the piece ends here, and the next one begins behind it
      have hsegment : segment (pre ++ [x] ++ xs) a (pre ++ [x]).length = pre.drop a ++ [x] := by
        rw [segment, List.take_left, List.drop_append_of_le_length ha]
      rw [if_pos rfl, List.map_cons, List.cons_append, ← hlength, segments_cons_cons, hsegment,
        ih (pre ++ [x]) (Nat.le_refl _), List.drop_length, cutAfter_of_mark p hx,
        List.modifyHead_cons]
      congr 1
      exact congrFun List.modifyHead_id _
    | false =>
      rw [if_neg Bool.false_ne_true, ih (pre ++ [x]) (by omega), cutAfter_of_no_mark p hx,
        List.modifyHead_modifyHead, List.drop_append_of_le_length ha]
      congr 1
      funext piece
      rw [Function.comp_apply, List.append_assoc, List.singleton_append]

theorem segments_markPlaces_zero (xs : List α) :
    segments xs ([0] ++ (markPlaces p 0 xs).map (· + 1) ++ [xs.length]) = cutAfter p xs :=
  (segments_markPlaces p [] xs (Nat.le_refl 0)).trans (congrFun List.modifyHead_id _)

end Marks

end Lib
