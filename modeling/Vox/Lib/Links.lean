import Mathlib.Data.List.Nodup

/-!
# Doubly linked lists

Objects that know the one before and the one after: two attributes of each, which a loop
over a list sets. The list has to name every object once; then the attributes lead along
it in both directions, and nowhere at its ends (`along_tieAll`).

A tree whose nodes know their parents names every node once (`nodup_flatMap_of_parent`).
-/

namespace Lib

/-- The attributes that link the objects of one kind. -/
structure Links (α : Type*) where
  previous : α → Option α
  next : α → Option α

namespace Links

variable {α : Type*} [DecidableEq α]

/-- Nothing is linked. -/
def blank : Links α := ⟨fun _ => none, fun _ => none⟩

/-- `b` follows `a`. -/
def tie (links : Links α) (a b : α) : Links α where
  previous := Function.update links.previous b (some a)
  next := Function.update links.next a (some b)

/-- The object at an index of a list, and the one after it. -/
def tieAt (l : List α) (links : Links α) (i : Nat) : Links α :=
  match l[i]?, l[i + 1]? with
  | some a, some b => links.tie a b
  | _, _ => links

/-- The objects at the first `n` indices, each with the one after it. -/
def tieFirst (l : List α) (n : Nat) (links : Links α) : Links α :=
  (List.range n).foldl (tieAt l) links

/-- What stands before an index. -/
def before (l : List α) : Nat → Option α
  | 0 => none
  | i + 1 => l[i]?

/-- The links lead along a list, and not out of it. -/
structure Along (links : Links α) (l : List α) : Prop where
  next_eq : ∀ i x, l[i]? = some x → links.next x = l[i + 1]?
  previous_eq : ∀ i x, l[i]? = some x → links.previous x = before l i
  next_off : ∀ x, x ∉ l → links.next x = none
  previous_off : ∀ x, x ∉ l → links.previous x = none

theorem tieFirst_succ (l : List α) (n : Nat) (links : Links α) :
    tieFirst l (n + 1) links = tieAt l (tieFirst l n links) n := by
  rw [tieFirst, List.range_succ, List.foldl_append]
  rfl

omit [DecidableEq α] in
/-- An object stands at one index. -/
theorem index_unique {l : List α} (hl : l.Nodup) {i j : Nat} {x : α} (hi : l[i]? = some x)
    (hj : l[j]? = some x) : i = j := by
  obtain ⟨hlt, -⟩ := List.getElem?_eq_some_iff.mp hi
  exact (List.getElem?_inj hlt hl).mp (hi.trans hj.symm)

section Step

variable {l : List α} (hl : l.Nodup) (links : Links α) {i n : Nat} {x : α}

include hl

/-- Tying sets `next` of one element. -/
theorem next_tieAt (hi : l[i]? = some x) :
    (tieAt l links n).next x = if i = n ∧ l[n + 1]? ≠ none then l[n + 1]? else links.next x := by
  unfold tieAt
  split
  next a b ha hb =>
    by_cases hin : i = n
    · subst hin
      obtain rfl : a = x := Option.some.inj (ha.symm.trans hi)
      simp [tie, hb]
    · -- another index, another object
      have hxa : x ≠ a := fun h => hin (index_unique hl hi (h ▸ ha))
      simp [tie, hin, hxa]
  next hnone =>
    -- the last object is tied to nothing
    rw [if_neg]
    rintro ⟨rfl, hsome⟩
    obtain ⟨b, hb⟩ := Option.ne_none_iff_exists'.mp hsome
    exact hnone x b hi hb

/-- And `previous` of the one behind it. -/
theorem previous_tieAt (hi : l[i]? = some x) :
    (tieAt l links n).previous x = if i = n + 1 then l[n]? else links.previous x := by
  unfold tieAt
  split
  next a b ha hb =>
    by_cases hin : i = n + 1
    · subst hin
      obtain rfl : b = x := Option.some.inj (hb.symm.trans hi)
      simp [tie, ha]
    · have hxb : x ≠ b := fun h => hin (index_unique hl hi (h ▸ hb))
      simp [tie, hin, hxb]
  next hnone =>
    rw [if_neg]
    rintro rfl
    obtain ⟨hlt, -⟩ := List.getElem?_eq_some_iff.mp hi
    exact hnone _ x (List.getElem?_eq_getElem (Nat.lt_of_succ_lt hlt)) hi

omit hl in
theorem tieAt_off (hx : x ∉ l) :
    (tieAt l links n).next x = links.next x ∧
      (tieAt l links n).previous x = links.previous x := by
  unfold tieAt
  split
  next a b ha hb =>
    have hxa : x ≠ a := fun h => hx (h ▸ List.mem_of_getElem? ha)
    have hxb : x ≠ b := fun h => hx (h ▸ List.mem_of_getElem? hb)
    simp [tie, hxa, hxb]
  next => exact ⟨rfl, rfl⟩

end Step

variable {l : List α}

/-- The first elements know who follows. -/
theorem next_tieFirst (hl : l.Nodup) {i : Nat} {x : α} (hi : l[i]? = some x) (n : Nat) :
    (tieFirst l n blank).next x = if i < n then l[i + 1]? else none := by
  induction n with
  | zero => rfl
  | succ n ih =>
    rw [tieFirst_succ, next_tieAt hl _ hi, ih]
    -- turn `n` sets the attribute of object `n`, and of no other
    rcases Nat.lt_trichotomy i n with hlt | rfl | hgt
    · rw [if_neg (fun h => Nat.ne_of_lt hlt h.1), if_pos hlt, if_pos (Nat.lt_succ_of_lt hlt)]
    · rw [if_neg (Nat.lt_irrefl i), if_pos (Nat.lt_succ_self i)]
      split
      · rfl
      · next h => exact (not_ne_iff.mp fun hne => h ⟨rfl, hne⟩).symm
    · rw [if_neg (fun h => Nat.ne_of_gt hgt h.1), if_neg (Nat.not_lt_of_gt hgt), if_neg (by omega)]

theorem previous_tieFirst (hl : l.Nodup) {i : Nat} {x : α} (hi : l[i]? = some x) (n : Nat) :
    (tieFirst l n blank).previous x = if i ≤ n then before l i else none := by
  induction n with
  | zero =>
    cases i with
    | zero => rfl
    | succ i => rfl
  | succ n ih =>
    rw [tieFirst_succ, previous_tieAt hl _ hi, ih]
    -- turn `n` sets that of object `n + 1`
    rcases Nat.lt_trichotomy i (n + 1) with hlt | rfl | hgt
    · rw [if_neg (Nat.ne_of_lt hlt), if_pos (Nat.lt_succ_iff.mp hlt), if_pos (Nat.le_of_lt hlt)]
    · rw [if_pos rfl, if_pos (Nat.le_refl _)]
      rfl
    · rw [if_neg (Nat.ne_of_gt hgt), if_neg (by omega), if_neg (Nat.not_le_of_gt hgt)]

theorem tieFirst_off {x : α} (hx : x ∉ l) (n : Nat) :
    (tieFirst l n blank).next x = none ∧ (tieFirst l n blank).previous x = none := by
  induction n with
  | zero => exact ⟨rfl, rfl⟩
  | succ n ih =>
    rw [tieFirst_succ]
    obtain ⟨hnext, hprevious⟩ := tieAt_off (tieFirst l n blank) (n := n) hx
    exact ⟨hnext.trans ih.1, hprevious.trans ih.2⟩

/-- **The loop links the list**: each object to the one after it, up to the last but one. -/
theorem along_tieAll (hl : l.Nodup) : (tieFirst l (l.length - 1) blank).Along l where
  next_eq i x hi := by
    rw [next_tieFirst hl hi]
    split
    · rfl
    · rw [List.getElem?_eq_none (by omega)]
  previous_eq i x hi := by
    obtain ⟨hlt, -⟩ := List.getElem?_eq_some_iff.mp hi
    rw [previous_tieFirst hl hi, if_pos (by omega)]
  next_off x hx := (tieFirst_off hx _).1
  previous_off x hx := (tieFirst_off hx _).2

/-- What stands at a place of a list; beyond its ends, a sentinel. -/
def atOr (s : α) (l : List α) (k : Int) : α := if k < 0 then s else l.getD k.toNat s

omit [DecidableEq α] in
theorem atOr_map {β : Type*} (f : α → β) (s : α) (l : List α) (k : Int) :
    f (atOr s l k) = atOr (f s) (l.map f) k := by
  rw [atOr, atOr, apply_ite f, List.getD_eq_getElem?_getD, List.getD_eq_getElem?_getD,
    List.getElem?_map]
  cases l[k.toNat]? <;> rfl

omit [DecidableEq α] in
theorem atOr_ofNat {i : Nat} {x : α} (hi : l[i]? = some x) (s : α) : atOr s l i = x := by
  rw [atOr, if_neg (by omega), Int.toNat_natCast, List.getD_eq_getElem?_getD, hi, Option.getD_some]

section Walk

variable {links : Links α} {s : α} {k : Int} (h : links.Along l) (hs : s ∉ l)

include h hs

omit [DecidableEq α] in
/-- A step forward, also out of the list and beyond it. -/
theorem Along.getD_next (hk : 0 ≤ k) : (links.next (atOr s l k)).getD s = atOr s l (k + 1) := by
  obtain ⟨i, rfl⟩ := Int.eq_ofNat_of_zero_le hk
  rw [atOr, atOr, if_neg (by omega), if_neg (by omega), List.getD_eq_getElem?_getD,
    List.getD_eq_getElem?_getD, Int.toNat_natCast, Int.toNat_natCast_add_one]
  cases hi : l[i]? with
  | none =>
    -- after the sentinel there is only the sentinel
    rw [Option.getD_none, h.next_off s hs,
      List.getElem?_eq_none (Nat.le_succ_of_le (List.getElem?_eq_none_iff.mp hi))]
  | some x => rw [Option.getD_some, h.next_eq i x hi]

omit [DecidableEq α] in
/-- A step back. -/
theorem Along.getD_previous (hk : k < l.length) :
    (links.previous (atOr s l k)).getD s = atOr s l (k - 1) := by
  by_cases hneg : k < 0
  · rw [atOr, atOr, if_pos hneg, if_pos (by omega), h.previous_off s hs, Option.getD_none]
  · obtain ⟨i, rfl⟩ := Int.eq_ofNat_of_zero_le (Int.not_lt.mp hneg)
    have hi : l[i]? = some l[i] := List.getElem?_eq_getElem (Int.ofNat_lt.mp hk)
    rw [atOr_ofNat hi, h.previous_eq i _ hi, atOr]
    cases i with
    | zero => rfl
    | succ i =>
      have hplace : ((i + 1 : Nat) - 1 : Int).toNat = i := by omega
      rw [if_neg (by omega), List.getD_eq_getElem?_getD, hplace, before]

end Walk

end Links

/-! ## Trees whose nodes know their parents -/

/-- Nodes that carry their index are distinct. -/
theorem nodup_mapIdx {α β : Type*} {node : Nat → α → β} (index : β → Nat)
    (hindex : ∀ i a, index (node i a) = i) (l : List α) : (l.mapIdx node).Nodup := by
  refine List.Nodup.of_map index ?_
  have hmap : (l.mapIdx node).map index = l.zipIdx.map Prod.snd := by
    rw [List.mapIdx_eq_zipIdx_map, List.map_map]
    exact List.map_congr_left fun x _ => hindex x.2 x.1
  rw [hmap, List.zipIdx_map_snd]
  exact List.nodup_range'

/-- Nodes that were made with one parent have it. -/
theorem parent_mapIdx {α β γ : Type*} {node : Nat → α → β} {l : List α} {x : β}
    (hx : x ∈ l.mapIdx node) (parent : β → γ) {p : γ} (hparent : ∀ i a, parent (node i a) = p) :
    parent x = p := by
  rw [List.mapIdx_eq_zipIdx_map] at hx
  obtain ⟨y, -, rfl⟩ := List.mem_map.mp hx
  exact hparent y.2 y.1

/-- A node stands at its index. -/
theorem getElem?_index {α β : Type*} {node : Nat → α → β} {l : List α} {x : β}
    (hx : x ∈ l.mapIdx node) (index : β → Nat) (hindex : ∀ i a, index (node i a) = i) :
    (l.mapIdx node)[index x]? = some x := by
  obtain ⟨i, hlt, rfl⟩ := List.mem_mapIdx.mp hx
  rw [hindex, List.getElem?_mapIdx, List.getElem?_eq_getElem hlt]
  rfl

/-- What the nodes are made of. -/
theorem map_mapIdx_eq {α β : Type*} {node : Nat → α → β} {arg : β → α}
    (harg : ∀ i a, arg (node i a) = a) (l : List α) : (l.mapIdx node).map arg = l := by
  have hmap : (l.mapIdx node).map arg = l.zipIdx.map Prod.fst := by
    rw [List.mapIdx_eq_zipIdx_map, List.map_map]
    exact List.map_congr_left fun x _ => harg x.2 x.1
  rw [hmap, List.zipIdx_map_fst]

/-- Each node is under one parent. -/
theorem nodup_flatMap_of_parent {α β : Type*} {l : List α} {children : α → List β}
    (parent : β → Option α) (hl : l.Nodup) (hchildren : ∀ x, (children x).Nodup)
    (hparent : ∀ x, ∀ y ∈ children x, parent y = some x) : (l.flatMap children).Nodup := by
  rw [List.nodup_flatMap]
  refine ⟨fun x _ => hchildren x, hl.imp ?_⟩
  intro x x' hne y hy hy'
  exact hne (Option.some.inj ((hparent x y hy).symm.trans (hparent x' y hy')))

/-- The children of one node follow each other among those of all. -/
theorem exists_offset {α β : Type*} {l : List α} {x : α} (hx : x ∈ l) (children : α → List β) :
    ∃ offset : Nat, ∀ k y, (children x)[k]? = some y →
      (l.flatMap children)[offset + k]? = some y := by
  obtain ⟨before, after, rfl⟩ := List.append_of_mem hx
  refine ⟨(before.flatMap children).length, fun k y hy => ?_⟩
  have hlt : k < (children x).length := (List.getElem?_eq_some_iff.mp hy).1
  rw [List.flatMap_append, List.flatMap_cons, List.getElem?_append_right (Nat.le_add_right _ _),
    Nat.add_sub_cancel_left, List.getElem?_append_left hlt]
  exact hy

/-- Children of one node are in the order that they have among all. -/
theorem le_of_flatMap {α β : Type*} {l : List α} {children : α → List β} {x : α} (hx : x ∈ l)
    (hnodup : (l.flatMap children).Nodup) {k k' j j' : Nat} {y y' : β}
    (hk : (children x)[k]? = some y) (hk' : (children x)[k']? = some y')
    (hj : (l.flatMap children)[j]? = some y) (hj' : (l.flatMap children)[j']? = some y')
    (hle : j ≤ j') : k ≤ k' := by
  obtain ⟨offset, hoffset⟩ := exists_offset hx children
  have hjk : j = offset + k := Links.index_unique hnodup hj (hoffset k y hk)
  have hjk' : j' = offset + k' := Links.index_unique hnodup hj' (hoffset k' y' hk')
  omega

end Lib
