import Vox.Labelizer.Utterance

/-!
# Labelizer — positions, counts and distances in a list

What the functions on lists return for an element that the list holds once, at place `j`:
the places from both ends, how many elements before and after it have a property, and how
far it is to the nearest of these (`since`).
-/

namespace Vox.Labelizer

/-! ## Positions -/

section Positions

variable {α : Type} [DecidableEq α] {l : List α} (hl : l.Nodup) {j : Nat} {element : α}
  (hj : l[j]? = some element)

include hl hj

/-- The index of an element of a list without repetitions. -/
theorem idxOf?_eq : l.idxOf? element = some j := by
  obtain ⟨n, hn⟩ := exists_idxOf (List.mem_of_getElem? hj)
  obtain ⟨hlt, hmem, -⟩ := List.idxOf?_eq_some_iff.mp hn
  have hsame : l[n]? = some element := by rw [List.getElem?_eq_getElem hlt, hmem]
  rw [hn, Lib.Links.index_unique hl hsame hj]

/-- A forward position is the place, counted from 1. -/
theorem forwardPosition_eq : forwardPosition element l = some (j + 1) := by
  rw [forwardPosition, idxOf?_eq hl hj]
  rfl

/-- A backward position counts from the other end. -/
theorem backwardPosition_eq : backwardPosition element l = some (l.length - j) := by
  rw [backwardPosition, idxOf?_eq hl hj]
  rfl

end Positions

/-! ## Counts and distances -/

section Counts

variable {α : Type} [DecidableEq α] {p : α → Bool} {target : α}

/-- How many follow each other from the first one on, before one that has the property. -/
def since (p : α → Bool) (l : List α) : Nat := l.foldr (fun x n => if p x then 0 else n + 1) 0

omit [DecidableEq α] in
/-- From the front: the count starts again at an element with the property. -/
theorem since_cons (x : α) (l : List α) :
    since p (x :: l) = if p x then 0 else since p l + 1 := rfl

omit [DecidableEq α] in
/-- Reading through a function is reading the mapped list. -/
theorem since_map {β : Type} (g : β → α) (l : List β) :
    since p (l.map g) = since (fun x => p (g x)) l := by
  rw [since, since, List.foldr_map]

omit [DecidableEq α] in
/-- Without such an element the count is the length. -/
theorem since_of_none {l : List α} (h : l.any p = false) : since p l = l.length := by
  induction l with
  | nil => rfl
  | cons x l ih =>
    rw [List.any_cons, Bool.or_eq_false_iff] at h
    rw [since_cons, h.1, ih h.2]
    rfl

omit [DecidableEq α] in
/-- A list around one of its places. -/
theorem eq_around {l : List α} {j : Nat} (hj : l[j]? = some target) :
    l = l.take j ++ target :: l.drop (j + 1) := by
  obtain ⟨hlt, rfl⟩ := List.getElem?_eq_some_iff.mp hj
  rw [List.getElem_cons_drop, List.take_append_drop]

omit [DecidableEq α] in
/-- A list around a target that it holds once. -/
theorem split_at {l : List α} (hl : l.Nodup) {j : Nat} (hj : l[j]? = some target) :
    l = l.take j ++ target :: l.drop (j + 1) ∧ target ∉ l.take j ∧ target ∉ l.drop (j + 1) := by
  have heq := eq_around hj
  have hnodup := hl
  rw [heq, List.nodup_middle, List.nodup_cons, List.mem_append, not_or] at hnodup
  exact ⟨heq, hnodup.1⟩

omit [DecidableEq α] in
theorem since_of_forall {l : List α} (h : ∀ (m : Nat) y, l[m]? = some y → p y = false) :
    since p l = l.length := by
  refine since_of_none (List.any_eq_false.mpr fun y hy => ?_)
  obtain ⟨m, hm⟩ := List.mem_iff_getElem?.mp hy
  rw [h m y hm]
  exact Bool.false_ne_true

omit [DecidableEq α] in
/-- How far it is to the first one that has the property. -/
theorem since_of_first {l : List α} {m : Nat} {x : α} (hm : l[m]? = some x) (hx : p x = true)
    (hbefore : ∀ k < m, ∀ y, l[k]? = some y → p y = false) : since p l = m := by
  induction l generalizing m with
  | nil => cases hm
  | cons y l ih =>
    cases m with
    | zero =>
      obtain rfl : y = x := Option.some.inj hm
      rw [since_cons, if_pos hx]
    | succ m =>
      -- the first element is one of those before
      have hy : p y = false := hbefore 0 (Nat.succ_pos m) y rfl
      rw [since_cons, hy, if_neg Bool.false_ne_true,
        ih hm fun k hk => hbefore (k + 1) (Nat.succ_lt_succ hk)]

omit [DecidableEq α] in
/-- What is counted before, after and at a place is counted in the whole. -/
theorem countP_around {l : List α} {j : Nat} (hj : l[j]? = some target) :
    (l.take j).countP p + (l.drop (j + 1)).countP p + (if p target then 1 else 0) = l.countP p := by
  conv_rhs => rw [eq_around hj]
  rw [List.countP_append, List.countP_cons, Nat.add_assoc]

/-- The loop stops at the target, which occurs for the first time there. -/
theorem countFrom_append {pre : List α} (hpre : target ∉ pre) (post : List α) (count : Nat) :
    countFrom target p count (pre ++ target :: post) = some (count + pre.countP p) := by
  induction pre generalizing count with
  | nil => rw [List.nil_append, countFrom, if_pos rfl]; rfl
  | cons x pre ih =>
    rw [List.mem_cons, not_or] at hpre
    rw [List.cons_append, countFrom, if_neg (Ne.symm hpre.1), ih hpre.2, List.countP_cons]
    cases p x with
    | true =>
      simp only [if_true]
      rw [Nat.add_assoc, Nat.add_comm 1]
    | false => simp

/-- This loop stops at the target as well, and starts over at each element before it. -/
theorem distanceFrom_append {pre : List α} (hpre : target ∉ pre) (post : List α) (distance : Nat) :
    distanceFrom target p distance (pre ++ target :: post)
      = some (pre.foldl (fun n x => if p x then 0 else n + 1) distance + 1) := by
  induction pre generalizing distance with
  | nil => rw [List.nil_append, distanceFrom, if_pos rfl]; rfl
  | cons x pre ih =>
    rw [List.mem_cons, not_or] at hpre
    rw [List.cons_append, distanceFrom, if_neg (Ne.symm hpre.1), ih hpre.2, List.foldl_cons]

variable {l : List α} (hl : l.Nodup) {j : Nat} (hj : l[j]? = some target)

include hl hj

/-- What is counted before the element at place `j`. -/
theorem countBefore_eq : countBefore l target p = some ((l.take j).countP p) := by
  obtain ⟨heq, hbefore, -⟩ := split_at hl hj
  conv_lhs => rw [heq, countBefore, countFrom_append hbefore]
  rw [Nat.zero_add]

theorem countAfter_eq : countAfter l target p = some ((l.drop (j + 1)).countP p) := by
  obtain ⟨heq, -, hafter⟩ := split_at hl hj
  -- the same count from the other end
  conv_lhs => rw [heq, countAfter, countBefore, List.reverse_append, List.reverse_cons,
    List.append_assoc, List.singleton_append,
    countFrom_append (fun h => hafter (List.mem_reverse.mp h))]
  rw [Nat.zero_add, List.countP_reverse]

/-- The distance backwards is read from the nearest element on. -/
theorem distanceFromPrevious_eq :
    distanceFromPrevious l target p = some (since p (l.take j).reverse + 1) := by
  obtain ⟨heq, hbefore, -⟩ := split_at hl hj
  conv_lhs => rw [heq, distanceFromPrevious, distanceFrom_append hbefore]
  rw [since, List.foldr_reverse]

/-- The distance forwards is read from the element behind on. -/
theorem distanceToNext_eq :
    distanceToNext l target p = some (since p (l.drop (j + 1)) + 1) := by
  obtain ⟨heq, -, hafter⟩ := split_at hl hj
  conv_lhs => rw [heq, distanceToNext, distanceFromPrevious, List.reverse_append,
    List.reverse_cons, List.append_assoc, List.singleton_append,
    distanceFrom_append (fun h => hafter (List.mem_reverse.mp h))]
  rw [since, List.foldl_reverse]

end Counts

/-! ## Stressed and accented -/

namespace Syllable

/-- The syllables of one stress: 1 if they are stressed, 2 if they are accented. -/
def hasStress (stress : Int) (s : Syllable) : Bool := s.args.stress = stress

theorem isStressed_eq : isStressed = hasStress 1 := by
  funext s
  by_cases h : s.args.stress = 1 <;> simp [isStressed, stressed, hasStress, h]

theorem isAccented_eq : isAccented = hasStress 2 := by
  funext s
  by_cases h : s.args.stress = 2 <;> simp [isAccented, accented, hasStress, h]

/-- The printed digit for a stressed syllable. -/
theorem stressed_eq (s : Syllable) : s.stressed = if s.hasStress 1 then 1 else 0 := by
  rw [stressed, hasStress]
  simp only [decide_eq_true_eq]

/-- The printed digit for an accented syllable. -/
theorem accented_eq (s : Syllable) : s.accented = if s.hasStress 2 then 1 else 0 := by
  rw [accented, hasStress]
  simp only [decide_eq_true_eq]

end Syllable

end Vox.Labelizer
