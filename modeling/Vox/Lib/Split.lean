import Mathlib.Data.List.Infix

/-!
# Texts that are split at a separator of several symbols

`split` goes through a text and looks for the separator from each place on. Where it is found
the piece ends, and the next one begins behind the separator (`split_append`). A text that
does not contain the separator is one piece (`split_of_not_infix`).

* `split_pair` — a text before two separators in a row, and items behind them that single
  separators are between.
-/

namespace Lib

variable {α : Type*} [DecidableEq α]

/-- The pieces of a text, where `skip` symbols of the separator are still to pass, and the
piece has begun. -/
def splitFrom (sep : List α) : Nat → List α → List α → List (List α)
  | _, piece, [] => [piece]
  | skip + 1, piece, _ :: text => splitFrom sep skip piece text
  | 0, piece, c :: text =>
    if sep.isPrefixOf (c :: text) then piece :: splitFrom sep (sep.length - 1) [] text
    else splitFrom sep 0 (piece ++ [c]) text

/-- The pieces of a text. The separator is not empty. -/
def split (sep text : List α) : List (List α) := splitFrom sep 0 [] text

theorem splitFrom_skip (sep : List α) (skip : Nat) (piece text : List α) :
    splitFrom sep skip piece text = splitFrom sep 0 piece (text.drop skip) := by
  induction skip generalizing text with
  | zero => rfl
  | succ skip ih =>
    cases text with
    | nil => rfl
    | cons c text => rw [splitFrom, ih, List.drop_succ_cons]

/-- Without a separator there is one piece. -/
theorem splitFrom_of_not_infix {sep text : List α} (h : ¬ sep <:+: text) (piece : List α) :
    splitFrom sep 0 piece text = [piece ++ text] := by
  induction text generalizing piece with
  | nil => rw [splitFrom, List.append_nil]
  | cons c text ih =>
    have hprefix : ¬ sep.isPrefixOf (c :: text) = true := fun hsep =>
      h (List.isPrefixOf_iff_prefix.mp hsep).isInfix
    rw [splitFrom, if_neg hprefix, ih fun hinfix => h (List.infix_cons hinfix),
      List.append_assoc, List.singleton_append]

/-- A piece that does not contain the first symbol of the separator. -/
theorem splitFrom_append {c : α} {text : List α} (hc : c ∉ text) (sep piece rest : List α) :
    splitFrom (c :: sep) 0 piece (text ++ c :: sep ++ rest)
      = (piece ++ text) :: splitFrom (c :: sep) 0 [] rest := by
  induction text generalizing piece with
  | nil =>
    have hprefix : (c :: sep).isPrefixOf (c :: (sep ++ rest)) = true :=
      List.isPrefixOf_iff_prefix.mpr ⟨rest, rfl⟩
    rw [List.nil_append, List.cons_append, splitFrom, if_pos hprefix, splitFrom_skip,
      List.length_cons, Nat.add_sub_cancel, List.drop_left, List.append_nil]
  | cons x text ih =>
    have hprefix : ¬ (c :: sep).isPrefixOf (x :: (text ++ c :: sep ++ rest)) = true := by
      intro hsep
      obtain ⟨heq, -⟩ := List.cons_prefix_cons.mp (List.isPrefixOf_iff_prefix.mp hsep)
      exact hc (heq ▸ List.mem_cons_self)
    rw [List.cons_append, List.cons_append, splitFrom, if_neg hprefix,
      ih fun hmem => hc (List.mem_cons_of_mem _ hmem), List.append_assoc, List.singleton_append]

/-- A piece ends at the first separator. -/
theorem split_append {c : α} {text : List α} (hc : c ∉ text) (sep rest : List α) :
    split (c :: sep) (text ++ c :: sep ++ rest) = text :: split (c :: sep) rest :=
  splitFrom_append hc sep [] rest

/-- A text without a separator is one piece. -/
theorem split_of_not_infix {sep text : List α} (h : ¬ sep <:+: text) : split sep text = [text] :=
  splitFrom_of_not_infix h []

omit [DecidableEq α] in
/-- A separator is not found in a part without its first element. -/
theorem infix_of_infix_append {c : α} {sep text rest : List α} (hc : c ∉ text)
    (h : c :: sep <:+: text ++ rest) : c :: sep <:+: rest := by
  induction text with
  | nil => exact h
  | cons x text ih =>
    rcases List.infix_cons_iff.mp h with hprefix | hinfix
    · obtain ⟨heq, -⟩ := List.cons_prefix_cons.mp hprefix
      exact absurd (heq ▸ List.mem_cons_self) hc
    · exact ih (fun hmem => hc (List.mem_cons_of_mem _ hmem)) hinfix

omit [DecidableEq α] in
/-- No separator comes first, if an item before another one is not empty. -/
theorem not_prefix_intercalate {c : α} {item : List α} {items : List (List α)} (hc : c ∉ item)
    (hne : ∀ x ∈ (item :: items).dropLast, x ≠ []) :
    ¬ [c] <+: [c].intercalate (item :: items) := by
  intro h
  cases items with
  | nil =>
    rw [List.intercalate_singleton] at h
    exact hc (h.subset List.mem_cons_self)
  | cons next items =>
    obtain ⟨x, item, rfl⟩ := List.exists_cons_of_ne_nil (hne item List.mem_cons_self)
    rw [List.intercalate_cons_cons, List.append_assoc, List.cons_append] at h
    obtain ⟨heq, -⟩ := List.cons_prefix_cons.mp h
    exact hc (heq ▸ List.mem_cons_self)

omit [DecidableEq α] in
/-- Two separators do not meet between items that are not empty. The last item may be. -/
theorem not_infix_intercalate {c : α} {items : List (List α)} (hc : ∀ item ∈ items, c ∉ item)
    (hne : ∀ item ∈ items.dropLast, item ≠ []) : ¬ [c, c] <:+: [c].intercalate items := by
  intro h
  induction items with
  | nil => exact absurd (h.subset List.mem_cons_self) List.not_mem_nil
  | cons item items ih =>
    have hitem : c ∉ item := hc item List.mem_cons_self
    cases items with
    | nil =>
      rw [List.intercalate_singleton] at h
      exact hitem (h.subset List.mem_cons_self)
    | cons next items =>
      have hrest : ∀ x ∈ (next :: items).dropLast, x ≠ [] :=
        fun x hx => hne x (List.mem_cons_of_mem _ hx)
      rw [List.intercalate_cons_cons, List.append_assoc, List.singleton_append] at h
      -- at the separator behind the item, or later
      rcases List.infix_cons_iff.mp (infix_of_infix_append hitem h) with hprefix | hinfix
      · exact not_prefix_intercalate (hc next (List.mem_cons_of_mem _ List.mem_cons_self)) hrest
          (List.cons_prefix_cons.mp hprefix).2
      · exact ih (fun x hx => hc x (List.mem_cons_of_mem _ hx)) hrest hinfix

omit [DecidableEq α] in
/-- A text does not begin with `start` if it goes on with a symbol that is not in `start`. -/
theorem not_prefix_append {start text : List α} {c : α} (h : ¬ start <+: text) (hc : c ∉ start)
    (rest : List α) : ¬ start <+: text ++ c :: rest := by
  intro hprefix
  induction text generalizing start with
  | nil =>
    cases start with
    | nil => exact h List.nil_prefix
    | cons x start => exact hc ((List.cons_prefix_cons.mp hprefix).1 ▸ List.mem_cons_self)
  | cons y text ih =>
    cases start with
    | nil => exact h List.nil_prefix
    | cons x start =>
      obtain ⟨rfl, hrest⟩ := List.cons_prefix_cons.mp hprefix
      exact ih (fun hstart => h (List.cons_prefix_cons.mpr ⟨rfl, hstart⟩))
        (fun hmem => hc (List.mem_cons_of_mem _ hmem)) hrest

omit [DecidableEq α] in
/-- What is in a text of items is in one of them, or a separator. -/
theorem not_mem_intercalate {c sep : α} {items : List (List α)} (hsep : c ≠ sep)
    (hitems : ∀ item ∈ items, c ∉ item) : c ∉ [sep].intercalate items := by
  induction items with
  | nil => exact List.not_mem_nil
  | cons item items ih =>
    have hrest := ih fun x hx => hitems x (List.mem_cons_of_mem _ hx)
    cases items with
    | nil =>
      rw [List.intercalate_singleton]
      exact hitems item List.mem_cons_self
    | cons next items =>
      rw [List.intercalate_cons_cons, List.mem_append, List.mem_append, List.mem_singleton]
      rintro ((hitem | heq) | hnext)
      · exact hitems item List.mem_cons_self hitem
      · exact hsep heq
      · exact hrest hnext

omit [DecidableEq α] in
theorem intercalate_concat (sep : List α) {items : List (List α)} (hne : items ≠ [])
    (last : List α) :
    sep.intercalate (items ++ [last]) = sep.intercalate items ++ (sep ++ last) := by
  induction items with
  | nil => exact absurd rfl hne
  | cons item items ih =>
    cases items with
    | nil => rw [List.singleton_append, List.intercalate_cons_cons, List.intercalate_singleton,
        List.intercalate_singleton, List.append_assoc]
    | cons next items =>
      rw [List.cons_append, List.cons_append, List.intercalate_cons_cons, ← List.cons_append,
        ih (List.cons_ne_nil _ _), List.intercalate_cons_cons]
      simp only [List.append_assoc]

omit [DecidableEq α] in
/-- The end of the text is the end of its last item. -/
theorem intercalate_concat_append (sep : List α) (items : List (List α)) (item rest : List α) :
    sep.intercalate (items ++ [item ++ rest]) = sep.intercalate (items ++ [item]) ++ rest := by
  induction items with
  | nil =>
    rw [List.nil_append, List.nil_append, List.intercalate_singleton,
      List.intercalate_singleton]
  | cons first items ih =>
    have hne : ∀ last : List α, items ++ [last] ≠ [] := fun last => List.concat_ne_nil last items
    rw [List.cons_append, List.cons_append, List.intercalate_cons_of_ne_nil (hne _),
      List.intercalate_cons_of_ne_nil (hne _), ih, List.append_assoc, List.append_assoc,
      List.append_assoc]

/-- **A text and its items**: the pieces at a double separator, where items have single ones
between them. -/
theorem split_pair {c : α} {text : List α} {items : List (List α)} (htext : c ∉ text)
    (hc : ∀ item ∈ items, c ∉ item) (hne : ∀ item ∈ items.dropLast, item ≠ []) :
    split [c, c] (text ++ [c, c] ++ [c].intercalate items)
      = [text, [c].intercalate items] := by
  rw [split_append htext, split_of_not_infix (not_infix_intercalate hc hne)]

end Lib
