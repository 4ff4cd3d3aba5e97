import Mathlib.Data.List.Infix

/-!
# Texts of fields with delimiters

A text of fields: a first one, and others with a delimiter in front of each. Where no field has a
delimiter in it, the delimiters around a field are enough to find it.

* `infix_fieldsText` — a word between two delimiters is in the text exactly when it is a field
  between them.
* `prefix_fieldsText` — the same for the first field.
-/

namespace Lib

variable {α : Type*}

/-- The text of fields, of which each but the first has its delimiter in front. -/
def fieldsText (first : List α) (rest : List (α × List α)) : List α :=
  first ++ rest.flatMap fun field => field.1 :: field.2

/-- No field has a delimiter in it. -/
structure Delimited (delimiter : α → Prop) (first : List α) (rest : List (α × List α)) : Prop where
  first : ∀ c ∈ first, ¬ delimiter c
  delimiters : ∀ field ∈ rest, delimiter field.1
  fields : ∀ field ∈ rest, ∀ c ∈ field.2, ¬ delimiter c

/-- The fields with `d` in front of them and `e` behind them. -/
def between [DecidableEq α] (d e : α) : List (α × List α) → List (List α)
  | [] => []
  | (a, field) :: rest =>
    if a = d ∧ rest.head?.map Prod.fst = some e then field :: between d e rest
    else between d e rest

theorem fieldsText_cons (first : List α) (a : α) (field : List α) (rest : List (α × List α)) :
    fieldsText first ((a, field) :: rest) = first ++ a :: fieldsText field rest := rfl

/-- The same text, written field by field. -/
theorem foldl_fields (first : List α) (rest : List (α × List α)) :
    rest.foldl (fun text field => text ++ field.1 :: field.2) first = fieldsText first rest := by
  induction rest generalizing first with
  | nil => exact (List.append_nil first).symm
  | cons field rest ih =>
    rw [List.foldl_cons, ih, fieldsText, fieldsText, List.flatMap_cons, List.append_assoc]

section Delimiters

variable {delimiter : α → Prop} {d e : α} {word first : List α} {rest : List (α × List α)}

theorem Delimited.tail {a : α} {field : List α}
    (h : Delimited delimiter first ((a, field) :: rest)) : Delimited delimiter field rest where
  first := h.fields _ List.mem_cons_self
  delimiters f hf := h.delimiters f (List.mem_cons_of_mem _ hf)
  fields f hf := h.fields f (List.mem_cons_of_mem _ hf)

/-- A word up to a delimiter is the first field. -/
theorem prefix_append_iff {text : List α} (hword : ∀ c ∈ word, ¬ delimiter c)
    (hfirst : ∀ c ∈ first, ¬ delimiter c) (he : delimiter e)
    (htext : ∀ c, text.head? = some c → delimiter c) :
    word ++ [e] <+: first ++ text ↔ word = first ∧ text.head? = some e := by
  induction word generalizing first with
  | nil =>
    cases first with
    | nil => simp [List.cons_prefix_iff, List.head?_eq_some_iff]
    | cons c first =>
      have hne : e ≠ c := by
        rintro rfl
        exact hfirst e List.mem_cons_self he
      simp [hne]
  | cons a word ih =>
    have ha := hword a List.mem_cons_self
    cases first with
    | nil =>
      refine iff_of_false (fun h => ?_) (fun h => nomatch h.1)
      obtain ⟨v, rfl⟩ := h
      exact ha (htext a rfl)
    | cons c first =>
      rw [List.cons_append, List.cons_append, List.cons_prefix_cons,
        ih (fun b hb => hword b (List.mem_cons_of_mem a hb))
          (fun b hb => hfirst b (List.mem_cons_of_mem c hb)), List.cons.injEq, and_assoc]

/-- What starts with a delimiter starts behind a field. -/
theorem infix_append_iff {text v : List α} (hfirst : ∀ c ∈ first, ¬ delimiter c)
    (hd : delimiter d) : d :: v <:+: first ++ text ↔ d :: v <:+: text := by
  induction first with
  | nil => rfl
  | cons c first ih =>
    have hne : d ≠ c := by
      rintro rfl
      exact hfirst d List.mem_cons_self hd
    rw [List.cons_append, List.infix_cons_iff, List.cons_prefix_cons,
      ih fun b hb => hfirst b (List.mem_cons_of_mem c hb)]
    exact or_iff_right fun h => hne h.1

/-- The text goes on with the first delimiter. -/
theorem head?_flatMap_fields (rest : List (α × List α)) :
    (rest.flatMap fun field => field.1 :: field.2).head? = rest.head?.map Prod.fst := by
  cases rest <;> rfl

/-- What follows the first field is a delimiter. -/
theorem Delimited.head (h : Delimited delimiter first rest) (c : α)
    (hc : (rest.flatMap fun field => field.1 :: field.2).head? = some c) : delimiter c := by
  rw [head?_flatMap_fields] at hc
  obtain ⟨field, hfield, rfl⟩ := Option.map_eq_some_iff.mp hc
  exact h.delimiters field (List.mem_of_mem_head? hfield)

/-- **The first field** is found by the delimiter behind it. -/
theorem prefix_fieldsText (h : Delimited delimiter first rest)
    (hword : ∀ c ∈ word, ¬ delimiter c) (he : delimiter e) :
    word ++ [e] <+: fieldsText first rest ↔
      word = first ∧ rest.head?.map Prod.fst = some e := by
  rw [fieldsText, prefix_append_iff hword h.first he h.head, head?_flatMap_fields]

/-- **A field** is found by the delimiters around it. -/
theorem infix_fieldsText [DecidableEq α] (h : Delimited delimiter first rest)
    (hword : ∀ c ∈ word, ¬ delimiter c) (hd : delimiter d) (he : delimiter e) :
    d :: (word ++ [e]) <:+: fieldsText first rest ↔ word ∈ between d e rest := by
  induction rest generalizing first with
  | nil =>
    rw [fieldsText, infix_append_iff h.first hd]
    simp [between]
  | cons field rest ih =>
    obtain ⟨a, field⟩ := field
    rw [fieldsText_cons, infix_append_iff h.first hd, List.infix_cons_iff, List.cons_prefix_cons,
      prefix_fieldsText h.tail hword he, ih h.tail, between]
    by_cases hends : rest.head?.map Prod.fst = some e
    · by_cases ha : a = d
      · simp [hends, ha]
      · simp [ha, Ne.symm ha]
    · simp [hends]

end Delimiters

end Lib
