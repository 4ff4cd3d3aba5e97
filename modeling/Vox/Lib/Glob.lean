import Mathlib.Computability.Language

/-!
# Patterns with wildcards

A pattern is a list of signs over an alphabet: a letter, any one letter, or any text. Its
language is the product of the languages of its signs, so that what holds of products of
languages holds of patterns, and a pattern is taken apart sign by sign (`glob_cons`).
-/

namespace Lib

inductive Glyph (α : Type*)
  | letter (a : α)
  /-- Any one letter. -/
  | any
  /-- Any text, also an empty one. -/
  | star
  deriving DecidableEq, Repr

variable {α : Type*}

/-- What a sign stands for. -/
def Glyph.language : Glyph α → Language α
  | .letter a => {[a]}
  | .any => {s | s.length = 1}
  | .star => {s | s = s}

/-- What a pattern stands for. -/
def glob (p : List (Glyph α)) : Language α := (p.map Glyph.language).prod

/-- The language of a pattern, glyph by glyph. -/
theorem glob_cons (g : Glyph α) (p : List (Glyph α)) : glob (g :: p) = g.language * glob p := by
  unfold glob
  rw [List.map_cons, List.prod_cons]

variable {p : List (Glyph α)} {s : List α}

@[simp] theorem mem_glob_nil : s ∈ glob ([] : List (Glyph α)) ↔ s = [] := Language.mem_one s

theorem mem_glob_letter {a : α} : s ∈ glob (.letter a :: p) ↔ ∃ t ∈ glob p, a :: t = s := by
  rw [glob_cons, Language.mem_mul]
  constructor
  · rintro ⟨u, hu, t, ht, rfl⟩
    obtain rfl : u = [a] := hu
    exact ⟨t, ht, rfl⟩
  · rintro ⟨t, ht, rfl⟩
    exact ⟨[a], rfl, t, ht, rfl⟩

/-- A wildcard matches any one letter. -/
theorem mem_glob_any : s ∈ glob (.any :: p) ↔ ∃ a, ∃ t ∈ glob p, a :: t = s := by
  rw [glob_cons, Language.mem_mul]
  constructor
  · rintro ⟨u, hu, t, ht, rfl⟩
    obtain ⟨a, rfl⟩ := List.length_eq_one_iff.mp hu
    exact ⟨a, t, ht, rfl⟩
  · rintro ⟨a, t, ht, rfl⟩
    exact ⟨[a], rfl, t, ht, rfl⟩

theorem mem_glob_star : s ∈ glob (.star :: p) ↔ ∃ t, t ∈ glob p ∧ t <:+ s := by
  rw [glob_cons, Language.mem_mul]
  constructor
  · rintro ⟨u, -, t, ht, rfl⟩
    exact ⟨t, ht, u, rfl⟩
  · rintro ⟨t, ht, u, rfl⟩
    exact ⟨u, rfl, t, ht, rfl⟩

/-- Any text is none, or a letter and any text. -/
theorem mem_glob_star_iff :
    s ∈ glob (.star :: p) ↔ s ∈ glob p ∨ ∃ a, ∃ t ∈ glob (.star :: p), a :: t = s := by
  constructor
  · intro h
    obtain ⟨t, ht, u, rfl⟩ := mem_glob_star.mp h
    cases u with
    | nil => exact Or.inl ht
    | cons a u => exact Or.inr ⟨a, u ++ t, mem_glob_star.mpr ⟨t, ht, u, rfl⟩, rfl⟩
  · rintro (h | ⟨a, t, ht, rfl⟩)
    · exact mem_glob_star.mpr ⟨s, h, List.suffix_rfl⟩
    · obtain ⟨r, hr, hsuffix⟩ := mem_glob_star.mp ht
      exact mem_glob_star.mpr ⟨r, hr, hsuffix.trans (List.suffix_cons a t)⟩

/-- The signs are taken from the left, and any text is tried at every length. -/
def globMatches [DecidableEq α] : List (Glyph α) → List α → Bool
  | [], s => s.isEmpty
  | .letter _ :: _, [] => false
  | .letter a :: p, b :: s => a = b && globMatches p s
  | .any :: _, [] => false
  | .any :: p, _ :: s => globMatches p s
  | .star :: p, s => s.tails.any fun t => globMatches p t

/-- The matcher decides the language. -/
theorem globMatches_iff [DecidableEq α] (p : List (Glyph α)) (s : List α) :
    globMatches p s = true ↔ s ∈ glob p := by
  induction p generalizing s with
  | nil => simp [globMatches]
  | cons g p ih =>
    cases g with
    | letter a =>
      rw [mem_glob_letter]
      cases s with
      | nil => simp [globMatches]
      | cons b s => simp [globMatches, ih, and_comm]
    | any =>
      rw [mem_glob_any]
      cases s with
      | nil => simp [globMatches]
      | cons b s => simp [globMatches, ih]
    | star => simp [mem_glob_star, globMatches, ih, and_comm]

instance [DecidableEq α] (p : List (Glyph α)) : DecidablePred (· ∈ glob p) := fun s =>
  decidable_of_iff _ (globMatches_iff p s)

/-- How many letters a pattern needs. -/
def letters (p : List (Glyph α)) : Nat := p.countP fun g => g matches .letter _ | .any

/-- A text is at least as long as the letters of the pattern. -/
theorem letters_le_length (h : s ∈ glob p) : letters p ≤ s.length := by
  induction p generalizing s with
  | nil => exact Nat.zero_le _
  | cons g p ih =>
    cases g with
    | letter a =>
      obtain ⟨t, ht, rfl⟩ := mem_glob_letter.mp h
      simpa [letters] using ih ht
    | any =>
      obtain ⟨a, t, ht, rfl⟩ := mem_glob_any.mp h
      simpa [letters] using ih ht
    | star =>
      obtain ⟨t, ht, hsuffix⟩ := mem_glob_star.mp h
      have hle := (ih ht).trans hsuffix.length_le
      simpa [letters] using hle

/-! ## Patterns around a word -/

variable {w : List α}

theorem mem_glob_word_append :
    s ∈ glob (w.map .letter ++ p) ↔ ∃ t ∈ glob p, w ++ t = s := by
  induction w generalizing s with
  | nil => simp
  | cons a w ih =>
    rw [List.map_cons, List.cons_append, mem_glob_letter]
    constructor
    · rintro ⟨t, ht, rfl⟩
      obtain ⟨r, hr, rfl⟩ := ih.mp ht
      exact ⟨r, hr, rfl⟩
    · rintro ⟨r, hr, rfl⟩
      exact ⟨w ++ r, ih.mpr ⟨r, hr, rfl⟩, rfl⟩

/-- A star at the end matches the rest. -/
theorem mem_glob_end : s ∈ glob ([.star] : List (Glyph α)) :=
  mem_glob_star.mpr ⟨[], mem_glob_nil.mpr rfl, List.nil_suffix⟩

/-- A word and any text: the texts that begin with the word. -/
theorem mem_glob_word_star : s ∈ glob (w.map .letter ++ [.star]) ↔ w <+: s := by
  rw [mem_glob_word_append]
  constructor
  · rintro ⟨t, -, rfl⟩
    exact List.prefix_append w t
  · rintro ⟨t, rfl⟩
    exact ⟨t, mem_glob_end, rfl⟩

/-- A word between any texts: the texts that contain the word. -/
theorem mem_glob_infix : s ∈ glob (.star :: (w.map .letter ++ [.star])) ↔ w <:+: s := by
  rw [mem_glob_star]
  constructor
  · rintro ⟨t, ht, hsuffix⟩
    exact (mem_glob_word_star.mp ht).isInfix.trans hsuffix.isInfix
  · rintro ⟨u, v, rfl⟩
    exact ⟨w ++ v, mem_glob_word_star.mpr (List.prefix_append w v), u,
      (List.append_assoc u w v).symm⟩

end Lib
