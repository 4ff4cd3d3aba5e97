import Vox.Hts.Tokens
import Vox.Lib.Glob

/-!
# hts_engine — patterns

The questions of the decision trees, and the heads of the trees, are patterns that a label is
compared with: `*` is any text, `?` any character. `HTS_dp_match` tries what a star can stand
for, and counts how much of the string may be skipped so that enough is left for the rest of
the pattern. `HTS_pattern_match` leaves patterns of the form `*...*` to `strstr`.

A C string is the list of the characters in front of its terminator, and a pointer into it is
what is left; `none` points behind the terminator, where nothing may be read.

* `dpMatch_eq` — the count is exact: no read goes behind the terminator, and what is answered
  is whether the string is in the language of the pattern.
* `patternMatch_language` — the same for both ways.
* `patternMatch_eq_dpMatch` — so that `strstr` answers what the recursion would.
-/

namespace Vox.Hts

open Lib

/-- `HTS_dp_match`. The first characters are `none` at a terminator. -/
def dpMatch (string : Option (List Char)) (pattern : List Char) (pos max : Int) : Option Bool :=
  if pos > max then some false
  else
    match string with
    | none => none
    | some s =>
      if s.head? = none ∧ pattern.head? = none then some true
      else if pattern.head? = some '*' then
        match dpMatch s.tail? pattern (pos + 1) max with
        | some false => dpMatch (some s) pattern.tail pos max
        | found => found
      else if s.head? = pattern.head? ∨ pattern.head? = some '?' then
        dpMatch s.tail? pattern.tail (pos + 1) (max + 1)
      else some false
termination_by (pattern.length, (max + 1 - pos).toNat)
decreasing_by
  · exact Prod.Lex.right _ (by omega)
  · refine Prod.Lex.left _ _ ?_
    cases pattern with
    | nil => simp at *
    | cons c p => simp
  · refine Prod.Lex.left _ _ ?_
    cases pattern with
    | nil => simp_all
    | cons c p => simp

/-- What `HTS_pattern_match` counts in a pattern. -/
structure Signs where
  max : Nat
  nstar : Nat
  nquestion : Nat
  deriving DecidableEq, Repr

def Signs.see (k : Signs) (c : Char) : Signs :=
  if c = '*' then { k with nstar := k.nstar + 1 }
  else if c = '?' then { k with nquestion := k.nquestion + 1, max := k.max + 1 }
  else { k with max := k.max + 1 }

/-- `HTS_pattern_match`. `none` where `buff` is too small. -/
def patternMatch (string pattern : List Char) : Option Bool :=
  let i := pattern.length
  let k := pattern.foldl Signs.see ⟨0, 0, 0⟩
  if k.nstar = 2 ∧ k.nquestion = 0 ∧ pattern[0]? = some '*' ∧ pattern[i - 1]? = some '*' then
    -- only string matching is required
    let buff_length := i - 2
    if buff_length < hts_maxbuflen then
      some (decide ((pattern.drop 1).take buff_length <:+: string))
    else none
  else dpMatch (some string) pattern 0 (string.length - k.max)

/-! ## What a pattern stands for -/

/-- The sign that a character of a pattern is. -/
def glyph (c : Char) : Glyph Char := if c = '*' then .star else if c = '?' then .any else .letter c

/-- The language of a pattern. -/
def language (pattern : List Char) : Language Char := glob (pattern.map glyph)

instance (pattern : List Char) : DecidablePred (· ∈ language pattern) :=
  inferInstanceAs (DecidablePred (· ∈ glob (pattern.map glyph)))

/-- A word without wildcards stands for itself. -/
theorem map_glyph {w : List Char} (hw : ∀ c ∈ w, c ≠ '*' ∧ c ≠ '?') :
    w.map glyph = w.map .letter := by
  apply List.map_congr_left
  intro c hc
  obtain ⟨hstar, hany⟩ := hw c hc
  rw [glyph, if_neg hstar, if_neg hany]

/-- A word between any texts. -/
theorem mem_language_infix {w s : List Char} (hw : ∀ c ∈ w, c ≠ '*' ∧ c ≠ '?') :
    s ∈ language ('*' :: (w ++ ['*'])) ↔ w <:+: s := by
  rw [language, List.map_cons, List.map_append, map_glyph hw]
  exact mem_glob_infix

/-- A word at the beginning. -/
theorem mem_language_word_star {w s : List Char} (hw : ∀ c ∈ w, c ≠ '*' ∧ c ≠ '?') :
    s ∈ language (w ++ ['*']) ↔ w <+: s := by
  rw [language, List.map_append, map_glyph hw]
  exact mem_glob_word_star

/-- A star matches nothing, or takes one character more. -/
theorem mem_language_star {p s : List Char} :
    s ∈ language ('*' :: p) ↔ s ∈ language p ∨ ∃ c, ∃ t ∈ language ('*' :: p), c :: t = s :=
  mem_glob_star_iff

/-- Any other character takes one of the string. -/
theorem mem_language_cons {c : Char} (hc : c ≠ '*') {p s : List Char} :
    s ∈ language (c :: p) ↔ ∃ a, ∃ t ∈ language p, a :: t = s ∧ (a = c ∨ c = '?') := by
  unfold language
  rw [List.map_cons]
  by_cases hany : c = '?'
  · have hglyph : glyph c = .any := by rw [glyph, if_neg hc, if_pos hany]
    rw [hglyph, mem_glob_any]
    simp [hany]
  · have hglyph : glyph c = .letter c := by rw [glyph, if_neg hc, if_neg hany]
    rw [hglyph, mem_glob_letter]
    constructor
    · rintro ⟨t, ht, rfl⟩
      exact ⟨c, t, ht, rfl, Or.inl rfl⟩
    · rintro ⟨a, t, ht, rfl, rfl | hquestion⟩
      · exact ⟨t, ht, rfl⟩
      · exact absurd hquestion hany

/-- How many characters of the string a pattern needs. -/
def needs (pattern : List Char) : Nat := letters (pattern.map glyph)

theorem needs_star (p : List Char) : needs ('*' :: p) = needs p := by
  simp [needs, letters, glyph]

theorem needs_cons {c : Char} (hc : c ≠ '*') (p : List Char) : needs (c :: p) = needs p + 1 := by
  unfold needs letters
  rw [List.map_cons, List.countP_cons]
  by_cases hany : c = '?'
  · simp [glyph, hany]
  · simp [glyph, hc, hany]

/-! ## The recursive matcher -/

/-- The matcher reads nothing behind the terminator, and is right. -/
def Answers (s p : List Char) (pos max : Int) : Prop :=
  ∃ found, dpMatch (some s) p pos max = some found ∧ (found = true ↔ s ∈ language p)

/-- Too little is left for the pattern: no match, and no read. -/
theorem dpMatch_short {s p : List Char} {pos max : Int} (hslack : max - pos = s.length - needs p)
    (hshort : pos > max) (string : Option (List Char)) :
    dpMatch string p pos max = some false ∧ s ∉ language p := by
  refine ⟨by rw [dpMatch.eq_def, if_pos hshort], fun h => ?_⟩
  have hle : needs p ≤ s.length := letters_le_length h
  omega

/-- A star takes nothing, or one character and then the same again. -/
theorem answers_star {p : List Char}
    (ih : ∀ s (pos max : Int), max - pos = s.length - needs p → Answers s p pos max)
    (s : List Char) :
    ∀ pos max : Int,
      max - pos = s.length - needs ('*' :: p) → Answers s ('*' :: p) pos max := by
  induction s with
  | nil =>
    intro pos max hslack
    by_cases hshort : pos > max
    · obtain ⟨hno, hnot⟩ := dpMatch_short hslack hshort (some [])
      exact ⟨false, hno, iff_of_false (by decide) hnot⟩
    have hslack' := hslack
    rw [needs_star] at hslack'
    obtain ⟨found, hfound, hiff⟩ := ih [] pos max hslack'
    -- the star cannot take more, and the count says so before anything is read
    have hend : dpMatch none ('*' :: p) (pos + 1) max = some false := by
      rw [dpMatch, if_pos]
      rw [List.length_nil] at hslack
      omega
    refine ⟨found, ?_, ?_⟩
    · rw [dpMatch, if_neg hshort]
      simp [hend, hfound]
    · rw [hiff, mem_language_star]
      simp
  | cons a s ihs =>
    intro pos max hslack
    by_cases hshort : pos > max
    · obtain ⟨hno, hnot⟩ := dpMatch_short hslack hshort (some (a :: s))
      exact ⟨false, hno, iff_of_false (by decide) hnot⟩
    have hslack' := hslack
    rw [needs_star] at hslack'
    rw [List.length_cons] at hslack
    obtain ⟨taken, htaken, htakenIff⟩ := ihs (pos + 1) max (by omega)
    obtain ⟨rest, hrest, hrestIff⟩ := ih (a :: s) pos max hslack'
    unfold Answers
    rw [dpMatch, if_neg hshort]
    simp only [List.head?_cons, List.tail?_cons, List.tail_cons, htaken, hrest]
    cases taken with
    | true =>
      refine ⟨true, by simp, iff_of_true rfl (mem_language_star.mpr (Or.inr ?_))⟩
      exact ⟨a, s, htakenIff.mp rfl, rfl⟩
    | false =>
      have hnot : s ∉ language ('*' :: p) := fun h => by simpa using htakenIff.mpr h
      refine ⟨rest, by simp, ?_⟩
      rw [hrestIff, mem_language_star]
      constructor
      · exact Or.inl
      · rintro (h | ⟨b, t, ht, heq⟩)
        · exact h
        · obtain ⟨rfl, rfl⟩ := List.cons.inj heq
          exact absurd ht hnot

/-- Any other character takes one of the string, and leaves the slack as it is. -/
theorem answers_cons {c : Char} (hc : c ≠ '*') {p : List Char}
    (ih : ∀ s (pos max : Int), max - pos = s.length - needs p → Answers s p pos max) (s : List Char)
    (pos max : Int) (hslack : max - pos = s.length - needs (c :: p)) :
    Answers s (c :: p) pos max := by
  by_cases hshort : pos > max
  · obtain ⟨hno, hnot⟩ := dpMatch_short hslack hshort (some s)
    exact ⟨false, hno, iff_of_false (by decide) hnot⟩
  rw [needs_cons hc] at hslack
  cases s with
  | nil =>
    -- a character is needed, so the count has said no
    rw [List.length_nil] at hslack
    omega
  | cons a s =>
    rw [List.length_cons] at hslack
    obtain ⟨found, hfound, hiff⟩ := ih s (pos + 1) (max + 1) (by omega)
    unfold Answers
    rw [dpMatch, if_neg hshort]
    simp only [List.head?_cons, List.tail?_cons, List.tail_cons, Option.some.injEq, hfound,
      mem_language_cons hc]
    by_cases hmatch : a = c ∨ c = '?'
    · refine ⟨found, by simp [hc, hmatch], ?_⟩
      rw [hiff]
      constructor
      · exact fun h => ⟨a, s, h, rfl, hmatch⟩
      · rintro ⟨b, t, ht, heq, -⟩
        obtain ⟨rfl, rfl⟩ := List.cons.inj heq
        exact ht
    · refine ⟨false, by simp [hc, hmatch], iff_of_false (by decide) ?_⟩
      rintro ⟨b, t, ht, heq, h⟩
      obtain ⟨rfl, rfl⟩ := List.cons.inj heq
      exact hmatch h

/-- **No read behind the terminator, and the right answer.** `max - pos` is how many characters
of the string stars may take. -/
theorem dpMatch_eq (s p : List Char) :
    ∀ pos max : Int, max - pos = s.length - needs p → Answers s p pos max := by
  -- by induction on the pattern; the star has one of its own, on the string
  induction p generalizing s with
  | nil =>
    intro pos max hslack
    by_cases hshort : pos > max
    · obtain ⟨hno, hnot⟩ := dpMatch_short hslack hshort (some s)
      exact ⟨false, hno, iff_of_false (by decide) hnot⟩
    unfold Answers
    rw [dpMatch, if_neg hshort]
    cases s with
    | nil => exact ⟨true, by simp, iff_of_true rfl (mem_glob_nil.mpr rfl)⟩
    | cons c s =>
      exact ⟨false, by simp, iff_of_false (by decide) fun h => nomatch mem_glob_nil.mp h⟩
  | cons c p ih =>
    intro pos max hslack
    by_cases hstar : c = '*'
    · subst hstar
      exact answers_star ih s pos max hslack
    · exact answers_cons hstar ih s pos max hslack

/-! ## Both ways -/

/-- The counters after the loop over the pattern. -/
theorem foldl_see (p : List Char) (k : Signs) :
    p.foldl Signs.see k =
      ⟨k.max + needs p, k.nstar + p.count '*', k.nquestion + p.count '?'⟩ := by
  induction p generalizing k with
  | nil => rfl
  | cons c p ih =>
    rw [List.foldl_cons, ih]
    by_cases hstar : c = '*'
    · subst hstar
      simp [Signs.see, needs_star]
      omega
    · by_cases hany : c = '?'
      · subst hany
        simp [Signs.see, needs_cons]
        omega
      · simp [Signs.see, hstar, hany, needs_cons hstar]
        omega

/-- Two stars at the ends and no question mark: between them is a word. -/
theorem between_stars {p : List Char} (hstars : p.count '*' = 2) (hfirst : p[0]? = some '*')
    (hlast : p[p.length - 1]? = some '*') :
    ∃ w, p = '*' :: (w ++ ['*']) ∧ '*' ∉ w := by
  cases p with
  | nil => simp at hfirst
  | cons c p =>
    obtain rfl : c = '*' := by simpa using hfirst
    rw [List.count_cons_self] at hstars
    have hne : p ≠ [] := by
      rintro rfl
      simp at hstars
    obtain ⟨w, d, rfl⟩ := (List.eq_nil_or_concat p).resolve_left hne
    rw [List.concat_eq_append] at hstars hlast ⊢
    obtain rfl : d = '*' := by simpa using hlast
    refine ⟨w, rfl, ?_⟩
    rw [List.count_append, List.count_singleton_self] at hstars
    exact List.count_eq_zero.mp (by omega)

/-- **What is matched.** As long as `buff` holds the pattern, `HTS_pattern_match` reads nothing
behind the terminator and answers whether the string is in the language of the pattern,
whichever way it takes. -/
theorem patternMatch_language (string pattern : List Char)
    (hlength : pattern.length < hts_maxbuflen + 2) :
    ∃ found, patternMatch string pattern = some found ∧
      (found = true ↔ string ∈ language pattern) := by
  unfold patternMatch
  simp only [foldl_see, Nat.zero_add]
  split
  next hfast =>
    obtain ⟨hstars, hany, hfirst, hlast⟩ := hfast
    obtain ⟨w, rfl, hw⟩ := between_stars hstars hfirst hlast
    have hroom : ('*' :: (w ++ ['*'])).length - 2 < hts_maxbuflen := by
      unfold hts_maxbuflen at hlength ⊢
      omega
    rw [if_pos hroom]
    refine ⟨_, rfl, ?_⟩
    -- a word without wildcards, so that its language is the word
    have hletters : ∀ c ∈ w, c ≠ '*' ∧ c ≠ '?' := by
      refine fun c hc => ⟨?_, ?_⟩
      · rintro rfl
        exact hw hc
      · rintro rfl
        have hzero := List.count_eq_zero.mp hany
        exact hzero (by simp [hc])
    have hword : (('*' :: (w ++ ['*'])).drop 1).take (('*' :: (w ++ ['*'])).length - 2) = w := by
      simp
    rw [hword, decide_eq_true_iff, mem_language_infix hletters]
  next => exact dpMatch_eq string pattern 0 _ (by omega)

/-- **The shortcut changes nothing.** `strstr` answers what `HTS_dp_match` would on the same
pattern, which is whether the string is in its language. -/
theorem patternMatch_eq_dpMatch (string pattern : List Char)
    (hlength : pattern.length < hts_maxbuflen + 2) :
    patternMatch string pattern = dpMatch (some string) pattern 0 (string.length - needs pattern) ∧
      ∃ found, patternMatch string pattern = some found ∧
        (found = true ↔ string ∈ language pattern) := by
  obtain ⟨found, hfound, hiff⟩ := patternMatch_language string pattern hlength
  obtain ⟨found', hfound', hiff'⟩ :=
    dpMatch_eq string pattern 0 (string.length - needs pattern) (by omega)
  refine ⟨?_, found, hfound, hiff⟩
  have hsame : found = found' := Bool.eq_iff_iff.mpr (hiff.trans hiff'.symm)
  rw [hfound, hfound', hsame]

/-- A pattern of a question, and a label. -/
theorem patternMatch_eq_dpMatch_vowel :
    patternMatch "x^k-aa+n".toList "*-aa+*".toList
        = dpMatch (some "x^k-aa+n".toList) "*-aa+*".toList 0
          ("x^k-aa+n".toList.length - needs "*-aa+*".toList) ∧
      ∃ found, patternMatch "x^k-aa+n".toList "*-aa+*".toList = some found ∧
        (found = true ↔ "x^k-aa+n".toList ∈ language "*-aa+*".toList) :=
  patternMatch_eq_dpMatch _ _ (by decide)

end Vox.Hts
