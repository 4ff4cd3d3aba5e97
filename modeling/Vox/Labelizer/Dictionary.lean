import Vox.Labelizer.Syllables
import Vox.Lib.Lines
import Vox.Lib.Loops
import Vox.Lib.Split

/-!
# Labelizer — the dictionary

The file is text in windows-1252, and `cmudict` is filled from it line by line. Lines that
start with `;;;` are comments. Of the others the last character is cut off, which is the end
of the line, and what is left is a word, two spaces, and its phonemes with spaces between
them. An exception ends the program.

* `loadLine_word` — the turn of a line whose last character is cut off, whatever it is.
* `foldlM_loadLine` — the loop is one over the words of the file.
* `not_syllabified_cut` — a word whose last phoneme has lost its end has other syllables.
* `load_iff` — when the whole dictionary is loaded.
-/

namespace Vox.Labelizer

open Lib

/-! ## Text -/

/-- The characters at 0x80 to 0x9f, or 0 where there is none. -/
def codePage : List Nat :=
  [0x20ac, 0, 0x201a, 0x192, 0x201e, 0x2026, 0x2020, 0x2021, 0x2c6, 0x2030, 0x160, 0x2039, 0x152,
    0, 0x17d, 0, 0, 0x2018, 0x2019, 0x201c, 0x201d, 0x2022, 0x2013, 0x2014, 0x2dc, 0x2122, 0x161,
    0x203a, 0x153, 0, 0x17e, 0x178]

/-- The character of a byte. -/
def decodeByte (byte : UInt8) : Option Char :=
  if byte < 0x80 ∨ 0xa0 ≤ byte then some (Char.ofNat byte.toNat)
  else
    match codePage.getD (byte.toNat - 0x80) 0 with
    | 0 => none
    | code => some (Char.ofNat code)

/-- The ends of lines, as text mode gives them. -/
def universalNewlines : List Char → List Char
  | '\r' :: '\n' :: text => '\n' :: universalNewlines text
  | '\r' :: text => '\n' :: universalNewlines text
  | c :: text => c :: universalNewlines text
  | [] => []

/-- The text of a file. -/
def readText (bytes : List UInt8) : Option (List Char) :=
  (bytes.mapM decodeByte).map universalNewlines

/-- The lines of a text, each with its end. The last one may have none. -/
def readLines (text : List Char) : List (List Char) :=
  (terminated '\n' text).map (· ++ ['\n']) ++
    if pending '\n' text = [] then [] else [pending '\n' text]

/-- `lower` of a character of windows-1252. -/
def lowerChar (c : Char) : Char :=
  let code := c.toNat
  if (0x41 ≤ code ∧ code ≤ 0x5a) ∨ (0xc0 ≤ code ∧ code ≤ 0xde ∧ code ≠ 0xd7) then
    Char.ofNat (code + 0x20)
  else if code = 0x152 ∨ code = 0x160 ∨ code = 0x17d then Char.ofNat (code + 1)
  else if code = 0x178 then Char.ofNat 0xff
  else c

def lower (text : List Char) : String := String.ofList (text.map lowerChar)

/-! ## The loop -/

abbrev Cmudict := String → Option (List SyllableArgs)

/-- The turn of a line. -/
def loadLine (cmudict : Cmudict) (line : List Char) : Option Cmudict :=
  if [';', ';', ';'].isPrefixOf line then some cmudict
  else
    let line := line.dropLast
    match split [' ', ' '] line with
    | [word, phonemes] => do
      let syllables ← clumpSyllables ((phonemes.splitOn ' ').map lower)
      return Function.update cmudict (lower word) (some syllables)
    -- one value, or three, are not unpacked to two
    | _ => none

/-- The dictionary of a file. -/
def load (bytes : List UInt8) : Option Cmudict := do
  let text ← readText bytes
  (readLines text).foldlM loadLine fun _ => none

/-! ## The format -/

/-- A word and its phonemes. -/
structure Entry where
  word : List Char
  phonemes : List (List Char)
  word_plain : ' ' ∉ word ∧ '\n' ∉ word
  not_comment : ¬ [';', ';', ';'] <+: word
  phonemes_ne_nil : phonemes ≠ []
  phonemes_plain : ∀ p ∈ phonemes, p ≠ [] ∧ ' ' ∉ p ∧ '\n' ∉ p

/-- A line of a dictionary, which has no end yet. -/
inductive Line where
  | comment (text : List Char) (h : '\n' ∉ text)
  | entry (e : Entry)

def Line.text : Line → List Char
  | .comment text _ => [';', ';', ';'] ++ text
  | .entry e => e.word ++ [' ', ' '] ++ [' '].intercalate e.phonemes

/-- The text of a dictionary. The last line ends in a newline, or it does not. -/
def written (lines : List Line) (newline : Bool) : List Char :=
  ['\n'].intercalate (lines.map Line.text ++ if newline then [[]] else [])

/-- The word, lower-cased. -/
def Entry.key (e : Entry) : String := lower e.word

/-- The phonemes, as they are written. -/
def Entry.symbols (e : Entry) : List String := e.phonemes.map String.ofList

/-- The phonemes, lower-cased. -/
def Entry.spoken (e : Entry) : List String := e.phonemes.map lower

/-- The word of the line has its syllables. -/
def Entry.LoadedIn (e : Entry) (cmudict : Cmudict) : Prop :=
  ∃ syllables, cmudict e.key = some syllables ∧ Syllabified e.spoken syllables

def Line.entryOf : Line → Option Entry
  | .comment _ _ => none
  | .entry e => some e

def entries (lines : List Line) : List Entry := lines.filterMap Line.entryOf

/-- What a dictionary needs to be loaded. -/
structure Loadable (lines : List Line) (newline : Bool) : Prop where
  /-- Every word has a vowel, and `int` reads the stress of its vowels. -/
  pronounced : ∀ e ∈ entries lines,
    (∃ p ∈ e.symbols, isVowel p = true) ∧ Readable e.symbols
  /-- The line of a word ends in a newline. -/
  ended : newline = true ∨ ∀ e, lines.getLast? ≠ some (.entry e)

/-! ## Lower case -/

/-- There are no digits between the common ones and the superscripts, nor between these and
the digits of the next script. -/
theorem no_digit {c : Char}
    (h : (0x3a ≤ c.toNat ∧ c.toNat < 0xb2) ∨ (0xba ≤ c.toNat ∧ c.toNat < 0x660)) :
    int c = none ∧ isdigit c = false := by
  -- between the blocks of digits in the tables
  have hzeros : ∀ z ∈ decimalZeros, z = 0x30 ∨ 0x660 ≤ z := by decide
  have hblocks : ∀ block ∈ otherDigits,
      (0xb2 ≤ block.1 ∧ block.2 ≤ 0xb9) ∨ 0x660 ≤ block.1 := by decide
  have hint : int c = none := by
    rw [int, Option.map_eq_none_iff, List.find?_eq_none]
    intro z hz
    have := hzeros z hz
    simp only [decide_eq_true_eq]
    omega
  refine ⟨hint, ?_⟩
  rw [isdigit, hint, Option.isSome_none, Bool.false_or, List.any_eq_false]
  intro block hblock
  have := hblocks block hblock
  simp only [decide_eq_true_eq]
  omega

/-- The code of a character made from its code. -/
theorem toNat_ofNat {code : Nat} (h : code < 0xd800) : (Char.ofNat code).toNat = code := by
  rw [Char.ofNat, dif_pos (.inl h)]
  exact UInt32.toNat_ofNatLT

/-- A character that changes is a letter, and becomes one. -/
theorem lowerChar_eq_or (c : Char) : lowerChar c = c ∨
    ((int c = none ∧ isdigit c = false) ∧
      int (lowerChar c) = none ∧ isdigit (lowerChar c) = false) := by
  have hletter : ∀ code, (0x3a ≤ code ∧ code < 0xb2) ∨ (0xba ≤ code ∧ code < 0x660) →
      int (Char.ofNat code) = none ∧ isdigit (Char.ofNat code) = false := fun code h =>
    no_digit (by rw [toNat_ofNat (by omega)]; exact h)
  rw [lowerChar]
  -- from A to Z and À to Þ, then the three before their small ones, and Ÿ
  split
  · exact .inr ⟨no_digit (by omega), hletter _ (by omega)⟩
  · split
    · exact .inr ⟨no_digit (by omega), hletter _ (by omega)⟩
    · split
      · exact .inr ⟨no_digit (by omega), hletter _ (by omega)⟩
      · exact .inl rfl

theorem int_lowerChar (c : Char) : int (lowerChar c) = int c := by
  rcases lowerChar_eq_or c with h | ⟨h, h'⟩
  · rw [h]
  · rw [h.1, h'.1]

theorem isdigit_lowerChar (c : Char) : isdigit (lowerChar c) = isdigit c := by
  rcases lowerChar_eq_or c with h | ⟨h, h'⟩
  · rw [h]
  · rw [h.2, h'.2]

theorem lastChar_lower (p : List Char) :
    lastChar (lower p) = (lastChar (String.ofList p)).map lowerChar := by
  rw [lastChar, lastChar, lower, String.toList_ofList, String.toList_ofList, List.getLast?_map]

/-- Vowels are vowels in lower case, with the same stress. -/
theorem isVowel_lower (p : List Char) : isVowel (lower p) = isVowel (String.ofList p) := by
  rw [isVowel, isVowel, lastChar_lower, Option.any_map]
  congr 1
  exact funext isdigit_lowerChar

/-- The stress mark does not depend on the case. -/
theorem stressOf_lower (p : List Char) : stressOf (lower p) = stressOf (String.ofList p) := by
  rw [stressOf, stressOf, lastChar_lower, Option.bind_map]
  congr 1
  exact funext int_lowerChar

/-- The vowels are those of the entry as it is written. -/
theorem exists_vowel_spoken (e : Entry) :
    (∃ p ∈ e.spoken, isVowel p = true) ↔ ∃ p ∈ e.symbols, isVowel p = true := by
  rw [Entry.spoken, Entry.symbols]
  simp only [List.mem_map, exists_exists_and_eq_and, isVowel_lower]

/-- Whether an entry can be read does not depend on the case. -/
theorem readable_spoken (e : Entry) : Readable e.spoken ↔ Readable e.symbols := by
  rw [Readable, Readable, Entry.spoken, Entry.symbols]
  simp only [List.forall_mem_map, isVowel_lower, stressOf_lower]

/-- A phoneme in lower case is not empty. -/
theorem lower_ne_empty {p : List Char} (hp : p ≠ []) : lower p ≠ "" := by
  intro h
  have hlist := congrArg String.toList h
  rw [lower, String.toList_ofList] at hlist
  exact hp (List.map_eq_nil_iff.mp hlist)

/-- The words that have syllables. -/
theorem Entry.returns_iff (e : Entry) :
    (∃ syllables, clumpSyllables e.spoken = some syllables) ↔
      (∃ p ∈ e.symbols, isVowel p = true) ∧ Readable e.symbols := by
  rw [← exists_vowel_spoken, ← readable_spoken]
  constructor
  · rintro ⟨syllables, hsome⟩
    exact (readable_of_some hsome).2
  · rintro ⟨hvowel, hreadable⟩
    have hne : ∀ p ∈ e.spoken, p ≠ "" := by
      intro p hp
      obtain ⟨q, hq, rfl⟩ := List.mem_map.mp hp
      exact lower_ne_empty (e.phonemes_plain q hq).1
    obtain ⟨syllables, hsome, -⟩ := clumpSyllables_of_readable hne hvowel hreadable
    exact ⟨syllables, hsome⟩

/-! ## The lines of the file -/

/-- A line has no line break inside. -/
theorem newline_notMem_text (line : Line) : '\n' ∉ line.text := by
  cases line with
  | comment text h =>
    rw [Line.text, List.mem_append]
    rintro (hmark | htext)
    · exact absurd hmark (by decide)
    · exact h htext
  | entry e =>
    rw [Line.text, List.mem_append, List.mem_append]
    rintro ((hword | hspaces) | hphonemes)
    · exact e.word_plain.2 hword
    · exact absurd hspaces (by decide)
    · exact not_mem_intercalate (by decide) (fun p hp => (e.phonemes_plain p hp).2.2) hphonemes

/-- The lines of a written file, each with its line break. -/
theorem readLines_written (lines : List Line) :
    readLines (written lines true) = lines.map fun line => line.text ++ ['\n'] := by
  have hitems : ∀ item ∈ lines.map Line.text ++ [[]], '\n' ∉ item := by
    intro item hitem
    rcases List.mem_append.mp hitem with htext | hnil
    · obtain ⟨line, -, rfl⟩ := List.mem_map.mp htext
      exact newline_notMem_text line
    · rw [List.mem_singleton.mp hnil]
      exact List.not_mem_nil
  have hwritten : written lines true = ['\n'].intercalate (lines.map Line.text ++ [[]]) := rfl
  rw [readLines, hwritten, terminated_intercalate hitems, pending_intercalate hitems, if_pos rfl,
    List.append_nil, List.map_map]
  rfl

/-- Without a newline at the end, the last line is what it is. -/
theorem readLines_written_concat (lines : List Line) (last : Line) :
    readLines (written (lines ++ [last]) false)
      = (lines.map fun line => line.text ++ ['\n']) ++ [last.text] := by
  have hitems : ∀ item ∈ lines.map Line.text ++ [last.text], '\n' ∉ item := by
    intro item hitem
    rw [← List.map_singleton, ← List.map_append] at hitem
    obtain ⟨line, -, rfl⟩ := List.mem_map.mp hitem
    exact newline_notMem_text line
  have hwritten : written (lines ++ [last]) false
      = ['\n'].intercalate (lines.map Line.text ++ [last.text]) := by
    rw [written, List.map_append, List.map_singleton, if_neg Bool.false_ne_true, List.append_nil]
  -- the last line is not empty, so it is a line although no break ends it
  have htext : last.text ≠ [] := by
    cases last with
    | comment text h => exact List.cons_ne_nil _ _
    | entry e => simp [Line.text]
  rw [readLines, hwritten, terminated_intercalate hitems, pending_intercalate hitems,
    if_neg htext, List.map_map]
  rfl

/-! ## The turns -/

/-- What is written to the dictionary. -/
def loadEntry (cmudict : Cmudict) (e : Entry) : Option Cmudict :=
  (clumpSyllables e.spoken).map fun syllables =>
    Function.update cmudict e.key (some syllables)

theorem loadLine_comment (cmudict : Cmudict) (text rest : List Char) (h : '\n' ∉ text) :
    loadLine cmudict ((Line.comment text h).text ++ rest) = some cmudict := rfl

/-- The line of a word, whatever its last character is. The phoneme before it may be empty. -/
theorem loadLine_word {word : List Char} {phonemes : List (List Char)} (hword : ' ' ∉ word)
    (hcomment : ¬ [';', ';', ';'] <+: word) (hphonemes : phonemes ≠ [])
    (hplain : ∀ p ∈ phonemes, ' ' ∉ p) (hne : ∀ p ∈ phonemes.dropLast, p ≠ [])
    (cmudict : Cmudict) (c : Char) :
    loadLine cmudict (word ++ [' ', ' '] ++ [' '].intercalate phonemes ++ [c])
      = (clumpSyllables (phonemes.map lower)).map fun syllables =>
        Function.update cmudict (lower word) (some syllables) := by
  -- the mark of a comment has no space
  have hprefix : ¬ [';', ';', ';'].isPrefixOf
      (word ++ [' ', ' '] ++ [' '].intercalate phonemes ++ [c]) = true := by
    rw [List.isPrefixOf_iff_prefix, List.append_assoc, List.append_assoc, List.cons_append]
    exact not_prefix_append hcomment (by decide) _
  rw [loadLine, if_neg hprefix, List.dropLast_concat]
  simp only [split_pair hword hplain hne, List.splitOn_intercalate ' ' hplain hphonemes]
  cases clumpSyllables (phonemes.map lower) <;> rfl

/-- A line of an entry is read as the entry. -/
theorem loadLine_entry (cmudict : Cmudict) (e : Entry) :
    loadLine cmudict ((Line.entry e).text ++ ['\n']) = loadEntry cmudict e :=
  loadLine_word e.word_plain.1 e.not_comment e.phonemes_ne_nil
    (fun p hp => (e.phonemes_plain p hp).2.1)
    (fun p hp => (e.phonemes_plain p (List.mem_of_mem_dropLast hp)).1) cmudict '\n'

/-- Only the entries of the lines count. -/
theorem foldlM_loadLine (lines : List Line) (cmudict : Cmudict) :
    (lines.map fun line => line.text ++ ['\n']).foldlM loadLine cmudict
      = (entries lines).foldlM loadEntry cmudict := by
  induction lines generalizing cmudict with
  | nil => rfl
  | cons line lines ih =>
    rw [List.map_cons, List.foldlM_cons]
    cases line with
    | comment text h =>
      rw [loadLine_comment]
      exact ih cmudict
    | entry e =>
      rw [loadLine_entry, entries, List.filterMap_cons_some (rfl : (Line.entry e).entryOf = some e),
        List.foldlM_cons]
      exact bind_congr fun cmudict => ih cmudict

/-! ## A line without its newline -/

/-- The last phoneme of an entry has a last character. -/
theorem Entry.exists_cut (e : Entry) :
    ∃ init p c, e.phonemes = init ++ [p ++ [c]] := by
  have hlast := (e.phonemes_plain _ (List.getLast_mem e.phonemes_ne_nil)).1
  refine ⟨e.phonemes.dropLast, (e.phonemes.getLast e.phonemes_ne_nil).dropLast,
    (e.phonemes.getLast e.phonemes_ne_nil).getLast hlast, ?_⟩
  rw [List.dropLast_concat_getLast, List.dropLast_concat_getLast]

/-- The end of the last phoneme is cut off. -/
theorem loadLine_cut (cmudict : Cmudict) {e : Entry} {init : List (List Char)} {p : List Char}
    {c : Char} (he : e.phonemes = init ++ [p ++ [c]]) :
    loadLine cmudict (Line.entry e).text
      = (clumpSyllables ((init ++ [p]).map lower)).map fun syllables =>
        Function.update cmudict e.key (some syllables) := by
  -- the last character is what `line[:-1]` takes off
  have htext : (Line.entry e).text
      = e.word ++ [' ', ' '] ++ [' '].intercalate (init ++ [p]) ++ [c] := by
    rw [Line.text, he, intercalate_concat_append]
    simp only [List.append_assoc]
  have hplain : ∀ q ∈ init ++ [p ++ [c]], q ≠ [] ∧ ' ' ∉ q ∧ '\n' ∉ q :=
    fun q hq => e.phonemes_plain q (he ▸ hq)
  rw [htext]
  refine loadLine_word e.word_plain.1 e.not_comment (List.concat_ne_nil _ _) ?_ ?_ cmudict c
  · intro q hq
    rcases List.mem_append.mp hq with hq | hq
    · exact (hplain q (List.mem_append_left _ hq)).2.1
    · rw [List.mem_singleton.mp hq]
      exact fun hmem => (hplain (p ++ [c]) (List.mem_append_right _ List.mem_cons_self)).2.1
        (List.mem_append_left _ hmem)
  · rw [List.dropLast_concat]
    exact fun q hq => (hplain q (List.mem_append_left _ hq)).1

/-- A vowel loses its mark, a consonant nothing. -/
theorem length_withoutStress (p : String) :
    (withoutStress p).toList.length = p.toList.length - if isVowel p then 1 else 0 := by
  unfold withoutStress
  split
  · rw [withoutLast, String.toList_ofList, List.length_dropLast]
  · rfl

theorem length_lower (p : List Char) : (lower p).toList.length = p.length := by
  rw [lower, String.toList_ofList, List.length_map]

/-- What is left never has the syllables of the word. -/
theorem not_syllabified_cut {init : List (List Char)} {p : List Char} {c : Char}
    {syllables : List SyllableArgs}
    (h : clumpSyllables ((init ++ [p]).map lower) = some syllables) :
    ¬ Syllabified ((init ++ [p ++ [c]]).map lower) syllables := by
  intro hwhole
  have hcut := syllabified_of_some h
  rw [List.map_append, List.map_singleton] at h hwhole hcut
  have hne : lower p ≠ "" :=
    (readable_of_some h).1 _ (List.mem_append_right _ List.mem_cons_self)
  have hlength : 0 < p.length := by
    refine List.length_pos_iff.mpr ?_
    rintro rfl
    exact hne rfl
  -- the rest of the phoneme is a vowel exactly when the phoneme is, as there is one syllable
  -- for each vowel
  have hvowel : isVowel (lower (p ++ [c])) = isVowel (lower p) := by
    have hcount := hwhole.length_eq.symm.trans hcut.length_eq
    rw [List.countP_append, List.countP_append, List.countP_singleton, List.countP_singleton]
      at hcount
    cases hw : isVowel (lower (p ++ [c])) <;> cases hp : isVowel (lower p) <;>
      simp [hw, hp] at hcount ⊢
  have hlast : withoutStress (lower (p ++ [c])) = withoutStress (lower p) := by
    have hphonemes := hwhole.phonemes_eq.symm.trans hcut.phonemes_eq
    rw [List.map_append, List.map_append] at hphonemes
    exact List.singleton_inj.mp (List.append_cancel_left hphonemes)
  -- and then it is too short
  have hlengths := congrArg (fun q => q.toList.length) hlast
  simp only [length_withoutStress, length_lower, List.length_append, List.length_singleton,
    hvowel] at hlengths
  split at hlengths <;> omega

/-- Without its last character an entry is not loaded as it was written. -/
theorem not_loadedIn_cut {d cmudict : Cmudict} {e : Entry}
    (hline : loadLine d (Line.entry e).text = some cmudict) : ¬ e.LoadedIn cmudict := by
  rintro ⟨syllables, hkey, hsyllabified⟩
  obtain ⟨init, p, c, hcut⟩ := e.exists_cut
  rw [loadLine_cut d hcut] at hline
  obtain ⟨syllables', hsome, rfl⟩ := Option.map_eq_some_iff.mp hline
  rw [Function.update_self] at hkey
  obtain rfl := Option.some.inj hkey
  rw [Entry.spoken, hcut] at hsyllabified
  exact not_syllabified_cut hsome hsyllabified

/-! ## The file -/

section File

variable {bytes : List UInt8} {lines : List Line} {newline : Bool}

/-- A file of text is read line by line. -/
theorem load_of_text {text : List Char} (hfile : readText bytes = some text) :
    load bytes = (readLines text).foldlM loadLine fun _ => none := by
  rw [load, hfile]
  rfl

/-- A file whose last entry ends with a line break has all of its entries. -/
theorem load_of_ended (hfile : readText bytes = some (written lines newline))
    (hended : newline = true ∨ ∀ e, lines.getLast? ≠ some (.entry e)) :
    load bytes = (entries lines).foldlM loadEntry fun _ => none := by
  rw [load_of_text hfile, ← foldlM_loadLine]
  cases newline with
  | true => rw [readLines_written]
  | false =>
    rcases List.eq_nil_or_concat' lines with rfl | ⟨init, last, rfl⟩
    · rfl
    · have hlast := hended.resolve_left Bool.false_ne_true
      cases last with
      | entry e => exact absurd List.getLast?_concat (hlast e)
      | comment text h =>
        -- a comment is skipped, with its newline or without
        rw [readLines_written_concat, List.map_append, List.foldlM_append, List.foldlM_append]
        rfl

/-- Without a line break the last entry is read without its last character. -/
theorem load_of_cut {e : Entry}
    (hfile : readText bytes = some (written (lines ++ [.entry e]) false)) :
    load bytes = ((entries lines).foldlM loadEntry fun _ => none).bind fun cmudict =>
      loadLine cmudict (Line.entry e).text := by
  rw [load_of_text hfile, readLines_written_concat, List.foldlM_append, foldlM_loadLine,
    Option.bind_eq_bind]
  simp only [List.foldlM_cons, List.foldlM_nil, bind_pure]

/-- In a file that is loadable each last entry of a word is looked up as written. -/
theorem load_of_loadable (hfile : readText bytes = some (written lines newline))
    (h : Loadable lines newline) :
    ∃ cmudict, load bytes = some cmudict ∧ ∀ pre e post, entries lines = pre ++ e :: post →
      (∀ e' ∈ post, e'.key ≠ e.key) → e.LoadedIn cmudict := by
  have hreturns : ∀ e ∈ entries lines, ∃ syllables, clumpSyllables e.spoken = some syllables :=
    fun e he => e.returns_iff.mpr (h.pronounced e he)
  obtain ⟨cmudict, hfold, hlast, -⟩ := exists_foldlM_update Entry.key hreturns fun _ => none
  refine ⟨cmudict, (load_of_ended hfile h.ended).trans hfold, fun pre e post he hpost => ?_⟩
  obtain ⟨syllables, hsome⟩ := hreturns e (by rw [he]; simp)
  exact ⟨syllables, (hlast pre e post he hpost).trans hsome, syllabified_of_some hsome⟩

/-- A last line without its newline is the last one of its word. -/
theorem ended_of_load (hfile : readText bytes = some (written lines newline))
    {cmudict : Cmudict} (hload : load bytes = some cmudict)
    (hwords : ∀ pre e post, entries lines = pre ++ e :: post →
      (∀ e' ∈ post, e'.key ≠ e.key) → e.LoadedIn cmudict) :
    newline = true ∨ ∀ e, lines.getLast? ≠ some (.entry e) := by
  by_contra hnot
  rw [not_or, not_forall] at hnot
  obtain ⟨hnewline, e, he⟩ := hnot
  obtain rfl : newline = false := Bool.eq_false_iff.mpr hnewline
  obtain ⟨init, rfl⟩ : ∃ init, lines = init ++ [.entry e] :=
    List.getLast?_eq_some_iff.mp (not_not.mp he)
  have hentries : entries (init ++ [.entry e]) = entries init ++ [e] := by
    rw [entries, List.filterMap_append]
    rfl
  rw [load_of_cut hfile] at hload
  obtain ⟨d, -, hline⟩ := Option.bind_eq_some_iff.mp hload
  exact not_loadedIn_cut hline
    (hwords (entries init) e [] hentries fun _ he' => absurd he' List.not_mem_nil)

/-- A file whose words have the syllables of their last lines. -/
theorem loadable_of_load (hfile : readText bytes = some (written lines newline))
    {cmudict : Cmudict} (hload : load bytes = some cmudict)
    (hwords : ∀ pre e post, entries lines = pre ++ e :: post →
      (∀ e' ∈ post, e'.key ≠ e.key) → e.LoadedIn cmudict) : Loadable lines newline := by
  have hended := ended_of_load hfile hload hwords
  refine ⟨fun e he => e.returns_iff.mp ?_, hended⟩
  -- no turn has raised an exception
  refine Option.ne_none_iff_exists'.mp fun hnone => ?_
  have hentry : ∀ d, loadEntry d e = none := fun d => by rw [loadEntry, hnone, Option.map_none]
  rw [load_of_ended hfile hended, foldlM_eq_none_of_mem he hentry] at hload
  cases hload

/-- **When the whole dictionary is loaded.** Each word has the syllables of its last line,
exactly when every word has a vowel, `int` reads the stress of its vowels, and the line of a
word ends in a newline. It has the syllables of all its lines, exactly when these have the
same syllables, too. -/
theorem load_iff (hfile : readText bytes = some (written lines newline)) :
    ((∃ cmudict, load bytes = some cmudict ∧ ∀ pre e post, entries lines = pre ++ e :: post →
        (∀ e' ∈ post, e'.key ≠ e.key) → e.LoadedIn cmudict) ↔ Loadable lines newline) ∧
    ((∃ cmudict, load bytes = some cmudict ∧ ∀ e ∈ entries lines, e.LoadedIn cmudict) ↔
      Loadable lines newline ∧ ∀ e ∈ entries lines, ∀ e' ∈ entries lines, e.key = e'.key →
        ∃ syllables, Syllabified e.spoken syllables ∧ Syllabified e'.spoken syllables) := by
  refine ⟨⟨?_, load_of_loadable hfile⟩, ?_, ?_⟩
  · rintro ⟨cmudict, hload, hwords⟩
    exact loadable_of_load hfile hload hwords
  · rintro ⟨cmudict, hload, hwords⟩
    refine ⟨loadable_of_load hfile hload fun pre e post he _ => hwords e (by rw [he]; simp),
      fun e he e' he' hkey => ?_⟩
    obtain ⟨syllables, hsome, hsyllabified⟩ := hwords e he
    obtain ⟨syllables', hsome', hsyllabified'⟩ := hwords e' he'
    rw [hkey, hsome'] at hsome
    exact ⟨syllables, hsyllabified, Option.some.inj hsome ▸ hsyllabified'⟩
  · rintro ⟨hloadable, hsame⟩
    obtain ⟨cmudict, hload, hlast⟩ := load_of_loadable hfile hloadable
    refine ⟨cmudict, hload, fun e he => ?_⟩
    -- the last line of the word
    obtain ⟨pre, e', post, hentries, hkey, hpost⟩ :=
      exists_last (p := fun e' : Entry => e'.key = e.key) ⟨e, he, rfl⟩
    obtain ⟨syllables, hsome, hsyllabified⟩ :=
      hlast pre e' post hentries fun e'' he'' => hkey ▸ hpost e'' he''
    obtain ⟨syllables', hone, hother⟩ :=
      hsame e he e' (by rw [hentries]; simp) hkey.symm
    exact ⟨syllables', hkey ▸ hsome.trans (congrArg some (hsyllabified.unique hother)), hone⟩

end File

/-- A word of two syllables. -/
def music : Entry :=
  ⟨"MUSIC".toList, ["M", "Y", "UW1", "Z", "IH0", "K"].map String.toList, by decide, by decide,
    by decide, by decide⟩

/-- The two ways to say "A". -/
def shortA : Entry := ⟨['A'], ["AH0".toList], by decide, by decide, by decide, by decide⟩

def longA : Entry := ⟨['A'], ["EY1".toList], by decide, by decide, by decide, by decide⟩

def shortDictionary : List Line :=
  [.comment " words".toList (by decide), .entry music, .entry shortA, .entry longA]

def shortFile : List UInt8 :=
  ";;; words\nMUSIC  M Y UW1 Z IH0 K\nA  AH0\nA  EY1\n".toList.map fun c => c.toNat.toUInt8

/-- Every word has the syllables of its last line, and "A" not also those of its first one. -/
theorem load_iff_short :
    (∃ cmudict, load shortFile = some cmudict ∧
      ∀ pre e post, entries shortDictionary = pre ++ e :: post →
        (∀ e' ∈ post, e'.key ≠ e.key) → e.LoadedIn cmudict) ∧
      ¬ ∃ cmudict, load shortFile = some cmudict ∧
        ∀ e ∈ entries shortDictionary, e.LoadedIn cmudict := by
  have hfile : readText shortFile = some (written shortDictionary true) := by decide +kernel
  obtain ⟨hlast, hall⟩ := load_iff hfile
  refine ⟨hlast.mpr ⟨by decide +kernel, .inl rfl⟩, ?_⟩
  intro h
  obtain ⟨-, hsame⟩ := hall.mp h
  obtain ⟨syllables, hshort, hlong⟩ :=
    hsame shortA (by simp [entries, shortDictionary, Line.entryOf]) longA
      (by simp [entries, shortDictionary, Line.entryOf]) rfl
  -- the phonemes of the two lines would be the same
  have hphonemes := hshort.phonemes_eq.symm.trans hlong.phonemes_eq
  exact absurd hphonemes (by decide +kernel)

example : (load shortFile).bind (· "music")
    = some [⟨["m", "y", "uw"], 1, "uw"⟩, ⟨["z", "ih", "k"], 0, "ih"⟩] := by decide +kernel

/-- The word "sh" has no vowel, and the line "A  AH0" has no newline. -/
theorem load_vowelless_or_cut :
    (readText [0x53, 0x48, 0x20, 0x20, 0x53, 0x48, 0x0a]
        = some (written [.entry ⟨['S', 'H'], [['S', 'H']], by decide, by decide, by decide,
          by decide⟩] true) ∧
      load [0x53, 0x48, 0x20, 0x20, 0x53, 0x48, 0x0a] = none) ∧
    readText [0x41, 0x20, 0x20, 0x41, 0x48, 0x30]
        = some (written [.entry ⟨['A'], [['A', 'H', '0']], by decide, by decide, by decide,
          by decide⟩] false) ∧
      load [0x41, 0x20, 0x20, 0x41, 0x48, 0x30] = none := by
  refine ⟨⟨by decide, by decide⟩, by decide, by decide⟩

end Vox.Labelizer
