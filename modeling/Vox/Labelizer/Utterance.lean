import Vox.Lib.Links
import Vox.Lib.Loops
import Mathlib.Algebra.Order.Ring.Nat
import Mathlib.Data.List.Basic

/-!
# Labelizer — an utterance and its labels

`labelizer.py`: an utterance is a tree of phrases, words, syllables and phonemes. Its
constructor links the phonemes, and the syllables, of the whole tree; a label asks each for
its neighbours, and gets a sentinel at the ends.

An object is known by its parent and its place there, so that two phonemes of one name are
two objects. A call that raises an exception has no result.

Main result: `asLabels_inContext`, one label for each phoneme, in its own context.
-/

namespace Vox.Labelizer

open Lib

/-! ## Positions and counts -/

section Lists

variable {α : Type} [DecidableEq α]

def linkConsecutive (theList : List α) (links : Links α) : Links α :=
  Links.tieFirst theList (theList.length - 1) links

def forwardPosition (element : α) (theList : List α) : Option Nat := do
  return (← theList.idxOf? element) + 1

def backwardPosition (element : α) (theList : List α) : Option Nat := do
  return theList.length - (← theList.idxOf? element)

/-- The loop of `count_before`, which returns nothing at the end of the list. -/
def countFrom (target : α) (predicate : α → Bool) : Nat → List α → Option Nat
  | _, [] => none
  | count, element :: rest =>
    if element = target then some count
    else countFrom target predicate (if predicate element then count + 1 else count) rest

def countBefore (theList : List α) (target : α) (predicate : α → Bool) : Option Nat :=
  countFrom target predicate 0 theList

def countAfter (theList : List α) (target : α) (predicate : α → Bool) : Option Nat :=
  countBefore theList.reverse target predicate

/-- The loop of `distance_from_previous`. -/
def distanceFrom (target : α) (predicate : α → Bool) : Nat → List α → Option Nat
  | _, [] => none
  | distance, element :: rest =>
    let distance := distance + 1
    if element = target then some distance
    else distanceFrom target predicate (if predicate element then 0 else distance) rest

def distanceFromPrevious (theList : List α) (target : α) (predicate : α → Bool) : Option Nat :=
  distanceFrom target predicate 0 theList

def distanceToNext (theList : List α) (target : α) (predicate : α → Bool) : Option Nat :=
  distanceFromPrevious theList.reverse target predicate

end Lists

/-! ## The tree -/

/-- What the constructor of a syllable takes, its parent apart. -/
structure SyllableArgs where
  phonemes : List String
  stress : Int
  vowelName : String
  deriving DecidableEq, Repr

/-- The syllables of a word, the words of a phrase, the phrases of an utterance. -/
abbrev WordArgs := List SyllableArgs
abbrev PhraseArgs := List WordArgs
abbrev UtteranceArgs := List PhraseArgs

structure Phrase where
  parent : UtteranceArgs
  index : Nat
  args : PhraseArgs
  deriving DecidableEq

structure Word where
  parent : Phrase
  index : Nat
  args : WordArgs
  deriving DecidableEq

/-- The parent of a syllable, and of a phoneme, is `None` in a sentinel. -/
structure Syllable where
  parent : Option Word
  index : Nat
  args : SyllableArgs
  deriving DecidableEq

structure Phoneme where
  parent : Option Syllable
  index : Nat
  name : String
  deriving DecidableEq

def UtteranceArgs.phrases (u : UtteranceArgs) : List Phrase := u.mapIdx fun i a => ⟨u, i, a⟩

def Phrase.words (phrase : Phrase) : List Word := phrase.args.mapIdx fun i a => ⟨phrase, i, a⟩

def Word.syllables (word : Word) : List Syllable :=
  word.args.mapIdx fun i a => ⟨some word, i, a⟩

def Syllable.phonemes (syllable : Syllable) : List Phoneme :=
  syllable.args.phonemes.mapIdx fun i name => ⟨some syllable, i, name⟩

def sentinelPhoneme : Phoneme := ⟨none, 0, "x"⟩

def sentinelSyllable : Syllable := ⟨none, 0, ⟨[], 0, "x"⟩⟩

def Phrase.numberOfWords (phrase : Phrase) : Nat := phrase.words.length

def Word.numberOfSyllables (word : Word) : Nat := word.syllables.length

def Phrase.numberOfSyllables (phrase : Phrase) : Nat :=
  (phrase.words.map Word.numberOfSyllables).sum

def Phrase.syllables (phrase : Phrase) : List Syllable := phrase.words.flatMap Word.syllables

namespace UtteranceArgs

def phonemes (u : UtteranceArgs) : List Phoneme :=
  u.phrases.flatMap fun phrase => phrase.words.flatMap fun word =>
    word.syllables.flatMap Syllable.phonemes

def syllables (u : UtteranceArgs) : List Syllable :=
  u.phrases.flatMap fun phrase => phrase.words.flatMap Word.syllables

def words (u : UtteranceArgs) : List Word := u.phrases.flatMap Phrase.words

def numberOfPhrases (u : UtteranceArgs) : Nat := u.phrases.length

def numberOfWords (u : UtteranceArgs) : Nat := (u.phrases.map Phrase.numberOfWords).sum

def numberOfSyllables (u : UtteranceArgs) : Nat := (u.phrases.map Phrase.numberOfSyllables).sum

end UtteranceArgs

/-- An utterance: its tree, and the attributes that link its objects. -/
structure Utterance where
  args : UtteranceArgs
  phonemeLinks : Links Phoneme
  syllableLinks : Links Syllable
  wordLinks : Links Word

/-- The constructor. -/
def Utterance.new (phrases : UtteranceArgs) : Utterance where
  args := phrases
  phonemeLinks := linkConsecutive phrases.phonemes Links.blank
  syllableLinks := linkConsecutive phrases.syllables Links.blank
  wordLinks := linkConsecutive phrases.words Links.blank

namespace Phoneme

variable (links : Links Phoneme) (phoneme : Phoneme)

def safePrevious : Phoneme := (links.previous phoneme).getD sentinelPhoneme

def safeNext : Phoneme := (links.next phoneme).getD sentinelPhoneme

def forwardPositionInSyllable : Option Nat := do
  forwardPosition phoneme (← phoneme.parent).phonemes

def backwardPositionInSyllable : Option Nat := do
  backwardPosition phoneme (← phoneme.parent).phonemes

end Phoneme

namespace Syllable

variable (links : Links Syllable) (syllable : Syllable)

def stressed : Nat := if syllable.args.stress = 1 then 1 else 0

def accented : Nat := if syllable.args.stress = 2 then 1 else 0

def numberOfPhonemes : Nat := syllable.phonemes.length

def safePrevious : Syllable := (links.previous syllable).getD sentinelSyllable

def safeNext : Syllable := (links.next syllable).getD sentinelSyllable

def phraseSyllables : Option (List Syllable) := do
  return (← syllable.parent).parent.syllables

def utteranceSyllables : Option (List Syllable) := do
  return (← syllable.parent).parent.parent.syllables

def forwardPositionInWord : Option Nat := do
  forwardPosition syllable (← syllable.parent).syllables

def backwardPositionInWord : Option Nat := do
  backwardPosition syllable (← syllable.parent).syllables

def forwardPositionInPhrase : Option Nat := do
  forwardPosition syllable (← syllable.phraseSyllables)

def backwardPositionInPhrase : Option Nat := do
  backwardPosition syllable (← syllable.phraseSyllables)

/-- The predicates that the counts are called with. -/
def isStressed : Bool := syllable.stressed ≠ 0

def isAccented : Bool := syllable.accented ≠ 0

end Syllable

/-! ## Labels -/

/-- The fields of `label_template`. A count that `count_before` and
`distance_from_previous` do not find is `None`. -/
structure Label where
  (p1 p2 p3 p4 p5 : String)
  (p6 p7 : Nat)
  (a1 a2 a3 : Nat)
  (b1 b2 b3 b4 b5 b6 b7 : Nat)
  (b8 b9 b10 b11 b12 b13 b14 b15 : Option Nat)
  (b16 : String)
  (c1 c2 c3 : Nat)
  (j1 j2 j3 : Nat)

/-- `str` of a count, or of `None`. -/
def str : Option Nat → String
  | none => "None"
  | some n => toString n

/-- `label_template.format`. -/
def Label.format (l : Label) : String :=
  l.p1 ++ "^" ++ l.p2 ++ "-" ++ l.p3 ++ "+" ++ l.p4 ++ "=" ++ l.p5 ++
    "@" ++ toString l.p6 ++ "_" ++ toString l.p7 ++
    "/A:" ++ toString l.a1 ++ "_" ++ toString l.a2 ++ "_" ++ toString l.a3 ++
    "/B:" ++ toString l.b1 ++ "-" ++ toString l.b2 ++ "-" ++ toString l.b3 ++
    "@" ++ toString l.b4 ++ "-" ++ toString l.b5 ++
    "&" ++ toString l.b6 ++ "-" ++ toString l.b7 ++
    "#" ++ str l.b8 ++ "-" ++ str l.b9 ++ "$" ++ str l.b10 ++ "-" ++ str l.b11 ++
    "!" ++ str l.b12 ++ "-" ++ str l.b13 ++ ";" ++ str l.b14 ++ "-" ++ str l.b15 ++
    "|" ++ l.b16 ++
    "/C:" ++ toString l.c1 ++ "+" ++ toString l.c2 ++ "+" ++ toString l.c3 ++
    "/J:" ++ toString l.j1 ++ "+" ++ toString l.j2 ++ "-" ++ toString l.j3

namespace Utterance

/-- The fields of the label of a phoneme. -/
def label (u : Utterance) (phoneme : Phoneme) : Option Label := do
  let syllable ← phoneme.parent
  let previous := syllable.safePrevious u.syllableLinks
  let next := syllable.safeNext u.syllableLinks
  let phraseSyllables ← syllable.phraseSyllables
  let utteranceSyllables ← syllable.utteranceSyllables
  return {
    p1 := ((phoneme.safePrevious u.phonemeLinks).safePrevious u.phonemeLinks).name
    p2 := (phoneme.safePrevious u.phonemeLinks).name
    p3 := phoneme.name
    p4 := (phoneme.safeNext u.phonemeLinks).name
    p5 := ((phoneme.safeNext u.phonemeLinks).safeNext u.phonemeLinks).name
    p6 := ← phoneme.forwardPositionInSyllable
    p7 := ← phoneme.backwardPositionInSyllable
    a1 := previous.stressed
    a2 := previous.accented
    a3 := previous.numberOfPhonemes
    b1 := syllable.stressed
    b2 := syllable.accented
    b3 := syllable.numberOfPhonemes
    b4 := ← syllable.forwardPositionInWord
    b5 := ← syllable.backwardPositionInWord
    b6 := ← syllable.forwardPositionInPhrase
    b7 := ← syllable.backwardPositionInPhrase
    b8 := countBefore phraseSyllables syllable Syllable.isStressed
    b9 := countAfter phraseSyllables syllable Syllable.isStressed
    b10 := countBefore phraseSyllables syllable Syllable.isAccented
    b11 := countAfter phraseSyllables syllable Syllable.isAccented
    b12 := distanceFromPrevious utteranceSyllables syllable Syllable.isStressed
    b13 := distanceToNext utteranceSyllables syllable Syllable.isStressed
    b14 := distanceFromPrevious utteranceSyllables syllable Syllable.isAccented
    b15 := distanceToNext utteranceSyllables syllable Syllable.isAccented
    b16 := syllable.args.vowelName
    c1 := next.stressed
    c2 := next.accented
    c3 := next.numberOfPhonemes
    j1 := u.args.numberOfSyllables
    j2 := u.args.numberOfWords
    j3 := u.args.numberOfPhrases }

def asLabels (u : Utterance) : Option (List String) :=
  u.args.phonemes.mapM fun phoneme => return (← u.label phoneme).format

end Utterance

/-! ## The tree in reading order -/

/-- A phoneme knows the syllable that it was made in. -/
theorem Syllable.parent_phonemes (syllable : Syllable) :
    ∀ ph ∈ syllable.phonemes, ph.parent = some syllable :=
  fun _ h => parent_mapIdx h Phoneme.parent fun _ _ => rfl

theorem Word.parent_syllables (word : Word) : ∀ s ∈ word.syllables, s.parent = some word :=
  fun _ h => parent_mapIdx h Syllable.parent fun _ _ => rfl

theorem Phrase.parent_words (phrase : Phrase) : ∀ w ∈ phrase.words, w.parent = phrase :=
  fun _ h => parent_mapIdx h Word.parent fun _ _ => rfl

/-- Its phonemes have the names that the syllable was given. -/
theorem Syllable.map_name_phonemes (syllable : Syllable) :
    syllable.phonemes.map Phoneme.name = syllable.args.phonemes :=
  map_mapIdx_eq (fun _ _ => rfl) _

/-- The syllables of a word are those that it was given. -/
theorem Word.map_args_syllables (word : Word) : word.syllables.map Syllable.args = word.args :=
  map_mapIdx_eq (fun _ _ => rfl) _

/-- The words of a phrase are those that it was given. -/
theorem Phrase.map_args_words (phrase : Phrase) : phrase.words.map Word.args = phrase.args :=
  map_mapIdx_eq (fun _ _ => rfl) _

namespace UtteranceArgs

variable (u : UtteranceArgs)

/-- The phrases of an utterance are those that it was given. -/
theorem map_args_phrases : u.phrases.map Phrase.args = u := map_mapIdx_eq (fun _ _ => rfl) _

theorem parent_phrases : ∀ phrase ∈ u.phrases, phrase.parent = u :=
  fun _ h => parent_mapIdx h Phrase.parent fun _ _ => rfl

/-- Syllables are collected word by word. -/
theorem syllables_eq : u.syllables = u.words.flatMap Word.syllables := by
  rw [syllables, words, List.flatMap_assoc]

/-- Phonemes are collected syllable by syllable. -/
theorem phonemes_eq : u.phonemes = u.syllables.flatMap Syllable.phonemes := by
  rw [phonemes, syllables, List.flatMap_assoc]
  simp only [List.flatMap_assoc]

/-- No word occurs twice, as words carry their indices. -/
theorem nodup_words : u.words.Nodup :=
  nodup_flatMap_of_parent (fun w => some w.parent) (nodup_mapIdx Phrase.index (fun _ _ => rfl) _)
    (fun _ => nodup_mapIdx Word.index (fun _ _ => rfl) _)
    (fun phrase w hw => congrArg some (phrase.parent_words w hw))

theorem nodup_syllables : u.syllables.Nodup := by
  rw [syllables_eq]
  exact nodup_flatMap_of_parent Syllable.parent u.nodup_words
    (fun _ => nodup_mapIdx Syllable.index (fun _ _ => rfl) _) Word.parent_syllables

theorem nodup_phonemes : u.phonemes.Nodup := by
  rw [phonemes_eq]
  exact nodup_flatMap_of_parent Phoneme.parent u.nodup_syllables
    (fun _ => nodup_mapIdx Phoneme.index (fun _ _ => rfl) _) Syllable.parent_phonemes

/-- The syllables that the constructor is given, in reading order. -/
def reading : List SyllableArgs := u.flatten.flatten

/-- The names of the phonemes in reading order, each with the number of its syllable. -/
def spoken : List (Nat × String) :=
  u.reading.zipIdx.flatMap fun s => s.1.phonemes.map fun name => (s.2, name)

/-- The words of all phrases, in order. -/
theorem map_args_words : u.words.map Word.args = u.flatten := by
  rw [words, List.map_flatMap]
  simp only [Phrase.map_args_words]
  rw [List.flatMap_def, map_args_phrases]

/-- The syllables of all words, in order. -/
theorem map_args_syllables : u.syllables.map Syllable.args = u.reading := by
  rw [syllables_eq, List.map_flatMap]
  simp only [Word.map_args_syllables]
  rw [List.flatMap_def, map_args_words, reading]

/-- The phonemes, each with the number of its syllable. -/
def placed : List (Nat × Phoneme) :=
  u.syllables.zipIdx.flatMap fun s => s.1.phonemes.map fun phoneme => (s.2, phoneme)

/-- Without their syllables' numbers the placed phonemes are the phonemes. -/
theorem map_snd_placed : u.placed.map Prod.snd = u.phonemes := by
  rw [phonemes_eq, placed, List.map_flatMap]
  simp only [List.map_map, Function.comp_def, List.map_id']
  conv_rhs => rw [← List.zipIdx_map_fst 0 u.syllables, List.flatMap_map]

/-- The names and the numbers are those of the reading. -/
theorem map_name_placed : u.placed.map (fun ph => (ph.1, ph.2.name)) = u.spoken := by
  rw [placed, spoken, ← map_args_syllables, List.zipIdx_map, List.flatMap_map, List.map_flatMap]
  simp only [← Syllable.map_name_phonemes, List.map_map, Function.comp_def, Prod.map_fst,
    Prod.map_snd, id_eq]

/-- A placed phoneme is a phoneme of that syllable. -/
theorem parent_placed {j : Nat} {phoneme : Phoneme} (h : (j, phoneme) ∈ u.placed) :
    ∃ syllable, u.syllables[j]? = some syllable ∧ phoneme ∈ syllable.phonemes := by
  obtain ⟨⟨syllable, k⟩, hs, hph⟩ := List.mem_flatMap.mp h
  obtain ⟨phoneme, hmem, heq⟩ := List.mem_map.mp hph
  obtain ⟨rfl, rfl⟩ := Prod.mk.inj heq
  exact ⟨syllable, List.mk_mem_zipIdx_iff_getElem?.mp hs, hmem⟩

/-- The names of the phonemes, in the order in which they are spoken. -/
theorem map_name_phonemes : u.phonemes.map Phoneme.name = u.spoken.map Prod.snd := by
  rw [← map_snd_placed, ← map_name_placed, List.map_map, List.map_map]
  rfl

/-- `number_of_phrases` counts what the utterance was given. -/
theorem numberOfPhrases_eq : u.numberOfPhrases = u.length := List.length_mapIdx

/-- `number_of_words` counts the words of all phrases. -/
theorem numberOfWords_eq : u.numberOfWords = u.flatten.length := by
  rw [numberOfWords, ← map_args_words, List.length_map, words, List.length_flatMap]
  rfl

/-- `number_of_syllables` counts the syllables of all words. -/
theorem numberOfSyllables_eq : u.numberOfSyllables = u.reading.length := by
  rw [numberOfSyllables, ← map_args_syllables, List.length_map, syllables, List.length_flatMap]
  congr 2
  funext phrase
  rw [Phrase.numberOfSyllables, List.length_flatMap]
  rfl

/-- The name of a phoneme of the utterance by its number, `x` beyond either end. -/
def nameAt (k : Int) : String := Links.atOr "x" (u.spoken.map Prod.snd) k

/-- A syllable of the utterance by its number, without phonemes beyond either end. -/
def syllableAt (k : Int) : SyllableArgs := Links.atOr ⟨[], 0, "x"⟩ u.reading k

end UtteranceArgs

/-! ## Every label is in its context -/

/-- Stressed or not, accented or not, and the number of phonemes. -/
def SyllableArgs.features (s : SyllableArgs) : Nat × Nat × Nat :=
  (if s.stress = 1 then 1 else 0, if s.stress = 2 then 1 else 0, s.phonemes.length)

/-- The label of phoneme `i` of an utterance, which is in its syllable `j`. -/
structure Label.InContext (u : UtteranceArgs) (i j : Nat) (label : Label) : Prop where
  p1_eq : label.p1 = u.nameAt (i - 2)
  p2_eq : label.p2 = u.nameAt (i - 1)
  p3_eq : label.p3 = u.nameAt i
  p4_eq : label.p4 = u.nameAt (i + 1)
  p5_eq : label.p5 = u.nameAt (i + 2)
  a_eq : (label.a1, label.a2, label.a3) = (u.syllableAt (j - 1)).features
  c_eq : (label.c1, label.c2, label.c3) = (u.syllableAt (j + 1)).features
  j1_eq : label.j1 = u.reading.length
  j2_eq : label.j2 = u.flatten.length
  j3_eq : label.j3 = u.length

/-- What the label counts around a syllable, in its phrase and in the utterance. -/
structure Label.Counted (phraseSyllables utteranceSyllables : List Syllable) (s : Syllable)
    (label : Label) : Prop where
  b8_eq : label.b8 = countBefore phraseSyllables s Syllable.isStressed
  b9_eq : label.b9 = countAfter phraseSyllables s Syllable.isStressed
  b10_eq : label.b10 = countBefore phraseSyllables s Syllable.isAccented
  b11_eq : label.b11 = countAfter phraseSyllables s Syllable.isAccented
  b12_eq : label.b12 = distanceFromPrevious utteranceSyllables s Syllable.isStressed
  b13_eq : label.b13 = distanceToNext utteranceSyllables s Syllable.isStressed
  b14_eq : label.b14 = distanceFromPrevious utteranceSyllables s Syllable.isAccented
  b15_eq : label.b15 = distanceToNext utteranceSyllables s Syllable.isAccented

/-- What a label reads of the neighbours of its phoneme and of its syllable. -/
structure Label.Neighbouring (u : Utterance) (phoneme : Phoneme) (s : Syllable)
    (label : Label) : Prop where
  p1_eq : label.p1 =
    ((phoneme.safePrevious u.phonemeLinks).safePrevious u.phonemeLinks).name
  p2_eq : label.p2 = (phoneme.safePrevious u.phonemeLinks).name
  p3_eq : label.p3 = phoneme.name
  p4_eq : label.p4 = (phoneme.safeNext u.phonemeLinks).name
  p5_eq : label.p5 = ((phoneme.safeNext u.phonemeLinks).safeNext u.phonemeLinks).name
  a_eq : (label.a1, label.a2, label.a3) =
    ((s.safePrevious u.syllableLinks).stressed, (s.safePrevious u.syllableLinks).accented,
      (s.safePrevious u.syllableLinks).numberOfPhonemes)
  c_eq : (label.c1, label.c2, label.c3) =
    ((s.safeNext u.syllableLinks).stressed, (s.safeNext u.syllableLinks).accented,
      (s.safeNext u.syllableLinks).numberOfPhonemes)
  j1_eq : label.j1 = u.args.numberOfSyllables
  j2_eq : label.j2 = u.args.numberOfWords
  j3_eq : label.j3 = u.args.numberOfPhrases

/-- What a label reads of its phoneme and of its syllable themselves. -/
structure Label.Positioned (phoneme : Phoneme) (s : Syllable) (label : Label) : Prop where
  p6_eq : phoneme.forwardPositionInSyllable = some label.p6
  p7_eq : phoneme.backwardPositionInSyllable = some label.p7
  b1_eq : label.b1 = s.stressed
  b2_eq : label.b2 = s.accented
  b3_eq : label.b3 = s.numberOfPhonemes
  b4_eq : s.forwardPositionInWord = some label.b4
  b5_eq : s.backwardPositionInWord = some label.b5
  b6_eq : s.forwardPositionInPhrase = some label.b6
  b7_eq : s.backwardPositionInPhrase = some label.b7

/-- A phoneme of an utterance, with what it is part of. -/
structure InTree (u : UtteranceArgs) (phrase : Phrase) (word : Word) (s : Syllable)
    (phoneme : Phoneme) : Prop where
  phrase_mem : phrase ∈ u.phrases
  word_mem : word ∈ phrase.words
  syllable_mem : s ∈ word.syllables
  phoneme_mem : phoneme ∈ s.phonemes

/-- The three printed features of a syllable depend on its arguments only. -/
theorem Syllable.features_eq (s : Syllable) :
    (s.stressed, s.accented, s.numberOfPhonemes) = s.args.features := by
  rw [numberOfPhonemes, phonemes, List.length_mapIdx]
  rfl

section Positions

variable {α : Type} [DecidableEq α] {element : α} {theList : List α}

/-- `list.index` raises no exception for a member. -/
theorem exists_idxOf (h : element ∈ theList) : ∃ n, theList.idxOf? element = some n := by
  cases hindex : theList.idxOf? element with
  | none => exact absurd h (List.idxOf?_eq_none_iff.mp hindex)
  | some n => exact ⟨n, rfl⟩

/-- An element of the list has a forward position. -/
theorem exists_forwardPosition (h : element ∈ theList) :
    ∃ n, forwardPosition element theList = some n := by
  obtain ⟨n, hn⟩ := exists_idxOf h
  exact ⟨n + 1, by rw [forwardPosition, hn]; rfl⟩

theorem exists_backwardPosition (h : element ∈ theList) :
    ∃ n, backwardPosition element theList = some n := by
  obtain ⟨n, hn⟩ := exists_idxOf h
  exact ⟨theList.length - n, by rw [backwardPosition, hn]; rfl⟩

end Positions

namespace Utterance

variable (u : UtteranceArgs)

/-- The phonemes are linked in the order in which they are spoken. -/
theorem along_phonemes : (new u).phonemeLinks.Along u.phonemes :=
  Links.along_tieAll u.nodup_phonemes

theorem along_syllables : (new u).syllableLinks.Along u.syllables :=
  Links.along_tieAll u.nodup_syllables

variable {u}

/-- A phoneme of the utterance is in a syllable of a word of a phrase. -/
theorem mem_phonemes {ph : Phoneme} (h : ph ∈ u.phonemes) :
    ∃ phrase ∈ u.phrases, ∃ word ∈ phrase.words, ∃ s ∈ word.syllables, ph ∈ s.phonemes := by
  simpa [UtteranceArgs.phonemes] using h

/-- A syllable of the utterance is in a word of a phrase. -/
theorem mem_syllables {s : Syllable} (h : s ∈ u.syllables) :
    ∃ phrase ∈ u.phrases, ∃ word ∈ phrase.words, s ∈ word.syllables := by
  simpa [UtteranceArgs.syllables] using h

/-- No sentinel is in the tree. -/
theorem sentinelPhoneme_not_mem : sentinelPhoneme ∉ u.phonemes := by
  intro h
  obtain ⟨-, -, -, -, s, -, hs⟩ := mem_phonemes h
  exact nomatch s.parent_phonemes _ hs

/-- The sentinel is no syllable of an utterance. -/
theorem sentinelSyllable_not_mem : sentinelSyllable ∉ u.syllables := by
  intro h
  obtain ⟨-, -, word, -, hs⟩ := mem_syllables h
  exact nomatch word.parent_syllables _ hs

/-- The phoneme at a place, or else the sentinel, has the name that the reading has there. -/
theorem name_atOr (k : Int) :
    (Links.atOr sentinelPhoneme u.phonemes k).name = u.nameAt k := by
  rw [Links.atOr_map Phoneme.name, u.map_name_phonemes]
  rfl

/-- The syllable at a place, or else the sentinel, has the arguments of the reading. -/
theorem args_atOr (k : Int) :
    (Links.atOr sentinelSyllable u.syllables k).args = u.syllableAt k := by
  rw [Links.atOr_map Syllable.args, u.map_args_syllables]
  rfl

section Neighbours

variable {i : Nat} {k : Int}

/-- `safe_next` is one place further, up to the sentinel behind the last phoneme. -/
theorem safeNext_phoneme (hk : 0 ≤ k) :
    (Links.atOr sentinelPhoneme u.phonemes k).safeNext (new u).phonemeLinks
      = Links.atOr sentinelPhoneme u.phonemes (k + 1) :=
  (along_phonemes u).getD_next sentinelPhoneme_not_mem hk

/-- `safe_previous` is one place back, down to the sentinel before the first phoneme. -/
theorem safePrevious_phoneme (hk : k < u.phonemes.length) :
    (Links.atOr sentinelPhoneme u.phonemes k).safePrevious (new u).phonemeLinks
      = Links.atOr sentinelPhoneme u.phonemes (k - 1) :=
  (along_phonemes u).getD_previous sentinelPhoneme_not_mem hk

theorem safeNext_syllable (hk : 0 ≤ k) :
    (Links.atOr sentinelSyllable u.syllables k).safeNext (new u).syllableLinks
      = Links.atOr sentinelSyllable u.syllables (k + 1) :=
  (along_syllables u).getD_next sentinelSyllable_not_mem hk

theorem safePrevious_syllable (hk : k < u.syllables.length) :
    (Links.atOr sentinelSyllable u.syllables k).safePrevious (new u).syllableLinks
      = Links.atOr sentinelSyllable u.syllables (k - 1) :=
  (along_syllables u).getD_previous sentinelSyllable_not_mem hk

end Neighbours

end Utterance

/-- From a syllable up the tree and down again: all syllables of the utterance. -/
theorem Syllable.utteranceSyllables_of_mem {u : UtteranceArgs} {phrase : Phrase} {word : Word}
    {s : Syllable} (hphrase : phrase ∈ u.phrases) (hword : word ∈ phrase.words)
    (hs : s ∈ word.syllables) : s.utteranceSyllables = some u.syllables := by
  rw [Syllable.utteranceSyllables, word.parent_syllables s hs, Option.bind_eq_bind,
    Option.bind_some, phrase.parent_words word hword, u.parent_phrases phrase hphrase]
  rfl

namespace InTree

variable {u : UtteranceArgs} {phrase : Phrase} {word : Word} {s : Syllable} {phoneme : Phoneme}
  (h : InTree u phrase word s phoneme)

include h

theorem phoneme_parent : phoneme.parent = some s := s.parent_phonemes phoneme h.phoneme_mem

theorem syllable_parent : s.parent = some word := word.parent_syllables s h.syllable_mem

theorem word_parent : word.parent = phrase := phrase.parent_words word h.word_mem

theorem mem_phrase : s ∈ phrase.syllables := List.mem_flatMap.mpr ⟨word, h.word_mem, h.syllable_mem⟩

/-- The list that the counts of a label go through. -/
theorem phraseSyllables_eq : s.phraseSyllables = some phrase.syllables := by
  rw [Syllable.phraseSyllables, h.syllable_parent, Option.bind_eq_bind, Option.bind_some,
    h.word_parent]
  rfl

/-- The list that the distances of a label go through. -/
theorem utteranceSyllables_eq : s.utteranceSyllables = some u.syllables :=
  Syllable.utteranceSyllables_of_mem h.phrase_mem h.word_mem h.syllable_mem

/-- Field `b4` is a position among the syllables of the word. -/
theorem forwardPositionInWord_eq : s.forwardPositionInWord = forwardPosition s word.syllables := by
  rw [Syllable.forwardPositionInWord, h.syllable_parent]
  rfl

theorem backwardPositionInWord_eq :
    s.backwardPositionInWord = backwardPosition s word.syllables := by
  rw [Syllable.backwardPositionInWord, h.syllable_parent]
  rfl

/-- Field `b6` is a position among the syllables of the phrase. -/
theorem forwardPositionInPhrase_eq :
    s.forwardPositionInPhrase = forwardPosition s phrase.syllables := by
  rw [Syllable.forwardPositionInPhrase, h.phraseSyllables_eq]
  rfl

theorem backwardPositionInPhrase_eq :
    s.backwardPositionInPhrase = backwardPosition s phrase.syllables := by
  rw [Syllable.backwardPositionInPhrase, h.phraseSyllables_eq]
  rfl

/-- Field `p6` is a position among the phonemes of the syllable. -/
theorem forwardPositionInSyllable_eq :
    phoneme.forwardPositionInSyllable = forwardPosition phoneme s.phonemes := by
  rw [Phoneme.forwardPositionInSyllable, h.phoneme_parent]
  rfl

theorem backwardPositionInSyllable_eq :
    phoneme.backwardPositionInSyllable = backwardPosition phoneme s.phonemes := by
  rw [Phoneme.backwardPositionInSyllable, h.phoneme_parent]
  rfl

/-- **The label of a phoneme of the tree**: no call raises an exception. -/
theorem label_read :
    ∃ label, (Utterance.new u).label phoneme = some label ∧
      label.Neighbouring (Utterance.new u) phoneme s ∧ label.Positioned phoneme s ∧
      label.Counted phrase.syllables u.syllables s := by
  -- the positions are those of elements of their lists, so that no `index` raises
  obtain ⟨p6, hp6⟩ := exists_forwardPosition h.phoneme_mem
  obtain ⟨p7, hp7⟩ := exists_backwardPosition h.phoneme_mem
  obtain ⟨b4, hb4⟩ := exists_forwardPosition h.syllable_mem
  obtain ⟨b5, hb5⟩ := exists_backwardPosition h.syllable_mem
  obtain ⟨b6, hb6⟩ := exists_forwardPosition h.mem_phrase
  obtain ⟨b7, hb7⟩ := exists_backwardPosition h.mem_phrase
  rw [← h.forwardPositionInSyllable_eq] at hp6
  rw [← h.backwardPositionInSyllable_eq] at hp7
  rw [← h.forwardPositionInWord_eq] at hb4
  rw [← h.backwardPositionInWord_eq] at hb5
  rw [← h.forwardPositionInPhrase_eq] at hb6
  rw [← h.backwardPositionInPhrase_eq] at hb7
  -- all the lookups of the method succeed
  simp only [Utterance.label, h.phoneme_parent, h.phraseSyllables_eq, h.utteranceSyllables_eq,
    Option.bind_eq_bind, Option.bind_some, Option.pure_def, hp6, hp7, hb4, hb5, hb6, hb7]
  exact ⟨_, rfl, ⟨rfl, rfl, rfl, rfl, rfl, rfl, rfl, rfl, rfl, rfl⟩,
    ⟨hp6, hp7, rfl, rfl, rfl, hb4, hb5, hb6, hb7⟩,
    ⟨rfl, rfl, rfl, rfl, rfl, rfl, rfl, rfl⟩⟩

end InTree

namespace Utterance

variable {u : UtteranceArgs}

/-- A phoneme that is placed is in the tree. -/
theorem inTree_of_placed {j : Nat} {ph : Phoneme} (hj : (j, ph) ∈ u.placed) :
    ∃ phrase word s, InTree u phrase word s ph ∧ u.syllables[j]? = some s := by
  obtain ⟨s, hs, hph⟩ := u.parent_placed hj
  obtain ⟨phrase, hphrase, word, hword, hsyllable⟩ := mem_syllables (List.mem_of_getElem? hs)
  exact ⟨phrase, word, s, ⟨hphrase, hword, hsyllable, hph⟩, hs⟩

/-- The label of one phoneme. -/
theorem label_inContext {i j : Nat} {ph : Phoneme} (hi : u.phonemes[i]? = some ph)
    (hj : (j, ph) ∈ u.placed) :
    ∃ label, (new u).label ph = some label ∧ label.InContext u i j ∧
      ∃ phrase ∈ u.phrases, ∃ s, u.syllables[j]? = some s ∧
        label.Counted phrase.syllables u.syllables s := by
  obtain ⟨phrase, word, s, htree, hs⟩ := inTree_of_placed hj
  obtain ⟨label, hlabel, hread, -, hcounted⟩ := htree.label_read
  refine ⟨label, hlabel, ?_, phrase, htree.phrase_mem, s, hs, hcounted⟩
  have hlt : i < u.phonemes.length := (List.getElem?_eq_some_iff.mp hi).1
  have hltj : j < u.syllables.length := (List.getElem?_eq_some_iff.mp hs).1
  obtain rfl : Links.atOr sentinelPhoneme u.phonemes i = ph := Links.atOr_ofNat hi _
  obtain rfl : Links.atOr sentinelSyllable u.syllables j = s := Links.atOr_ofNat hs _
  obtain ⟨hp1, hp2, hp3, hp4, hp5, ha, hc, hj1, hj2, hj3⟩ := hread
  -- a neighbour is a step along the list, the neighbour's neighbour another one
  rw [safePrevious_phoneme (by omega), safePrevious_phoneme (by omega), name_atOr] at hp1
  rw [safePrevious_phoneme (by omega), name_atOr] at hp2
  rw [name_atOr] at hp3
  rw [safeNext_phoneme (by omega), name_atOr] at hp4
  rw [safeNext_phoneme (by omega), safeNext_phoneme (by omega), name_atOr] at hp5
  rw [safePrevious_syllable (by omega), Syllable.features_eq, args_atOr] at ha
  rw [safeNext_syllable (by omega), Syllable.features_eq, args_atOr] at hc
  -- two steps are one of two places, and the totals are those of the arguments
  refine ⟨?_, hp2, hp3, hp4, ?_, ha, hc, ?_, ?_, ?_⟩
  · rw [hp1]
    congr 1
    omega
  · rw [hp5, Int.add_assoc]
    rfl
  · exact hj1.trans u.numberOfSyllables_eq
  · exact hj2.trans u.numberOfWords_eq
  · exact hj3.trans u.numberOfPhrases_eq

/-- **What is printed**: the text of the label of each phoneme, in reading order. -/
theorem asLabels_eq (u : UtteranceArgs) :
    ∃ labels : List Label, (new u).asLabels = some (labels.map Label.format) ∧
      u.phonemes.map (new u).label = labels.map some := by
  -- every phoneme is in the tree, and its label is read there
  have hreturns : ∀ ph ∈ u.phonemes, ∃ label, (new u).label ph = some label := by
    intro ph hph
    rw [← u.map_snd_placed] at hph
    obtain ⟨⟨j, ph⟩, hj, rfl⟩ := List.mem_map.mp hph
    obtain ⟨phrase, word, s, htree, -⟩ := inTree_of_placed hj
    obtain ⟨label, hlabel, -⟩ := htree.label_read
    exact ⟨label, hlabel⟩
  obtain ⟨labels, hlabels⟩ := exists_map_some hreturns
  refine ⟨labels, mapM_of_map_some ?_, hlabels⟩
  -- the comprehension formats each label that it has read
  have hformat : (fun phoneme => (do return (← (new u).label phoneme).format : Option String)) =
      Option.map Label.format ∘ (new u).label := by
    funext phoneme
    simp [Option.map_eq_bind]
  show u.phonemes.map _ = _
  rw [hformat, ← List.map_map, hlabels, List.map_map, List.map_map]
  rfl

/-- Entry `i` of the list is the label of phoneme `i`. -/
theorem getElem?_labels {u : UtteranceArgs} {labels : List Label}
    (hlabels : u.phonemes.map (new u).label = labels.map some) {i : Nat} {ph : Phoneme}
    (hi : u.phonemes[i]? = some ph) : labels[i]? = (new u).label ph := by
  have hat := congrArg (fun l : List (Option Label) => l[i]?) hlabels
  rw [List.getElem?_map, List.getElem?_map, hi, Option.map_some] at hat
  obtain ⟨label, hlabel, heq⟩ := Option.map_eq_some_iff.mp hat.symm
  rw [hlabel, heq]

/-- **Each phoneme gets its own label in its own context**: an utterance of any shape has
one label for each of its phonemes in reading order, and the label of phoneme `i`, which is
in syllable `j` of the utterance, names its neighbours and describes those of the syllable. -/
theorem asLabels_inContext (u : UtteranceArgs) :
    ∃ labels, (new u).asLabels = some labels ∧ labels.length = u.spoken.length ∧
      ∀ i j name, u.spoken[i]? = some (j, name) →
        ∃ label : Label, labels[i]? = some label.format ∧ label.InContext u i j := by
  obtain ⟨labels, hprinted, hlabels⟩ := asLabels_eq u
  have hlength := congrArg List.length hlabels
  rw [List.length_map, List.length_map] at hlength
  refine ⟨labels.map Label.format, hprinted, ?_, ?_⟩
  · rw [List.length_map, ← hlength, ← u.map_name_placed, List.length_map, ← u.map_snd_placed,
      List.length_map]
  · intro i j name hi
    rw [← u.map_name_placed, List.getElem?_map] at hi
    -- the phoneme with this name, and the number of its syllable
    obtain ⟨⟨j', ph⟩, hplaced, heq⟩ := Option.map_eq_some_iff.mp hi
    obtain ⟨rfl, rfl⟩ := Prod.mk.inj heq
    have hph : u.phonemes[i]? = some ph := by
      rw [← u.map_snd_placed, List.getElem?_map, hplaced]
      rfl
    obtain ⟨label, hlabel, hcontext, -⟩ := label_inContext hph (List.mem_of_getElem? hplaced)
    refine ⟨label, ?_, hcontext⟩
    rw [List.getElem?_map, getElem?_labels hlabels hph, hlabel]
    rfl

end Utterance

end Vox.Labelizer
