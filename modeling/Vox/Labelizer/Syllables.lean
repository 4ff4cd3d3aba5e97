import Vox.Labelizer.Utterance
import Vox.Lib.Cut
import Vox.Lib.Loops

/-!
# Labelizer — syllables from phonemes

`clump_syllables` takes the phonemes of a word. A phoneme that ends in a digit is a vowel,
and the digit its stress. The list is cut behind each vowel, and what is behind the last one
goes to the last syllable; then `extract_stress_and_vowel_name` looks for the vowel again.

* `Clump` — a syllable: consonants, the vowel, and consonants behind it.
* `Syllabified` — what the syllables of a word are to be, which determines them
  (`Syllabified.unique`).
* `clumpSyllables_iff` — they are that, if `int` reads the stress of every vowel. Some digits
  are not decimal, and `isdigit` accepts them, too.
-/

namespace Vox.Labelizer

open Lib

/-! ## Digits -/

/-- The zeros of Unicode. The other nine decimal digits of a script follow its zero. -/
def decimalZeros : List Nat :=
  [0x30, 0x660, 0x6f0, 0x7c0, 0x966, 0x9e6, 0xa66, 0xae6, 0xb66, 0xbe6, 0xc66, 0xce6, 0xd66,
    0xde6, 0xe50, 0xed0, 0xf20, 0x1040, 0x1090, 0x17e0, 0x1810, 0x1946, 0x19d0, 0x1a80, 0x1a90,
    0x1b50, 0x1bb0, 0x1c40, 0x1c50, 0xa620, 0xa8d0, 0xa900, 0xa9d0, 0xa9f0, 0xaa50, 0xabf0,
    0xff10, 0x104a0, 0x10d30, 0x11066, 0x110f0, 0x11136, 0x111d0, 0x112f0, 0x11450, 0x114d0,
    0x11650, 0x116c0, 0x11730, 0x118e0, 0x11950, 0x11c50, 0x11d50, 0x11da0, 0x16a60, 0x16ac0,
    0x16b50, 0x1d7ce, 0x1d7d8, 0x1d7e2, 0x1d7ec, 0x1d7f6, 0x1e140, 0x1e2f0, 0x1e950, 0x1fbf0]

/-- The other digits of Unicode, from the first to the last of a block: superscripts and
subscripts, digits in circles, in parentheses or with a full stop, and those of scripts that
have no zero. -/
def otherDigits : List (Nat × Nat) :=
  [(0xb2, 0xb3), (0xb9, 0xb9), (0x1369, 0x1371), (0x19da, 0x19da), (0x2070, 0x2070),
    (0x2074, 0x2079), (0x2080, 0x2089), (0x2460, 0x2468), (0x2474, 0x247c), (0x2488, 0x2490),
    (0x24ea, 0x24ea), (0x24f5, 0x24fd), (0x24ff, 0x24ff), (0x2776, 0x277e), (0x2780, 0x2788),
    (0x278a, 0x2792), (0x10a40, 0x10a43), (0x10e60, 0x10e68), (0x11052, 0x1105a),
    (0x1f100, 0x1f10a)]

/-- `int` of one character, which raises an exception for all but decimal digits. -/
def int (c : Char) : Option Int :=
  (decimalZeros.find? fun z => z ≤ c.toNat ∧ c.toNat < z + 10).map fun z => (c.toNat - z : Nat)

def isdigit (c : Char) : Bool :=
  (int c).isSome || otherDigits.any fun block => block.1 ≤ c.toNat ∧ c.toNat ≤ block.2

/-! ## The functions -/

/-- `phoneme[-1]`, which raises an exception if there is no character. -/
def lastChar (phoneme : String) : Option Char := phoneme.toList.getLast?

/-- `phoneme[:-1]`. -/
def withoutLast (phoneme : String) : String := String.ofList phoneme.toList.dropLast

/-- The variables of `extract_stress_and_vowel_name`. The last one is not bound at first. -/
structure Extracted where
  outputSyllable : List String
  stress : Int
  vowelName : Option String

/-- The turn of a phoneme. -/
def extractPhoneme (s : Extracted) (phoneme : String) : Option Extracted := do
  let last ← lastChar phoneme
  if isdigit last then
    let stress ← int last
    return ⟨s.outputSyllable ++ [withoutLast phoneme], stress, some (withoutLast phoneme)⟩
  else return { s with outputSyllable := s.outputSyllable ++ [phoneme] }

def extractStressAndVowelName (syllable : List String) : Option SyllableArgs := do
  let s ← syllable.foldlM extractPhoneme ⟨[], 0, none⟩
  return ⟨s.outputSyllable, s.stress, ← s.vowelName⟩

/-- The turn of a phoneme in the first loop of `clump_syllables`. -/
def addPosition (vowelPositions : List Nat) (entry : String × Nat) : Option (List Nat) := do
  let last ← lastChar entry.1
  return if isdigit last then vowelPositions ++ [entry.2] else vowelPositions

def clumpSyllables (phonemes : List String) : Option (List SyllableArgs) := do
  let vowelPositions ← phonemes.zipIdx.foldlM addPosition []
  let syllablePositions := [0] ++ vowelPositions.map (· + 1) ++ [phonemes.length]
  let syllables := segments phonemes syllablePositions
  -- `pop`, and the list without its last entry
  let endingConsonants ← syllables.getLast?
  let syllables := syllables.dropLast
  -- `syllables[-1] += ending_consonants` raises an exception if none is left
  let lastSyllable ← syllables.getLast?
  let syllables := syllables.dropLast ++ [lastSyllable ++ endingConsonants]
  syllables.mapM extractStressAndVowelName

/-! ## Syllables -/

/-- A phoneme that ends in a digit. -/
def isVowel (phoneme : String) : Bool := (lastChar phoneme).any isdigit

/-- The stress of a vowel, if it is one. -/
def stressOf (vowel : String) : Option Int := (lastChar vowel).bind int

/-- A phoneme without the digit that is its stress. -/
def withoutStress (phoneme : String) : String :=
  if isVowel phoneme then withoutLast phoneme else phoneme

/-- A vowel with the consonants that go with it. -/
@[ext]
structure Clump where
  onset : List String
  vowel : String
  coda : List String
  onset_consonants : ∀ p ∈ onset, isVowel p = false
  isVowel_vowel : isVowel vowel = true
  coda_consonants : ∀ p ∈ coda, isVowel p = false

def Clump.phonemes (c : Clump) : List String := c.onset ++ c.vowel :: c.coda

/-- The syllable has the phonemes of the clump, and names its vowel and the stress. -/
structure Clump.ReportedAs (c : Clump) (s : SyllableArgs) : Prop where
  phonemes_eq : s.phonemes = c.phonemes.map withoutStress
  vowelName_eq : s.vowelName = withoutStress c.vowel
  stress_eq : stressOf c.vowel = some s.stress

/-- What the syllables of a list of phonemes are to be: one for each vowel, together the
phonemes without their stress. Each vowel has the consonants before it, and the last one
those behind it, too. -/
structure Syllabified (phonemes : List String) (syllables : List SyllableArgs) : Prop where
  length_eq : syllables.length = phonemes.countP isVowel
  phonemes_eq : syllables.flatMap SyllableArgs.phonemes = phonemes.map withoutStress
  clumped : ∃ clumps : List Clump, clumps.flatMap Clump.phonemes = phonemes ∧
    (∀ c ∈ clumps.dropLast, c.coda = []) ∧ List.Forall₂ Clump.ReportedAs clumps syllables

/-- `int` reads the stress of every vowel. -/
def Readable (phonemes : List String) : Prop :=
  ∀ p ∈ phonemes, isVowel p = true → (stressOf p).isSome = true

instance (phonemes : List String) : Decidable (Readable phonemes) := by
  unfold Readable
  infer_instance

/-- There is no vowel behind the vowel of a clump. -/
theorem Clump.countP_coda (c : Clump) : c.coda.countP isVowel = 0 :=
  List.countP_eq_zero.mpr fun p hp => Bool.eq_false_iff.mp (c.coda_consonants p hp)

theorem Clump.countP_phonemes (c : Clump) : c.phonemes.countP isVowel = 1 := by
  have honset : c.onset.countP isVowel = 0 :=
    List.countP_eq_zero.mpr fun p hp => Bool.eq_false_iff.mp (c.onset_consonants p hp)
  rw [Clump.phonemes, List.countP_append, List.countP_cons, honset, c.countP_coda,
    c.isVowel_vowel]
  rfl

/-- There are as many vowels as clumps. -/
theorem countP_flatMap (clumps : List Clump) :
    (clumps.flatMap Clump.phonemes).countP isVowel = clumps.length := by
  induction clumps with
  | nil => rfl
  | cons c clumps ih =>
    rw [List.flatMap_cons, List.countP_append, Clump.countP_phonemes, ih, List.length_cons,
      Nat.add_comm]

/-- The counts follow from the clumps. -/
theorem syllabified_of_clumps {phonemes : List String} {syllables : List SyllableArgs}
    {clumps : List Clump} (hphonemes : clumps.flatMap Clump.phonemes = phonemes)
    (hcoda : ∀ c ∈ clumps.dropLast, c.coda = [])
    (hreported : List.Forall₂ Clump.ReportedAs clumps syllables) :
    Syllabified phonemes syllables := by
  refine ⟨?_, ?_, clumps, hphonemes, hcoda, hreported⟩
  · rw [← hphonemes, countP_flatMap, hreported.length_eq]
  · rw [← hphonemes]
    clear hcoda hphonemes
    induction hreported with
    | nil => rfl
    | cons hc _ ih =>
      rw [List.flatMap_cons, List.flatMap_cons, List.map_append, hc.phonemes_eq, ih]

/-! ## One way to cut a word -/

/-- The vowel is the first one, if nothing is behind the clump but other clumps. -/
theorem Clump.append_inj {c c' : Clump} {rest rest' : List String}
    (h : c.phonemes ++ rest = c'.phonemes ++ rest') :
    c.onset = c'.onset ∧ c.vowel = c'.vowel ∧ c.coda ++ rest = c'.coda ++ rest' := by
  -- what is before the first vowel is the onset
  have hparts : ∀ (d : Clump) (rest : List String),
      (d.phonemes ++ rest).takeWhile (! isVowel ·) = d.onset ∧
        (d.phonemes ++ rest).dropWhile (! isVowel ·) = d.vowel :: (d.coda ++ rest) := by
    intro d rest
    have honset : ∀ p ∈ d.onset, (! isVowel p) = true := fun p hp => by
      rw [d.onset_consonants p hp]
      rfl
    rw [Clump.phonemes, List.append_assoc, List.takeWhile_append_of_pos honset,
      List.dropWhile_append_of_pos honset]
    simp [d.isVowel_vowel]
  obtain ⟨htake, hdrop⟩ := hparts c rest
  obtain ⟨htake', hdrop'⟩ := hparts c' rest'
  rw [h] at htake hdrop
  obtain ⟨hvowel, hcoda⟩ := List.cons_eq_cons.mp (hdrop.symm.trans hdrop')
  exact ⟨htake.symm.trans htake', hvowel, hcoda⟩


/-- A clump is reported in one way. -/
theorem Clump.ReportedAs.unique {c : Clump} {s s' : SyllableArgs} (h : c.ReportedAs s)
    (h' : c.ReportedAs s') : s = s' := by
  have hstress : s.stress = s'.stress :=
    Option.some.inj (h.stress_eq.symm.trans h'.stress_eq)
  cases s
  cases s'
  simp only [SyllableArgs.mk.injEq]
  exact ⟨h.phonemes_eq.trans h'.phonemes_eq.symm, hstress,
    h.vowelName_eq.trans h'.vowelName_eq.symm⟩

theorem Clump.flatMap_ne_nil {c : Clump} {clumps : List Clump} :
    (c :: clumps).flatMap Clump.phonemes ≠ [] := by
  rw [List.flatMap_cons, Clump.phonemes]
  simp

/-- Where each vowel takes the consonants before it, there is one way to take them. -/
theorem clumps_unique {clumps clumps' : List Clump}
    (h : clumps.flatMap Clump.phonemes = clumps'.flatMap Clump.phonemes)
    (hcoda : ∀ c ∈ clumps.dropLast, c.coda = []) (hcoda' : ∀ c ∈ clumps'.dropLast, c.coda = []) :
    clumps = clumps' := by
  induction clumps generalizing clumps' with
  | nil =>
    cases clumps' with
    | nil => rfl
    | cons c' clumps' => exact absurd h.symm Clump.flatMap_ne_nil
  | cons c clumps ih =>
    cases clumps' with
    | nil => exact absurd h Clump.flatMap_ne_nil
    | cons c' clumps' =>
      rw [List.flatMap_cons, List.flatMap_cons] at h
      obtain ⟨honset, hvowel, hrest⟩ := Clump.append_inj h
      -- as many vowels are left on either side
      have hlength : clumps.length = clumps'.length := by
        have hcount := congrArg (List.countP isVowel) hrest
        rwa [List.countP_append, List.countP_append, c.countP_coda, c'.countP_coda,
          countP_flatMap, countP_flatMap, Nat.zero_add, Nat.zero_add] at hcount
      cases clumps with
      | nil =>
        obtain rfl := List.length_eq_zero_iff.mp hlength.symm
        rw [List.flatMap_nil, List.append_nil, List.append_nil] at hrest
        rw [Clump.ext honset hvowel hrest]
      | cons d clumps =>
        -- neither clump is the last one
        obtain ⟨d', clumps', rfl⟩ := List.exists_cons_of_length_eq_add_one hlength.symm
        have hnil : c.coda = [] := hcoda c List.mem_cons_self
        have hnil' : c'.coda = [] := hcoda' c' List.mem_cons_self
        rw [hnil, hnil'] at hrest
        rw [Clump.ext honset hvowel (hnil.trans hnil'.symm),
          ih hrest (fun e he => hcoda e (List.mem_cons_of_mem _ he))
            fun e he => hcoda' e (List.mem_cons_of_mem _ he)]

/-- The syllables are determined. -/
theorem Syllabified.unique {phonemes : List String} {syllables syllables' : List SyllableArgs}
    (h : Syllabified phonemes syllables) (h' : Syllabified phonemes syllables') :
    syllables = syllables' := by
  obtain ⟨clumps, hphonemes, hcoda, hreported⟩ := h.clumped
  obtain ⟨clumps', hphonemes', hcoda', hreported'⟩ := h'.clumped
  obtain rfl := clumps_unique (hphonemes.trans hphonemes'.symm) hcoda hcoda'
  clear h h' hphonemes hphonemes' hcoda hcoda'
  induction hreported generalizing syllables' with
  | nil => rw [List.forall₂_nil_left_iff.mp hreported']
  | cons hc _ ih =>
    obtain ⟨s', rest', hc', hrest', rfl⟩ := List.forall₂_cons_left_iff.mp hreported'
    rw [hc.unique hc', ih hrest']

/-! ## The clumps of a word -/

/-- A piece that ends with its vowel. -/
def Clump.ofPiece (piece : Piece isVowel) (coda : List String)
    (hcoda : ∀ p ∈ coda, isVowel p = false) : Clump :=
  ⟨piece.before, piece.mark, coda, piece.before_unmarked, piece.mark_marked, hcoda⟩

/-- The last clump takes the consonants that are left. -/
theorem Clump.phonemes_ofPiece (piece : Piece isVowel) (coda : List String)
    (hcoda : ∀ p ∈ coda, isVowel p = false) :
    (Clump.ofPiece piece coda hcoda).phonemes = piece.toList ++ coda := by
  rw [Piece.toList, List.append_assoc]
  rfl

/-- A piece that is not the last one has no coda. -/
def Clump.ofInner (piece : Piece isVowel) : Clump :=
  Clump.ofPiece piece [] fun _ hp => absurd hp List.not_mem_nil

/-- Any other clump ends with its vowel. -/
theorem Clump.phonemes_ofInner (piece : Piece isVowel) :
    (Clump.ofInner piece).phonemes = piece.toList := by
  rw [Clump.ofInner, Clump.phonemes_ofPiece, List.append_nil]

theorem ne_nil_of_vowel {phonemes : List String} (hvowel : ∃ p ∈ phonemes, isVowel p = true)
    {pieces : List (Piece isVowel)} {rest : List String}
    (hcut : cutAfter isVowel phonemes = pieces.map Piece.toList ++ [rest])
    (hrest : ∀ p ∈ rest, isVowel p = false) : pieces ≠ [] := by
  rintro rfl
  obtain ⟨p, hp, hp'⟩ := hvowel
  have hflatten := flatten_cutAfter isVowel phonemes
  rw [hcut, List.map_nil, List.nil_append, List.flatten_singleton] at hflatten
  rw [← hflatten] at hp
  exact Bool.noConfusion ((hrest p hp).symm.trans hp')

theorem nil_of_no_vowel {phonemes : List String} (hnone : ∀ p ∈ phonemes, isVowel p = false)
    {pieces : List (Piece isVowel)} {rest : List String}
    (hcut : cutAfter isVowel phonemes = pieces.map Piece.toList ++ [rest]) : pieces = [] := by
  cases pieces with
  | nil => rfl
  | cons piece pieces =>
    have hflatten := flatten_cutAfter isVowel phonemes
    have hmem : piece.mark ∈ phonemes := by
      rw [← hflatten, hcut, List.map_cons, List.cons_append, List.flatten_cons, Piece.toList]
      simp
    exact Bool.noConfusion ((hnone _ hmem).symm.trans piece.mark_marked)

/-! ## The loops -/

/-- A phoneme that is not empty has a last character. -/
theorem exists_lastChar {p : String} (hp : p ≠ "") : ∃ c, lastChar p = some c := by
  refine Option.ne_none_iff_exists'.mp fun hnone => hp ?_
  rw [lastChar, List.getLast?_eq_none_iff] at hnone
  exact String.toList_inj.mp hnone

/-- The loop collects the places of the vowels. -/
theorem foldlM_addPosition {phonemes : List String} (hne : ∀ p ∈ phonemes, p ≠ "") (k : Nat)
    (positions : List Nat) :
    (phonemes.zipIdx k).foldlM addPosition positions
      = some (positions ++ markPlaces isVowel k phonemes) := by
  induction phonemes generalizing k positions with
  | nil => simp [markPlaces]
  | cons p phonemes ih =>
    obtain ⟨c, hc⟩ := exists_lastChar (hne p List.mem_cons_self)
    have hvowel : isVowel p = isdigit c := by rw [isVowel, hc, Option.any_some]
    have hadd : addPosition positions (p, k)
        = some (if isVowel p then positions ++ [k] else positions) := by
      rw [addPosition, hc, hvowel]
      rfl
    rw [List.zipIdx_cons, List.foldlM_cons, hadd, Option.bind_eq_bind, Option.bind_some,
      ih (fun q hq => hne q (List.mem_cons_of_mem _ hq)), markPlaces]
    split
    · rw [List.append_assoc, List.singleton_append]
    · rfl

/-- The slices are the pieces of the list that is cut behind its vowels. -/
theorem clumpSyllables_eq {phonemes : List String} (hne : ∀ p ∈ phonemes, p ≠ "") :
    clumpSyllables phonemes = (cutAfter isVowel phonemes).getLast?.bind fun ending =>
      (cutAfter isVowel phonemes).dropLast.getLast?.bind fun last =>
        ((cutAfter isVowel phonemes).dropLast.dropLast ++ [last ++ ending]).mapM
          extractStressAndVowelName := by
  rw [← segments_markPlaces_zero, clumpSyllables, foldlM_addPosition hne 0 []]
  rfl

/-- The syllables that are looked through are the clumps. -/
theorem clumpSyllables_of_clumps {phonemes : List String} (hne : ∀ p ∈ phonemes, p ≠ "")
    (hvowel : ∃ p ∈ phonemes, isVowel p = true) :
    ∃ clumps : List Clump, clumps.flatMap Clump.phonemes = phonemes ∧
      (∀ c ∈ clumps.dropLast, c.coda = []) ∧
      clumpSyllables phonemes = (clumps.map Clump.phonemes).mapM extractStressAndVowelName := by
  obtain ⟨pieces, rest, hcut, hrest⟩ := exists_pieces isVowel phonemes
  have hpieces := ne_nil_of_vowel hvowel hcut hrest
  obtain ⟨init, last, rfl⟩ : ∃ init last, pieces = init ++ [last] :=
    ⟨_, _, (List.dropLast_concat_getLast hpieces).symm⟩
  have hinner : init.map Piece.toList = (init.map Clump.ofInner).map Clump.phonemes := by
    rw [List.map_map]
    exact List.map_congr_left fun piece _ => (Clump.phonemes_ofInner piece).symm
  have hgroups : (init.map Clump.ofInner ++ [Clump.ofPiece last rest hrest]).map Clump.phonemes
      = init.map Piece.toList ++ [last.toList ++ rest] := by
    rw [List.map_append, List.map_singleton, Clump.phonemes_ofPiece, hinner]
  refine ⟨init.map Clump.ofInner ++ [Clump.ofPiece last rest hrest], ?_, ?_, ?_⟩
  · rw [List.flatMap_def, hgroups, ← flatten_cutAfter isVowel phonemes, hcut]
    simp
  · rw [List.dropLast_concat]
    intro c hc
    obtain ⟨piece, -, rfl⟩ := List.mem_map.mp hc
    rfl
  · -- the rest is popped, and put behind the last syllable
    rw [hgroups, clumpSyllables_eq hne, hcut]
    simp only [Option.bind_some, List.getLast?_concat, List.dropLast_concat, List.map_append,
      List.map_singleton]

/-- Without a vowel `syllables[-1]` raises. -/
theorem clumpSyllables_of_no_vowel {phonemes : List String} (hne : ∀ p ∈ phonemes, p ≠ "")
    (hnone : ∀ p ∈ phonemes, isVowel p = false) : clumpSyllables phonemes = none := by
  obtain ⟨pieces, rest, hcut, -⟩ := exists_pieces isVowel phonemes
  obtain rfl := nil_of_no_vowel hnone hcut
  rw [clumpSyllables_eq hne, hcut]
  rfl

/-- An empty phoneme has no last character. -/
theorem clumpSyllables_of_empty {phonemes : List String} (h : "" ∈ phonemes) :
    clumpSyllables phonemes = none := by
  obtain ⟨k, hk⟩ := List.mem_iff_getElem?.mp h
  have hmem : ("", k) ∈ phonemes.zipIdx := List.mk_mem_zipIdx_iff_getElem?.mpr hk
  rw [clumpSyllables, foldlM_eq_none_of_mem hmem fun _ => rfl]
  rfl

/-! ## Looking for the vowel -/

theorem extractPhoneme_of_consonant {p : String} (hp : p ≠ "") (hvowel : isVowel p = false)
    (s : Extracted) :
    extractPhoneme s p = some { s with outputSyllable := s.outputSyllable ++ [p] } := by
  obtain ⟨c, hc⟩ := exists_lastChar hp
  have hdigit : isdigit c = false := by rwa [isVowel, hc, Option.any_some] at hvowel
  rw [extractPhoneme, hc, Option.bind_eq_bind, Option.bind_some, hdigit]
  rfl

/-- A vowel loses its stress mark and gives the syllable its stress. -/
theorem extractPhoneme_of_vowel {p : String} (hvowel : isVowel p = true) (s : Extracted) :
    extractPhoneme s p = (stressOf p).map fun stress =>
      ⟨s.outputSyllable ++ [withoutStress p], stress, some (withoutStress p)⟩ := by
  have hwithout : withoutStress p = withoutLast p := if_pos hvowel
  cases hc : lastChar p with
  | none =>
    rw [isVowel, hc] at hvowel
    cases hvowel
  | some c =>
    have hdigit : isdigit c = true := by rwa [isVowel, hc, Option.any_some] at hvowel
    rw [extractPhoneme, hwithout, stressOf, hc, Option.bind_eq_bind, Option.bind_some, hdigit,
      Option.bind_some]
    cases int c <;> rfl

/-- The consonants of a clump are taken as they are. -/
theorem foldlM_extractPhoneme {ps : List String} (hne : ∀ p ∈ ps, p ≠ "")
    (hconsonants : ∀ p ∈ ps, isVowel p = false) (s : Extracted) :
    ps.foldlM extractPhoneme s = some { s with outputSyllable := s.outputSyllable ++ ps } := by
  induction ps generalizing s with
  | nil => simp
  | cons p ps ih =>
    rw [List.foldlM_cons, extractPhoneme_of_consonant (hne p List.mem_cons_self)
      (hconsonants p List.mem_cons_self), Option.bind_eq_bind, Option.bind_some,
      ih (fun q hq => hne q (List.mem_cons_of_mem _ hq))
        (fun q hq => hconsonants q (List.mem_cons_of_mem _ hq)), List.append_assoc,
      List.singleton_append]

theorem map_withoutStress {ps : List String} (hconsonants : ∀ p ∈ ps, isVowel p = false) :
    ps.map withoutStress = ps := by
  refine (List.map_congr_left fun p hp => ?_).trans (List.map_id ps)
  rw [withoutStress, hconsonants p hp]
  rfl

/-- The syllable of a clump, if `int` reads its stress. -/
theorem extract_clump (c : Clump) (hne : ∀ p ∈ c.phonemes, p ≠ "") :
    extractStressAndVowelName c.phonemes = (stressOf c.vowel).map fun stress =>
      ⟨c.phonemes.map withoutStress, stress, withoutStress c.vowel⟩ := by
  have honset : ∀ p ∈ c.onset, p ≠ "" := fun p hp => hne p (List.mem_append_left _ hp)
  have hcoda : ∀ p ∈ c.coda, p ≠ "" :=
    fun p hp => hne p (List.mem_append_right _ (List.mem_cons_of_mem _ hp))
  rw [extractStressAndVowelName, Clump.phonemes, List.foldlM_append,
    foldlM_extractPhoneme honset c.onset_consonants, Option.bind_eq_bind, Option.bind_eq_bind,
    Option.bind_some, List.foldlM_cons, extractPhoneme_of_vowel c.isVowel_vowel]
  cases stressOf c.vowel with
  | none => rfl
  | some stress =>
    rw [Option.map_some, Option.bind_eq_bind, Option.bind_some,
      foldlM_extractPhoneme hcoda c.coda_consonants, List.map_append, List.map_cons,
      map_withoutStress c.onset_consonants, map_withoutStress c.coda_consonants]
    simp

/-- The syllables of a word whose stresses `int` reads. -/
theorem clumpSyllables_of_readable {phonemes : List String} (hne : ∀ p ∈ phonemes, p ≠ "")
    (hvowel : ∃ p ∈ phonemes, isVowel p = true) (hreadable : Readable phonemes) :
    ∃ syllables, clumpSyllables phonemes = some syllables ∧ Syllabified phonemes syllables := by
  obtain ⟨clumps, hphonemes, hcoda, hclump⟩ := clumpSyllables_of_clumps hne hvowel
  have hmem : ∀ c ∈ clumps, ∀ p ∈ c.phonemes, p ∈ phonemes := fun c hc p hp =>
    hphonemes ▸ List.mem_flatMap.mpr ⟨c, hc, hp⟩
  have hextract : ∀ c ∈ clumps, extractStressAndVowelName c.phonemes =
      (stressOf c.vowel).map fun stress =>
        ⟨c.phonemes.map withoutStress, stress, withoutStress c.vowel⟩ :=
    fun c hc => extract_clump c fun p hp => hne p (hmem c hc p hp)
  have hreturns : ∀ c ∈ clumps, ∃ s, (extractStressAndVowelName ∘ Clump.phonemes) c = some s := by
    intro c hc
    -- its vowel is one of the word
    have hread := hreadable c.vowel (hmem c hc _ (by simp [Clump.phonemes])) c.isVowel_vowel
    obtain ⟨stress, hstress⟩ := Option.isSome_iff_exists.mp hread
    rw [Function.comp_apply, hextract c hc, hstress]
    exact ⟨_, rfl⟩
  -- every call returns, so that the list does
  obtain ⟨syllables, hsyllables⟩ := exists_map_some hreturns
  refine ⟨syllables, ?_, syllabified_of_clumps hphonemes hcoda ?_⟩
  · rw [hclump]
    exact mapM_of_map_some (by rw [List.map_map, hsyllables])
  · refine forall₂_of_map_some hsyllables fun c hc s hs => ?_
    rw [Function.comp_apply, hextract c hc] at hs
    obtain ⟨stress, hstress, rfl⟩ := Option.map_eq_some_iff.mp hs
    exact ⟨rfl, rfl, hstress⟩

/-- `int` raises an exception for the stress of a vowel, or there is no vowel. -/
theorem clumpSyllables_of_unreadable {phonemes : List String} (hne : ∀ p ∈ phonemes, p ≠ "")
    (hunreadable : ¬ Readable phonemes) : clumpSyllables phonemes = none := by
  simp only [Readable, not_forall] at hunreadable
  obtain ⟨p, hp, hvowel, hnone⟩ := hunreadable
  obtain ⟨clumps, hphonemes, -, hclump⟩ := clumpSyllables_of_clumps hne ⟨p, hp, hvowel⟩
  rw [← hphonemes] at hp
  obtain ⟨c, hc, hpc⟩ := List.mem_flatMap.mp hp
  -- the one vowel of its clump
  have heq : p = c.vowel := by
    rcases List.mem_append.mp hpc with honset | hpc
    · exact Bool.noConfusion ((c.onset_consonants p honset).symm.trans hvowel)
    · rcases List.mem_cons.mp hpc with heq | hcoda
      · exact heq
      · exact Bool.noConfusion ((c.coda_consonants p hcoda).symm.trans hvowel)
  rw [hclump]
  refine mapM_eq_none_of_mem (List.mem_map_of_mem hc) ?_
  rw [extract_clump c fun q hq => hne q (hphonemes ▸ List.mem_flatMap.mpr ⟨c, hc, hq⟩), ← heq,
    Option.not_isSome_iff_eq_none.mp hnone]
  rfl

/-- Syllables are returned for nothing else. -/
theorem readable_of_some {phonemes : List String} {syllables : List SyllableArgs}
    (h : clumpSyllables phonemes = some syllables) :
    (∀ p ∈ phonemes, p ≠ "") ∧ (∃ p ∈ phonemes, isVowel p = true) ∧ Readable phonemes := by
  have hne : ∀ p ∈ phonemes, p ≠ "" := by
    rintro p hp rfl
    rw [clumpSyllables_of_empty hp] at h
    cases h
  refine ⟨hne, ?_, ?_⟩
  · by_contra hnone
    simp only [not_exists, not_and, Bool.not_eq_true] at hnone
    rw [clumpSyllables_of_no_vowel hne hnone] at h
    cases h
  · by_contra hunreadable
    rw [clumpSyllables_of_unreadable hne hunreadable] at h
    cases h

/-- What `clump_syllables` returns is the syllabification. -/
theorem syllabified_of_some {phonemes : List String} {syllables : List SyllableArgs}
    (h : clumpSyllables phonemes = some syllables) : Syllabified phonemes syllables := by
  obtain ⟨hne, hvowel, hreadable⟩ := readable_of_some h
  obtain ⟨syllables', hsome, hsyllabified⟩ := clumpSyllables_of_readable hne hvowel hreadable
  rw [h] at hsome
  rwa [Option.some.inj hsome]

/-- **When a word is cut into its syllables.** For every list of phonemes with a vowel:
`clump_syllables` returns the syllables, exactly when no phoneme ends in a digit that `int`
does not read. -/
theorem clumpSyllables_iff {phonemes : List String} (hne : ∀ p ∈ phonemes, p ≠ "")
    (hvowel : ∃ p ∈ phonemes, isVowel p = true) :
    (∃ syllables, clumpSyllables phonemes = some syllables ∧ Syllabified phonemes syllables) ↔
      Readable phonemes := by
  constructor
  · rintro ⟨syllables, hsome, -⟩
    exact (readable_of_some hsome).2.2
  · exact clumpSyllables_of_readable hne hvowel

/-- The word "away". -/
theorem clumpSyllables_iff_away :
    (∃ syllables, clumpSyllables ["ah0", "w", "ey1"] = some syllables ∧
        Syllabified ["ah0", "w", "ey1"] syllables) ↔ Readable ["ah0", "w", "ey1"] :=
  clumpSyllables_iff (by decide) (by decide)

/-- One phoneme ends in a superscript, which is a digit: its stress is not read. -/
theorem clumpSyllables_superscript :
    (∀ p ∈ ["ah1", "n²"], p ≠ "") ∧ isVowel "ah1" = true ∧
      ¬ ∃ syllables, clumpSyllables ["ah1", "n²"] = some syllables ∧
        Syllabified ["ah1", "n²"] syllables := by
  have hnone : clumpSyllables ["ah1", "n²"] = none := by decide
  refine ⟨by decide, by decide, ?_⟩
  rintro ⟨syllables, hsome, -⟩
  rw [hnone] at hsome
  cases hsome

example : clumpSyllables ["s", "t", "r", "iy1", "t", "s"]
    = some [⟨["s", "t", "r", "iy", "t", "s"], 1, "iy"⟩] := by decide

end Vox.Labelizer
