import Vox.Labelizer.Utterance
import Vox.Hts.TreeSearch
import Vox.Lib.Fields

/-!
# Labelizer and hts_engine — the questions of a voice about a label

The trees of a voice ask which phonemes are around a phoneme, and which vowel is in its syllable.
A question has a pattern for each name that it asks for, with the delimiters of the label around
the name. The labels are printed by the labelizer, and nothing but these delimiters ties them to
the voices.

* `Label.mem_pattern` — a name between its delimiters occurs in no other place of a label.
* `questions_answered` — every question is answered by the phoneme or the vowel that it is about.
-/

namespace Vox.Labelizer

open Lib Mage Hts

/-! ## The text of a label -/

/-- A name without delimiters. -/
def Plain (name : Str) : Prop := name.all Char.isAlphanum = true

instance : DecidablePred Plain := fun name =>
  inferInstanceAs (Decidable (name.all Char.isAlphanum = true))

def IsDelimiter (c : Char) : Prop := c.isAlphanum = false

instance : DecidablePred IsDelimiter := fun c =>
  inferInstanceAs (Decidable (c.isAlphanum = false))

/-- A plain name has no delimiter inside. -/
theorem Plain.not_delimiter {name : Str} (h : Plain name) : ∀ c ∈ name, ¬ IsDelimiter c := by
  intro c hc hdelimiter
  have hplain := List.all_eq_true.mp h c hc
  rw [hdelimiter] at hplain
  exact Bool.false_ne_true hplain

theorem plain_toString (n : Nat) : Plain (toString n).toList := by
  unfold Plain
  rw [show toString n = n.repr from rfl, Nat.toList_repr, List.all_eq_true]
  intro c hc
  have hdigit : c.isDigit = true := Nat.isDigit_of_mem_toDigits (by decide) (by decide) hc
  rw [Char.isAlphanum, hdigit, Bool.or_true]

/-- So is a number that may be missing, which prints as `x`. -/
theorem plain_str (n : Option Nat) : Plain (str n).toList := by
  cases n with
  | none => decide
  | some n => exact plain_toString n

namespace Label

variable (l : Label)

/-- The fields behind the first one, with what stands in front of them. -/
def rest : List (Char × Str) :=
  [('^', l.p2.toList), ('-', l.p3.toList), ('+', l.p4.toList), ('=', l.p5.toList),
    ('@', (toString l.p6).toList), ('_', (toString l.p7).toList),
    ('/', ['A']), (':', (toString l.a1).toList), ('_', (toString l.a2).toList),
    ('_', (toString l.a3).toList),
    ('/', ['B']), (':', (toString l.b1).toList), ('-', (toString l.b2).toList),
    ('-', (toString l.b3).toList), ('@', (toString l.b4).toList), ('-', (toString l.b5).toList),
    ('&', (toString l.b6).toList), ('-', (toString l.b7).toList),
    ('#', (str l.b8).toList), ('-', (str l.b9).toList), ('$', (str l.b10).toList),
    ('-', (str l.b11).toList), ('!', (str l.b12).toList), ('-', (str l.b13).toList),
    (';', (str l.b14).toList), ('-', (str l.b15).toList), ('|', l.b16.toList),
    ('/', ['C']), (':', (toString l.c1).toList), ('+', (toString l.c2).toList),
    ('+', (toString l.c3).toList),
    ('/', ['J']), (':', (toString l.j1).toList), ('+', (toString l.j2).toList),
    ('-', (toString l.j3).toList)]

/-- A label is its first name, and then fields with their delimiters. -/
theorem toList_format : l.format.toList = fieldsText l.p1.toList l.rest := by
  -- one delimiter and its field after the other
  have hone : ∀ (text : Str) (c : Char) (field : Str), text ++ [c] ++ field = text ++ c :: field :=
    fun text c field => by rw [List.append_assoc, List.singleton_append]
  have htwo : ∀ (text : Str) (c : Char) (field : Str),
      text ++ ['/', c, ':'] ++ field = (text ++ ['/', c]) ++ ':' :: field :=
    fun text c field => by simp
  rw [← foldl_fields]
  unfold format rest
  simp only [String.toList_append, String.reduceToList, hone, htwo, List.foldl_cons,
    List.foldl_nil]

/-- The names in a label are plain. -/
structure NamesPlain : Prop where
  p1 : Plain l.p1.toList
  p2 : Plain l.p2.toList
  p3 : Plain l.p3.toList
  p4 : Plain l.p4.toList
  p5 : Plain l.p5.toList
  b16 : Plain l.b16.toList

variable {l}

/-- With plain names the fields can be told apart. -/
theorem NamesPlain.delimited (h : l.NamesPlain) :
    Delimited IsDelimiter l.p1.toList l.rest where
  first := h.p1.not_delimiter
  delimiters := by
    unfold IsDelimiter
    simp only [rest, List.forall_mem_cons]
    decide
  fields := by
    have hplain : ∀ field ∈ l.rest, Plain field.2 := by
      have hA : Plain ['A'] := by decide
      have hB : Plain ['B'] := by decide
      have hC : Plain ['C'] := by decide
      have hJ : Plain ['J'] := by decide
      simp only [rest, List.forall_mem_cons, plain_toString, plain_str, h.p2, h.p3, h.p4, h.p5,
        h.b16, hA, hB, hC, hJ, true_and]
      exact fun field hfield => absurd hfield List.not_mem_nil
    exact fun field hfield => (hplain field hfield).not_delimiter

end Label

/-! ## The questions -/

/-- What the questions `LL-`, `L-`, `C-`, `R-`, `RR-` and `C-Syl_` of the voices are about: the
phonemes from the second one before to the second one behind, and the vowel of the syllable. -/
inductive Feature
  | LL
  | L
  | C
  | R
  | RR
  | vowel
  deriving DecidableEq, Repr

namespace Feature

/-- The pattern for a name, such as `*-aa+*`. -/
def pattern (name : Str) : Feature → Str
  | LL => name ++ ['^', '*']
  | L => '*' :: '^' :: (name ++ ['-', '*'])
  | C => '*' :: '-' :: (name ++ ['+', '*'])
  | R => '*' :: '+' :: (name ++ ['=', '*'])
  | RR => '*' :: '=' :: (name ++ ['@', '*'])
  | vowel => '*' :: '|' :: (name ++ ['/', 'C', ':', '*'])

/-- The field of the label. -/
def field (l : Label) : Feature → String
  | LL => l.p1
  | L => l.p2
  | C => l.p3
  | R => l.p4
  | RR => l.p5
  | vowel => l.b16

/-- What it is in phoneme `i` of an utterance, which is in its syllable `j`. -/
def value (u : UtteranceArgs) (i j : Nat) : Feature → String
  | LL => u.nameAt (i - 2)
  | L => u.nameAt (i - 1)
  | C => u.nameAt i
  | R => u.nameAt (i + 1)
  | RR => u.nameAt (i + 2)
  | vowel => (u.syllableAt j).vowelName

/-- A pattern is little longer than its name. -/
theorem length_pattern_le (name : Str) (feature : Feature) :
    (feature.pattern name).length ≤ name.length + 6 := by
  cases feature <;> simp [pattern]

end Feature

namespace Label

variable {l : Label} {name : Str}

/-- A name and its delimiters are no wildcards. -/
theorem letters_of_plain (hname : Plain name) {front back : Str}
    (hfront : ∀ c ∈ front, c ≠ '*' ∧ c ≠ '?') (hback : ∀ c ∈ back, c ≠ '*' ∧ c ≠ '?') :
    ∀ c ∈ front ++ name ++ back, c ≠ '*' ∧ c ≠ '?' := by
  intro c hc
  rcases List.mem_append.mp hc with hc | hc
  · rcases List.mem_append.mp hc with hc | hc
    · exact hfront c hc
    · have hplain := List.all_eq_true.mp hname c hc
      constructor
      · rintro rfl
        exact absurd hplain (by decide)
      · rintro rfl
        exact absurd hplain (by decide)
  · exact hback c hc

/-- A name between two delimiters that are around one field. -/
theorem mem_language_between (h : l.NamesPlain) (hname : Plain name) (d e : Char) {text : Str}
    (hd : IsDelimiter d) (he : IsDelimiter e) (hletters : ∀ c ∈ [d, e], c ≠ '*' ∧ c ≠ '?')
    (hbetween : between d e l.rest = [text]) :
    l.format.toList ∈ language ('*' :: d :: (name ++ [e, '*'])) ↔ name = text := by
  have hpattern : '*' :: d :: (name ++ [e, '*']) = '*' :: (([d] ++ name ++ [e]) ++ ['*']) := by
    simp
  have hfront : ∀ c ∈ [d], c ≠ '*' ∧ c ≠ '?' := by
    rintro c hc
    exact hletters c (List.mem_cons.mpr (Or.inl (List.mem_singleton.mp hc)))
  have hback : ∀ c ∈ [e], c ≠ '*' ∧ c ≠ '?' := fun c hc =>
    hletters c (List.mem_cons_of_mem d hc)
  rw [hpattern, mem_language_infix (letters_of_plain hname hfront hback), l.toList_format]
  have hinfix := infix_fieldsText h.delimited hname.not_delimiter hd he
  rw [hbetween, List.mem_singleton] at hinfix
  exact hinfix

/-- The vowel with all that stands between it and the next figure. -/
theorem mem_language_vowel (h : l.NamesPlain) (hname : Plain name) :
    l.format.toList ∈ language (Feature.vowel.pattern name) ↔ name = l.b16.toList := by
  have hpattern : Feature.vowel.pattern name
      = '*' :: ((['|'] ++ name ++ ['/', 'C', ':']) ++ ['*']) := by
    simp [Feature.pattern]
  have hbetween : between '|' '/' l.rest = [l.b16.toList] := by simp [rest, between]
  rw [hpattern, mem_language_infix (letters_of_plain hname (by simp) (by simp)),
    l.toList_format]
  constructor
  · intro hlong
    have hshort : '|' :: (name ++ ['/']) <:+: fieldsText l.p1.toList l.rest := by
      refine List.IsInfix.trans ⟨[], ['C', ':'], ?_⟩ hlong
      simp
    have hinfix := (infix_fieldsText h.delimited hname.not_delimiter (by decide) (by decide)).mp
      hshort
    rw [hbetween] at hinfix
    exact List.mem_singleton.mp hinfix
  · rintro rfl
    -- the figure of `/C:` follows
    have hdrop : l.rest.drop 26 = ('|', l.b16.toList) :: ('/', ['C'])
        :: (':', (toString l.c1).toList) :: l.rest.drop 29 := rfl
    rw [fieldsText, ← List.take_append_drop 26 l.rest, hdrop, List.flatMap_append,
      ← List.append_assoc]
    refine List.IsInfix.trans ?_ (List.suffix_append _ _).isInfix
    refine ⟨[], (toString l.c1).toList ++ (l.rest.drop 29).flatMap fun f => f.1 :: f.2, ?_⟩
    simp only [List.flatMap_cons, List.append_assoc, List.cons_append, List.nil_append]

/-- **A name between its delimiters is in one place of a label.** -/
theorem mem_pattern (h : l.NamesPlain) (hname : Plain name) (feature : Feature) :
    l.format.toList ∈ language (feature.pattern name) ↔ name = (feature.field l).toList := by
  cases feature with
  | LL =>
    -- the first field has no delimiter before it
    have hpattern : Feature.LL.pattern name = ([] ++ name ++ ['^']) ++ ['*'] := by
      simp [Feature.pattern]
    have hfirst := prefix_fieldsText h.delimited hname.not_delimiter (e := '^') (by decide)
    rw [hpattern, mem_language_word_star (letters_of_plain hname (by simp) (by simp)),
      l.toList_format, List.nil_append, hfirst]
    exact and_iff_left rfl
  | L =>
    exact mem_language_between h hname '^' '-' (by decide) (by decide) (by simp)
      (by simp [rest, between, Feature.field])
  | C =>
    exact mem_language_between h hname '-' '+' (by decide) (by decide) (by simp)
      (by simp [rest, between, Feature.field])
  | R =>
    exact mem_language_between h hname '+' '=' (by decide) (by decide) (by simp)
      (by simp [rest, between, Feature.field])
  | RR =>
    exact mem_language_between h hname '=' '@' (by decide) (by decide) (by simp)
      (by simp [rest, between, Feature.field])
  | vowel => exact mem_language_vowel h hname

end Label

namespace Utterance

/-- All names of an utterance are plain. -/
structure PlainNames (u : UtteranceArgs) : Prop where
  spoken : ∀ phoneme ∈ u.spoken, Plain phoneme.2.toList
  vowels : ∀ syllable ∈ u.reading, Plain syllable.vowelName.toList

/-- Every phoneme has a plain name, and so has the sentinel. -/
theorem PlainNames.nameAt {u : UtteranceArgs} (h : PlainNames u) (k : Int) :
    Plain (u.nameAt k).toList := by
  unfold UtteranceArgs.nameAt Links.atOr
  split
  · decide
  · rw [List.getD_eq_getElem?_getD]
    cases hname : (u.spoken.map Prod.snd)[k.toNat]? with
    | none => decide
    | some name =>
      obtain ⟨phoneme, hmem, rfl⟩ := List.mem_map.mp (List.mem_of_getElem? hname)
      exact h.spoken phoneme hmem

/-- So have the vowels of the syllables. -/
theorem PlainNames.syllableAt {u : UtteranceArgs} (h : PlainNames u) (k : Int) :
    Plain (u.syllableAt k).vowelName.toList := by
  unfold UtteranceArgs.syllableAt Links.atOr
  split
  · decide
  · rw [List.getD_eq_getElem?_getD]
    cases hsyllable : u.reading[k.toNat]? with
    | none => decide
    | some syllable => exact h.vowels syllable (List.mem_of_getElem? hsyllable)

/-- The features of a phoneme have plain values. -/
theorem PlainNames.value {u : UtteranceArgs} (h : PlainNames u) (i j : Nat) (feature : Feature) :
    Plain (feature.value u i j).toList := by
  cases feature with
  | vowel => exact h.syllableAt j
  | _ => exact h.nameAt _

/-- The vowel of a label is that of the syllable. -/
theorem b16_label {u : Utterance} {ph : Phoneme} {s : Syllable} {label : Label}
    (h : u.label ph = some label) (hs : ph.parent = some s) : label.b16 = s.args.vowelName := by
  unfold Utterance.label at h
  simp only [hs, Option.bind_eq_bind, Option.bind_some, Option.bind_eq_some_iff] at h
  obtain ⟨_, -, _, -, _, -, _, -, _, -, _, -, _, -, _, -, hlabel⟩ := h
  exact congrArg Label.b16 (Option.some.inj hlabel).symm

/-- The label of phoneme `i`, which is in syllable `j`, with its names. -/
theorem exists_label (u : UtteranceArgs) :
    ∃ labels : List Label, (new u).asLabels = some (labels.map Label.format) ∧
      ∀ i j name, u.spoken[i]? = some (j, name) → ∃ label, labels[i]? = some label ∧
        ∀ feature : Feature, feature.field label = feature.value u i j := by
  obtain ⟨labels, hprinted, hlabels⟩ := asLabels_eq u
  refine ⟨labels, hprinted, fun i j name hi => ?_⟩
  rw [← u.map_name_placed, List.getElem?_map] at hi
  obtain ⟨⟨j', ph⟩, hplaced, heq⟩ := Option.map_eq_some_iff.mp hi
  obtain ⟨rfl, rfl⟩ := Prod.mk.inj heq
  -- the label of the `i`-th phoneme is printed for its context
  have hph : u.phonemes[i]? = some ph := by
    rw [← u.map_snd_placed, List.getElem?_map, hplaced]
    rfl
  have hmem := List.mem_of_getElem? hplaced
  obtain ⟨label, hlabel, hcontext, -⟩ := label_inContext hph hmem
  refine ⟨label, (getElem?_labels hlabels hph).trans hlabel, fun feature => ?_⟩
  cases feature with
  | LL => exact hcontext.p1_eq
  | L => exact hcontext.p2_eq
  | C => exact hcontext.p3_eq
  | R => exact hcontext.p4_eq
  | RR => exact hcontext.p5_eq
  | vowel =>
    obtain ⟨s, hs, hparent⟩ := u.parent_placed hmem
    have hat : (Links.atOr sentinelSyllable u.syllables j').args = u.syllableAt j' :=
      args_atOr j'
    rw [Links.atOr_ofNat hs] at hat
    rw [Feature.value, ← hat]
    exact b16_label hlabel (s.parent_phonemes ph hparent)

/-- **The questions of a voice are answered by what they are about.** In every utterance with
plain names, and for every phoneme of it, `HTS_Question_match` finds a question about one of the
features true of the printed label exactly when the question names what the phoneme has there. -/
theorem questions_answered {u : UtteranceArgs} (hplain : PlainNames u) :
    ∃ labels, (new u).asLabels = some labels ∧
      ∀ i j name, u.spoken[i]? = some (j, name) → ∃ label, labels[i]? = some label ∧
        ∀ (feature : Feature) (string : Str) (names : List Str),
          (∀ asked ∈ names, Plain asked ∧ asked.length + 6 < hts_maxbuflen) →
          questionMatch ⟨string, names.map fun asked => feature.pattern asked⟩ label.toList
            = some (decide ((feature.value u i j).toList ∈ names)) := by
  obtain ⟨labels, hprinted, hlabels⟩ := exists_label u
  refine ⟨_, hprinted, fun i j name hi => ?_⟩
  obtain ⟨label, hlabel, hfields⟩ := hlabels i j name hi
  refine ⟨label.format, ?_, fun feature string names hnames => ?_⟩
  · rw [List.getElem?_map, hlabel]
    rfl
  -- the names of the label are those of the utterance
  have hfield : ∀ feature : Feature, Plain (feature.field label).toList := fun feature => by
    rw [hfields feature]
    exact hplain.value i j feature
  have hplainLabel : label.NamesPlain :=
    ⟨hfield .LL, hfield .L, hfield .C, hfield .R, hfield .RR, hfield .vowel⟩
  have hshort : Short (names.map fun asked => feature.pattern asked) := by
    intro pattern hpattern
    obtain ⟨asked, hasked, rfl⟩ := List.mem_map.mp hpattern
    exact (feature.length_pattern_le asked).trans_lt (hnames asked hasked).2
  obtain ⟨found, hfound, hiff⟩ := matchAny_eq label.format.toList hshort
  have hsame : found = decide ((feature.value u i j).toList ∈ names) := by
    rw [Bool.eq_iff_iff, hiff, decide_eq_true_iff, ← hfields feature]
    constructor
    · rintro ⟨pattern, hpattern, hmatch⟩
      obtain ⟨asked, hasked, rfl⟩ := List.mem_map.mp hpattern
      rwa [← (Label.mem_pattern hplainLabel (hnames asked hasked).1 feature).mp hmatch]
    · intro hmem
      exact ⟨_, List.mem_map_of_mem hmem,
        (Label.mem_pattern hplainLabel (hnames _ hmem).1 feature).mpr rfl⟩
  rw [questionMatch, hfound, hsame]

/-- The word "cat", of one syllable. -/
def cat : UtteranceArgs := [[[⟨["k", "ae", "t"], 1, "ae"⟩]]]

/-- A question about the vowel of `cat`. -/
theorem questions_answered_cat :
    ∃ labels, (new cat).asLabels = some labels ∧ ∃ label, labels[1]? = some label ∧
      questionMatch ⟨"C-Low_Vowel".toList, ["*-aa+*".toList, "*-ae+*".toList]⟩ label.toList
        = some true := by
  obtain ⟨labels, hlabels, hanswered⟩ := questions_answered
    (show PlainNames cat from ⟨by decide, by decide⟩)
  obtain ⟨label, hlabel, hquestion⟩ := hanswered 1 0 "ae" rfl
  have hnames : ∀ asked ∈ ["aa".toList, "ae".toList], Plain asked ∧
      asked.length + 6 < hts_maxbuflen := by
    decide
  exact ⟨labels, hlabels, label, hlabel, hquestion .C "C-Low_Vowel".toList _ hnames⟩

end Utterance

end Vox.Labelizer
