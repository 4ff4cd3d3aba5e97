import Vox.Labelizer.Counts

/-!
# Labelizer — the figures of a label add up

A label has the place of its phoneme in the syllable, and of the syllable in its word and in
its phrase, from the front and from the back; and how many stressed and accented syllables
of the phrase come before and after. Each figure is found by a search of its own.

* `Label.AddsUp` — the two figures of a pair give the size of the whole.
* `Label.PhraseLe` — what does not decrease within a phrase.
* `asLabels_addUp` — both, for every label that is printed.
-/

namespace Vox.Labelizer

open Lib

/-! ## Places in the tree -/

/-- No phoneme occurs twice in its syllable. -/
theorem Syllable.nodup_phonemes (s : Syllable) : s.phonemes.Nodup :=
  nodup_mapIdx Phoneme.index (fun _ _ => rfl) _

/-- No syllable occurs twice in its word. -/
theorem Word.nodup_syllables (word : Word) : word.syllables.Nodup :=
  nodup_mapIdx Syllable.index (fun _ _ => rfl) _

/-- No word occurs twice in its phrase. -/
theorem Phrase.nodup_words (phrase : Phrase) : phrase.words.Nodup :=
  nodup_mapIdx Word.index (fun _ _ => rfl) _

/-- No syllable occurs twice in its phrase. -/
theorem Phrase.nodup_syllables (phrase : Phrase) : phrase.syllables.Nodup :=
  nodup_flatMap_of_parent Syllable.parent phrase.nodup_words Word.nodup_syllables
    Word.parent_syllables

/-- The syllables of a phrase are those of the words that it was given. -/
theorem Phrase.map_args_syllables (phrase : Phrase) :
    phrase.syllables.map Syllable.args = phrase.args.flatten := by
  rw [Phrase.syllables, List.map_flatMap]
  simp only [Word.map_args_syllables]
  rw [List.flatMap_def, Phrase.map_args_words]

/-- How many syllables of a phrase have a stress. -/
def Phrase.numberWithStress (phrase : Phrase) (stress : Int) : Nat :=
  phrase.args.flatten.countP fun s => s.stress = stress

/-- The syllables of a phrase with a stress, counted in its arguments. -/
theorem Phrase.countP_hasStress (phrase : Phrase) (stress : Int) :
    phrase.syllables.countP (Syllable.hasStress stress) = phrase.numberWithStress stress := by
  rw [Phrase.numberWithStress, ← Phrase.map_args_syllables, List.countP_map]
  rfl

/-- Phonemes are in the order of their syllables. -/
theorem UtteranceArgs.placed_le (u : UtteranceArgs) {i i' j j' : Nat} {ph ph' : Phoneme}
    (hi : u.placed[i]? = some (j, ph)) (hi' : u.placed[i']? = some (j', ph')) (hle : i ≤ i') :
    j ≤ j' := by
  -- phonemes of one syllable have one number, those of later syllables larger ones
  have hpairwise : u.placed.Pairwise fun a b => a.1 ≤ b.1 := by
    rw [placed, List.pairwise_flatMap]
    constructor
    · intro s _
      rw [List.pairwise_map]
      exact List.pairwise_of_forall fun _ _ => Nat.le_refl s.2
    · have hsnd : (u.syllables.zipIdx.map Prod.snd).Pairwise (· ≤ ·) := by
        rw [List.zipIdx_map_snd]
        exact List.pairwise_le_range'
      refine (List.pairwise_map.mp hsnd).imp ?_
      intro s s' hlt a ha b hb
      obtain ⟨_, _, rfl⟩ := List.mem_map.mp ha
      obtain ⟨_, _, rfl⟩ := List.mem_map.mp hb
      exact hlt
  -- the same phoneme, or a later one
  rcases Nat.eq_or_lt_of_le hle with rfl | hlt
  · rw [hi, Option.some.injEq, Prod.mk.injEq] at hi'
    exact hi'.1.le
  · obtain ⟨hlen, hget⟩ := List.getElem?_eq_some_iff.mp hi
    obtain ⟨hlen', hget'⟩ := List.getElem?_eq_some_iff.mp hi'
    have hrel := List.pairwise_iff_getElem.mp hpairwise i i' hlen hlen' hlt
    rwa [hget, hget'] at hrel

/-! ## What one label has -/

namespace InTree

variable {u : UtteranceArgs} {phrase : Phrase} {word : Word} {s : Syllable} {phoneme : Phoneme}
  (h : InTree u phrase word s phoneme)

include h

theorem getElem?_phoneme : s.phonemes[phoneme.index]? = some phoneme :=
  getElem?_index h.phoneme_mem Phoneme.index fun _ _ => rfl

theorem getElem?_syllable : word.syllables[s.index]? = some s :=
  getElem?_index h.syllable_mem Syllable.index fun _ _ => rfl

/-- A syllable has a place in its phrase. -/
theorem exists_place : ∃ k : Nat, phrase.syllables[k]? = some s :=
  List.mem_iff_getElem?.mp h.mem_phrase

variable {label : Label}

/-- The places that the label has. -/
theorem positions_eq (hlabel : label.Positioned phoneme s) {k : Nat}
    (hk : phrase.syllables[k]? = some s) :
    label.p6 = phoneme.index + 1 ∧ label.p7 = s.phonemes.length - phoneme.index ∧
      label.b4 = s.index + 1 ∧ label.b5 = word.syllables.length - s.index ∧
      label.b6 = k + 1 ∧ label.b7 = phrase.syllables.length - k := by
  have hp6 := hlabel.p6_eq
  have hp7 := hlabel.p7_eq
  have hb4 := hlabel.b4_eq
  have hb5 := hlabel.b5_eq
  have hb6 := hlabel.b6_eq
  have hb7 := hlabel.b7_eq
  -- no list holds an element twice, so that each has one place
  rw [h.forwardPositionInSyllable_eq, forwardPosition_eq s.nodup_phonemes h.getElem?_phoneme] at hp6
  rw [h.backwardPositionInSyllable_eq,
    backwardPosition_eq s.nodup_phonemes h.getElem?_phoneme] at hp7
  rw [h.forwardPositionInWord_eq,
    forwardPosition_eq word.nodup_syllables h.getElem?_syllable] at hb4
  rw [h.backwardPositionInWord_eq,
    backwardPosition_eq word.nodup_syllables h.getElem?_syllable] at hb5
  rw [h.forwardPositionInPhrase_eq, forwardPosition_eq phrase.nodup_syllables hk] at hb6
  rw [h.backwardPositionInPhrase_eq, backwardPosition_eq phrase.nodup_syllables hk] at hb7
  exact ⟨(Option.some.inj hp6).symm, (Option.some.inj hp7).symm, (Option.some.inj hb4).symm,
    (Option.some.inj hb5).symm, (Option.some.inj hb6).symm, (Option.some.inj hb7).symm⟩

end InTree

/-- The counts that the label has. -/
theorem Label.Counted.counts_eq {phrase : Phrase} {utteranceSyllables : List Syllable}
    {s : Syllable} {label : Label} (h : label.Counted phrase.syllables utteranceSyllables s)
    {k : Nat} (hk : phrase.syllables[k]? = some s) :
    label.b8 = some ((phrase.syllables.take k).countP (Syllable.hasStress 1)) ∧
      label.b9 = some ((phrase.syllables.drop (k + 1)).countP (Syllable.hasStress 1)) ∧
      label.b10 = some ((phrase.syllables.take k).countP (Syllable.hasStress 2)) ∧
      label.b11 = some ((phrase.syllables.drop (k + 1)).countP (Syllable.hasStress 2)) := by
  rw [h.b8_eq, h.b9_eq, h.b10_eq, h.b11_eq, Syllable.isStressed_eq, Syllable.isAccented_eq]
  exact ⟨countBefore_eq phrase.nodup_syllables hk, countAfter_eq phrase.nodup_syllables hk,
    countBefore_eq phrase.nodup_syllables hk, countAfter_eq phrase.nodup_syllables hk⟩

/-- The figures of a pair give the size of the whole. -/
structure Label.AddsUp (phrase : Phrase) (word : Word) (phoneme : Phoneme)
    (label : Label) : Prop where
  p6_eq : label.p6 = phoneme.index + 1
  syllable_eq : label.p6 + label.p7 = label.b3 + 1
  word_eq : label.b4 + label.b5 = word.args.length + 1
  phrase_eq : label.b6 + label.b7 = phrase.args.flatten.length + 1
  stressed_eq : ∃ before after, label.b8 = some before ∧ label.b9 = some after ∧
    before + after + label.b1 = phrase.numberWithStress 1
  accented_eq : ∃ before after, label.b10 = some before ∧ label.b11 = some after ∧
    before + after + label.b2 = phrase.numberWithStress 2

/-- What does not decrease within a phrase. -/
structure Label.PhraseLe (label label' : Label) : Prop where
  b6_le : label.b6 ≤ label'.b6
  b8_le : ∃ before before', label.b8 = some before ∧ label'.b8 = some before' ∧ before ≤ before'
  b10_le : ∃ before before', label.b10 = some before ∧ label'.b10 = some before' ∧ before ≤ before'

/-- A label read at a place of the tree adds up. -/
theorem InTree.addsUp {u : UtteranceArgs} {phrase : Phrase} {word : Word} {s : Syllable}
    {phoneme : Phoneme} (h : InTree u phrase word s phoneme) {label : Label}
    (hlabel : label.Positioned phoneme s)
    (hcounted : label.Counted phrase.syllables u.syllables s) :
    label.AddsUp phrase word phoneme := by
  obtain ⟨k, hk⟩ := h.exists_place
  obtain ⟨hp6, hp7, hb4, hb5, hb6, hb7⟩ := h.positions_eq hlabel hk
  obtain ⟨hb8, hb9, hb10, hb11⟩ := hcounted.counts_eq hk
  have hphoneme : phoneme.index < s.phonemes.length :=
    (List.getElem?_eq_some_iff.mp h.getElem?_phoneme).1
  have hsyllable : s.index < word.syllables.length :=
    (List.getElem?_eq_some_iff.mp h.getElem?_syllable).1
  have hplace : k < phrase.syllables.length := (List.getElem?_eq_some_iff.mp hk).1
  -- the totals that are printed are those of the arguments
  have hword : word.args.length = word.syllables.length := by
    rw [← Word.map_args_syllables, List.length_map]
  have hphrase : phrase.args.flatten.length = phrase.syllables.length := by
    rw [← Phrase.map_args_syllables, List.length_map]
  refine ⟨hp6, ?_, ?_, ?_, ⟨_, _, hb8, hb9, ?_⟩, ⟨_, _, hb10, hb11, ?_⟩⟩
  -- forward and backward position meet: a place from the front and from the end
  · rw [hp6, hp7, hlabel.b3_eq, Syllable.numberOfPhonemes]
    omega
  · rw [hb4, hb5, hword]
    omega
  · rw [hb6, hb7, hphrase]
    omega
  -- before, here and behind: all syllables of the phrase are counted once
  · rw [hlabel.b1_eq, Syllable.stressed_eq, countP_around hk, Phrase.countP_hasStress]
  · rw [hlabel.b2_eq, Syllable.accented_eq, countP_around hk, Phrase.countP_hasStress]

/-! ## All labels -/

/-- Along a phrase the places and the counts from the front do not decrease. -/
theorem phraseLe_of_le {phrase : Phrase} {utteranceSyllables : List Syllable} {s s' : Syllable}
    {label label' : Label} (hcounted : label.Counted phrase.syllables utteranceSyllables s)
    (hcounted' : label'.Counted phrase.syllables utteranceSyllables s') {k k' : Nat}
    (hk : phrase.syllables[k]? = some s) (hk' : phrase.syllables[k']? = some s')
    (hb6 : label.b6 = k + 1) (hb6' : label'.b6 = k' + 1) (hle : k ≤ k') :
    label.PhraseLe label' := by
  obtain ⟨hb8, -, hb10, -⟩ := hcounted.counts_eq hk
  obtain ⟨hb8', -, hb10', -⟩ := hcounted'.counts_eq hk'
  have hsublist : (phrase.syllables.take k).Sublist (phrase.syllables.take k') :=
    List.take_sublist_take_left hle
  exact ⟨by omega, ⟨_, _, hb8, hb8', hsublist.countP_le⟩,
    ⟨_, _, hb10, hb10', hsublist.countP_le⟩⟩

namespace Utterance

variable {u : UtteranceArgs}

/-- A phoneme has the number of its syllable. -/
theorem exists_placed {i : Nat} {ph : Phoneme} (hi : u.phonemes[i]? = some ph) :
    ∃ j, u.placed[i]? = some (j, ph) := by
  rw [← u.map_snd_placed, List.getElem?_map] at hi
  obtain ⟨⟨j, ph⟩, hplaced, rfl⟩ := Option.map_eq_some_iff.mp hi
  exact ⟨j, hplaced⟩

/-- The syllable that a phoneme is placed in is the one it is in. -/
theorem getElem?_syllables {phrase : Phrase} {word : Word} {s : Syllable} {i j : Nat}
    {ph : Phoneme} (htree : InTree u phrase word s ph) (hi : u.placed[i]? = some (j, ph)) :
    u.syllables[j]? = some s := by
  obtain ⟨s', hs', hph⟩ := u.parent_placed (List.mem_of_getElem? hi)
  have hparent := (s'.parent_phonemes ph hph).symm.trans htree.phoneme_parent
  rw [hs', Option.some.inj hparent]

/-- **The figures of every label add up**, and those from the front do not decrease: of the
labels that are printed for an utterance of any shape, label `i` is the one of a phoneme of
the tree, whose figures give the sizes of its syllable, word and phrase; and of two labels of
one phrase, or of one word, the later one does not have the smaller figures. -/
theorem asLabels_addUp (u : UtteranceArgs) :
    ∃ labels : List Label, (new u).asLabels = some (labels.map Label.format) ∧
      (∀ (i : Nat) (label : Label), labels[i]? = some label → ∃ phrase word s phoneme,
        u.phonemes[i]? = some phoneme ∧ InTree u phrase word s phoneme ∧
          label.AddsUp phrase word phoneme) ∧
      ∀ (i i' : Nat) (label label' : Label) phrase word word' s s' phoneme phoneme', i ≤ i' →
        labels[i]? = some label → labels[i']? = some label' →
        u.phonemes[i]? = some phoneme → u.phonemes[i']? = some phoneme' →
        InTree u phrase word s phoneme → InTree u phrase word' s' phoneme' →
          label.PhraseLe label' ∧ (word = word' → label.b4 ≤ label'.b4) := by
  obtain ⟨labels, hprinted, hlabels⟩ := asLabels_eq u
  -- the label that is printed is the one that is read at the phoneme
  have hread : ∀ {i : Nat} {label : Label} {phrase word s phoneme}, labels[i]? = some label →
      u.phonemes[i]? = some phoneme → InTree u phrase word s phoneme →
        label.Positioned phoneme s ∧ label.Counted phrase.syllables u.syllables s := by
    intro i label phrase word s phoneme hi hph htree
    obtain ⟨label', hlabel', -, hpositioned, hcounted⟩ := htree.label_read
    rw [getElem?_labels hlabels hph, hlabel'] at hi
    obtain rfl : label' = label := Option.some.inj hi
    exact ⟨hpositioned, hcounted⟩
  refine ⟨labels, hprinted, ?_, ?_⟩
  · intro i label hi
    have hlength := congrArg List.length hlabels
    rw [List.length_map, List.length_map] at hlength
    -- there are as many labels as phonemes
    have hlt : i < u.phonemes.length := hlength ▸ (List.getElem?_eq_some_iff.mp hi).1
    have hph : u.phonemes[i]? = some u.phonemes[i] := List.getElem?_eq_getElem hlt
    obtain ⟨j, hj⟩ := exists_placed hph
    obtain ⟨phrase, word, s, htree, -⟩ := inTree_of_placed (List.mem_of_getElem? hj)
    obtain ⟨hpositioned, hcounted⟩ := hread hi hph htree
    exact ⟨phrase, word, s, _, hph, htree, htree.addsUp hpositioned hcounted⟩
  · intro i i' label label' phrase word word' s s' phoneme phoneme' hle hi hi' hph hph' htree htree'
    obtain ⟨hpositioned, hcounted⟩ := hread hi hph htree
    obtain ⟨hpositioned', hcounted'⟩ := hread hi' hph' htree'
    obtain ⟨k, hk⟩ := htree.exists_place
    obtain ⟨k', hk'⟩ := htree'.exists_place
    obtain ⟨-, -, hb4, -, hb6, -⟩ := htree.positions_eq hpositioned hk
    obtain ⟨-, -, hb4', -, hb6', -⟩ := htree'.positions_eq hpositioned' hk'
    -- the syllables are in the order of the phonemes, and so are their places
    obtain ⟨j, hj⟩ := exists_placed hph
    obtain ⟨j', hj'⟩ := exists_placed hph'
    have hs := getElem?_syllables htree hj
    have hs' := getElem?_syllables htree' hj'
    have horder : j ≤ j' := u.placed_le hj hj' hle
    have hplaces : k ≤ k' :=
      le_of_flatMap htree.phrase_mem u.nodup_syllables hk hk' hs hs' horder
    refine ⟨phraseLe_of_le hcounted hcounted' hk hk' hb6 hb6' hplaces, ?_⟩
    -- in one word the syllables' indices are in the same order
    rintro rfl
    have hnodup := u.nodup_syllables
    rw [u.syllables_eq] at hnodup hs hs'
    have hword : word ∈ u.words := List.mem_flatMap.mpr ⟨phrase, htree.phrase_mem, htree.word_mem⟩
    have hindex : s.index ≤ s'.index :=
      le_of_flatMap hword hnodup htree.getElem?_syllable htree'.getElem?_syllable hs hs' horder
    rw [hb4, hb4']
    omega

end Utterance

end Vox.Labelizer
