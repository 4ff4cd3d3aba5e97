import Vox.Labelizer.Counts
import Mathlib

/-!
# Labelizer — the other front end

`label-full.awk` prints the labels of the same engine from the features of a Festival
utterance, some of which `extra_feats.scm` computes. This module compares what the two
print around a syllable, the fields `b8` to `b15` of an utterance of one phrase.

* `counts_label` — every field of the labelizer in terms of what Festival knows. The
  counts are less by one than those that `label-full.awk` prints; the distances are
  the same where there is such a syllable, and where there is none the labelizer prints
  the place from that end of the phrase, the other front end zero.
* `never_agree` — so that no syllable gets the same fields from both.

The features that Festival itself computes are parameters.
-/

namespace Vox.Labelizer

/-! ## The front end of Festival -/

/-- What is known of a syllable. -/
structure Flags where
  stressed : Bool
  accented : Bool

/-- The features of the syllables of a phrase, by their numbers. -/
structure Festival where
  sylBreak : Nat → String
  ssylIn : Nat → Nat
  ssylOut : Nat → Nat
  asylIn : Nat → Nat
  asylOut : Nat → Nat

/-- The documentation of these features. -/
structure Festival.Documented (f : Festival) (syllables : List Flags) : Prop where
  sylBreak_mem : ∀ j, j + 1 < syllables.length → f.sylBreak j ∈ ["0", "1"]
  ssylIn_eq : ∀ j < syllables.length, f.ssylIn j = (syllables.take j).countP Flags.stressed
  ssylOut_eq : ∀ j < syllables.length,
    f.ssylOut j = (syllables.drop (j + 1)).countP Flags.stressed
  asylIn_eq : ∀ j < syllables.length, f.asylIn j = (syllables.take j).countP Flags.accented
  asylOut_eq : ∀ j < syllables.length,
    f.asylOut j = (syllables.drop (j + 1)).countP Flags.accented

section Scheme

variable (sylBreak : Nat → String) (syllables : List Flags) (feature : Flags → Bool)

/-- `item.feat` of a feature that is `"1"` or not. -/
def feat (w : Nat) : Bool := (syllables[w]?).any feature

/-- The loop of `distance_to_p_accent` and `distance_to_p_stress`, with `w` items left. -/
def distanceToPrevious : Nat → Nat → Nat
  | _, 0 => 0
  | c, w + 1 =>
    if sylBreak w ∈ ["0", "1"] then
      if feat syllables feature w then c + 1 else distanceToPrevious (c + 1) w
    else 0

/-- The loop of `distance_to_n_accent` and `distance_to_n_stress`, at item `w` with so many
items left. The feature `p.syl_break` is that of the item before. -/
def distanceToFollowing : Nat → Nat → Nat → Nat
  | _, _, 0 => 0
  | c, w, n + 1 =>
    if sylBreak (w - 1) ∈ ["0", "1"] then
      if feat syllables feature w then c + 1 else distanceToFollowing (c + 1) (w + 1) n
    else 0

end Scheme

namespace Festival

variable (f : Festival) (syllables : List Flags) (j : Nat)

def distanceToPStress : Nat := distanceToPrevious f.sylBreak syllables Flags.stressed 0 j

def distanceToNStress : Nat :=
  distanceToFollowing f.sylBreak syllables Flags.stressed 0 (j + 1) (syllables.length - (j + 1))

def distanceToPAccent : Nat := distanceToPrevious f.sylBreak syllables Flags.accented 0 j

def distanceToNAccent : Nat :=
  distanceToFollowing f.sylBreak syllables Flags.accented 0 (j + 1) (syllables.length - (j + 1))

/-- The fields `b8` to `b15` of `label-full.awk`, for a segment of syllable `j`. -/
def labelFull (name : String) : List String :=
  let field (n : Nat) := if name = "pau" then "x" else toString n
  [field (f.ssylIn j + 1), field (f.ssylOut j + 1), field (f.asylIn j + 1), field (f.asylOut j + 1),
    field (f.distanceToPStress syllables j), field (f.distanceToNStress syllables j),
    field (f.distanceToPAccent syllables j), field (f.distanceToNAccent syllables j)]

end Festival

/-- The features as they are documented, with a break only after the last syllable. -/
def Festival.counting (syllables : List Flags) : Festival where
  sylBreak j := if j + 1 < syllables.length then "0" else "4"
  ssylIn j := (syllables.take j).countP Flags.stressed
  ssylOut j := (syllables.drop (j + 1)).countP Flags.stressed
  asylIn j := (syllables.take j).countP Flags.accented
  asylOut j := (syllables.drop (j + 1)).countP Flags.accented

/-- The features that are counted are the documented ones. -/
theorem Festival.counting_documented (syllables : List Flags) :
    (Festival.counting syllables).Documented syllables where
  sylBreak_mem j hj := by
    show (if j + 1 < syllables.length then "0" else "4") ∈ ["0", "1"]
    rw [if_pos hj]
    exact List.mem_cons_self
  ssylIn_eq _ _ := rfl
  ssylOut_eq _ _ := rfl
  asylIn_eq _ _ := rfl
  asylOut_eq _ _ := rfl

/-- The same fields of a label. -/
def Label.counts (l : Label) : List (Option Nat) :=
  [l.b8, l.b9, l.b10, l.b11, l.b12, l.b13, l.b14, l.b15]

/-- The flags that the labelizer gives to a syllable. -/
def Syllable.flags (s : Syllable) : Flags := ⟨s.isStressed, s.isAccented⟩

def UtteranceArgs.flags (u : UtteranceArgs) : List Flags := u.syllables.map Syllable.flags

/-! ## The loops of Festival -/

section Loops

variable {sylBreak : Nat → String} {syllables : List Flags} {feature : Flags → Bool}
  (hbreak : ∀ j, j + 1 < syllables.length → sylBreak j ∈ ["0", "1"])

include hbreak

/-- Back from item `j`: the nearest one with the feature, or nothing. -/
theorem distanceToPrevious_eq {w : Nat} (hw : w < syllables.length) (c : Nat) :
    distanceToPrevious sylBreak syllables feature c w
      = if (syllables.take w).any feature then c + since feature (syllables.take w).reverse + 1
        else 0 := by
  induction w generalizing c with
  | zero => rfl
  | succ w ih =>
    have hlt : w < syllables.length := Nat.lt_of_succ_lt hw
    have hfeat : feat syllables feature w = feature syllables[w] := by
      rw [feat, List.getElem?_eq_getElem hlt, Option.any_some]
    rw [distanceToPrevious, if_pos (hbreak w hw), hfeat, ih hlt,
      List.take_succ_eq_append_getElem hlt, List.any_append, List.reverse_append, List.any_cons,
      List.any_nil, Bool.or_false, List.reverse_singleton, List.singleton_append, since_cons]
    have hstep : ∀ n, c + 1 + n + 1 = c + (n + 1) + 1 := fun n => by omega
    -- a syllable with the feature ends the search
    cases feature syllables[w] with
    | true => simp
    | false => simp [hstep]

/-- On from item `w`. -/
theorem distanceToFollowing_eq {n : Nat} {w : Nat} (hpos : 0 < w) (hw : w + n = syllables.length)
    (c : Nat) :
    distanceToFollowing sylBreak syllables feature c w n
      = if (syllables.drop w).any feature then c + since feature (syllables.drop w) + 1 else 0 := by
  induction n generalizing w c with
  | zero =>
    rw [List.drop_of_length_le (by omega)]
    rfl
  | succ n ih =>
    have hlt : w < syllables.length := by omega
    have hfeat : feat syllables feature w = feature syllables[w] := by
      rw [feat, List.getElem?_eq_getElem hlt, Option.any_some]
    rw [distanceToFollowing, if_pos (hbreak (w - 1) (by omega)), hfeat, ih (by omega) (by omega),
      List.drop_eq_getElem_cons hlt, List.any_cons, since_cons]
    have hstep : ∀ n, c + 1 + n + 1 = c + (n + 1) + 1 := fun n => by omega
    cases feature syllables[w] with
    | true => simp
    | false => simp [hstep]

end Loops

/-! ## The two front ends -/

/-- Distances as the labelizer prints them: where there is no such syllable, it counts from
that end of the phrase. -/
def orPlace (place distance : Nat) : Nat := if distance = 0 then place else distance

/-- What the labelizer prints around syllable `j`, in terms of Festival's features. -/
def Festival.labelizerCounts (f : Festival) (syllables : List Flags) (j : Nat) : List Nat :=
  [f.ssylIn j, f.ssylOut j, f.asylIn j, f.asylOut j,
    orPlace (j + 1) (f.distanceToPStress syllables j),
    orPlace (syllables.length - j) (f.distanceToNStress syllables j),
    orPlace (j + 1) (f.distanceToPAccent syllables j),
    orPlace (syllables.length - j) (f.distanceToNAccent syllables j)]

/-- With no such syllable before, the place is counted. -/
theorem orPlace_since {p : Flags → Bool} {l : List Flags} {place : Nat}
    (hplace : place = l.length + 1) :
    orPlace place (if l.any p then 0 + since p l + 1 else 0) = since p l + 1 := by
  cases h : l.any p with
  | true => simp [orPlace]
  | false => rw [since_of_none h, hplace]; rfl

namespace Utterance

variable {words : PhraseArgs}

/-- The one phrase has all syllables of the utterance. -/
theorem syllables_of_phrase {phrase : Phrase} (h : phrase ∈ UtteranceArgs.phrases [words]) :
    phrase.syllables = UtteranceArgs.syllables [words] := by
  have hphrase : UtteranceArgs.phrases [words] = [phrase] := by
    rw [UtteranceArgs.phrases, List.mapIdx_cons, List.mapIdx_nil] at h ⊢
    rw [List.mem_singleton.mp h]
  rw [UtteranceArgs.syllables, hphrase, List.flatMap_singleton, Phrase.syllables]

section Counted

variable {u : UtteranceArgs} {j : Nat} {s : Syllable} (hs : u.syllables[j]? = some s)
  (p : Flags → Bool)

include hs

theorem lt_of_syllable : j < u.flags.length := by
  rw [UtteranceArgs.flags, List.length_map]
  exact (List.getElem?_eq_some_iff.mp hs).1

theorem countBefore_flags :
    countBefore u.syllables s (fun s => p s.flags) = some ((u.flags.take j).countP p) := by
  rw [countBefore_eq u.nodup_syllables hs, UtteranceArgs.flags, ← List.map_take, List.countP_map]
  rfl

theorem countAfter_flags :
    countAfter u.syllables s (fun s => p s.flags) = some ((u.flags.drop (j + 1)).countP p) := by
  rw [countAfter_eq u.nodup_syllables hs, UtteranceArgs.flags, ← List.map_drop, List.countP_map]
  rfl

variable {f : Festival} (hf : f.Documented u.flags)

include hf

theorem distanceFromPrevious_flags :
    distanceFromPrevious u.syllables s (fun s => p s.flags)
      = some (orPlace (j + 1) (distanceToPrevious f.sylBreak u.flags p 0 j)) := by
  have hj := lt_of_syllable hs
  rw [distanceToPrevious_eq hf.sylBreak_mem hj, ← List.any_reverse, orPlace_since,
    distanceFromPrevious_eq u.nodup_syllables hs, UtteranceArgs.flags, ← List.map_take,
    ← List.map_reverse, since_map]
  rw [List.length_reverse, List.length_take, Nat.min_eq_left hj.le]

theorem distanceToNext_flags :
    distanceToNext u.syllables s (fun s => p s.flags)
      = some (orPlace (u.flags.length - j)
          (distanceToFollowing f.sylBreak u.flags p 0 (j + 1) (u.flags.length - (j + 1)))) := by
  have hj := lt_of_syllable hs
  rw [distanceToFollowing_eq hf.sylBreak_mem (Nat.succ_pos j) (by omega), orPlace_since,
    distanceToNext_eq u.nodup_syllables hs, UtteranceArgs.flags, ← List.map_drop, since_map]
  rw [List.length_drop]
  omega

/-- The labelizer's fields, of a label that counts in the whole utterance. -/
theorem counts_of_counted {label : Label} (h : label.Counted u.syllables u.syllables s) :
    label.counts = (f.labelizerCounts u.flags j).map some := by
  have hj := lt_of_syllable hs
  -- the counts in the phrase, then the distances in the utterance
  have h8 := h.b8_eq.trans (countBefore_flags hs Flags.stressed)
  have h9 := h.b9_eq.trans (countAfter_flags hs Flags.stressed)
  have h10 := h.b10_eq.trans (countBefore_flags hs Flags.accented)
  have h11 := h.b11_eq.trans (countAfter_flags hs Flags.accented)
  have h12 := h.b12_eq.trans (distanceFromPrevious_flags hs Flags.stressed hf)
  have h13 := h.b13_eq.trans (distanceToNext_flags hs Flags.stressed hf)
  have h14 := h.b14_eq.trans (distanceFromPrevious_flags hs Flags.accented hf)
  have h15 := h.b15_eq.trans (distanceToNext_flags hs Flags.accented hf)
  -- Festival documents its counts in the same terms
  rw [← hf.ssylIn_eq j hj] at h8
  rw [← hf.ssylOut_eq j hj] at h9
  rw [← hf.asylIn_eq j hj] at h10
  rw [← hf.asylOut_eq j hj] at h11
  rw [Label.counts, h8, h9, h10, h11, h12, h13, h14, h15]
  rfl

end Counted

/-- **What both print around a syllable**, for an utterance of one phrase: the label of a
phoneme of syllable `j` has these counts, where `label-full.awk` prints those of
`Festival.labelFull`. -/
theorem counts_label {f : Festival} (hf : f.Documented (UtteranceArgs.flags [words])) {j : Nat}
    {ph : Phoneme} (hj : (j, ph) ∈ UtteranceArgs.placed [words]) :
    ∃ label, (new [words]).label ph = some label ∧
      label.counts = (f.labelizerCounts (UtteranceArgs.flags [words]) j).map some := by
  obtain ⟨i, hi⟩ := List.mem_iff_getElem?.mp hj
  have hph : (UtteranceArgs.phonemes [words])[i]? = some ph := by
    rw [← UtteranceArgs.map_snd_placed, List.getElem?_map, hi]
    rfl
  obtain ⟨label, hlabel, -, phrase, hphrase, s, hs, hcounted⟩ := label_inContext hph hj
  rw [syllables_of_phrase hphrase] at hcounted
  exact ⟨label, hlabel, counts_of_counted hs hf hcounted⟩

/-- **The front ends give no syllable the same fields**: whatever the stress pattern and
the place in the phrase. -/
theorem never_agree {f : Festival} (hf : f.Documented (UtteranceArgs.flags [words])) {j : Nat}
    {ph : Phoneme} (hj : (j, ph) ∈ UtteranceArgs.placed [words]) (hpause : ph.name ≠ "pau") :
    ¬ ∃ label, (new [words]).label ph = some label ∧
      label.counts.map str = f.labelFull (UtteranceArgs.flags [words]) j ph.name := by
  rintro ⟨label, hlabel, hagree⟩
  obtain ⟨label', hlabel', hcounts⟩ := counts_label hf hj
  obtain rfl : label' = label := Option.some.inj (hlabel'.symm.trans hlabel)
  rw [hcounts, Festival.labelizerCounts, Festival.labelFull, List.map_cons, List.map_cons] at hagree
  -- the first field is enough
  have hfirst : str (some (f.ssylIn j)) = toString (f.ssylIn j + 1) := by
    simpa only [if_neg hpause] using (List.cons.inj hagree).1
  exact (Nat.succ_ne_self _).symm (@Nat.repr_injective (f.ssylIn j) (f.ssylIn j + 1) hfirst)

/-- The word "away", of two syllables. -/
def away : PhraseArgs := [[⟨["ah"], 0, "ah"⟩, ⟨["w", "ey"], 1, "ey"⟩]]

/-- Its first phoneme. -/
def awayAh : Phoneme :=
  ⟨some ⟨some ⟨⟨[away], 0, away⟩, 0, [⟨["ah"], 0, "ah"⟩, ⟨["w", "ey"], 1, "ey"⟩]⟩, 0,
    ⟨["ah"], 0, "ah"⟩⟩, 0, "ah"⟩

theorem never_agree_away :
    ¬ ∃ label, (new [away]).label awayAh = some label ∧
      label.counts.map str
        = (Festival.counting (UtteranceArgs.flags [away])).labelFull
            (UtteranceArgs.flags [away]) 0 "ah" :=
  never_agree (Festival.counting_documented _) (by decide) (by decide)

/-- The first syllable of "away": one stressed syllable follows, and none is accented. -/
theorem away_differs :
    ((new [away]).label awayAh).map (fun l => l.counts.map str)
        = some ["0", "1", "0", "0", "1", "1", "1", "2"] ∧
      (Festival.counting (UtteranceArgs.flags [away])).labelFull
          (UtteranceArgs.flags [away]) 0 "ah"
        = ["1", "2", "1", "1", "0", "1", "0", "0"] := by
  decide

end Utterance

end Vox.Labelizer
