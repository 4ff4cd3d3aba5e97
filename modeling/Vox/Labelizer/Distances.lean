import Vox.Labelizer.Counts

/-!
# Labelizer — the distances to stressed and accented syllables

`distance_from_previous` counts along the list and starts again after each syllable that has
the property; `distance_to_next` does so along the reversed list. Where there is no such
syllable on that side, either counts from the end of the utterance.

* `Distances` — what the two are, in terms of the nearest syllables with the stress.
* `distances_symmetric` — that they are so for every syllable, and that of two consecutive
  stressed ones the first is as far from the second as the second from the first.
-/

namespace Vox.Labelizer

namespace Syllable

variable (syllable : Syllable)

def distanceFromPreviousStressedSyllable : Option Nat := do
  distanceFromPrevious (← syllable.utteranceSyllables) syllable isStressed

def distanceToNextStressedSyllable : Option Nat := do
  distanceToNext (← syllable.utteranceSyllables) syllable isStressed

def distanceFromPreviousAccentedSyllable : Option Nat := do
  distanceFromPrevious (← syllable.utteranceSyllables) syllable isAccented

def distanceToNextAccentedSyllable : Option Nat := do
  distanceToNext (← syllable.utteranceSyllables) syllable isAccented

end Syllable

namespace UtteranceArgs

variable (u : UtteranceArgs)

/-- Syllable `i` of the utterance has the stress. -/
def StressAt (stress : Int) (i : Nat) : Prop :=
  ∃ s, u.reading[i]? = some s ∧ s.stress = stress

/-- No syllable from one place up to another has the stress. -/
def NoStress (stress : Int) (i k : Nat) : Prop := ∀ m, i ≤ m → m < k → ¬ u.StressAt stress m

/-- The distances of syllable `i`: to the nearest syllable with the stress before it and after
it, or else to the places before the first and after the last syllable. -/
structure Distances (stress : Int) (i : Nat) (previous next : Option Nat) : Prop where
  previous_eq : ∀ k < i, u.StressAt stress k → u.NoStress stress (k + 1) i →
    previous = some (i - k)
  previous_none : u.NoStress stress 0 i → previous = some (i + 1)
  next_eq : ∀ k, i < k → u.StressAt stress k → u.NoStress stress (i + 1) k → next = some (k - i)
  next_none : u.NoStress stress (i + 1) u.reading.length → next = some (u.reading.length - i)

variable {u} {stress : Int}

/-- Syllable `i` of the reading is what syllable `i` was made from. -/
theorem getElem?_reading (i : Nat) : u.reading[i]? = u.syllables[i]?.map Syllable.args := by
  rw [← u.map_args_syllables, List.getElem?_map]

/-- A syllable has the stress where the utterance has it. -/
theorem hasStress_iff {i : Nat} {s : Syllable} (hi : u.syllables[i]? = some s) :
    s.hasStress stress = true ↔ u.StressAt stress i := by
  rw [StressAt, getElem?_reading, hi, Option.map_some, Syllable.hasStress, decide_eq_true_eq]
  constructor
  · exact fun h => ⟨s.args, rfl, h⟩
  · rintro ⟨_, hargs, h⟩
    rwa [← Option.some.inj hargs] at h

/-- A stress in the reading is one of a syllable. -/
theorem exists_of_stressAt {i : Nat} (h : u.StressAt stress i) :
    ∃ s, u.syllables[i]? = some s ∧ s.hasStress stress = true := by
  obtain ⟨args, hargs, hstress⟩ := h
  rw [getElem?_reading] at hargs
  obtain ⟨s, hs, rfl⟩ := Option.map_eq_some_iff.mp hargs
  exact ⟨s, hs, decide_eq_true hstress⟩

/-- Where the reading has no stress, no syllable has. -/
theorem hasStress_of_noStress {i k m : Nat} (h : u.NoStress stress i k) (hi : i ≤ m) (hk : m < k)
    {s : Syllable} (hs : u.syllables[m]? = some s) : s.hasStress stress = false :=
  Bool.eq_false_iff.mpr fun hstress => h m hi hk ((hasStress_iff hs).mp hstress)

/-! ## The nearest before and after -/

section Nearest

variable {i : Nat} {s : Syllable} (hi : u.syllables[i]? = some s)

include hi

/-- The syllables before, from the nearest one on. -/
theorem getElem?_before {m : Nat} (hm : m < i) :
    (u.syllables.take i).reverse[m]? = u.syllables[i - 1 - m]? := by
  have hlt : i < u.syllables.length := (List.getElem?_eq_some_iff.mp hi).1
  have hlength : (u.syllables.take i).length = i := by
    rw [List.length_take, Nat.min_eq_left hlt.le]
  rw [List.getElem?_reverse (by omega), hlength, List.getElem?_take_of_lt (by omega)]

/-- Backwards to the nearest syllable with the stress. -/
theorem distanceFromPrevious_of_stressAt {k : Nat} (hk : k < i) (hstress : u.StressAt stress k)
    (hnone : u.NoStress stress (k + 1) i) :
    distanceFromPrevious u.syllables s (Syllable.hasStress stress) = some (i - k) := by
  obtain ⟨t, ht, hhas⟩ := exists_of_stressAt hstress
  rw [distanceFromPrevious_eq u.nodup_syllables hi]
  -- read from the nearest one on, syllable `k` is the first with the stress
  have hsince : since (Syllable.hasStress stress) (u.syllables.take i).reverse = i - 1 - k := by
    refine since_of_first (x := t) ?_ hhas fun m hm y hy => ?_
    · rw [getElem?_before hi (by omega), ← ht]
      congr 1
      omega
    · rw [getElem?_before hi (by omega)] at hy
      exact hasStress_of_noStress hnone (by omega) (by omega) hy
  rw [hsince]
  congr 1
  omega

/-- Without one, backwards to the place before the first syllable. -/
theorem distanceFromPrevious_of_none (hnone : u.NoStress stress 0 i) :
    distanceFromPrevious u.syllables s (Syllable.hasStress stress) = some (i + 1) := by
  have hlt : i < u.syllables.length := (List.getElem?_eq_some_iff.mp hi).1
  have hlength : (u.syllables.take i).reverse.length = i := by
    rw [List.length_reverse, List.length_take, Nat.min_eq_left hlt.le]
  rw [distanceFromPrevious_eq u.nodup_syllables hi, since_of_forall, hlength]
  intro m y hy
  have hm : m < i := hlength ▸ (List.getElem?_eq_some_iff.mp hy).1
  rw [getElem?_before hi hm] at hy
  exact hasStress_of_noStress hnone (Nat.zero_le _) (by omega) hy

/-- Forwards to the nearest syllable with the stress. -/
theorem distanceToNext_of_stressAt {k : Nat} (hk : i < k) (hstress : u.StressAt stress k)
    (hnone : u.NoStress stress (i + 1) k) :
    distanceToNext u.syllables s (Syllable.hasStress stress) = some (k - i) := by
  obtain ⟨t, ht, hhas⟩ := exists_of_stressAt hstress
  rw [distanceToNext_eq u.nodup_syllables hi]
  -- and so it is among those behind
  have hsince : since (Syllable.hasStress stress) (u.syllables.drop (i + 1)) = k - i - 1 := by
    refine since_of_first (x := t) ?_ hhas fun m hm y hy => ?_
    · rw [List.getElem?_drop, ← ht]
      congr 1
      omega
    · rw [List.getElem?_drop] at hy
      exact hasStress_of_noStress hnone (by omega) (by omega) hy
  rw [hsince]
  congr 1
  omega

/-- Without one, forwards to the place behind the last syllable. -/
theorem distanceToNext_of_none (hnone : u.NoStress stress (i + 1) u.reading.length) :
    distanceToNext u.syllables s (Syllable.hasStress stress) = some (u.reading.length - i) := by
  have hlt : i < u.syllables.length := (List.getElem?_eq_some_iff.mp hi).1
  have hlength : u.reading.length = u.syllables.length := by
    rw [← u.map_args_syllables, List.length_map]
  rw [distanceToNext_eq u.nodup_syllables hi, since_of_forall, List.length_drop, hlength]
  · congr 1
    omega
  · intro m y hy
    rw [List.getElem?_drop] at hy
    have hlt' := (List.getElem?_eq_some_iff.mp hy).1
    exact hasStress_of_noStress hnone (by omega) (by omega) hy

/-- The distances of a syllable, for either stress. -/
theorem distances_of_syllable :
    u.Distances stress i (distanceFromPrevious u.syllables s (Syllable.hasStress stress))
      (distanceToNext u.syllables s (Syllable.hasStress stress)) where
  previous_eq _ hk hstress hnone := distanceFromPrevious_of_stressAt hi hk hstress hnone
  previous_none hnone := distanceFromPrevious_of_none hi hnone
  next_eq _ hk hstress hnone := distanceToNext_of_stressAt hi hk hstress hnone
  next_none hnone := distanceToNext_of_none hi hnone

end Nearest

/-- Of two consecutive syllables with the stress. -/
theorem Distances.symmetric {i k : Nat} (hik : i < k) {previous next previous' next' : Option Nat}
    (hfirst : u.Distances stress i previous next) (hsecond : u.Distances stress k previous' next')
    (hi : u.StressAt stress i) (hk : u.StressAt stress k) (hnone : u.NoStress stress (i + 1) k) :
    next = previous' := by
  rw [hfirst.next_eq k hik hk hnone, hsecond.previous_eq i hik hi hnone]

/-- The methods of a syllable of the utterance. -/
theorem distances_of_methods {i : Nat} {s : Syllable} (hi : u.syllables[i]? = some s) :
    u.Distances 1 i s.distanceFromPreviousStressedSyllable s.distanceToNextStressedSyllable ∧
      u.Distances 2 i s.distanceFromPreviousAccentedSyllable
        s.distanceToNextAccentedSyllable := by
  obtain ⟨phrase, hphrase, word, hword, hs⟩ := Utterance.mem_syllables (List.mem_of_getElem? hi)
  rw [Syllable.distanceFromPreviousStressedSyllable, Syllable.distanceToNextStressedSyllable,
    Syllable.distanceFromPreviousAccentedSyllable, Syllable.distanceToNextAccentedSyllable,
    Syllable.utteranceSyllables_of_mem hphrase hword hs, Syllable.isStressed_eq,
    Syllable.isAccented_eq]
  exact ⟨distances_of_syllable hi, distances_of_syllable hi⟩

/-- **The distances are those to the nearest syllables, and they are symmetric**: for every
utterance, of every syllable, to the stressed and to the accented ones; and two consecutive
stressed syllables, or accented ones, have the same distance to each other. -/
theorem distances_symmetric (u : UtteranceArgs) :
    (∀ i s, u.syllables[i]? = some s →
      u.Distances 1 i s.distanceFromPreviousStressedSyllable s.distanceToNextStressedSyllable ∧
        u.Distances 2 i s.distanceFromPreviousAccentedSyllable
          s.distanceToNextAccentedSyllable) ∧
      ∀ i k s t, i < k → u.syllables[i]? = some s → u.syllables[k]? = some t →
        (u.StressAt 1 i → u.StressAt 1 k → u.NoStress 1 (i + 1) k →
          s.distanceToNextStressedSyllable = t.distanceFromPreviousStressedSyllable) ∧
        (u.StressAt 2 i → u.StressAt 2 k → u.NoStress 2 (i + 1) k →
          s.distanceToNextAccentedSyllable = t.distanceFromPreviousAccentedSyllable) := by
  refine ⟨fun i s hi => distances_of_methods hi, ?_⟩
  intro i k s t hik hi hk
  obtain ⟨hstressed, haccented⟩ := distances_of_methods hi
  obtain ⟨hstressed', haccented'⟩ := distances_of_methods hk
  exact ⟨hstressed.symmetric hik hstressed', haccented.symmetric hik haccented'⟩

end UtteranceArgs

end Vox.Labelizer
