import Vox.Mage.WindowFrames

/-!
# MAGE — reading the parameters back

`generate` counts the frames of the window again to find the rows that
`optimizeParameters` has stored for the frames of the spoken model. Both count the
frames before a frame: all of them, or the voiced ones for lf0 (`earlier`), so that
the row read is the row stored.

* `frames_counted` — after the models before it, the counters are at the first frame
  of the spoken model.
* `Emitted` — what has been emitted after a part of its frames.
* `generate_reads_back` — the row read for a frame is the row stored for it.
-/

namespace Vox.Mage.ModelQueue

open Lib

variable {msd_threshold : Nat → ℚ} {queue : MemQueue Model}

/-- Whether stream `i` counts a frame. -/
def counts (msd_threshold : Nat → ℚ) (i : Nat) (f : WindowFrame) : Bool :=
  i != lf0StreamIndex || voiced msd_threshold f.state

/-- A frame counts for its stream, unless it is an unvoiced one of the pitch. -/
theorem counts_iff {i : Nat} {f : WindowFrame} :
    (i ≠ lf0StreamIndex ∨ (f.state.streams i 0).msdFlag > msd_threshold i) ↔
      counts msd_threshold i f = true := by
  rw [counts, Bool.or_eq_true, bne_iff_ne, voiced, decide_eq_true_iff]
  by_cases hi : i = lf0StreamIndex
  · rw [hi]
  · simp only [hi, ne_eq, not_false_iff, true_or]

-- ---------------------------------------------------------------------------
-- Counting
-- ---------------------------------------------------------------------------

/-- The count goes on by the frames of a state that counts. -/
theorem countState_apply (state : State) (qStream : Nat → Nat) {i : Nat} (hi : i < nOfStreams) :
    countState msd_threshold state qStream i
      = if i ≠ lf0StreamIndex ∨ (state.streams i 0).msdFlag > msd_threshold i then
          qStream i + unsignedInt state.duration else qStream i := by
  rw [countState, foldl_update_own
    (fun i => i ≠ lf0StreamIndex ∨ (state.streams i 0).msdFlag > msd_threshold i)
    (fun q => q + unsignedInt state.duration)]
  by_cases hc : i ≠ lf0StreamIndex ∨ (state.streams i 0).msdFlag > msd_threshold i
  · rw [if_pos ⟨hi, hc⟩, if_pos hc]
  · rw [if_neg (fun h => hc h.2), if_neg hc]

/-- A settled duration is the same number as an `unsigned int`. -/
theorem unsignedInt_duration {model : Model} (h : model.Settled) {state : Nat}
    (hstate : state < nOfStates) :
    unsignedInt (model.state state).duration = (model.state state).duration.toNat := by
  have hcast := unsignedInt_eq (h.nonneg state hstate)
    (Int.lt_trans (h.int state hstate) (by decide))
  omega

/-- All frames of a state count, or none. -/
theorem countP_state (msd_threshold : Nat → ℚ) (model : Model) (w n i : Nat) :
    ((List.range (model.state n).duration.toNat).map fun j =>
        (⟨⟨w, n, j⟩, model, model.state n⟩ : WindowFrame)).countP (counts msd_threshold i)
      = if i ≠ lf0StreamIndex ∨ ((model.state n).streams i 0).msdFlag > msd_threshold i then
          (model.state n).duration.toNat else 0 := by
  rw [List.countP_map]
  by_cases hc : i ≠ lf0StreamIndex ∨ ((model.state n).streams i 0).msdFlag > msd_threshold i
  · have hall : ∀ j, counts msd_threshold i ⟨⟨w, n, j⟩, model, model.state n⟩ = true :=
      fun j => counts_iff.mp hc
    rw [if_pos hc]
    simp [Function.comp_def, hall]
  · have hnone : ∀ j, counts msd_threshold i ⟨⟨w, n, j⟩, model, model.state n⟩ = false := by
      intro j
      rw [Bool.eq_false_iff]
      exact fun h => hc (counts_iff.mpr h)
    rw [if_neg hc]
    simp [Function.comp_def, hnone]

/-- The frames of the first `n` states of a model. -/
theorem countP_states {model : Model} (hsettled : model.Settled) (w : Nat) {i : Nat}
    (hi : i < nOfStreams) (qStream : Nat → Nat) :
    (List.range nOfStates).foldl
        (fun qStream s => countState msd_threshold (model.state s) qStream) qStream i
      = qStream i + (framesOf w model).countP (counts msd_threshold i) := by
  have hstates : ∀ n ≤ nOfStates, (List.range n).foldl
        (fun qStream s => countState msd_threshold (model.state s) qStream) qStream i
      = qStream i + ((List.range n).flatMap fun state =>
          (List.range (model.state state).duration.toNat).map fun j =>
            (⟨⟨w, state, j⟩, model, model.state state⟩ : WindowFrame)).countP
          (counts msd_threshold i) := by
    intro n hn
    induction n with
    | zero => rfl
    | succ n ih =>
      -- one more state
      have hdur := unsignedInt_duration hsettled (show n < nOfStates by omega)
      have hcount := countP_state msd_threshold model w n i
      rw [List.range_succ, List.foldl_append, List.flatMap_append, List.countP_append]
      simp only [List.foldl_cons, List.foldl_nil, List.flatMap_cons, List.flatMap_nil,
        List.append_nil]
      rw [countState_apply _ _ hi, ih (by omega), hcount, hdur]
      split <;> omega
  exact hstates nOfStates (Nat.le_refl _)

/-- After the earlier models the counters are at the frame after theirs. -/
theorem frames_counted {backup : Nat}
    (hsettled : ∀ w < backup, (modelAt queue w).Settled) {i : Nat} (hi : i < nOfStreams) :
    (List.range backup).foldl
        (fun qStream w => (List.range nOfStates).foldl
          (fun qStream s => countState msd_threshold ((modelAt queue w).state s) qStream) qStream)
        (fun _ => 0) i
      = (frames queue backup).countP (counts msd_threshold i) := by
  induction backup with
  | zero => rfl
  | succ n ih =>
    rw [List.range_succ, List.foldl_append]
    simp only [List.foldl_cons, List.foldl_nil]
    rw [countP_states (hsettled n (Nat.lt_succ_self n)) n hi,
      ih fun w hw => hsettled w (Nat.lt_succ_of_lt hw), frames_succ, List.countP_append]

-- ---------------------------------------------------------------------------
-- Emitting
-- ---------------------------------------------------------------------------

/-- What has been emitted after the frames `pre` of the spoken model, where `base`
counts the frames of the earlier models. -/
structure Emitted (msd_threshold : Nat → ℚ) (base : Nat → Nat) (pre : List WindowFrame)
    (s : (Nat → Nat) × List Emission) : Prop where
  counted : ∀ i < nOfStreams, s.1 i = base i + pre.countP (counts msd_threshold i)
  places : s.2.map (·.place) = pre.map (·.place)
  frames : ∀ p e, s.2[p]? = some e → ∃ f, pre[p]? = some f ∧ e.place = f.place ∧
    e.voiced = voiced msd_threshold f.state ∧
    ∀ i < nOfStreams, e.index i = base i + (pre.take p).countP (counts msd_threshold i)

theorem Emitted.emitFrame {base : Nat → Nat} {pre : List WindowFrame}
    {s : (Nat → Nat) × List Emission} (h : Emitted msd_threshold base pre s) (f : WindowFrame) :
    Emitted msd_threshold base (pre ++ [f]) (emitFrame msd_threshold f.place f.state s) := by
  have hlength : s.2.length = pre.length := by
    have hmap := congrArg List.length h.places
    rwa [List.length_map, List.length_map] at hmap
  refine ⟨?_, ?_, ?_⟩
  · intro i hi
    refine (foldl_update_own
      (fun i => i ≠ lf0StreamIndex ∨ (f.state.streams i 0).msdFlag > msd_threshold i)
      (fun q => q + 1) nOfStreams s.1 i).trans ?_
    rw [List.countP_append, List.countP_singleton, h.counted i hi]
    -- the counter moves exactly when the frame has a row
    by_cases hc : i ≠ lf0StreamIndex ∨ (f.state.streams i 0).msdFlag > msd_threshold i
    · rw [if_pos ⟨hi, hc⟩, if_pos (counts_iff.mp hc), Nat.add_assoc]
    · rw [if_neg fun hand => hc hand.2, if_neg fun hcount => hc (counts_iff.mpr hcount)]
      rfl
  · -- the place of the new frame is the last one
    show (s.2 ++ [_]).map _ = _
    rw [List.map_append, List.map_append, h.places]
    rfl
  · intro p e he
    rcases getElem?_concat_cases he with ⟨hold, hlt⟩ | ⟨rfl, rfl⟩
    · -- emitted before: it still counts the same frames
      obtain ⟨g, hg, hplace, hvoiced, hindex⟩ := h.frames p e hold
      have hp : p < pre.length := (List.getElem?_eq_some_iff.mp hg).1
      refine ⟨g, ?_, hplace, hvoiced, ?_⟩
      · rw [List.getElem?_append_left hp, hg]
      · rw [List.take_append_of_le_length (Nat.le_of_lt hp)]
        exact hindex
    · refine ⟨f, ?_, rfl, rfl, ?_⟩
      · rw [hlength, List.getElem?_concat_length]
      · intro i hi
        -- its rows are counted before it is
        rw [hlength, List.take_left]
        exact h.counted i hi

/-- The frames emitted are those of the spoken model. -/
theorem generate_emitted (msd_threshold : Nat → ℚ) {backup : Nat}
    (hsettled : ∀ w < backup + 1, (modelAt queue w).Settled) :
    ∃ qStream, Emitted msd_threshold
      (fun i => (frames queue backup).countP (counts msd_threshold i))
      (framesOf backup (modelAt queue backup)) (qStream, generate queue msd_threshold backup) := by
  have hhead := hsettled backup (Nat.lt_succ_self backup)
  obtain ⟨qStream, hqStream⟩ : ∃ qStream, qStream = (List.range backup).foldl
      (fun qStream w => (List.range nOfStates).foldl
        (fun qStream s => countState msd_threshold ((modelAt queue w).state s) qStream) qStream)
      (fun _ => 0) := ⟨_, rfl⟩
  -- the emission loops, as a loop over the frames of the model
  have hloops : (List.range nOfStates).foldl
      (fun s state => (List.range (unsignedInt ((modelAt queue backup).state state).duration)).foldl
        (fun s q => emitFrame msd_threshold ⟨backup, state, q⟩
          ((modelAt queue backup).state state) s) s) (qStream, [])
      = (framesOf backup (modelAt queue backup)).foldl
        (fun s f => emitFrame msd_threshold f.place f.state s) (qStream, []) := by
    simp only [framesOf, List.foldl_flatMap, List.foldl_map]
    refine List.foldl_ext _ _ _ ?_
    intro s state hstate
    rw [unsignedInt_duration hhead (List.mem_range.mp hstate)]
  have hemitted : Emitted msd_threshold
      (fun i => (frames queue backup).countP (counts msd_threshold i))
      (framesOf backup (modelAt queue backup))
      ((framesOf backup (modelAt queue backup)).foldl
        (fun s f => emitFrame msd_threshold f.place f.state s) (qStream, [])) := by
    refine foldl_prefix_induction (fun pre s => Emitted msd_threshold _ pre s) ⟨?_, rfl, ?_⟩ ?_
    · intro i hi
      rw [hqStream]
      exact frames_counted (fun w hw => hsettled w (Nat.lt_succ_of_lt hw)) hi
    · intro p e he
      cases he
    · intro pre f _ _ s hs
      exact hs.emitFrame f
  rw [← hloops, hqStream] at hemitted
  exact ⟨_, hemitted⟩

-- ---------------------------------------------------------------------------
-- Places
-- ---------------------------------------------------------------------------

/-- No two frames of a window have the same place. -/
theorem nodup_places (queue : MemQueue Model) (window : Nat) :
    ((frames queue window).map (·.place)).Nodup := by
  simp only [frames, framesOf, List.map_flatMap, List.map_map]
  rw [List.nodup_flatMap]
  refine ⟨?_, ?_⟩
  -- within a model the state or the frame differs
  · intro w _
    rw [List.nodup_flatMap]
    refine ⟨?_, ?_⟩
    · intro state _
      refine List.Nodup.map ?_ List.nodup_range
      intro j j' hjj
      exact (Place.mk.inj hjj).2.2
    · refine List.nodup_range.pairwise_of_forall_ne ?_
      intro state _ state' _ hne place hplace hplace'
      obtain ⟨j, -, rfl⟩ := List.mem_map.mp hplace
      obtain ⟨j', -, hjj⟩ := List.mem_map.mp hplace'
      exact hne (Place.mk.inj hjj).2.1.symm
  · refine List.nodup_range.pairwise_of_forall_ne ?_
    intro w _ w' _ hne place hplace hplace'
    obtain ⟨state, -, hplace⟩ := List.mem_flatMap.mp hplace
    obtain ⟨j, -, rfl⟩ := List.mem_map.mp hplace
    obtain ⟨state', -, hplace'⟩ := List.mem_flatMap.mp hplace'
    obtain ⟨j', -, hjj⟩ := List.mem_map.mp hplace'
    exact hne (Place.mk.inj hjj).1.symm

/-- The places of the frames are distinct. -/
theorem eq_of_place_eq {window t t' : Nat} {f f' : WindowFrame}
    (hf : (frames queue window)[t]? = some f) (hf' : (frames queue window)[t']? = some f')
    (hplace : f.place = f'.place) : t = t' := by
  have ht := (List.getElem?_eq_some_iff.mp hf).1
  have hmap : ((frames queue window).map (·.place))[t]?
      = ((frames queue window).map (·.place))[t']? := by
    rw [List.getElem?_map, List.getElem?_map, hf, hf', Option.map_some, Option.map_some, hplace]
  have hlt : t < ((frames queue window).map (·.place)).length := by
    rw [List.length_map]
    exact ht
  exact (List.getElem?_inj hlt (nodup_places queue window)).mp hmap

-- ---------------------------------------------------------------------------
-- Rows read and rows stored
-- ---------------------------------------------------------------------------

/-- Frame `p` of the spoken model is this frame of the window. -/
theorem frames_getElem? {backup p : Nat} (lookup : Nat) {f : WindowFrame}
    (hf : (framesOf backup (modelAt queue backup))[p]? = some f) :
    (frames queue (backup + lookup + 1))[(frames queue backup).length + p]? = some f ∧
      (frames queue (backup + lookup + 1)).take ((frames queue backup).length + p)
        = frames queue backup ++ (framesOf backup (modelAt queue backup)).take p := by
  have hp := (List.getElem?_eq_some_iff.mp hf).1
  obtain ⟨rest, hrest⟩ := frames_add queue (backup + 1) lookup
  have hsplit : frames queue (backup + lookup + 1)
      = frames queue backup ++ (framesOf backup (modelAt queue backup) ++ rest) := by
    rw [show backup + lookup + 1 = backup + 1 + lookup by omega, hrest, frames_succ,
      List.append_assoc]
  rw [hsplit]
  refine ⟨?_, ?_⟩
  · rw [List.getElem?_append_right (Nat.le_add_right _ _), Nat.add_sub_cancel_left,
      List.getElem?_append_left hp, hf]
  · rw [List.take_length_add_append, List.take_append_of_le_length (Nat.le_of_lt hp)]

/-- The frames before frame `t` of a window that are voiced, or all of them. -/
def earlier (msd_threshold : Nat → ℚ) (fs : List WindowFrame) (i t : Nat) : Nat :=
  if i = lf0StreamIndex then (fs.take t).countP fun f => voiced msd_threshold f.state else t

/-- The frames that counted before a frame. -/
theorem countP_counts {fs : List WindowFrame} {t : Nat} (ht : t ≤ fs.length) (i : Nat) :
    (fs.take t).countP (counts msd_threshold i) = earlier msd_threshold fs i t := by
  rw [earlier]
  split
  · rename_i hi
    congr 1
    funext f
    simp [counts, hi]
  · rename_i hi
    have hall : ∀ f ∈ fs.take t, counts msd_threshold i f = true := by
      intro f _
      simp [counts, hi]
    rw [List.countP_eq_length.mpr hall, List.length_take, Nat.min_eq_left ht]

/-- Each frame emitted is a frame of the window, with its voicing and its numbers. -/
theorem generate_index {backup lookup : Nat} {msd_threshold : Nat → ℚ}
    (hsettled : ∀ w < backup + lookup + 1, (modelAt queue w).Settled) {e : Emission}
    (he : e ∈ generate queue msd_threshold backup) :
    ∃ t f, (frames queue (backup + lookup + 1))[t]? = some f ∧ e.place = f.place ∧
      e.voiced = voiced msd_threshold f.state ∧
      ∀ i < nOfStreams,
        e.index i = earlier msd_threshold (frames queue (backup + lookup + 1)) i t := by
  have hspoken : ∀ w < backup + 1, (modelAt queue w).Settled := fun w hw => hsettled w (by omega)
  obtain ⟨qStream, hemitted⟩ := generate_emitted msd_threshold hspoken
  obtain ⟨p, hp⟩ := List.mem_iff_getElem?.mp he
  obtain ⟨f, hf, hplace, hvoiced, hindex⟩ := hemitted.frames p e hp
  obtain ⟨hframe, htake⟩ := frames_getElem? lookup hf
  have hlt := (List.getElem?_eq_some_iff.mp hframe).1
  refine ⟨(frames queue backup).length + p, f, hframe, hplace, hvoiced, ?_⟩
  intro i hi
  rw [hindex i hi, ← countP_counts (Nat.le_of_lt hlt), htake, List.countP_append]

/-- Frame `t` of the window is emitted with its own voicing and rows: in each stream that
reads one, the row is the frame's number, and the only one that was stored for it. -/
structure ReadsBack (msd_threshold : Nat → ℚ) (fs : List WindowFrame) (memory : Memory)
    (e : Emission) (t : Nat) : Prop where
  place_eq : (fs[t]?).map (·.place) = some e.place
  voiced_eq : e.voiced = memory.voiced_unvoiced t
  index_eq : ∀ i < nOfStreams, e.index i = earlier msd_threshold fs i t
  stored : ∀ i < nOfStreams, (i = lf0StreamIndex → e.voiced = true) →
    ∀ row, .row i row e.place ∈ memory.accesses ↔ row = e.index i

/--
**The generator reads back the rows that the optimiser wrote.** It emits the frames of
the spoken model in their order, as many as the model's duration, and each with the
voicing recorded and the rows stored for that frame. -/
theorem generate_reads_back (hread : queue.read < queue.length) {backup lookup : Nat}
    (hsettled : ∀ w < backup + lookup + 1, (modelAt queue w).Settled) {ms : ModelSet}
    (hmsd : ∀ i < nOfStreams, (ms.stream i).msd_flag = (i == lf0StreamIndex))
    (msd_threshold : Nat → ℚ) (memory : Memory) :
    ((generate queue msd_threshold backup).length : Int) = (modelAt queue backup).duration ∧
      (generate queue msd_threshold backup).map (·.place)
        = (framesOf backup (modelAt queue backup)).map (·.place) ∧
      ∀ e ∈ generate queue msd_threshold backup, ∃ t,
        ReadsBack msd_threshold (frames queue (backup + lookup + 1))
          (optimizeParameters queue ms msd_threshold backup lookup memory).2 e t := by
  have hoptimized := optimizeParameters_optimized hread hsettled ms msd_threshold memory
  have hspoken : ∀ w < backup + 1, (modelAt queue w).Settled := fun w hw => hsettled w (by omega)
  obtain ⟨qStream, hemitted⟩ := generate_emitted msd_threshold hspoken
  have hplaces := hemitted.places
  refine ⟨?_, hplaces, ?_⟩
  · have hlength := congrArg List.length hplaces
    rw [List.length_map, List.length_map] at hlength
    show ((generate queue msd_threshold backup).length : Int) = _
    rw [show (generate queue msd_threshold backup).length
      = (framesOf backup (modelAt queue backup)).length from hlength]
    exact length_framesOf (hsettled backup (by omega)) backup
  · intro e he
    obtain ⟨t, f, hframe, hplace, hvoiced, hrow⟩ := generate_index hsettled he
    have hlt := (List.getElem?_eq_some_iff.mp hframe).1
    -- the streams have rows for the frames that the generator counts
    have hcounts : ∀ i < nOfStreams,
        hasRow (ms.stream i) msd_threshold = counts msd_threshold i := by
      intro i hi
      funext g
      rw [hasRow, counts, hmsd i hi]
      rfl
    -- so the row of a frame is what the generator has counted
    have hrowOf : ∀ i < nOfStreams, ∀ t, t ≤ (frames queue (backup + lookup + 1)).length →
        rowOf (hasRow (ms.stream i) msd_threshold) (frames queue (backup + lookup + 1)) t
          = earlier msd_threshold (frames queue (backup + lookup + 1)) i t := by
      intro i hi t ht
      rw [rowOf, hcounts i hi, countP_counts ht]
    refine ⟨t, ?_, ?_, hrow, ?_⟩
    · rw [hframe, Option.map_some, hplace]
    · rw [hvoiced, hoptimized.voiced_eq _ f hframe]
    · intro i hi hv row
      -- a row is asked for only where the frame has one
      have hhas : hasRow (ms.stream i) msd_threshold f = true := by
        rw [hcounts i hi, counts, Bool.or_eq_true, bne_iff_ne]
        by_cases hlf0 : i = lf0StreamIndex
        · exact .inr (hvoiced.symm.trans (hv hlf0))
        · exact .inl hlf0
      rw [hrow i hi, ← hrowOf i hi _ (Nat.le_of_lt hlt), hplace]
      refine ⟨?_, ?_⟩
      · intro hmem
        rcases hoptimized.accesses _ hmem with ⟨_, _, hno⟩ | ⟨j, hj, hji, _, g, hg, _, hr, hpl⟩
        · cases hno
        · subst hji
          rw [hr, eq_of_place_eq hframe hg hpl]
      · rintro rfl
        exact hoptimized.logged i hi _ f hframe hhas

/-- The newest of three models is spoken: the fifteen frames after the first twenty-five, the
middle three of them unvoiced. -/
theorem generate_reads_back_mixed :
    ((generate mixedQueue (fun _ => 1 / 2) 2).length : Int) = (modelAt mixedQueue 2).duration ∧
      (generate mixedQueue (fun _ => 1 / 2) 2).map (·.place)
        = (framesOf 2 (modelAt mixedQueue 2)).map (·.place) ∧
      ∀ e ∈ generate mixedQueue (fun _ => 1 / 2) 2, ∃ t,
        ReadsBack (fun _ => 1 / 2) (frames mixedQueue (2 + 0 + 1))
          (optimizeParameters mixedQueue deltaVoice (fun _ => 1 / 2) 2 0 emptyMemory).2 e t :=
  @generate_reads_back mixedQueue (by decide) 2 0 (fun w _ => settled_mixedQueue w) deltaVoice
    (fun _ _ => rfl) (fun _ => 1 / 2) emptyMemory

end Vox.Mage.ModelQueue
