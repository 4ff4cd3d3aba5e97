import Vox.Mage.ModelOf

/-!
# MAGE — a voice whose weights are 0

A label's model with one more voice in the map, whose weights are all 0. What the voice
adds to durations, means and variances is 0. But MSD values and global variances are
overwritten by one voice after the other, whatever the weights are, so that a silent voice
is heard there unless a voice with a later name writes the same cell, or the values are those that
the earlier ones leave (`Masked`).

Main result: `staysSilent_iff` — exactly then the model of the label is the same.
-/

set_option linter.dupNamespace false

namespace Vox.Mage

open Lib

-- ---------------------------------------------------------------------------
-- Cells
-- ---------------------------------------------------------------------------

/-- A voice with global variances overwrites coefficient `j` of stream `k`. -/
def Engine.WritesGv (engine : Engine) (k j : Nat) : Prop :=
  engine.ms.use_gv k = true ∧ j < (engine.ms.stream k).vector_length

instance (engine : Engine) (k j : Nat) : Decidable (engine.WritesGv k j) :=
  inferInstanceAs (Decidable (_ ∧ _))

/-- Mean and variance that it writes there. -/
def Engine.gvValues (engine : Engine) (label : Label) (k j : Nat) : ℚ × ℚ :=
  match engine.ms.gv with
  | none => (0, 0)
  | some gv => (engine.gvMean label gv k j, engine.gvVari label gv k j)

section Cells

variable {label : Label} {i k j : Nat}

/-- The GV of a cell is overwritten by a voice that has it. -/
theorem overwriteGv_eq (engine : Engine) (label : Label) (k j : Nat) (cell : Distribution) :
    engine.overwriteGv label k j cell
      = if engine.WritesGv k j then
          { cell with mean := (engine.gvValues label k j).1, vari := (engine.gvValues label k j).2 }
        else cell := by
  by_cases hwrites : engine.WritesGv k j
  · obtain ⟨huse, hj⟩ := hwrites
    rw [if_pos ⟨huse, hj⟩, Engine.overwriteGv, Engine.gvValues]
    cases hgv : engine.ms.gv with
    | none =>
      rw [ModelSet.use_gv, hgv] at huse
      exact absurd huse Bool.false_ne_true
    | some gv => exact if_pos ⟨huse, hj⟩
  · rw [if_neg hwrites, Engine.overwriteGv]
    split
    · rfl
    · exact if_neg hwrites

/-- Sums do not see the MSD value that a cell starts with. -/
theorem foldl_addTo_sums (used : List (Engine × Option (Nat → ℚ))) {cell cell' : Distribution}
    (hmean : cell.mean = cell'.mean) (hvari : cell.vari = cell'.vari) :
    (used.foldl (fun cell e => e.1.addTo label e.2 i k j cell) cell).mean
        = (used.foldl (fun cell e => e.1.addTo label e.2 i k j cell) cell').mean ∧
      (used.foldl (fun cell e => e.1.addTo label e.2 i k j cell) cell).vari
        = (used.foldl (fun cell e => e.1.addTo label e.2 i k j cell) cell').vari := by
  induction used generalizing cell cell' with
  | nil => exact ⟨hmean, hvari⟩
  | cons e used ih =>
    refine ih ?_ ?_
    · show (e.1.addTo label e.2 i k j cell).mean = (e.1.addTo label e.2 i k j cell').mean
      rw [Engine.addTo, Engine.addTo]
      split
      · exact congrArg (· + _) hmean
      · exact hmean
    · show (e.1.addTo label e.2 i k j cell).vari = (e.1.addTo label e.2 i k j cell').vari
      rw [Engine.addTo, Engine.addTo]
      split
      · exact congrArg (· + _) hvari
      · exact hvari

/-- The MSD value is the last one written. -/
theorem msdFlag_foldl_addTo (used : List (Engine × Option (Nat → ℚ))) (cell : Distribution) :
    (used.foldl (fun cell e => e.1.addTo label e.2 i k j cell) cell).msdFlag
      = lastWritten (fun e => j < (e.1.ms.stream k).vector_length) (fun e => e.1.msd label i k) used
          cell.msdFlag := by
  rw [← foldl_overwrite]
  induction used generalizing cell with
  | nil => rfl
  | cons e used ih =>
    rw [List.foldl_cons, List.foldl_cons, ih, Engine.addTo]
    split <;> rfl

/-- So are mean and global variance of a cell of the global variances. -/
theorem foldl_overwriteGv (used : List (Engine × Option (Nat → ℚ))) (cell : Distribution) :
    ((used.foldl (fun cell e => e.1.overwriteGv label k j cell) cell).mean,
        (used.foldl (fun cell e => e.1.overwriteGv label k j cell) cell).vari)
      = lastWritten (fun e => e.1.WritesGv k j) (fun e => e.1.gvValues label k j) used
          (cell.mean, cell.vari) := by
  rw [← foldl_overwrite]
  induction used generalizing cell with
  | nil => rfl
  | cons e used ih =>
    rw [List.foldl_cons, List.foldl_cons, ih, overwriteGv_eq]
    split <;> rfl

end Cells

-- ---------------------------------------------------------------------------
-- One more voice
-- ---------------------------------------------------------------------------

/-- A voice whose weights for all streams and for durations are 0. -/
def Voice.Silent (voice : Voice) : Prop :=
  (∀ k < nOfStreams, voice.1 k = 0) ∧ voice.1 durStreamIndex = 0

/-- The voices of entries of the map, with their weights. -/
def voicesOf (entries : List (List Char × Option Voice)) : List (Engine × Option (Nat → ℚ)) :=
  entries.filterMap fun e => e.2.map fun voice => (voice.2, some voice.1)

theorem voicesOf_append (entries entries' : List (List Char × Option Voice)) :
    voicesOf (entries ++ entries') = voicesOf entries ++ voicesOf entries' :=
  List.filterMap_append

namespace Mage

/-- MAGE with one more voice in the map. -/
def withVoice (m : Mage) (name : List Char) (voice : Voice) : Mage :=
  { m with engine := m.engine.insert name (some voice) }

/-- The voices with smaller names, which come earlier. -/
def voicesBefore (m : Mage) (name : List Char) : List (Engine × Option (Nat → ℚ)) :=
  voicesOf (m.engine.before name)

def voicesAfter (m : Mage) (name : List Char) : List (Engine × Option (Nat → ℚ)) :=
  voicesOf (m.engine.after name)

variable {m : Mage} {name : List Char} {voice : Voice} {label : Label}

/-- One voice more keeps the map as it should be. -/
theorem registered_withVoice (h : m.Registered) (hne : m.engine.keys ≠ []) (name : List Char)
    (voice : Voice) : (m.withVoice name voice).Registered ∧
      (m.withVoice name voice).engine.keys ≠ [] := by
  have hnonempty : (m.engine.insert name (some voice)).keys ≠ [] :=
    List.ne_nil_of_mem (SortedMap.mem_keys_insert.mpr (.inl rfl))
  refine ⟨⟨?_, fun _ => hnonempty, fun _ => ?_, fun hnil => absurd hnil hnonempty, h.write_lt⟩,
    hnonempty⟩
  · intro e he
    rcases SortedMap.mem_insert.mp he with rfl | ⟨hold, -⟩
    · exact Option.some_ne_none _
    · exact h.loaded e hold
  · exact SortedMap.mem_keys_insert.mpr (.inr (h.default_mem hne))

/-- The voices used, with one more among them. -/
theorem usedEngines_withVoice (hinterpolation : m.interpolationFlag = true)
    (hname : name ∉ m.engine.keys) (voice : Voice) :
    m.usedEngines = m.voicesBefore name ++ m.voicesAfter name ∧
      (m.withVoice name voice).usedEngines
        = m.voicesBefore name ++ (voice.2, some voice.1) :: m.voicesAfter name := by
  have hused : ∀ m : Mage, m.interpolationFlag = true →
      m.usedEngines = voicesOf m.engine.entries := by
    intro m hinterpolation
    rw [usedEngines, if_pos hinterpolation, SortedMap.values, List.filterMap_map]
    rfl
  obtain ⟨hentries, hinsert⟩ := SortedMap.entries_insert (SortedMap.get?_eq_none_iff.mpr hname)
    (some voice)
  refine ⟨?_, ?_⟩
  · rw [hused m hinterpolation, hentries, voicesOf_append]
    rfl
  · rw [hused (m.withVoice name voice) hinterpolation]
    show voicesOf (m.engine.insert name (some voice)).entries = _
    rw [hinsert, voicesOf_append]
    rfl

/-- The voice is not the default one, and keeps out of `prepareModel`. -/
theorem prepared_withVoice (hne : name ≠ m.defaultEngine) (voice held : Voice) :
    (m.withVoice name voice).prepared held = (m.prepared held).withVoice name voice := by
  have hmap : (m.engine.insert name (some voice)).adjust m.defaultEngine (fun _ =>
      some (held.1, (m.nextModel.checkInterpolationWeights held.2).2))
        = (m.engine.adjust m.defaultEngine fun _ =>
            some (held.1, (m.nextModel.checkInterpolationWeights held.2).2)).insert name
              (some voice) := SortedMap.adjust_insert hne _ _
  have hprepared : (m.withVoice name voice).prepared held
      = { m.prepared held with
          engine := (m.engine.insert name (some voice)).adjust m.defaultEngine fun _ =>
            some (held.1, (m.nextModel.checkInterpolationWeights held.2).2) } := rfl
  rw [hprepared, hmap]
  rfl

/-- Durations stay as they are. -/
theorem voiceDurations_withVoice (hinterpolation : m.interpolationFlag = true)
    (hname : name ∉ m.engine.keys) (hsilent : voice.Silent) (stale : Int → Int) (i : Nat) :
    (m.withVoice name voice).voiceDurations label stale i = m.voiceDurations label stale i := by
  obtain ⟨hused, hused'⟩ := usedEngines_withVoice hinterpolation hname voice
  rw [voiceDurations, voiceDurations, hused, hused', List.foldl_append, List.foldl_append,
    List.foldl_cons]
  -- a sum that is an `int`, and 0
  have hadded : Model.addedDuration label stale (voice.2, some voice.1) i = 0 := by
    have hweight : weightOf (some voice.1) durStreamIndex = 0 := hsilent.2
    rw [Model.addedDuration, hweight, zero_mul, Round]
    norm_num
  have hrange := foldl_invariant (I := fun d : Int => -2 ^ 31 ≤ d ∧ d < 2 ^ 31)
    (fun d (e : Engine × Option (Nat → ℚ)) _ => toInt_mem (d + Model.addedDuration label stale e i))
    (m.voicesBefore name) 0 (by decide)
  rw [hadded, Int.add_zero, toInt_of_mem hrange.1 hrange.2]

end Mage

-- ---------------------------------------------------------------------------
-- What is heard of a silent voice
-- ---------------------------------------------------------------------------

/-- Two models that agree in durations, distributions, MSD values and global variances. -/
structure Unchanged (model model' : Model) : Prop where
  state_duration : ∀ i < nOfStates, (model'.state i).duration = (model.state i).duration
  duration : model'.duration = model.duration
  sums : ∀ i < nOfStates, ∀ k < nOfStreams, ∀ j,
    ((model'.state i).streams k j).mean = ((model.state i).streams k j).mean ∧
      ((model'.state i).streams k j).vari = ((model.state i).streams k j).vari
  msd : ∀ i < nOfStates, ∀ k < nOfStreams, ∀ j,
    ((model'.state i).streams k j).msdFlag = ((model.state i).streams k j).msdFlag
  gv : ∀ i < nOfStates, ∀ k < nOfStreams, ∀ j,
    (((model'.state i).gv_streams k j).mean, ((model'.state i).gv_streams k j).vari)
      = (((model.state i).gv_streams k j).mean, ((model.state i).gv_streams k j).vari)

namespace Mage

/-- **The property**: one more voice leaves the model of a label unchanged. -/
def StaysSilent (m : Mage) (name : List Char) (voice : Voice) (label : Label) : Prop :=
  ∃ model model', m.labelModel label = some model ∧
    (m.withVoice name voice).labelModel label = some model' ∧ Unchanged model model'

/-- **The condition**: each MSD value and each global variance of the voice is written again by a
voice with a larger name, or is the one that is left by the last voice with a smaller name that
has one there — by the slot, if there is none. -/
structure Masked (m : Mage) (name : List Char) (engine : Engine) (label : Label) (slot : Model) :
    Prop where
  msd : ∀ i < nOfStates, ∀ k < nOfStreams, ∀ j, j < (engine.ms.stream k).vector_length →
    (∃ e ∈ m.voicesAfter name, j < (e.1.ms.stream k).vector_length) ∨
      engine.msd label i k
        = lastWritten (fun e => j < (e.1.ms.stream k).vector_length) (fun e => e.1.msd label i k)
            (m.voicesBefore name) ((slot.state i).streams k j).msdFlag
  gv : ∀ i < nOfStates, ∀ k < nOfStreams, ∀ j, engine.WritesGv k j →
    (∃ e ∈ m.voicesAfter name, e.1.WritesGv k j) ∨
      engine.gvValues label k j
        = lastWritten (fun e => e.1.WritesGv k j) (fun e => e.1.gvValues label k j)
            (m.voicesBefore name)
            (((slot.state i).gv_streams k j).mean, ((slot.state i).gv_streams k j).vari)

variable {m : Mage} {name : List Char} {voice : Voice}

/-- Means and variances stay as they are. -/
theorem sums_withVoice (hinterpolation : m.interpolationFlag = true) (hname : name ∉ m.engine.keys)
    (hsilent : voice.Silent) (label : Label) (slot : Model) {i k : Nat} (hi : i < nOfStates)
    (hk : k < nOfStreams) (j : Nat) :
    ((((m.withVoice name voice).modelOf label slot).state i).streams k j).mean
        = (((m.modelOf label slot).state i).streams k j).mean ∧
      ((((m.withVoice name voice).modelOf label slot).state i).streams k j).vari
        = (((m.modelOf label slot).state i).streams k j).vari := by
  obtain ⟨hused, hused'⟩ := usedEngines_withVoice hinterpolation hname voice
  rw [(cells_modelOf _ label slot hi hk j).1, (cells_modelOf _ label slot hi hk j).1, hused, hused',
    List.foldl_append, List.foldl_append, List.foldl_cons]
  -- its terms are multiples of its weight, which is 0
  have hweight : weightOf (some voice.1) k = 0 := hsilent.1 k hk
  refine foldl_addTo_sums _ ?_ ?_
  · show (voice.2.addTo label (some voice.1) i k j _).mean = _
    rw [Engine.addTo, hweight]
    split
    · show _ + 0 * _ = _
      rw [zero_mul, add_zero]
    · rfl
  · show (voice.2.addTo label (some voice.1) i k j _).vari = _
    rw [Engine.addTo, hweight]
    split
    · show _ + 0 * 0 * _ = _
      rw [zero_mul, zero_mul, add_zero]
    · rfl

/-- An MSD value stays as it is when the voice is not heard in it. -/
theorem msd_withVoice_iff (hinterpolation : m.interpolationFlag = true)
    (hname : name ∉ m.engine.keys) (voice : Voice) (label : Label) (slot : Model) {i k : Nat}
    (hi : i < nOfStates) (hk : k < nOfStreams) (j : Nat) :
    ((((m.withVoice name voice).modelOf label slot).state i).streams k j).msdFlag
        = (((m.modelOf label slot).state i).streams k j).msdFlag ↔
      (j < (voice.2.ms.stream k).vector_length →
        (∃ e ∈ m.voicesAfter name, j < (e.1.ms.stream k).vector_length) ∨
          voice.2.msd label i k
            = lastWritten (fun e => j < (e.1.ms.stream k).vector_length)
                (fun e => e.1.msd label i k) (m.voicesBefore name)
                ((slot.state i).streams k j).msdFlag) := by
  obtain ⟨hused, hused'⟩ := usedEngines_withVoice hinterpolation hname voice
  -- clearing the sums leaves the MSD value of the slot
  have hslot : (if j < maxStreamLen then { (slot.state i).streams k j with mean := 0, vari := 0 }
      else (slot.state i).streams k j).msdFlag = ((slot.state i).streams k j).msdFlag := by
    split <;> rfl
  rw [(cells_modelOf _ label slot hi hk j).1, (cells_modelOf _ label slot hi hk j).1,
    msdFlag_foldl_addTo, msdFlag_foldl_addTo, hslot, hused, hused']
  exact lastWritten_insert_iff _ _ _ _ _ _

/-- So does a global variance. -/
theorem gv_withVoice_iff (hinterpolation : m.interpolationFlag = true)
    (hname : name ∉ m.engine.keys) (voice : Voice) (label : Label) (slot : Model) {i k : Nat}
    (hi : i < nOfStates) (hk : k < nOfStreams) (j : Nat) :
    (((((m.withVoice name voice).modelOf label slot).state i).gv_streams k j).mean,
        ((((m.withVoice name voice).modelOf label slot).state i).gv_streams k j).vari)
      = ((((m.modelOf label slot).state i).gv_streams k j).mean,
          (((m.modelOf label slot).state i).gv_streams k j).vari) ↔
      (voice.2.WritesGv k j →
        (∃ e ∈ m.voicesAfter name, e.1.WritesGv k j) ∨
          voice.2.gvValues label k j
            = lastWritten (fun e => e.1.WritesGv k j) (fun e => e.1.gvValues label k j)
                (m.voicesBefore name)
                (((slot.state i).gv_streams k j).mean, ((slot.state i).gv_streams k j).vari)) := by
  obtain ⟨hused, hused'⟩ := usedEngines_withVoice hinterpolation hname voice
  rw [(cells_modelOf _ label slot hi hk j).2, (cells_modelOf _ label slot hi hk j).2,
    foldl_overwriteGv, foldl_overwriteGv, hused, hused']
  exact lastWritten_insert_iff _ _ _ _ _ _

/-- One more silent voice in a loop over the voices. -/
theorem unchanged_withVoice_iff (hinterpolation : m.interpolationFlag = true)
    (hname : name ∉ m.engine.keys) (hsilent : voice.Silent) (label : Label) (slot : Model) :
    Unchanged (m.modelOf label slot) ((m.withVoice name voice).modelOf label slot) ↔
      m.Masked name voice.2 label slot := by
  refine ⟨fun h => ⟨?_, ?_⟩, fun h => ?_⟩
  · intro i hi k hk j
    exact (msd_withVoice_iff hinterpolation hname voice label slot hi hk j).mp (h.msd i hi k hk j)
  · intro i hi k hk j
    exact (gv_withVoice_iff hinterpolation hname voice label slot hi hk j).mp (h.gv i hi k hk j)
  -- durations and sums are weighted, so only MSD and GV can differ
  · have hdurations : ∀ i < nOfStates,
        (m.withVoice name voice).voiceDurations label slot.modelMemory.duration_array i
          = m.voiceDurations label slot.modelMemory.duration_array i :=
      fun i _ => voiceDurations_withVoice hinterpolation hname hsilent _ i
    obtain ⟨hstates, hduration⟩ := durations_modelOf m (m.withVoice name voice) rfl rfl hdurations
    refine ⟨hstates, hduration, ?_, ?_, ?_⟩
    · intro i hi k hk j
      exact sums_withVoice hinterpolation hname hsilent label slot hi hk j
    · intro i hi k hk j
      exact (msd_withVoice_iff hinterpolation hname voice label slot hi hk j).mpr
        (h.msd i hi k hk j)
    · intro i hi k hk j
      exact (gv_withVoice_iff hinterpolation hname voice label slot hi hk j).mpr (h.gv i hi k hk j)

/-- The two models of a label. -/
theorem staysSilent_iff_unchanged (h : m.Registered) (hne : m.engine.keys ≠ [])
    (hname : name ∉ m.engine.keys) (voice : Voice) (label : Label) {prepared : Mage}
    (hprepared : m.prepareModel = some prepared) :
    m.StaysSilent name voice label ↔
      Unchanged (prepared.modelOf label prepared.nextModel)
        ((prepared.withVoice name voice).modelOf label prepared.nextModel) := by
  obtain ⟨held, hheld, hlabel⟩ := labelModel_eq h hne label
  obtain rfl := Option.some.inj ((prepareModel_eq hheld).symm.trans hprepared)
  have hslot : (m.prepared held).nextModel = (m.nextModel.checkInterpolationWeights held.2).1 :=
    nextModel_writeModel h.write_lt _
  -- the default voice is the same
  have hother : name ≠ m.defaultEngine := by
    rintro rfl
    exact hname (h.default_mem hne)
  obtain ⟨hregistered, hne'⟩ := registered_withVoice h hne name voice
  obtain ⟨held', hheld', hlabel'⟩ := labelModel_eq hregistered hne' label
  have hget : (m.withVoice name voice).engine.get? m.defaultEngine = some (some held) := by
    show (m.engine.insert name (some voice)).get? m.defaultEngine = _
    rw [SortedMap.get?_insert, if_neg hother.symm]
    exact hheld
  obtain rfl : held = held' := Option.some.inj (Option.some.inj (hget.symm.trans hheld'))
  rw [prepared_withVoice hother] at hlabel'
  -- both models are known
  rw [StaysSilent, hlabel, hlabel', hslot]
  refine ⟨?_, fun hsame => ⟨_, _, rfl, rfl, hsame⟩⟩
  rintro ⟨model, model', hmodel, hmodel', hsame⟩
  obtain rfl := Option.some.inj hmodel
  obtain rfl := Option.some.inj hmodel'
  exact hsame

/--
**Exactly when a silent voice stays silent.** With interpolation, one more voice whose weights
are all 0 leaves the model of a label unchanged exactly when its MSD values and global
variances are masked by the other voices. -/
theorem staysSilent_iff (h : m.Registered) (hne : m.engine.keys ≠ [])
    (hinterpolation : m.interpolationFlag = true) (hname : name ∉ m.engine.keys)
    (hsilent : voice.Silent) (label : Label) :
    m.StaysSilent name voice label ↔
      ∀ prepared, m.prepareModel = some prepared →
        prepared.Masked name voice.2 label prepared.nextModel := by
  obtain ⟨held, hheld⟩ := h.exists_default hne
  have hprepared := prepareModel_eq hheld
  have hkeys : name ∉ (m.prepared held).engine.keys := by
    rw [(registered_prepared h held).2]
    exact hname
  have hsame := unchanged_withVoice_iff (m := m.prepared held) hinterpolation hkeys hsilent label
    (m.prepared held).nextModel
  rw [staysSilent_iff_unchanged h hne hname voice label hprepared, hsame]
  refine ⟨?_, fun hmasked => hmasked _ hprepared⟩
  rintro hmasked prepared hprepared'
  obtain rfl := Option.some.inj (hprepared.symm.trans hprepared')
  exact hmasked

/-- MAGE with one voice, where all voices are used. -/
def soloInterpolated : Mage := (solo plainEngine).enableInterpolation true

/-- A silent voice, but voiced where the other is not. -/
def voicedVoice : Voice := (fun _ => 0, ratedEngine 1 (fun _ => 1) 1 fun _ => 1)

theorem registered_soloInterpolated : soloInterpolated.Registered := by
  have h := registered_solo plainEngine
  exact ⟨h.loaded, h.ready_ne, h.default_mem, h.default_eq, h.write_lt⟩

/-- The silent voice comes last, and its MSD value is the one that is kept. -/
theorem staysSilent_fails :
    ¬ ∀ (m : Mage) (name : List Char) (voice : Voice) (label : Label), m.Registered →
      m.engine.keys ≠ [] → m.interpolationFlag = true → name ∉ m.engine.keys → voice.Silent →
        m.StaysSilent name voice label := by
  intro h
  have hname : ['z'] ∉ soloInterpolated.engine.keys := by decide
  have hne : soloInterpolated.engine.keys ≠ [] := by decide
  have hsilent : voicedVoice.Silent := ⟨fun _ _ => rfl, rfl⟩
  have hprepared := prepareModel_eq (m := soloInterpolated) (get?_solo plainEngine)
  have hunchanged := (staysSilent_iff_unchanged registered_soloInterpolated hne hname voicedVoice
    default hprepared).mp
      (h _ ['z'] voicedVoice default registered_soloInterpolated hne rfl hname hsilent)
  have hkeys : ['z'] ∉ (soloInterpolated.prepared
      (fun _ => (defaultInterpolationWeight : ℚ), plainEngine)).engine.keys := by
    rw [(registered_prepared registered_soloInterpolated _).2]
    exact hname
  have hmasked := (unchanged_withVoice_iff (m := soloInterpolated.prepared
    (fun _ => (defaultInterpolationWeight : ℚ), plainEngine)) rfl hkeys hsilent default _).mp
      hunchanged
  -- its MSD value is 1, where the other voice leaves 0
  rcases hmasked.msd 0 (by decide) lf0StreamIndex (by decide) 0 Nat.one_pos with ⟨e, he, -⟩ | hvalue
  · cases he
  · have hvoiced : voicedVoice.2.msd default 0 lf0StreamIndex = 1 := by
      show (0 : ℚ) + 1 * 1 = 1
      norm_num
    refine absurd (hvalue.symm.trans hvoiced) ?_
    show ¬ (0 : ℚ) + _ * 0 = 1
    norm_num

/-- A silent copy of the only voice is not heard. -/
theorem staysSilent_copy :
    soloInterpolated.StaysSilent ['z'] (fun _ => 0, plainEngine) default := by
  refine (staysSilent_iff registered_soloInterpolated (by decide) rfl (by decide)
    ⟨fun _ _ => rfl, rfl⟩ default).mpr fun prepared hprepared => ?_
  obtain rfl := Option.some.inj ((prepareModel_eq (m := soloInterpolated)
    (get?_solo plainEngine)).symm.trans hprepared)
  refine ⟨fun i _ k _ j hj => .inr ?_, fun i _ k _ j hwrites => ?_⟩
  · show plainEngine.msd default i k = lastWritten _ _ [(_, _)] _
    rw [lastWritten_cons]
    refine Eq.trans ?_ (if_pos hj).symm
    show (if _ then (0 : ℚ) + 1 * 0 else _) = if _ then (0 : ℚ) + _ * 0 else _
    rw [mul_zero, mul_zero]
    rfl
  · exact absurd hwrites.1 Bool.false_ne_true

end Mage

end Vox.Mage
