import Mathlib.Algebra.BigOperators.Field
import Mathlib.Algebra.BigOperators.Intervals
import Vox.Mage.EngineMap

/-!
# MAGE — the weights of a voice

The interpolation weights of a voice are normalised in place, by the first label of each
slot of the model queue, for the voice that is then the default one. Which voices have
been normalised depends on the history, so MAGE is followed together with a record of it
(`Tracked`): each voice as it was loaded, and whether it has been the default one while
labels still got fresh slots. The record is consistent with what MAGE holds
(`consistent_call`).

Main result: `usesNormalised_iff` — every label uses normalised weights exactly when the
weights of its voices are normalised as loaded, or can be normalised and have been.
-/

set_option linter.dupNamespace false

namespace Vox.Mage

open Lib Finset

-- ---------------------------------------------------------------------------
-- Normalised weights
-- ---------------------------------------------------------------------------

/-- The weights sum to 1, or all are 0. -/
def Normalised (size : Nat) (iw : Nat → ℚ) : Prop :=
  ∑ i ∈ range size, iw i = 1 ∨ ∀ i < size, iw i = 0

theorem foldl_add_eq_sum (iw : Nat → ℚ) (size : Nat) :
    (List.range size).foldl (fun temp i => temp + iw i) 0 = ∑ i ∈ range size, iw i := by
  induction size with
  | zero => rfl
  | succ n ih =>
    rw [List.range_succ, List.foldl_append, ih, sum_range_succ]
    rfl

/-- Each weight is divided by their sum. -/
theorem normalise_of_ne {size : Nat} {iw : Nat → ℚ} (h : ∑ i ∈ range size, iw i ≠ 0) {i : Nat}
    (hi : i < size) : normalise size iw i = iw i / ∑ i ∈ range size, iw i := by
  rw [normalise, foldl_add_eq_sum]
  rw [if_pos h]
  by_cases hzero : iw i = 0
  · rw [if_neg (fun hand => hand.2 hzero), hzero, zero_div]
  · rw [if_pos ⟨hi, hzero⟩]

theorem normalise_of_eq {size : Nat} {iw : Nat → ℚ} (h : ∑ i ∈ range size, iw i = 0) :
    normalise size iw = iw := by
  rw [normalise, foldl_add_eq_sum]
  rw [if_neg (not_not.mpr h)]

theorem sum_normalise {size : Nat} {iw : Nat → ℚ} (h : ∑ i ∈ range size, iw i ≠ 0) :
    ∑ i ∈ range size, normalise size iw i = 1 := by
  calc ∑ i ∈ range size, normalise size iw i
      = ∑ i ∈ range size, iw i / ∑ i ∈ range size, iw i :=
        sum_congr rfl fun i hi => normalise_of_ne h (mem_range.mp hi)
    _ = 1 := by rw [← sum_div, div_self h]

/-- Weights that sum to 1 stay as they are. -/
theorem normalise_of_sum_eq_one {size : Nat} {iw : Nat → ℚ} (h : ∑ i ∈ range size, iw i = 1) :
    normalise size iw = iw := by
  funext i
  rw [normalise, foldl_add_eq_sum]
  rw [h, if_pos one_ne_zero]
  simp only [div_one, ite_self]

/-- Normalising twice is normalising once. -/
theorem normalise_normalise (size : Nat) (iw : Nat → ℚ) :
    normalise size (normalise size iw) = normalise size iw := by
  by_cases h : ∑ i ∈ range size, iw i = 0
  · rw [normalise_of_eq h, normalise_of_eq h]
  · exact normalise_of_sum_eq_one (sum_normalise h)

/-- Only weights that do not sum to 0 can be normalised. -/
theorem normalised_normalise_iff {size : Nat} {iw : Nat → ℚ} :
    Normalised size (normalise size iw) ↔
      (∀ i < size, iw i = 0) ∨ ∑ i ∈ range size, iw i ≠ 0 := by
  by_cases h : ∑ i ∈ range size, iw i = 0
  · rw [normalise_of_eq h, Normalised, h]
    simp
  · exact ⟨fun _ => .inr h, fun _ => .inl (sum_normalise h)⟩

-- ---------------------------------------------------------------------------
-- All weights of a voice
-- ---------------------------------------------------------------------------

/-- The weights for durations, for each stream and for each global variance used. -/
def Engine.AllWeights (engine : Engine) (P : Nat → (Nat → ℚ) → Prop) : Prop :=
  P engine.ms.duration.interpolation_size engine.global.duration_iw ∧
    (∀ i < nOfStreams, P (engine.ms.stream i).interpolation_size (engine.global.parameter_iw i)) ∧
    ∀ gv, engine.ms.gv = some gv → ∀ i < nOfStreams, engine.ms.use_gv i = true →
      P (gv i).interpolation_size (engine.global.gv_iw i)

/-- A property of all weights of a voice, written differently. -/
theorem Engine.AllWeights.congr {engine : Engine} {P Q : Nat → (Nat → ℚ) → Prop}
    (h : ∀ size iw, P size iw ↔ Q size iw) : engine.AllWeights P ↔ engine.AllWeights Q := by
  simp only [Engine.AllWeights, h]

/-- A property of the normalised weights. -/
theorem allWeights_normaliseWeights {engine : Engine} {P : Nat → (Nat → ℚ) → Prop} :
    engine.normaliseWeights.AllWeights P ↔
      engine.AllWeights fun size iw => P size (normalise size iw) := by
  refine and_congr Iff.rfl (and_congr ?_ ?_)
  · refine forall_congr' fun i => forall_congr' fun hi => ?_
    show P (engine.ms.stream i).interpolation_size (if i < nOfStreams then _ else _) ↔ _
    rw [if_pos hi]
  · refine forall_congr' fun gv => forall_congr' fun hgv => forall_congr' fun i =>
      forall_congr' fun hi => forall_congr' fun huse => ?_
    have hiw : engine.normaliseWeights.global.gv_iw i
        = normalise (gv i).interpolation_size (engine.global.gv_iw i) := by
      have hms : engine.ms.gv = some gv := hgv
      simp only [Engine.normaliseWeights]
      rw [hms]
      exact if_pos ⟨hi, huse⟩
    rw [hiw]

/-- A checked voice is not changed by a check. -/
theorem normaliseWeights_normaliseWeights (engine : Engine) :
    engine.normaliseWeights.normaliseWeights = engine.normaliseWeights := by
  -- the weights of each kind are normalised by themselves
  have hparameter : ∀ i, engine.normaliseWeights.normaliseWeights.global.parameter_iw i
      = engine.normaliseWeights.global.parameter_iw i := by
    intro i
    simp only [Engine.normaliseWeights]
    split
    · exact normalise_normalise _ _
    · rfl
  have hgv : ∀ i, engine.normaliseWeights.normaliseWeights.global.gv_iw i
      = engine.normaliseWeights.global.gv_iw i := by
    intro i
    simp only [Engine.normaliseWeights]
    split
    · split
      · exact normalise_normalise _ _
      · rfl
    · rfl
  refine Engine.ext rfl (Global.ext rfl rfl rfl ?_ (funext hparameter) (funext hgv))
  exact normalise_normalise _ _

/-- Weights that are normalised as loaded, or can be normalised and have been. -/
def RatesFit (engine : Engine) (prepared : Prop) : Prop :=
  engine.AllWeights fun size iw =>
    (∀ i < size, iw i = 0) ∨ ∑ i ∈ range size, iw i = 1 ∨
      (prepared ∧ ∑ i ∈ range size, iw i ≠ 0)

/-- A voice whose weights have been normalised, or not, has normalised weights. -/
theorem allWeights_normalised_iff (engine : Engine) (prepared : Prop) [Decidable prepared] :
    (if prepared then engine.normaliseWeights else engine).AllWeights Normalised ↔
      RatesFit engine prepared := by
  by_cases hprepared : prepared
  · rw [if_pos hprepared, allWeights_normaliseWeights, RatesFit]
    refine Engine.AllWeights.congr fun size iw => ?_
    rw [normalised_normalise_iff]
    refine or_congr_right ⟨fun h => .inr ⟨hprepared, h⟩, ?_⟩
    rintro (h | ⟨-, h⟩)
    · rw [h]
      exact one_ne_zero
    · exact h
  · rw [if_neg hprepared, RatesFit]
    refine Engine.AllWeights.congr fun size iw => ?_
    rw [Normalised]
    simp only [hprepared, false_and, or_false]
    exact or_comm

-- ---------------------------------------------------------------------------
-- MAGE with its history
-- ---------------------------------------------------------------------------

/-- MAGE, the number of labels so far, and for each voice in the map the voice as it was
loaded and whether its weights have been normalised since. -/
structure Tracked where
  mage : Mage
  labels : Nat
  record : List Char → Option (Engine × Bool)

namespace Tracked

/-- A slot of the model queue is fresh for the first labels only. -/
def Fresh (t : Tracked) : Prop := t.labels < maxModelQueueLen nOfBackup nOfLookup

instance (t : Tracked) : Decidable t.Fresh :=
  inferInstanceAs (Decidable (t.labels < maxModelQueueLen nOfBackup nOfLookup))

def recordAdded (t : Tracked) (EngineName : List Char) (loaded : Engine) :
    List Char → Option (Engine × Bool) :=
  if EngineName ∈ t.mage.engine.keys then t.record
  else Function.update t.record EngineName (some (loaded, false))

/-- The record after a call. -/
def recordAfter (t : Tracked) : EngineCall → List Char → Option (Engine × Bool)
  | .addEngine EngineName loaded => t.recordAdded EngineName loaded
  | .addEngineFile EngineName argc loaded =>
    if argc > 0 then t.recordAdded EngineName loaded else t.record
  | .run (some _) =>
    if t.mage.flagReady ∧ t.Fresh then
      Function.update t.record t.mage.defaultEngine
        ((t.record t.mage.defaultEngine).map fun r => (r.1, true))
    else t.record
  | _ => t.record

def labelsAfter (t : Tracked) : EngineCall → Nat
  | .run (some _) => if t.mage.flagReady then t.labels + 1 else t.labels
  | _ => t.labels

def call (t : Tracked) (c : EngineCall) : Option Tracked := do
  let mage ← t.mage.call c
  some ⟨mage, t.labelsAfter c, t.recordAfter c⟩

def init (updateFunction : Nat → ℚ) (model : Nat → Model) : Tracked :=
  ⟨Mage.init updateFunction model, 0, fun _ => none⟩

/-- **The condition**: of each voice used, the weights are normalised as loaded, or can be
normalised and have been — it was the default voice of one of the first labels, perhaps
of this one. -/
def LabelFits (t : Tracked) : EngineCall → Prop
  | .run (some _) => t.mage.flagReady = true → ∀ name ∈ t.mage.usedNames, ∀ engine prepared,
    t.record name = some (engine, prepared) →
      RatesFit engine (prepared = true ∨ (name = t.mage.defaultEngine ∧ t.Fresh))
  | _ => True

/-- **The property**: the voices that the computations of a label use, after
`prepareModel`, have normalised weights. -/
def UsesNormalised (t : Tracked) : EngineCall → Prop
  | .run (some _) => t.mage.flagReady = true → ∀ m, t.mage.prepareModel = some m →
    ∀ e ∈ m.usedEngines, e.1.AllWeights Normalised
  | _ => True

/-- What MAGE holds is what the record says. -/
structure Consistent (t : Tracked) : Prop where
  registered : t.mage.Registered
  length_eq : t.mage.modelQueue.length = maxModelQueueLen nOfBackup nOfLookup
  write_eq : t.mage.modelQueue.write = t.labels % maxModelQueueLen nOfBackup nOfLookup
  checked : ∀ k < maxModelQueueLen nOfBackup nOfLookup,
    (t.mage.modelQueue.rawData.getD k default).weightsChecked = decide (k < t.labels)
  weights : ∀ name voice, t.mage.engine.get? name = some (some voice) →
    ∃ engine prepared, t.record name = some (engine, prepared) ∧
      voice.2 = if prepared = true then engine.normaliseWeights else engine

theorem consistent_init (updateFunction : Nat → ℚ) (model : Nat → Model) :
    (init updateFunction model).Consistent where
  registered := Mage.registered_init updateFunction model
  length_eq := by simp [init, Mage.init, MemQueue.length]
  write_eq := rfl
  checked := by
    intro k hk
    simp [init, Mage.init, List.getD, hk]
  weights := by
    intro name voice h
    cases h

variable {t : Tracked}

/-- The slot of a label is fresh for the first labels. -/
theorem Consistent.weightsChecked_nextModel (h : t.Consistent) :
    t.mage.nextModel.weightsChecked = true ↔ ¬ t.Fresh := by
  have hpos : 0 < maxModelQueueLen nOfBackup nOfLookup := by decide
  have hlt := Nat.mod_lt t.labels hpos
  have hslot := h.checked _ hlt
  rw [Mage.nextModel, h.write_eq, hslot, decide_eq_true_iff, Fresh]
  by_cases hfew : t.labels < maxModelQueueLen nOfBackup nOfLookup
  · rw [Nat.mod_eq_of_lt hfew]
    omega
  · omega

/-- A voice that is used has been normalised after `prepareModel` exactly when the record
says so, or this label does it. -/
theorem Consistent.get?_prepared (h : t.Consistent) {voice : Voice}
    (hvoice : t.mage.engine.get? t.mage.defaultEngine = some (some voice)) {name : List Char}
    {held : Voice} (hheld : t.mage.engine.get? name = some (some held)) :
    ∃ used engine prepared, (t.mage.prepared voice).engine.get? name = some (some used) ∧
      t.record name = some (engine, prepared) ∧
      used.2 = if prepared = true ∨ (name = t.mage.defaultEngine ∧ t.Fresh) then
        engine.normaliseWeights else engine := by
  obtain ⟨engine, prepared, hrecord, hengine⟩ := h.weights name held hheld
  by_cases hdefault : name = t.mage.defaultEngine
  · -- the default voice: its weights are checked
    subst hdefault
    obtain rfl : voice = held := by
      rw [hvoice] at hheld
      exact Option.some.inj (Option.some.inj hheld)
    refine ⟨(voice.1, (t.mage.nextModel.checkInterpolationWeights voice.2).2), engine, prepared,
      ?_, hrecord, ?_⟩
    · show (t.mage.engine.adjust _ _).get? _ = _
      rw [SortedMap.get?_adjust, if_pos rfl, hvoice]
      rfl
    · rw [Model.checkInterpolationWeights]
      by_cases hfresh : t.Fresh
      · rw [if_neg (fun hchecked => h.weightsChecked_nextModel.mp hchecked hfresh),
          if_pos (.inr ⟨rfl, hfresh⟩), hengine]
        split
        · exact normaliseWeights_normaliseWeights engine
        · rfl
      · rw [if_pos (h.weightsChecked_nextModel.mpr hfresh), hengine]
        simp only [hfresh, and_false, or_false]
  · refine ⟨held, engine, prepared, ?_, hrecord, ?_⟩
    · show (t.mage.engine.adjust _ _).get? _ = _
      rw [SortedMap.get?_adjust, if_neg hdefault, hheld]
    · rw [hengine]
      simp only [hdefault, false_and, or_false]

/-- `run` uses normalised weights when its label finds them so. -/
theorem usesNormalised_call_iff (h : t.Consistent) (c : EngineCall) :
    t.UsesNormalised c ↔ t.LabelFits c := by
  rcases c with _ | _ | _ | _ | _ | _ | (_ | label)
  all_goals try exact Iff.rfl
  refine forall_congr' fun hready => ?_
  have hne := h.registered.ready_ne hready
  obtain ⟨voice, hvoice⟩ := h.registered.exists_default hne
  rw [Mage.prepareModel_eq hvoice]
  -- the label uses the voices that were there before
  have hnames : (t.mage.prepared voice).usedNames = t.mage.usedNames := by
    rw [Mage.usedNames, (Mage.registered_prepared h.registered voice).2]
    rfl
  refine ⟨?_, ?_⟩
  · intro hused name hname engine prepared hrecord
    have hall := (Mage.forall_usedEngines (P := fun e => e.AllWeights Normalised)).mp
      (hused _ rfl) name (hnames ▸ hname)
    obtain ⟨held, hheld⟩ := h.registered.exists_used hne hname
    obtain ⟨used, engine', prepared', hget, hrecord', hengine⟩ := h.get?_prepared hvoice hheld
    -- there is one record of a voice
    obtain ⟨rfl, rfl⟩ : engine' = engine ∧ prepared' = prepared := by
      rw [hrecord] at hrecord'
      exact ⟨(Prod.mk.inj (Option.some.inj hrecord')).1.symm,
        (Prod.mk.inj (Option.some.inj hrecord')).2.symm⟩
    have hnormalised := hall used hget
    rw [hengine] at hnormalised
    exact (allWeights_normalised_iff engine' _).mp hnormalised
  · rintro hfits m hm
    obtain rfl := Option.some.inj hm
    refine (Mage.forall_usedEngines (P := fun e => e.AllWeights Normalised)).mpr
      fun name hname used hused => ?_
    rw [hnames] at hname
    obtain ⟨held, hheld⟩ := h.registered.exists_used hne hname
    obtain ⟨used', engine, prepared, hget, hrecord, hengine⟩ := h.get?_prepared hvoice hheld
    obtain rfl : used' = used := by
      rw [hused] at hget
      exact (Option.some.inj (Option.some.inj hget)).symm
    rw [hengine]
    exact (allWeights_normalised_iff engine _).mpr (hfits name hname engine prepared hrecord)

-- ---------------------------------------------------------------------------
-- The record stays consistent
-- ---------------------------------------------------------------------------

/-- A call that leaves the model queue alone has only the voices to answer for. -/
theorem Consistent.of_sameQueue (h : t.Consistent) {mage : Mage}
    {record : List Char → Option (Engine × Bool)} (hregistered : mage.Registered)
    (hqueue : mage.modelQueue = t.mage.modelQueue)
    (hweights : ∀ name voice, mage.engine.get? name = some (some voice) →
      ∃ engine prepared, record name = some (engine, prepared) ∧
        voice.2 = if prepared = true then engine.normaliseWeights else engine) :
    (⟨mage, t.labels, record⟩ : Tracked).Consistent := by
  refine ⟨hregistered, ?_, ?_, ?_, hweights⟩
  · rw [hqueue]
    exact h.length_eq
  · rw [hqueue]
    exact h.write_eq
  · rw [hqueue]
    exact h.checked

/-- A voice that is loaded is recorded with its weights. -/
theorem Consistent.addEngine (h : t.Consistent) (name : List Char) (loaded : Engine) :
    (⟨t.mage.addEngine name loaded, t.labels, t.recordAdded name loaded⟩ : Tracked).Consistent := by
  rw [recordAdded]
  by_cases hmem : name ∈ t.mage.engine.keys
  · rw [if_pos hmem, Mage.addEngine_of_mem hmem]
    exact h
  · rw [if_neg hmem]
    have hregistered := Mage.registered_addEngine h.registered name loaded
    have hqueue : (t.mage.addEngine name loaded).modelQueue = t.mage.modelQueue := by
      rw [Mage.addEngine, SortedMap.get?_eq_none_iff.mpr hmem]
      simp only
      split <;> rfl
    have hmap : (t.mage.addEngine name loaded).engine = t.mage.engine.insert name
        (some (fun _ => (defaultInterpolationWeight : ℚ), loaded)) := by
      rw [Mage.addEngine, SortedMap.get?_eq_none_iff.mpr hmem]
      simp only
      split <;> rfl
    refine h.of_sameQueue hregistered hqueue fun name' voice hvoice => ?_
    rw [hmap, SortedMap.get?_insert] at hvoice
    by_cases hsame : name' = name
    · -- the new voice has the weights that were loaded
      rw [if_pos hsame] at hvoice
      obtain rfl := Option.some.inj (Option.some.inj hvoice)
      refine ⟨loaded, false, ?_, rfl⟩
      rw [hsame]
      exact Function.update_self name _ t.record
    · rw [if_neg hsame] at hvoice
      obtain ⟨engine, prepared, hrecord, hengine⟩ := h.weights name' voice hvoice
      refine ⟨engine, prepared, ?_, hengine⟩
      exact (Function.update_of_ne hsame _ t.record).trans hrecord

/-- A voice that goes takes its record with it. -/
theorem Consistent.removeEngine (h : t.Consistent) (name : List Char) :
    (⟨t.mage.removeEngine name, t.labels, t.record⟩ : Tracked).Consistent := by
  have hqueue : (t.mage.removeEngine name).modelQueue = t.mage.modelQueue := by
    rw [Mage.removeEngine]
    split
    · rfl
    · simp only
      split
      · rfl
      · split <;> rfl
  -- what is left was there before
  have hmap : ∀ name' voice, (t.mage.removeEngine name).engine.get? name' = some voice →
      t.mage.engine.get? name' = some voice := by
    intro name' voice hvoice
    by_cases hmem : name ∈ t.mage.engine.keys
    · have herase : (t.mage.removeEngine name).engine = t.mage.engine.erase name := by
        obtain ⟨v, hv⟩ := SortedMap.mem_keys.mp hmem
        rw [Mage.removeEngine, SortedMap.get?_eq_some_iff.mpr hv]
        simp only
        split
        · rfl
        · split <;> rfl
      rw [herase, SortedMap.get?_erase] at hvoice
      split at hvoice
      · cases hvoice
      · exact hvoice
    · rwa [Mage.removeEngine_of_not_mem hmem] at hvoice
  exact h.of_sameQueue (Mage.registered_removeEngine h.registered name) hqueue
    fun name' voice hvoice => h.weights name' voice (hmap name' _ hvoice)

/-- What a label leaves in MAGE. -/
theorem run_effect {m m' : Mage} (h : m.Registered) (hne : m.engine.keys ≠ []) (label : Label)
    (hrun : m.run (some label) = some m') :
    ∃ voice, m.engine.get? m.defaultEngine = some (some voice) ∧
      m'.engine = (m.prepared voice).engine ∧
      (∃ model : Model, model.weightsChecked = true ∧
        m'.modelQueue.rawData = m.modelQueue.rawData.set m.modelQueue.write model) ∧
      m'.modelQueue.write = (m.modelQueue.write + 1) % m.modelQueue.length := by
  obtain ⟨voice, flag, q, hvoice, hran, hrawData, hwrite⟩ := Mage.run_registered h hne label
  obtain rfl := Option.some.inj (hran.symm.trans hrun)
  refine ⟨voice, hvoice, rfl, ?_, ?_⟩
  · refine ⟨(m.prepared voice).modelOf (label.setSpeed m.labelSpeed) (m.prepared voice).nextModel,
      ?_, ?_⟩
    · rw [Mage.weightsChecked_modelOf]
      show ((m.writeModel _).nextModel).weightsChecked = true
      rw [Mage.nextModel_writeModel h.write_lt]
      exact Model.weightsChecked_checkInterpolationWeights _ _
    · show q.rawData = _
      rw [hrawData]
      exact List.set_set ..
  · -- two writes to the slot, and one push
    show q.write = _
    rw [hwrite]
    show (m.modelQueue.write + 1) % ((m.modelQueue.writeNext _).writeNext _).length = _
    rw [MemQueue.length_writeNext, MemQueue.length_writeNext]

/-- One more label fills one more slot, as long as there are fresh ones. -/
theorem Consistent.checked_set (h : t.Consistent) {model : Model}
    (hmodel : model.weightsChecked = true) {k : Nat}
    (hk : k < maxModelQueueLen nOfBackup nOfLookup) :
    ((t.mage.modelQueue.rawData.set t.mage.modelQueue.write model).getD k default).weightsChecked
      = decide (k < t.labels + 1) := by
  have hlt : k < t.mage.modelQueue.rawData.length := by
    rw [← MemQueue.length, h.length_eq]
    exact hk
  by_cases hslot : k = t.mage.modelQueue.write
  · -- the slot of this label
    have hle : k ≤ t.labels := by
      rw [hslot, h.write_eq]
      exact Nat.mod_le _ _
    have hget : (t.mage.modelQueue.rawData.set t.mage.modelQueue.write model).getD k default
        = model := by
      rw [← hslot]
      simp [List.getD, hlt]
    rw [hget, hmodel]
    exact (decide_eq_true (by omega)).symm
  · -- another slot, and the label is not the one that filled it first
    have hget : (t.mage.modelQueue.rawData.set t.mage.modelQueue.write model).getD k default
        = t.mage.modelQueue.rawData.getD k default := by
      simp only [List.getD]
      rw [List.getElem?_set_ne (Ne.symm hslot)]
    have hne : k ≠ t.labels := by
      rintro rfl
      exact hslot (by rw [h.write_eq, Nat.mod_eq_of_lt hk])
    rw [hget, h.checked k hk]
    exact decide_eq_decide.mpr (by omega)

/-- The weights of a voice after a label are what the record then says. -/
theorem Consistent.weights_run (h : t.Consistent) (hready : t.mage.flagReady = true) {voice : Voice}
    (hvoice : t.mage.engine.get? t.mage.defaultEngine = some (some voice)) (label : Label)
    {name : List Char} {used : Voice}
    (hused : (t.mage.prepared voice).engine.get? name = some (some used)) :
    ∃ engine prepared, t.recordAfter (.run (some label)) name = some (engine, prepared) ∧
      used.2 = if prepared = true then engine.normaliseWeights else engine := by
  -- the voice has been in the map before
  obtain ⟨held, hheld⟩ : ∃ held, t.mage.engine.get? name = some (some held) := by
    by_cases hdefault : name = t.mage.defaultEngine
    · exact ⟨voice, hdefault ▸ hvoice⟩
    · refine ⟨used, ?_⟩
      have hget : (t.mage.engine.adjust t.mage.defaultEngine _).get? name = _ := hused
      rwa [SortedMap.get?_adjust, if_neg hdefault] at hget
  obtain ⟨used', engine, prepared, hget, hrecord, hengine⟩ := h.get?_prepared hvoice hheld
  obtain rfl : used' = used := by
    rw [hused] at hget
    exact (Option.some.inj (Option.some.inj hget)).symm
  by_cases hfresh : t.Fresh
  · by_cases hdefault : name = t.mage.defaultEngine
    · -- this label normalises them
      refine ⟨engine, true, ?_, ?_⟩
      · rw [recordAfter, if_pos ⟨hready, hfresh⟩, hdefault, Function.update_self, ← hdefault,
          hrecord]
        rfl
      · rw [hengine, if_pos (.inr ⟨hdefault, hfresh⟩)]
        rfl
    · refine ⟨engine, prepared, ?_, ?_⟩
      · rw [recordAfter, if_pos ⟨hready, hfresh⟩, Function.update_of_ne hdefault, hrecord]
      · rw [hengine]
        simp only [hdefault, false_and, or_false]
  · refine ⟨engine, prepared, ?_, ?_⟩
    · rw [recordAfter, if_neg (fun hand => hfresh hand.2), hrecord]
    · rw [hengine]
      simp only [hfresh, and_false, or_false]

/-- A run checks the default voice and records that. -/
theorem Consistent.run (h : t.Consistent) (hready : t.mage.flagReady = true) (label : Label)
    {mage : Mage} (hrun : t.mage.run (some label) = some mage) :
    (⟨mage, t.labelsAfter (.run (some label)), t.recordAfter (.run (some label))⟩ :
      Tracked).Consistent := by
  obtain ⟨mage', hrun', hregistered, -⟩ := Mage.registered_run h.registered hready (some label)
  obtain rfl : mage' = mage := Option.some.inj (hrun'.symm.trans hrun)
  -- a run checks the default voice and writes one slot
  obtain ⟨voice, hvoice, hmap, ⟨model, hmodel, hslots⟩, hwrite⟩ :=
    run_effect h.registered (h.registered.ready_ne hready) label hrun
  have hlabels : t.labelsAfter (.run (some label)) = t.labels + 1 := if_pos hready
  rw [hlabels]
  refine ⟨hregistered, ?_, ?_, fun k hk => ?_, fun name used hused => ?_⟩
  · show mage'.modelQueue.rawData.length = _
    rw [hslots, List.length_set]
    exact h.length_eq
  · show mage'.modelQueue.write = _
    rw [hwrite, h.length_eq, h.write_eq, Nat.mod_add_mod]
  · show (mage'.modelQueue.rawData.getD k default).weightsChecked = _
    rw [hslots]
    exact h.checked_set hmodel hk
  · have hget : mage'.engine.get? name = some (some used) := hused
    rw [hmap] at hget
    exact h.weights_run hready hvoice label hget

/-- Every call keeps the record true. -/
theorem consistent_call (h : t.Consistent) {c : EngineCall} {t' : Tracked}
    (hcall : t.call c = some t') : t'.Consistent := by
  obtain ⟨mage, hmage, ht'⟩ := Option.bind_eq_some_iff.mp hcall
  obtain rfl := Option.some.inj ht'
  cases c with
  | addEngine EngineName loaded =>
    obtain rfl := Option.some.inj hmage
    exact h.addEngine EngineName loaded
  | addEngineFile EngineName argc loaded =>
    obtain rfl := Option.some.inj hmage
    rw [Mage.addEngineFile, recordAfter]
    by_cases hargc : argc > 0
    · rw [if_pos hargc, if_pos hargc]
      exact h.addEngine EngineName loaded
    · rw [if_neg hargc, if_neg hargc]
      exact h
  | removeEngine EngineName =>
    obtain rfl := Option.some.inj hmage
    exact h.removeEngine EngineName
  | setDefaultEngine defaultEngine =>
    obtain rfl := Option.some.inj hmage
    -- the name changes, not the voices
    have hkeep : (t.mage.setDefaultEngine defaultEngine).engine = t.mage.engine ∧
        (t.mage.setDefaultEngine defaultEngine).modelQueue = t.mage.modelQueue := by
      rw [Mage.setDefaultEngine]
      split <;> exact ⟨rfl, rfl⟩
    refine h.of_sameQueue (Mage.registered_setDefaultEngine h.registered _) hkeep.2 ?_
    rw [hkeep.1]
    exact h.weights
  | checkReady =>
    obtain rfl := Option.some.inj hmage
    exact h.of_sameQueue (Mage.registered_checkReady h.registered) rfl h.weights
  | enableInterpolation interpolationFlag =>
    obtain ⟨mage', hmage', hregistered⟩ :=
      Mage.registered_call h.registered (.enableInterpolation interpolationFlag)
    obtain rfl := Option.some.inj (hmage'.symm.trans hmage)
    obtain rfl := Option.some.inj hmage'
    exact h.of_sameQueue hregistered rfl h.weights
  | run label =>
    cases label with
    | none =>
      -- without a label nothing is run
      obtain rfl : t.mage = mage := by
        refine Option.some.inj (Eq.trans ?_ hmage)
        rw [Mage.call]
        split <;> rfl
      exact h
    | some label =>
      by_cases hready : t.mage.flagReady = true
      · exact h.run hready label ((if_pos hready).symm.trans hmage)
      · obtain rfl : t.mage = mage := Option.some.inj ((if_neg hready).symm.trans hmage)
        rw [labelsAfter, recordAfter, if_neg hready, if_neg (fun hand => hready hand.1)]
        exact h

/--
**Exactly when every label uses normalised weights.** In every sequence of calls, each label
finds the weights of its voices normalised exactly when they were normalised as
loaded, or could be normalised and were: the voice has been the default one of one of the
first labels, since it was added. -/
theorem usesNormalised_iff (updateFunction : Nat → ℚ) (model : Nat → Model)
    (calls : List EngineCall) :
    AtEvery call UsesNormalised (init updateFunction model) calls ↔
      AtEvery call LabelFits (init updateFunction model) calls :=
  atEvery_congr (I := Consistent) (P := fun _ => True)
    (fun _ _ _ h _ hcall => consistent_call h hcall)
    (fun _ c h _ => usesNormalised_call_iff h c) (consistent_init updateFunction model)
    fun _ _ => trivial

/-- A voice of two models, loaded with `-i 2 1.0 1.0`. -/
def pairEngine : Engine where
  ms := { plainVoice with
    duration := ⟨nOfStates, 2, fun _ _ _ => 1⟩
    stream := fun i => { plainVoice.stream i with interpolation_size := 2 } }
  global := plainEngine.global
  nstate_eq := rfl
  vector_length_le := plainEngine.vector_length_le

/-- The voice of two models beside a default one, where all voices are used. -/
theorem usesNormalised_fails :
    ¬ AtEvery call UsesNormalised (init (fun _ => 0) fun _ => default)
      [.addEngine ['a'] plainEngine, .addEngine ['p'] pairEngine, .enableInterpolation true,
        .run (some default)] := by
  intro h
  have hused := h [.addEngine ['a'] plainEngine, .addEngine ['p'] pairEngine,
    .enableInterpolation true] (.run (some default)) [] rfl _ rfl rfl _ rfl
    (pairEngine, some fun _ => (defaultInterpolationWeight : ℚ))
  -- the weights of its two models are 1 and 1
  have hduration : Normalised 2 fun _ => (1 : ℚ) :=
    (hused (List.mem_cons_of_mem _ List.mem_cons_self)).1
  rcases hduration with hsum | hzero
  · norm_num [sum_range_succ] at hsum
  · exact one_ne_zero (hzero 0 (by decide))

end Tracked

end Vox.Mage
