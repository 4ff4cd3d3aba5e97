import Vox.Mage.ModelOf
import Vox.Mage.VoiceWeights

/-!
# MAGE — a label in a slot that was used before

The slots of the model queue are used again, and a label's model is computed into what
an earlier label has left. `SlotHolds` says what that can be. Two things get through to
the next model. A rejected label — its end time is given, but not positive — takes the state
durations from the scratch array. And the weights of the default voice are
normalised for a slot without earlier labels only, which makes a difference unless they are
normalised already, or cannot be (`Settled`).

Main result: `slotIndependent_iff` — otherwise a label's model does not depend on the
slot, and these two are exactly what it can depend on.
-/

set_option linter.dupNamespace false

namespace Vox.Mage

open Lib Finset

-- ---------------------------------------------------------------------------
-- Slots
-- ---------------------------------------------------------------------------

/-- A slot as it is constructed. Its states are not initialised. -/
structure Model.Constructed (model : Model) : Prop where
  duration : model.duration = 0
  weightsChecked : model.weightsChecked = false
  duration_array : ∀ i : Nat, i < nOfStates → model.modelMemory.duration_array i = 0

/-- What a slot holds, after earlier labels or without any. -/
inductive SlotHolds : Bool → Model → Prop
  | constructed {model : Model} : model.Constructed → SlotHolds false model
  | labelled {used : Bool} {model model' : Model} {m : Mage} {label : Label} :
      SlotHolds used model → m.Registered → m.engine.keys ≠ [] →
        (m.writeModel model).labelModel label = some model' → SlotHolds true model'

/-- A coefficient of one of the voices used. -/
def Mage.Covers (m : Mage) (k j : Nat) : Prop :=
  ∃ name ∈ m.usedNames, ∃ voice, m.engine.get? name = some (some voice) ∧
    j < (voice.2.ms.stream k).vector_length

/-- Two models with the same durations, and the same distributions of all coefficients. -/
structure SameModel (m : Mage) (model model' : Model) : Prop where
  state_duration : ∀ i < nOfStates, (model.state i).duration = (model'.state i).duration
  duration : model.duration = model'.duration
  streams : ∀ i < nOfStates, ∀ k < nOfStreams, ∀ j, m.Covers k j →
    (model.state i).streams k j = (model'.state i).streams k j

/-- **The property**: a label gets the same model in two slots. -/
def Mage.SameIn (m : Mage) (label : Label) (slot slot' : Model) : Prop :=
  ∃ model model', (m.writeModel slot).labelModel label = some model ∧
    (m.writeModel slot').labelModel label = some model' ∧ SameModel m model model'

/-- To be the same model is symmetric. -/
theorem SameModel.symm {m : Mage} {model model' : Model} (h : SameModel m model model') :
    SameModel m model' model where
  state_duration := fun i hi => (h.state_duration i hi).symm
  duration := h.duration.symm
  streams := fun i hi k hk j hj => (h.streams i hi k hk j hj).symm

-- ---------------------------------------------------------------------------
-- Weights
-- ---------------------------------------------------------------------------

/-- The weights of a voice with `n` interpolated models are `rates`, as they are set
when it is loaded with an option `-i`. -/
def Engine.RatesAre (engine : Engine) (n : Nat) (rates : Nat → ℚ) : Prop :=
  engine.AllWeights fun size iw => size = n ∧ ∀ i < n, iw i = rates i

/-- Weights that normalising does not change. -/
def Settled (n : Nat) (rates : Nat → ℚ) : Prop :=
  ∑ i ∈ range n, rates i = 0 ∨ ∑ i ∈ range n, rates i = 1

/-- Rates that sum to 0 or to 1 are not changed. -/
theorem normalise_of_settled {n size : Nat} {rates iw : Nat → ℚ} (h : Settled n rates)
    (hiw : size = n ∧ ∀ i < n, iw i = rates i) : normalise size iw = iw := by
  obtain ⟨rfl, hiw⟩ := hiw
  have hsum : ∑ i ∈ range size, iw i = ∑ i ∈ range size, rates i :=
    sum_congr rfl fun i hi => hiw i (mem_range.mp hi)
  rcases h with hzero | hone
  · exact normalise_of_eq (hsum.trans hzero)
  · exact normalise_of_sum_eq_one (hsum.trans hone)

/-- Nor is a voice with such rates. -/
theorem Engine.RatesAre.normaliseWeights {engine : Engine} {n : Nat} {rates : Nat → ℚ}
    (h : engine.RatesAre n rates) (hsettled : Settled n rates) :
    engine.normaliseWeights = engine := by
  obtain ⟨hduration, hparameter, hgv⟩ := h
  refine Engine.ext rfl (Global.ext rfl rfl rfl ?_ (funext fun k => ?_) (funext fun k => ?_))
  · exact normalise_of_settled hsettled hduration
  · show (if k < nOfStreams then _ else _) = _
    by_cases hk : k < nOfStreams
    · rw [if_pos hk]
      exact normalise_of_settled hsettled (hparameter k hk)
    · rw [if_neg hk]
  · simp only [Engine.normaliseWeights]
    split
    · rename_i gv hms
      by_cases huse : k < nOfStreams ∧ engine.ms.use_gv k = true
      · rw [if_pos huse]
        exact normalise_of_settled hsettled (hgv gv hms k huse.1 huse.2)
      · rw [if_neg huse]
    · rfl

namespace Mage

variable {m : Mage} {label : Label} {slot slot' : Model}

/-- MAGE before the computations of a label in `slot`. -/
def preparedIn (m : Mage) (slot : Model) (voice : Voice) : Mage :=
  (m.writeModel slot).prepared voice

/-- The model of a label, with the slot that it is computed in. -/
theorem labelModel_writeModel (h : m.Registered) {voice : Voice}
    (hvoice : m.engine.get? m.defaultEngine = some (some voice)) (label : Label) (slot : Model) :
    (m.writeModel slot).labelModel label
      = some ((m.preparedIn slot voice).modelOf label
          (slot.checkInterpolationWeights voice.2).1) := by
  obtain ⟨voice', hvoice', hlabel⟩ := labelModel_eq (registered_writeModel h slot)
    (List.ne_nil_of_mem (mem_keys_of_get? hvoice)) label
  obtain rfl : voice = voice' := Option.some.inj (Option.some.inj (hvoice.symm.trans hvoice'))
  rw [hlabel, nextModel_writeModel h.write_lt]
  rfl

/-- The slot's model checks the weights of the default voice. -/
theorem engine_preparedIn (h : m.Registered) (slot : Model) (voice : Voice) :
    (m.preparedIn slot voice).engine = m.engine.adjust m.defaultEngine fun _ =>
      some (voice.1, (slot.checkInterpolationWeights voice.2).2) := by
  rw [preparedIn, prepared, nextModel_writeModel h.write_lt]
  rfl

end Mage

-- ---------------------------------------------------------------------------
-- The same model
-- ---------------------------------------------------------------------------

/-- A cell that one of the voices writes does not keep its MSD value. -/
theorem foldl_addTo_agree {label : Label} {i k j : Nat} (used : List (Engine × Option (Nat → ℚ)))
    {cell cell' : Distribution} (hmean : cell.mean = cell'.mean) (hvari : cell.vari = cell'.vari)
    (hwritten : ∃ e ∈ used, j < (e.1.ms.stream k).vector_length) :
    used.foldl (fun cell e => e.1.addTo label e.2 i k j cell) cell
      = used.foldl (fun cell e => e.1.addTo label e.2 i k j cell) cell' := by
  induction used with
  | nil =>
    obtain ⟨e, he, -⟩ := hwritten
    exact absurd he List.not_mem_nil
  | cons d used ih =>
    rw [List.foldl_cons, List.foldl_cons]
    by_cases hd : j < (d.1.ms.stream k).vector_length
    · -- the first voice writes it
      have hcell : d.1.addTo label d.2 i k j cell = d.1.addTo label d.2 i k j cell' := by
        rw [Engine.addTo, Engine.addTo, if_pos hd, if_pos hd, hmean, hvari]
      rw [hcell]
    · have hkeep : ∀ cell, d.1.addTo label d.2 i k j cell = cell := fun _ => if_neg hd
      rw [hkeep, hkeep]
      obtain ⟨e, he, hj⟩ := hwritten
      rcases List.mem_cons.mp he with rfl | he
      · exact absurd hj hd
      · exact ih ⟨e, he, hj⟩

namespace Mage

variable {m : Mage} {label : Label} {slot slot' : Model}

/-- A coefficient that is covered is written by some voice. -/
theorem Covers.exists_used (h : m.Registered) {voice : Voice}
    (hvoice : m.engine.get? m.defaultEngine = some (some voice)) (slot : Model) {k j : Nat}
    (hcovers : m.Covers k j) :
    ∃ e ∈ (m.preparedIn slot voice).usedEngines, j < (e.1.ms.stream k).vector_length := by
  by_contra hnone
  push Not at hnone
  have hall := (forall_usedEngines (m := m.preparedIn slot voice)
    (P := fun e => (e.ms.stream k).vector_length ≤ j)).mp hnone
  obtain ⟨name, hname, held, hheld, hj⟩ := hcovers
  have hnames : (m.preparedIn slot voice).usedNames = m.usedNames := by
    rw [usedNames, preparedIn, (registered_prepared (registered_writeModel h slot) voice).2]
    rfl
  rw [hnames] at hall
  by_cases hdefault : name = m.defaultEngine
  · -- the default voice has been normalised
    subst hdefault
    obtain rfl : voice = held := Option.some.inj (Option.some.inj (hvoice.symm.trans hheld))
    have hle := hall _ hname (voice.1, (slot.checkInterpolationWeights voice.2).2) (by
      rw [engine_preparedIn h, SortedMap.get?_adjust, if_pos rfl, hvoice]
      rfl)
    simp only [(Model.checkInterpolationWeights_keeps slot voice.2).2.2] at hle
    omega
  · have hle := hall _ hname held (by
      rw [engine_preparedIn h, SortedMap.get?_adjust, if_neg hdefault, hheld])
    omega

/-- **The same model in both slots**: when the same weights are used, and the durations that
the slots hold are not used or are the same. -/
theorem sameIn_of_agree (h : m.Registered) {voice : Voice}
    (hvoice : m.engine.get? m.defaultEngine = some (some voice))
    (hweights : (slot.checkInterpolationWeights voice.2).2
      = (slot'.checkInterpolationWeights voice.2).2)
    (hstale : label.Rejected → ∀ i : Nat, i < nOfStates →
      slot.modelMemory.duration_array i = slot'.modelMemory.duration_array i) :
    m.SameIn label slot slot' := by
  refine ⟨_, _, labelModel_writeModel h hvoice label slot,
    labelModel_writeModel h hvoice label slot',
    ?_⟩
  have hused : (m.preparedIn slot voice).usedEngines = (m.preparedIn slot' voice).usedEngines := by
    rw [usedEngines, usedEngines, engine_preparedIn h, engine_preparedIn h, hweights]
    rfl
  obtain ⟨hmemory, hstate, -⟩ := Model.checkInterpolationWeights_keeps slot voice.2
  obtain ⟨hmemory', hstate', -⟩ := Model.checkInterpolationWeights_keeps slot' voice.2
  -- the loops over the durations are the same
  have hdurations : ∀ i < nOfStates,
      (m.preparedIn slot voice).voiceDurations label
          (slot.checkInterpolationWeights voice.2).1.modelMemory.duration_array i
        = (m.preparedIn slot' voice).voiceDurations label
          (slot'.checkInterpolationWeights voice.2).1.modelMemory.duration_array i := by
    intro i hi
    rw [voiceDurations, voiceDurations, hused, hmemory, hmemory']
    refine List.foldl_ext _ _ _ fun d e _ => ?_
    rw [Model.addedDuration, Model.addedDuration]
    by_cases hrejected : label.Rejected
    · rw [if_pos hrejected, if_pos hrejected, hstale hrejected i hi]
    · rw [if_neg hrejected, if_neg hrejected]
  obtain ⟨hstates, hduration⟩ := durations_modelOf (m.preparedIn slot' voice)
    (m.preparedIn slot voice) rfl rfl hdurations
  refine ⟨hstates, hduration, fun i hi k hk j hcovers => ?_⟩
  have hwritten := Covers.exists_used h hvoice slot hcovers
  rw [(cells_modelOf (m.preparedIn slot voice) label _ hi hk j).1,
    (cells_modelOf (m.preparedIn slot' voice) label _ hi hk j).1, ← hused]
  -- means and variances are added to 0
  have hj : j < maxStreamLen := by
    obtain ⟨e, -, hlt⟩ := hwritten
    exact Nat.lt_of_lt_of_le hlt (e.1.vector_length_le k hk)
  rw [if_pos hj, if_pos hj]
  exact foldl_addTo_agree _ rfl rfl hwritten

end Mage

-- ---------------------------------------------------------------------------
-- One voice
-- ---------------------------------------------------------------------------

theorem ratesAre_ratedEngine (n : Nat) (rates : Nat → ℚ) (frames : ℚ) (coefficient : Nat → ℚ) :
    (ratedEngine n rates frames coefficient).RatesAre n rates := by
  refine ⟨⟨rfl, fun _ _ => rfl⟩, fun k _ => ⟨rfl, fun _ _ => rfl⟩, fun gv hgv => ?_⟩
  cases hgv

namespace Mage

variable {engine : Engine} {label : Label} {slot slot' : Model}

/-- The model of a label for the only voice. -/
def soloModel (engine : Engine) (label : Label) (slot : Model) : Model :=
  ((solo engine).preparedIn slot (fun _ => (defaultInterpolationWeight : ℚ), engine)).modelOf label
    (slot.checkInterpolationWeights engine).1

/-- The model of a synthesiser with one voice. -/
theorem labelModel_solo (engine : Engine) (label : Label) (slot : Model) :
    ((solo engine).writeModel slot).labelModel label = some (soloModel engine label slot) :=
  labelModel_writeModel (registered_solo engine) (get?_solo engine) label slot

theorem usedEngines_solo (engine : Engine) (slot : Model) :
    ((solo engine).preparedIn slot
        (fun _ => (defaultInterpolationWeight : ℚ), engine)).usedEngines
      = [((slot.checkInterpolationWeights engine).2, none)] := by
  rw [usedEngines, engine_preparedIn (registered_solo engine)]
  rfl

/-- A label that updates nothing keeps short durations. -/
theorem updateDuration_noaction {model : Model} {d : Int} (hpos : 0 ≤ d) (hle : d ≤ 30)
    (h : ∀ i < nOfStates, (model.state i).duration = d) (update : Nat → ℚ) {i : Nat}
    (hi : i < nOfStates) :
    ((model.updateDuration nOfBackup nOfLookup update noaction).state i).duration = d := by
  have hupdated : ∀ i < nOfStates,
      Model.updatedDuration (update i) noaction (model.state i).duration = d := by
    intro i hi
    rw [h i hi]
    show (if d < 0 then 1 else d) = d
    rw [if_neg (by omega)]
  -- no more frames than there is memory for
  have hsum : (List.range nOfStates).foldl (fun sum i =>
      toInt (sum + Model.updatedDuration (update i) noaction (model.state i).duration)) 0
        = 5 * d := by
    have hconst : (List.range nOfStates).foldl (fun sum i =>
        toInt (sum + Model.updatedDuration (update i) noaction (model.state i).duration)) 0
          = (List.range nOfStates).foldl (fun sum _ => toInt (sum + d)) 0 :=
      foldl_range_congr (fun i hi sum => by rw [hupdated i hi]) 0
    rw [hconst]
    show toInt (toInt (toInt (toInt (toInt (0 + d) + d) + d) + d) + d) = 5 * d
    unfold toInt
    omega
  have hfits : ¬ (5 * d > (maxDuration nOfBackup nOfLookup : Nat)) := by
    have hmax : maxDuration nOfBackup nOfLookup = 170 := rfl
    rw [hmax]
    omega
  rw [Model.updateDuration]
  simp only
  rw [if_pos hi, hsum, if_neg hfits]
  exact hupdated i hi

/-- A rejected label lasts as long as the slot says. -/
theorem duration_soloModel (h : label.Rejected) {d : Int} (hpos : 0 ≤ d) (hle : d ≤ 30)
    (hslot : ∀ i : Nat, i < nOfStates → slot.modelMemory.duration_array i = d) {i : Nat}
    (hi : i < nOfStates) : ((soloModel engine label slot).state i).duration = d := by
  rw [soloModel, (duration_modelOf _ label _).1 i hi]
  refine updateDuration_noaction hpos hle (fun i hi => ?_) (fun _ => 0) hi
  rw [state_foldl_durations _ label _ hi, voiceDurations, usedEngines_solo,
    (Model.checkInterpolationWeights_keeps slot engine).1]
  show toInt (0 + Model.addedDuration label _ (_, none) i) = d
  rw [Model.addedDuration, if_pos h, hslot i hi, weightOf, Round, one_mul, Int.zero_add,
    Int.floor_intCast_add]
  have hfloor : ⌊(1 / 2 : ℚ)⌋ = 0 := by norm_num
  rw [hfloor, Int.add_zero]
  exact toInt_of_mem (by omega) (by omega)

/-- The same model for the only voice. -/
theorem sameModel_solo (engine : Engine) (h : (solo engine).SameIn label slot slot') :
    SameModel (solo engine) (soloModel engine label slot) (soloModel engine label slot') := by
  obtain ⟨model, model', hmodel, hmodel', hsame⟩ := h
  obtain rfl := Option.some.inj (hmodel.symm.trans (labelModel_solo engine label slot))
  obtain rfl := Option.some.inj (hmodel'.symm.trans (labelModel_solo engine label slot'))
  exact hsame

/-- A label that is rejected keeps the durations of the slot. -/
theorem not_sameIn_of_rejected (engine : Engine) (h : label.Rejected) {d d' : Nat}
    (hslot : ∀ i : Nat, i < nOfStates → slot.modelMemory.duration_array i = d)
    (hslot' : ∀ i : Nat, i < nOfStates → slot'.modelMemory.duration_array i = d')
    (hle : d ≤ 30) (hle' : d' ≤ 30) (hne : d ≠ d') : ¬ (solo engine).SameIn label slot slot' := by
  intro hsame
  have hstate : 0 < nOfStates := by decide
  have hduration := (sameModel_solo engine hsame).state_duration 0 hstate
  rw [duration_soloModel h (by omega) (by omega) hslot hstate,
    duration_soloModel h (by omega) (by omega) hslot' hstate] at hduration
  omega

/-- The durations of the voice stay in the scratch array of the slot. -/
theorem duration_array_soloModel (engine : Engine) (label : Label) (slot : Model) :
    (soloModel engine label slot).modelMemory.duration_array
      = ((slot.checkInterpolationWeights engine).1.initDuration.setDurations
          (slot.checkInterpolationWeights engine).2 label).modelMemory.duration_array := by
  rw [soloModel, modelOf, usedEngines_solo]
  simp only [List.foldl_cons, List.foldl_nil]
  rw [(Model.computeGlobalVariances_keeps _ _ _).2, (Model.computeParameters_keeps _ _ _ _).2]
  rfl

/-- The mean of a cell is that of the voice. -/
theorem mean_soloModel (engine : Engine) (label : Label) (slot : Model) {k j : Nat}
    (hk : k < nOfStreams) (hj : j < (engine.ms.stream k).vector_length) {i : Nat}
    (hi : i < nOfStates) :
    (((soloModel engine label slot).state i).streams k j).mean
      = (slot.checkInterpolationWeights engine).2.mean label i k j := by
  have hms := (Model.checkInterpolationWeights_keeps slot engine).2.2
  have hlt : j < maxStreamLen := Nat.lt_of_lt_of_le hj (engine.vector_length_le k hk)
  rw [soloModel, (cells_modelOf _ label _ hi hk j).1, usedEngines_solo]
  simp only [List.foldl_cons, List.foldl_nil]
  rw [Engine.addTo, hms, if_pos hj, if_pos hlt, weightOf, one_mul, zero_add]

end Mage

/-- A slot without earlier labels. -/
theorem constructed_default : (default : Model).Constructed := ⟨rfl, rfl, fun _ _ => rfl⟩

/-- A slot that a label with states of `d` frames has left. -/
theorem exists_slotHolds {d : Nat} (hd : 1 ≤ d) :
    ∃ model, SlotHolds true model ∧
      ∀ i : Nat, i < nOfStates → model.modelMemory.duration_array i = d := by
  refine ⟨_, .labelled (.constructed constructed_default)
    (Mage.registered_solo (ratedEngine 1 (fun _ => 1) d fun _ => 0))
    (List.ne_nil_of_mem (Mage.mem_keys_of_get? (Mage.get?_solo _)))
    (Mage.labelModel_solo _ default default), fun i hi => ?_⟩
  rw [Mage.duration_array_soloModel]
  show (roundDurations _ nOfStates _).1 i = d
  rw [(roundDurations_spec _ _ _).1 i hi]
  -- weights that sum to 1 stay as they are
  have hengine : ((default : Model).checkInterpolationWeights
      (ratedEngine 1 (fun _ => 1) d fun _ => 0)).2 = ratedEngine 1 (fun _ => 1) d fun _ => 0 :=
    (ratesAre_ratedEngine 1 _ d _).normaliseWeights (.inr (by simp))
  -- one model, with the mean `d`
  have hmean : (HTS_ModelSet_get_duration (ratedEngine 1 (fun _ => 1) (d : ℚ) fun _ => 0).ms []
      (default : Model).modelMemory.duration_mean (default : Model).modelMemory.duration_vari
      fun _ => 1).1 i = d := by
    show (if i < nOfStates then (0 : ℚ) + 1 * d else _) = d
    rw [if_pos hi, one_mul, zero_add]
  have htruncate : truncate ((d : ℚ) + 1 / 2) = d := by
    have hnonneg : ¬ ((d : ℚ) + 1 / 2 < 0) := by
      have hd : (0 : ℚ) ≤ d := Nat.cast_nonneg d
      linarith
    rw [truncate, if_neg hnonneg, Int.floor_natCast_add]
    norm_num
  rw [hengine]
  refine (congrArg (fun mean => max 1 (truncate (mean + 1 / 2))) hmean).trans ?_
  rw [htruncate]
  omega

/-- Whether labels have used a slot is what its flag says. -/
theorem SlotHolds.weightsChecked {used : Bool} {slot : Model} (h : SlotHolds used slot) :
    slot.weightsChecked = used := by
  cases h with
  | constructed h => exact h.weightsChecked
  | @labelled used model _ m label _ hm hne hlabel =>
    obtain ⟨voice, -, heq⟩ := Mage.labelModel_eq (Mage.registered_writeModel hm model) hne label
    obtain rfl := Option.some.inj (heq.symm.trans hlabel)
    rw [Mage.weightsChecked_modelOf]
    exact Model.weightsChecked_checkInterpolationWeights _ _

-- ---------------------------------------------------------------------------
-- When the slot does not matter
-- ---------------------------------------------------------------------------

/-- **The property, for a kind of labels, slots and weights**: the label gets the same model in any
two slots of the kind, whatever the voices are. -/
def SlotIndependent (label : Label) (used used' : Bool) (n : Nat) (rates : Nat → ℚ) : Prop :=
  ∀ m : Mage, m.Registered → ∀ voice, m.engine.get? m.defaultEngine = some (some voice) →
    voice.2.RatesAre n rates → ∀ slot slot', SlotHolds used slot → SlotHolds used' slot' →
      m.SameIn label slot slot'

variable {label : Label} {used used' : Bool} {n : Nat} {rates : Nat → ℚ}

/-- Independence of two slots is symmetric. -/
theorem SlotIndependent.symm (h : SlotIndependent label used used' n rates) :
    SlotIndependent label used' used n rates := by
  intro m hm voice hvoice hrates slot slot' hslot hslot'
  obtain ⟨model, model', hmodel, hmodel', hsame⟩ :=
    h m hm voice hvoice hrates slot' slot hslot' hslot
  exact ⟨model', model, hmodel', hmodel, hsame.symm⟩

/-- A rejected label in a used slot shows what the slot held. -/
theorem SlotIndependent.not_rejected (h : SlotIndependent label true used' n rates) :
    ¬ label.Rejected := by
  intro hrejected
  -- durations that differ
  obtain ⟨d, hd, slot', hslot', harray'⟩ : ∃ d : Nat, (d = 0 ∨ d = 2) ∧ ∃ slot',
      SlotHolds used' slot' ∧
        ∀ i : Nat, i < nOfStates → slot'.modelMemory.duration_array i = d := by
    cases used' with
    | false => exact ⟨0, .inl rfl, default, .constructed constructed_default, fun _ _ => rfl⟩
    | true =>
      obtain ⟨slot', hslot', harray'⟩ := exists_slotHolds (d := 2) (by decide)
      exact ⟨2, .inr rfl, slot', hslot', harray'⟩
  obtain ⟨slot, hslot, harray⟩ := exists_slotHolds (Nat.le_refl 1)
  refine Mage.not_sameIn_of_rejected _ hrejected harray harray' (by omega) (by omega) (by omega)
    (h _ (Mage.registered_solo (ratedEngine n rates 1 fun _ => 0)) _ (Mage.get?_solo _)
      (ratesAre_ratedEngine n rates 1 _) slot slot' hslot hslot')

/-- Weights that a fresh slot changes show in the means. -/
theorem SlotIndependent.settled (h : SlotIndependent label true false n rates) :
    Settled n rates := by
  by_contra hsettled
  obtain ⟨hzero, hone⟩ := not_or.mp hsettled
  obtain ⟨i₀, hi₀, hrate⟩ := exists_ne_zero_of_sum_ne_zero hzero
  have hlt := mem_range.mp hi₀
  obtain ⟨slot, hslot, -⟩ := exists_slotHolds (Nat.le_refl 1)
  -- a voice whose means are the weight of model `i₀`
  have hsame := Mage.sameModel_solo (ratedEngine n rates 1 (Pi.single i₀ 1))
    (h _ (Mage.registered_solo _) _ (Mage.get?_solo _) (ratesAre_ratedEngine n rates 1 _) slot
      default hslot (.constructed constructed_default))
  have hstream : 0 < nOfStreams := by decide
  have hstate : 0 < nOfStates := by decide
  have hcell := hsame.streams 0 hstate 0 hstream 0
    ⟨['a'], List.mem_singleton.mpr rfl, _, rfl, Nat.one_pos⟩
  have hmean := congrArg Distribution.mean hcell
  rw [Mage.mean_soloModel _ _ _ hstream Nat.one_pos hstate,
    Mage.mean_soloModel _ _ _ hstream Nat.one_pos hstate] at hmean
  have hinterpolate : ∀ iw : Nat → ℚ, interpolate n iw (Pi.single i₀ 1) = iw i₀ := by
    intro iw
    rw [interpolate, foldl_add_eq_sum fun i => iw i * (Pi.single i₀ 1 : Nat → ℚ) i]
    simp [Pi.single_apply, hlt]
  -- the used slot leaves the weights, the fresh one normalises them
  have hused : (slot.checkInterpolationWeights (ratedEngine n rates 1 (Pi.single i₀ 1))).2
      = ratedEngine n rates 1 (Pi.single i₀ 1) := by
    rw [Model.checkInterpolationWeights, if_pos hslot.weightsChecked]
  have hfresh : ((default : Model).checkInterpolationWeights
      (ratedEngine n rates 1 (Pi.single i₀ 1))).2.mean label 0 0 0 = normalise n rates i₀ :=
    hinterpolate _
  rw [hused, hfresh, normalise_of_ne hzero hlt] at hmean
  have hweight : rates i₀ = rates i₀ / ∑ i ∈ range n, rates i :=
    (hinterpolate rates).symm.trans hmean
  rw [eq_div_iff hzero] at hweight
  exact hone (mul_left_cancel₀ hrate (hweight.trans (mul_one _).symm))

/--
**Exactly when the slot does not matter**: when no label has used either of the slots, or
the label is not rejected, and either both slots have been used or the weights of the default
voice are settled. -/
theorem slotIndependent_iff (label : Label) (used used' : Bool) (n : Nat) (rates : Nat → ℚ) :
    SlotIndependent label used used' n rates ↔
      (used = false ∧ used' = false) ∨
        (¬ label.Rejected ∧ (used = used' ∨ Settled n rates)) := by
  refine ⟨fun h => ?_, ?_⟩
  · cases used with
    | false =>
      cases used' with
      | false => exact .inl ⟨rfl, rfl⟩
      | true => exact .inr ⟨h.symm.not_rejected, .inr h.symm.settled⟩
    | true =>
      refine .inr ⟨h.not_rejected, ?_⟩
      cases used' with
      | false => exact .inr h.settled
      | true => exact .inl rfl
  · intro hkind m hm voice hvoice hrates slot slot' hslot hslot'
    refine Mage.sameIn_of_agree hm hvoice ?_ fun hrejected i hi => ?_
    · -- the same weights
      rw [Model.checkInterpolationWeights, Model.checkInterpolationWeights, hslot.weightsChecked,
        hslot'.weightsChecked]
      rcases hkind with ⟨rfl, rfl⟩ | ⟨-, rfl | hsettled⟩
      · rfl
      · split <;> rfl
      · rw [hrates.normaliseWeights hsettled]
        split <;> split <;> rfl
    · -- a rejected label, in slots that no label has used
      rcases hkind with ⟨rfl, rfl⟩ | ⟨hnot, -⟩
      · cases hslot with
        | constructed h =>
          cases hslot' with
          | constructed h' => rw [h.duration_array i hi, h'.duration_array i hi]
      · exact absurd hrejected hnot

/-- A parsed label whose end time is 0, after labels with states of one and of two frames. -/
theorem slot_dependent :
    ¬ ∀ (q : List Char) (label : Label) (st : Statics),
      Label.parseQuery Statics.initial q = some (label, st) →
        ∀ m : Mage, m.Registered → m.engine.keys ≠ [] → ∀ used used' slot slot',
          SlotHolds used slot → SlotHolds used' slot' → m.SameIn label slot slot' := by
  intro h
  obtain ⟨slot, hslot, harray⟩ := exists_slotHolds (Nat.le_refl 1)
  obtain ⟨slot', hslot', harray'⟩ := exists_slotHolds (d := 2) (by decide)
  have hrejected : Label.Rejected ⟨['q'], true, 1, 0, 0⟩ := ⟨rfl, le_refl 0⟩
  refine Mage.not_sameIn_of_rejected plainEngine hrejected harray harray' (by decide) (by decide)
    (by decide) ?_
  exact h ['0', ' ', '0', ' ', 'q'] _ ⟨['0'], ['0'], ['q']⟩ (by decide +kernel) _
    (Mage.registered_solo plainEngine)
    (List.ne_nil_of_mem (Mage.mem_keys_of_get? (Mage.get?_solo _))) true true slot slot' hslot
      hslot'

end Vox.Mage
