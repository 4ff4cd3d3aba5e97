import Vox.Mage.Contributions
import Vox.Mage.EngineMap
import Vox.Mage.WindowFrames

/-!
# MAGE — the model that a label gets

`run` leaves `modelOf` in the slot of a label (`labelModel_eq`). Cell by cell it is a loop
over the voices used: their durations are added, as are their means and variances, and
MSD values and global variances are overwritten. Two models with the same loops over
their durations are updated to the same durations (`durations_modelOf`).

An update caps the durations (`settled_updateDuration`), so that the model of a label
is as the window of parameter generation needs it (`settled_modelOf`).
-/

set_option linter.dupNamespace false

namespace Vox.Mage

open Lib

/-- An update looks at the state durations only. -/
theorem Model.updateDuration_agree {a b : Model}
    (h : ∀ i < nOfStates, (a.state i).duration = (b.state i).duration) (nOfBackup nOfLookup : Nat)
    (updateFunction : Nat → ℚ) (action : Int) :
    (∀ i < nOfStates,
      ((a.updateDuration nOfBackup nOfLookup updateFunction action).state i).duration
        = ((b.updateDuration nOfBackup nOfLookup updateFunction action).state i).duration) ∧
    (a.updateDuration nOfBackup nOfLookup updateFunction action).duration
      = (b.updateDuration nOfBackup nOfLookup updateFunction action).duration := by
  have hsum : (List.range nOfStates).foldl (fun sum i =>
        toInt (sum + updatedDuration (updateFunction i) action (a.state i).duration)) 0
      = (List.range nOfStates).foldl (fun sum i =>
        toInt (sum + updatedDuration (updateFunction i) action (b.state i).duration)) 0 :=
    foldl_range_congr (fun i hi sum => by rw [h i hi]) 0
  rw [updateDuration, updateDuration]
  simp only
  rw [hsum]
  refine ⟨fun i hi => ?_, ?_⟩
  · rw [if_pos hi, if_pos hi, h i hi]
  · split
    · exact foldl_range_congr (fun i hi tmp => by rw [h i hi]) 0
    · rfl

-- ---------------------------------------------------------------------------
-- The cap on durations
-- ---------------------------------------------------------------------------

/-- Added up in an `int`, small numbers have their sum. -/
theorem foldl_toInt_add {f : Nat → Int} {bound : Int} {n : Nat} (hpos : ∀ i < n, 0 ≤ f i)
    (hle : ∀ i < n, f i ≤ bound) (hfits : n * bound < 2 ^ 31) :
    (List.range n).foldl (fun sum i => toInt (sum + f i)) 0 = ((List.range n).map f).sum ∧
      0 ≤ ((List.range n).map f).sum := by
  have hrun : (List.range n).foldl (fun sum i => toInt (sum + f i)) 0
        = ((List.range n).map f).sum ∧
      0 ≤ ((List.range n).map f).sum ∧ ((List.range n).map f).sum ≤ n * bound := by
    -- the sum stays below `2 ^ 31`, so no addition wraps
    refine foldl_range_induction (fun k sum => sum = ((List.range k).map f).sum ∧
      0 ≤ ((List.range k).map f).sum ∧ ((List.range k).map f).sum ≤ k * bound) ?_ ?_
    · simp
    · rintro k hk sum ⟨rfl, hnonneg, hbound⟩
      have hk0 := hpos k hk
      have hkb := hle k hk
      have hstep : ((List.range (k + 1)).map f).sum = ((List.range k).map f).sum + f k := by
        simp [List.range_succ]
      have hle' : ((k + 1 : Nat) : Int) * bound ≤ n * bound :=
        Int.mul_le_mul_of_nonneg_right (by omega) (by omega)
      have hsucc : ((k + 1 : Nat) : Int) * bound = k * bound + bound := by
        rw [Nat.cast_succ, Int.add_mul, Int.one_mul]
      rw [hstep]
      exact ⟨toInt_of_mem (by omega) (by omega), by omega, by omega⟩
  exact ⟨hrun.1, hrun.2.1⟩

namespace Model

/-- A duration is not negative after the update. -/
theorem updatedDuration_nonneg (update : ℚ) (action duration : Int) :
    0 ≤ updatedDuration update action duration := by
  unfold updatedDuration
  extract_lets d
  split
  · exact Int.one_nonneg
  · omega

/-- States with durations that fit, and their sum. -/
theorem settled_of_durations {model : Model} {v : Nat → Int}
    (hstate : ∀ i < nOfStates, (model.state i).duration = v i)
    (hpos : ∀ i < nOfStates, 0 ≤ v i) (hint : ∀ i < nOfStates, v i < 2 ^ 31)
    (hduration : model.duration = ((List.range nOfStates).map v).sum) : model.Settled where
  nonneg i hi := by rw [hstate i hi]; exact hpos i hi
  int i hi := by rw [hstate i hi]; exact hint i hi
  duration_eq := by
    rw [hduration]
    refine congrArg List.sum (List.map_congr_left fun i hi => ?_)
    exact (hstate i (List.mem_range.mp hi)).symm

/-- A bound for durations whose products with `m` still fit into an `int`. -/
theorem exists_bound {u : Nat → Int} {m : Int} (hm : 0 ≤ m) (hnonneg : ∀ i < nOfStates, 0 ≤ u i)
    (hfits : ∀ i < nOfStates, u i * (m + nOfStates) < 2 ^ 31) :
    ∃ bound : Int, (∀ i < nOfStates, u i ≤ bound) ∧ bound < 2 ^ 31 ∧ bound * m < 2 ^ 31 ∧
      nOfStates * bound < 2 ^ 31 := by
  have hden : 0 < m + nOfStates := Int.add_pos_of_nonneg_of_pos hm (by decide)
  have hle : ∀ i < nOfStates, u i ≤ (2 ^ 31 - 1) / (m + nOfStates) := fun i hi =>
    Int.le_ediv_of_mul_le hden (Int.le_sub_one_of_lt (hfits i hi))
  have hpos := Int.le_trans (hnonneg 0 (by decide)) (hle 0 (by decide))
  have hroom : (2 ^ 31 - 1) / (m + nOfStates) * (m + nOfStates) ≤ 2 ^ 31 - 1 :=
    Int.ediv_mul_le _ (Int.ne_of_gt hden)
  refine ⟨_, hle, ?_⟩
  generalize (2 ^ 31 - 1) / (m + nOfStates) = bound at hpos hroom
  have hmul : 0 ≤ bound * m := Int.mul_nonneg hpos hm
  have hstates : (nOfStates : Int) = 5 := rfl
  rw [Int.mul_add, hstates] at hroom
  rw [hstates]
  omega

/-- **An update leaves a settled model**, capped at `maxDuration`, where the durations
are not so long that an `int` overflows. -/
theorem settled_updateDuration {model : Model} {nOfBackup nOfLookup : Nat}
    {updateFunction : Nat → ℚ} {action : Int}
    (hfits : ∀ i < nOfStates,
      updatedDuration (updateFunction i) action (model.state i).duration
        * (maxDuration nOfBackup nOfLookup + nOfStates) < 2 ^ 31) :
    (model.updateDuration nOfBackup nOfLookup updateFunction action).Settled ∧
      (model.updateDuration nOfBackup nOfLookup updateFunction action).duration
        ≤ maxDuration nOfBackup nOfLookup := by
  have hm : (0 : Int) ≤ maxDuration nOfBackup nOfLookup := Int.natCast_nonneg _
  rw [updateDuration]
  simp only
  generalize (maxDuration nOfBackup nOfLookup : Int) = m at hfits hm ⊢
  set u := fun i => updatedDuration (updateFunction i) action (model.state i).duration with hu
  have hnonneg : ∀ i < nOfStates, 0 ≤ u i := fun i _ => updatedDuration_nonneg _ _ _
  obtain ⟨bound, hle, hint, hmul, hsmall⟩ := exists_bound hm hnonneg hfits
  obtain ⟨hsum, hsum0⟩ := foldl_toInt_add hnonneg hle hsmall
  rw [hsum]
  generalize hd : ((List.range nOfStates).map u).sum = d at hsum0
  by_cases hcap : d > m
  · -- every state is cut down to its share of `m`
    have hshare : ∀ i < nOfStates, (toInt (u i * m)).tdiv d = u i * m / d := by
      intro i hi
      have hpos : 0 ≤ u i * m := Int.mul_nonneg (hnonneg i hi) hm
      have hlt : u i * m ≤ bound * m := Int.mul_le_mul_of_nonneg_right (hle i hi) hm
      rw [toInt_of_mem (by omega) (by omega), Int.tdiv_eq_ediv_of_nonneg hpos]
    have hshare0 : ∀ i < nOfStates, 0 ≤ u i * m / d := fun i hi =>
      Int.ediv_nonneg (Int.mul_nonneg (hnonneg i hi) hm) hsum0
    have hshareLe : ∀ i < nOfStates, u i * m / d ≤ bound := by
      intro i hi
      refine Int.le_trans (Int.ediv_le_of_le_mul (by omega) ?_) (hle i hi)
      exact Int.mul_le_mul_of_nonneg_left (by omega) (hnonneg i hi)
    have htmp : (List.range nOfStates).foldl
          (fun tmp i => toInt (tmp + (toInt (u i * m)).tdiv d)) 0
        = ((List.range nOfStates).map fun i => u i * m / d).sum := by
      rw [← (foldl_toInt_add hshare0 hshareLe hsmall).1]
      exact foldl_range_congr (fun i hi tmp => by rw [hshare i hi]) 0
    simp only [if_pos hcap]
    refine ⟨settled_of_durations (v := fun i => u i * m / d) ?_ hshare0 ?_ htmp, ?_⟩
    · intro i hi
      simp only [if_pos hi]
      exact hshare i hi
    · intro i hi
      exact Int.lt_of_le_of_lt (hshareLe i hi) hint
    · rw [htmp, ← hd]
      exact sum_map_mul_ediv_le m nOfStates (by omega)
  · simp only [if_neg hcap]
    refine ⟨settled_of_durations (v := u) ?_ hnonneg ?_ hd.symm, Int.not_lt.mp hcap⟩
    · intro i hi
      simp only [if_pos hi]
      rfl
    · intro i hi
      exact Int.lt_of_le_of_lt (hle i hi) hint

end Model

-- ---------------------------------------------------------------------------
-- The model of a label
-- ---------------------------------------------------------------------------

namespace Mage

variable {m : Mage}

/-- The steps of a label leave its model. -/
theorem labelModel_eq (h : m.Registered) (hne : m.engine.keys ≠ []) (label : Label) :
    ∃ voice, m.engine.get? m.defaultEngine = some (some voice) ∧
      m.labelModel label
        = some ((m.prepared voice).modelOf label
            (m.nextModel.checkInterpolationWeights voice.2).1) := by
  obtain ⟨voice, hvoice⟩ := h.exists_default hne
  obtain ⟨hprepared, hkeys⟩ := registered_prepared h voice
  have hcomputed := computed_eq hprepared (by rwa [hkeys]) label
  have hnext : (m.prepared voice).nextModel = (m.nextModel.checkInterpolationWeights voice.2).1 :=
    nextModel_writeModel h.write_lt _
  refine ⟨voice, hvoice, ?_⟩
  rw [labelModel, prepareModel_eq hvoice]
  show ((m.prepared voice).computeDuration label).bind (fun timed =>
    (timed.computeParameters label).bind fun computed =>
      some (computed.modelQueue.rawData.getD m.modelQueue.write default)) = _
  rw [← Option.bind_assoc, hcomputed, ← hnext]
  -- the slot that was written
  exact congrArg some (nextModel_writeModel hprepared.write_lt _)

/-- The durations of a label's model before the update. -/
def voiceDurations (m : Mage) (label : Label) (stale : Int → Int) (i : Nat) : Int :=
  m.usedEngines.foldl (fun d e => toInt (d + Model.addedDuration label stale e i)) 0

/-- The slot after `computeDuration`. -/
def timed (m : Mage) (label : Label) (slot : Model) : Model :=
  (m.usedEngines.foldl (fun model e => model.computeDuration e.1 label e.2)
    slot.initDuration).updateDuration nOfBackup nOfLookup m.updateFunction m.action

/-- The durations of all voices, added state by state. -/
theorem state_foldl_durations (m : Mage) (label : Label) (slot : Model) {i : Nat}
    (hi : i < nOfStates) :
    (m.usedEngines.foldl (fun model e => model.computeDuration e.1 label e.2)
        slot.initDuration).state i
      = { slot.state i with
          duration := m.voiceDurations label slot.modelMemory.duration_array i } := by
  have hinit : slot.initDuration.state i = { slot.state i with duration := 0 } := if_pos hi
  rw [Model.state_foldl_computeDuration _ _ hi, hinit]
  rfl

/-- The durations of a label's model are left alone by its parameters. -/
theorem duration_modelOf (m : Mage) (label : Label) (slot : Model) :
    (∀ i < nOfStates, ((m.modelOf label slot).state i).duration
        = ((m.timed label slot).state i).duration) ∧
      (m.modelOf label slot).duration = (m.timed label slot).duration := by
  obtain ⟨hstate, hduration⟩ := Model.state_foldl_voices label m.usedEngines
    (m.timed label slot).initParameters
  refine ⟨fun i hi => ?_, hduration⟩
  have hmodel : (m.modelOf label slot).state i = _ := hstate i hi
  have hinit : ((m.timed label slot).initParameters.state i).duration
      = ((m.timed label slot).state i).duration := by
    rw [Model.initParameters]
    simp only
    rw [if_pos hi]
  rw [hmodel, (State.foldl_addVoice label m.usedEngines i _).1, hinit]

/-- **A label's model is settled**, where its durations do not overflow an `int`: what
parameter generation takes for granted of the models in its window. -/
theorem settled_modelOf (m : Mage) (label : Label) (slot : Model)
    (hfits : ∀ i < nOfStates,
      Model.updatedDuration (m.updateFunction i) m.action
          (m.voiceDurations label slot.modelMemory.duration_array i)
        * (maxDuration nOfBackup nOfLookup + nOfStates) < 2 ^ 31) :
    (m.modelOf label slot).Settled ∧
      (m.modelOf label slot).duration ≤ maxDuration nOfBackup nOfLookup := by
  obtain ⟨hstates, hduration⟩ := duration_modelOf m label slot
  obtain ⟨hsettled, hcap⟩ : (m.timed label slot).Settled ∧
      (m.timed label slot).duration ≤ maxDuration nOfBackup nOfLookup := by
    refine Model.settled_updateDuration fun i hi => ?_
    rw [state_foldl_durations m label slot hi]
    exact hfits i hi
  rw [hduration]
  exact ⟨Model.settled_of_durations hstates hsettled.nonneg hsettled.int
    (hduration.trans hsettled.duration_eq), hcap⟩

/-- The cells of a label's model. -/
theorem cells_modelOf (m : Mage) (label : Label) (slot : Model) {i k : Nat} (hi : i < nOfStates)
    (hk : k < nOfStreams) (j : Nat) :
    ((m.modelOf label slot).state i).streams k j
        = m.usedEngines.foldl (fun cell e => e.1.addTo label e.2 i k j cell)
            (if j < maxStreamLen then { (slot.state i).streams k j with mean := 0, vari := 0 }
            else (slot.state i).streams k j) ∧
      ((m.modelOf label slot).state i).gv_streams k j
        = m.usedEngines.foldl (fun cell e => e.1.overwriteGv label k j cell)
            ((slot.state i).gv_streams k j) := by
  have hmodel : (m.modelOf label slot).state i = _ :=
    (Model.state_foldl_voices label m.usedEngines
      (m.timed label slot).initParameters).1 i hi
  -- the durations leave the cells alone
  have htimed : ((m.timed label slot).state i).streams = (slot.state i).streams ∧
      ((m.timed label slot).state i).gv_streams = (slot.state i).gv_streams := by
    rw [timed, Model.updateDuration]
    simp only
    rw [if_pos hi, state_foldl_durations m label slot hi]
    exact ⟨rfl, rfl⟩
  have hstreams : ((m.timed label slot).initParameters.state i).streams k j
      = if j < maxStreamLen then { (slot.state i).streams k j with mean := 0, vari := 0 }
        else (slot.state i).streams k j := by
    rw [Model.initParameters]
    simp only
    rw [if_pos hi, htimed.1]
    simp only [hk, true_and]
  have hgv : ((m.timed label slot).initParameters.state i).gv_streams k j
      = (slot.state i).gv_streams k j := by
    rw [Model.initParameters]
    simp only
    rw [if_pos hi, htimed.2]
  obtain ⟨hcell, hgvCell⟩ := (State.foldl_addVoice label m.usedEngines i
    ((m.timed label slot).initParameters.state i)).2 k hk j
  rw [hmodel, hcell, hgvCell, hstreams, hgv]
  exact ⟨rfl, rfl⟩

/-- **The durations of a label's model** are those of its voices, updated. -/
theorem durations_modelOf (m m' : Mage) {label : Label} {slot slot' : Model}
    (hupdate : m'.updateFunction = m.updateFunction) (haction : m'.action = m.action)
    (h : ∀ i < nOfStates, m'.voiceDurations label slot'.modelMemory.duration_array i
      = m.voiceDurations label slot.modelMemory.duration_array i) :
    (∀ i < nOfStates, ((m'.modelOf label slot').state i).duration
        = ((m.modelOf label slot).state i).duration) ∧
      (m'.modelOf label slot').duration = (m.modelOf label slot).duration := by
  -- the update looks at the durations only
  have hagree := Model.updateDuration_agree (a := m'.usedEngines.foldl
      (fun model e => model.computeDuration e.1 label e.2) slot'.initDuration)
    (b := m.usedEngines.foldl (fun model e => model.computeDuration e.1 label e.2)
      slot.initDuration)
    (fun i hi => by
      rw [state_foldl_durations m' label slot' hi, state_foldl_durations m label slot hi]
      exact h i hi) nOfBackup nOfLookup m.updateFunction m.action
  have htimed : m'.timed label slot' = (m'.usedEngines.foldl
      (fun model e => model.computeDuration e.1 label e.2) slot'.initDuration).updateDuration
        nOfBackup nOfLookup m.updateFunction m.action := by
    rw [timed, hupdate, haction]
  obtain ⟨hstates', hduration'⟩ := duration_modelOf m' label slot'
  obtain ⟨hstates, hduration⟩ := duration_modelOf m label slot
  refine ⟨fun i hi => ?_, ?_⟩
  · rw [hstates' i hi, hstates i hi, htimed]
    exact hagree.1 i hi
  · rw [hduration', hduration, htimed]
    exact hagree.2

end Mage

-- ---------------------------------------------------------------------------
-- One voice
-- ---------------------------------------------------------------------------

/-- A voice with the weights `rates`, whose states all last `frames` frames. -/
def ratedEngine (n : Nat) (rates : Nat → ℚ) (frames : ℚ) (coefficient : Nat → ℚ) : Engine where
  ms :=
    { nstate := nOfStates
      duration := ⟨nOfStates, n, fun _ _ _ => frames⟩
      stream := fun k => { plainVoice.stream k with
        interpolation_size := n
        pdf := fun _ _ i _ => coefficient i }
      gv := none }
  global := ⟨48000, 240, fun _ => 0, rates, fun _ => rates, fun _ => rates⟩
  nstate_eq := rfl
  vector_length_le := plainEngine.vector_length_le

namespace Mage

/-- MAGE with one voice. -/
def solo (engine : Engine) : Mage := (init (fun _ => 0) fun _ => default).addEngine ['a'] engine

theorem registered_solo (engine : Engine) : (solo engine).Registered :=
  registered_addEngine (registered_init _ _) ['a'] engine

theorem get?_solo (engine : Engine) : (solo engine).engine.get? (solo engine).defaultEngine
    = some (some (fun _ => (defaultInterpolationWeight : ℚ), engine)) := rfl

end Mage

end Vox.Mage
