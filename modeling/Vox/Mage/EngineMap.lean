import Vox.Lib.Run
import Vox.Mage.Synthesis

/-!
# MAGE — the map of voices

Map, default name and ready flag are kept by hand in five operations. `Registered`
says what they keep: MAGE is ready only when there is a voice, the default one is
then in the map, and no entry is null. So `run` always finds its voices
(`run_registered`), and `forEngines` is a loop over them (`forEngines_eq`). With names that
are not empty, MAGE is also ready as soon as there is a voice (`Announced`).

Main result: `engines_registered`, for every sequence of calls.
-/

set_option linter.dupNamespace false

namespace Vox.Mage.Mage

open Lib

/-- What the operations on the map of voices keep. -/
structure Registered (m : Mage) : Prop where
  loaded : ∀ e ∈ m.engine.entries, e.2 ≠ none
  ready_ne : m.flagReady = true → m.engine.keys ≠ []
  default_mem : m.engine.keys ≠ [] → m.defaultEngine ∈ m.engine.keys
  default_eq : m.engine.keys = [] → m.defaultEngine = []
  write_lt : m.modelQueue.write < m.modelQueue.length

theorem registered_init (updateFunction : Nat → ℚ) (model : Nat → Model) :
    (init updateFunction model).Registered where
  loaded := fun _ he => absurd he List.not_mem_nil
  ready_ne := fun h => absurd h Bool.false_ne_true
  default_mem := fun h => absurd rfl h
  default_eq := fun _ => rfl
  write_lt := by simp [init, MemQueue.length, maxModelQueueLen]

variable {m : Mage}

/-- The map is empty when it has no names. -/
theorem isEmpty_iff_keys : m.engine.isEmpty = true ↔ m.engine.keys = [] := by
  rw [SortedMap.isEmpty, SortedMap.keys, List.isEmpty_iff, List.map_eq_nil_iff]

/-- A name is in the map when something is found under it. -/
theorem mem_keys_of_get? {name : List Char} {voice : Option Voice}
    (h : m.engine.get? name = some voice) : name ∈ m.engine.keys :=
  SortedMap.mem_keys.mpr ⟨voice, SortedMap.get?_eq_some_iff.mp h⟩

-- ---------------------------------------------------------------------------
-- The operations
-- ---------------------------------------------------------------------------

theorem addEngine_of_mem {name : List Char} (h : name ∈ m.engine.keys) (loaded : Engine) :
    m.addEngine name loaded = m := by
  rw [addEngine]
  split
  · rfl
  · rename_i hnone
    exact absurd h (SortedMap.get?_eq_none_iff.mp hnone)

/-- Removing an unknown name changes nothing. -/
theorem removeEngine_of_not_mem {name : List Char} (h : name ∉ m.engine.keys) :
    m.removeEngine name = m := by
  rw [removeEngine, SortedMap.get?_eq_none_iff.mpr h]

theorem setDefaultEngine_of_not_mem {name : List Char} (h : name ∉ m.engine.keys) :
    m.setDefaultEngine name = m := by
  rw [setDefaultEngine, SortedMap.get?_eq_none_iff.mpr h]

/-- A new voice has an engine, and it is the default one if there was none. -/
theorem registered_addEngine (h : m.Registered) (name : List Char) (loaded : Engine) :
    (m.addEngine name loaded).Registered := by
  rw [addEngine]
  split
  · exact h
  · rename_i hnone
    have hnonempty : (m.engine.insert name
        (some (fun _ => (defaultInterpolationWeight : ℚ), loaded))).keys ≠ [] :=
      List.ne_nil_of_mem (SortedMap.mem_keys_insert.mpr (.inl rfl))
    have hloaded : ∀ e ∈ (m.engine.insert name
        (some (fun _ => (defaultInterpolationWeight : ℚ), loaded))).entries, e.2 ≠ none := by
      intro e he
      rcases SortedMap.mem_insert.mp he with rfl | ⟨hold, -⟩
      · exact Option.some_ne_none _
      · exact h.loaded e hold
    simp only
    split
    · exact ⟨hloaded, fun _ => hnonempty, fun _ => SortedMap.mem_keys_insert.mpr (.inl rfl),
        fun hnil => absurd hnil hnonempty, h.write_lt⟩
    · -- there is a default voice, so the map was not empty
      rename_i hdefault
      have hold : m.engine.keys ≠ [] := fun hnil => hdefault (h.default_eq hnil)
      exact ⟨hloaded, fun _ => hnonempty,
        fun _ => SortedMap.mem_keys_insert.mpr (.inr (h.default_mem hold)),
        fun hnil => absurd hnil hnonempty, h.write_lt⟩

/-- When the default voice goes, the first one that is left takes its place. -/
theorem registered_removeEngine (h : m.Registered) (name : List Char) :
    (m.removeEngine name).Registered := by
  rw [removeEngine]
  split
  · exact h
  · rename_i voice hsome
    have hloaded : ∀ e ∈ (m.engine.erase name).entries, e.2 ≠ none :=
      fun e he => h.loaded e (SortedMap.mem_erase.mp he).1
    have hold : m.engine.keys ≠ [] := List.ne_nil_of_mem (mem_keys_of_get? hsome)
    simp only
    split
    · rename_i hnil
      exact ⟨hloaded, fun hfalse => absurd hfalse Bool.false_ne_true, fun hne => absurd hnil hne,
        fun _ => rfl, h.write_lt⟩
    · rename_i first rest hcons
      have hnonempty : (m.engine.erase name).keys ≠ [] := by
        rw [hcons]
        exact List.cons_ne_nil first rest
      split
      · refine ⟨hloaded, fun _ => hnonempty, fun _ => ?_, fun hnil => absurd hnil hnonempty,
          h.write_lt⟩
        -- the first voice that is left becomes the default one
        show first ∈ (m.engine.erase name).keys
        rw [hcons]
        exact List.mem_cons_self
      · rename_i hother
        exact ⟨hloaded, fun _ => hnonempty,
          fun _ => SortedMap.mem_keys_erase.mpr ⟨h.default_mem hold, hother⟩,
          fun hnil => absurd hnil hnonempty, h.write_lt⟩

/-- Only a voice of the map becomes the default. -/
theorem registered_setDefaultEngine (h : m.Registered) (name : List Char) :
    (m.setDefaultEngine name).Registered := by
  rw [setDefaultEngine]
  split
  · rename_i voice hsome
    have hmem := mem_keys_of_get? hsome
    exact ⟨h.loaded, h.ready_ne, fun _ => hmem,
      fun hnil => absurd hnil (List.ne_nil_of_mem hmem), h.write_lt⟩
  · exact h

/-- Ready means: there are voices, and a default name. -/
theorem checkReady_iff :
    m.checkReady.flagReady = true ↔ m.engine.keys ≠ [] ∧ m.defaultEngine ≠ [] := by
  show (!m.engine.isEmpty && decide (m.defaultEngine ≠ [])) = true ↔ _
  rw [Bool.and_eq_true, decide_eq_true_iff, Bool.not_eq_true', ← Bool.not_eq_true, isEmpty_iff_keys]

theorem registered_checkReady (h : m.Registered) : m.checkReady.Registered :=
  ⟨h.loaded, fun hready => (checkReady_iff.mp hready).1, h.default_mem, h.default_eq, h.write_lt⟩

-- ---------------------------------------------------------------------------
-- The voices of a label
-- ---------------------------------------------------------------------------

/-- The voices that a label's model is computed from. -/
def usedEngines (m : Mage) : List (Engine × Option (Nat → ℚ)) :=
  if m.interpolationFlag then
    m.engine.values.filterMap fun voice => voice.map fun voice => (voice.2, some voice.1)
  else
    match m.engine.get? m.defaultEngine with
    | some (some voice) => [(voice.2, none)]
    | _ => []

/-- Their names. -/
def usedNames (m : Mage) : List (List Char) :=
  if m.interpolationFlag then m.engine.keys else [m.defaultEngine]

/-- The default voice of a map that is not empty. -/
theorem Registered.exists_default (h : m.Registered) (hne : m.engine.keys ≠ []) :
    ∃ voice, m.engine.get? m.defaultEngine = some (some voice) := by
  obtain ⟨voice, hmem⟩ := SortedMap.mem_keys.mp (h.default_mem hne)
  obtain ⟨loaded, rfl⟩ := Option.ne_none_iff_exists'.mp (h.loaded _ hmem)
  exact ⟨loaded, SortedMap.get?_eq_some_iff.mpr hmem⟩

/-- `operator[]` of a name that is there inserts nothing. -/
theorem engineRef_of_get? {name : List Char} {voice : Option Voice}
    (h : m.engine.get? name = some voice) : m.engineRef name = (m, voice) := by
  rw [engineRef, h]

/-- A loop over entries that are not null. -/
theorem foldlM_loaded {α σ : Type} (body : α → σ → σ) (entries : List (Option α)) (s : σ)
    (h : ∀ e ∈ entries, e ≠ none) :
    entries.foldlM (fun s e => do let v ← e; some (body v s)) s
      = some ((entries.filterMap id).foldl (fun s v => body v s) s) := by
  induction entries generalizing s with
  | nil => rfl
  | cons e entries ih =>
    obtain ⟨v, rfl⟩ := Option.ne_none_iff_exists'.mp (h e List.mem_cons_self)
    exact ih (body v s) fun e he => h e (List.mem_cons_of_mem _ he)

/-- The computation for the voices used never meets a null one. -/
theorem forEngines_eq (h : m.Registered) (hne : m.engine.keys ≠ [])
    (compute : Engine → Option (Nat → ℚ) → Model → Model) (model : Model) :
    m.forEngines compute model
      = some (m.usedEngines.foldl (fun model e => compute e.1 e.2 model) model) := by
  rw [forEngines, usedEngines]
  split
  -- with interpolation: every voice of the map in its order
  · have hloaded : ∀ e ∈ m.engine.values, e ≠ none := by
      intro e he
      obtain ⟨entry, hentry, rfl⟩ := List.mem_map.mp he
      exact h.loaded entry hentry
    refine (foldlM_loaded (fun voice model => compute voice.2 (some voice.1) model) _ model
      hloaded).trans ?_
    have hmap : m.engine.values.filterMap
        (fun voice => voice.map fun voice => (voice.2, some voice.1))
        = (m.engine.values.filterMap id).map fun voice => (voice.2, some voice.1) := by
      rw [List.map_filterMap]
      rfl
    rw [hmap, List.foldl_map]
  -- without it: the default voice alone
  · obtain ⟨voice, hvoice⟩ := h.exists_default hne
    rw [engineRef_of_get? hvoice, hvoice]
    rfl

/-- Every voice that `run` goes through is there. -/
theorem Registered.exists_used (h : m.Registered) (hne : m.engine.keys ≠ []) {name : List Char}
    (hname : name ∈ m.usedNames) : ∃ voice, m.engine.get? name = some (some voice) := by
  rw [usedNames] at hname
  split at hname
  · obtain ⟨voice, hmem⟩ := SortedMap.mem_keys.mp hname
    obtain ⟨loaded, rfl⟩ := Option.ne_none_iff_exists'.mp (h.loaded _ hmem)
    exact ⟨loaded, SortedMap.get?_eq_some_iff.mpr hmem⟩
  · rw [List.mem_singleton.mp hname]
    exact h.exists_default hne

/-- The voices used are those under the names used. -/
theorem forall_usedEngines {P : Engine → Prop} :
    (∀ e ∈ m.usedEngines, P e.1) ↔
      ∀ name ∈ m.usedNames, ∀ voice, m.engine.get? name = some (some voice) → P voice.2 := by
  rw [usedEngines, usedNames]
  split
  · refine ⟨?_, ?_⟩
    -- with interpolation: values and names are two readings of the entries
    · intro h name _ voice hvoice
      have hmem := SortedMap.get?_eq_some_iff.mp hvoice
      refine h (voice.2, some voice.1) (List.mem_filterMap.mpr ⟨some voice, ?_, rfl⟩)
      exact List.mem_map.mpr ⟨_, hmem, rfl⟩
    · intro h e he
      obtain ⟨entry, hentry, hmap⟩ := List.mem_filterMap.mp he
      obtain ⟨voice, rfl, rfl⟩ := Option.map_eq_some_iff.mp hmap
      obtain ⟨⟨name, v⟩, hmem, rfl⟩ := List.mem_map.mp hentry
      exact h name (SortedMap.mem_keys.mpr ⟨_, hmem⟩) voice (SortedMap.get?_eq_some_iff.mpr hmem)
  -- without it: one name
  · rw [List.forall_mem_singleton]
    split
    · rename_i voice hvoice
      rw [List.forall_mem_singleton]
      refine ⟨?_, fun h => h voice hvoice⟩
      intro h voice' hvoice'
      rw [hvoice] at hvoice'
      cases hvoice'
      exact h
    · rename_i hno
      exact ⟨fun _ voice hvoice => absurd hvoice (hno voice),
        fun _ e he => absurd he List.not_mem_nil⟩

-- ---------------------------------------------------------------------------
-- A label
-- ---------------------------------------------------------------------------

/-- What `prepareModel` leaves, for the default voice. -/
def prepared (m : Mage) (voice : Voice) : Mage :=
  let r := m.nextModel.checkInterpolationWeights voice.2
  { m.writeModel r.1 with
    engine := m.engine.adjust m.defaultEngine fun _ => some (voice.1, r.2) }

/-- The model of a label, computed in a slot that holds `model`. -/
def modelOf (m : Mage) (label : Label) (model : Model) : Model :=
  let timed := (m.usedEngines.foldl
    (fun model e => model.computeDuration e.1 label e.2) model.initDuration).updateDuration
      nOfBackup nOfLookup m.updateFunction m.action
  m.usedEngines.foldl
    (fun model e => (model.computeParameters e.1 label e.2).computeGlobalVariances e.1 label)
    timed.initParameters

/-- What `computeDuration` and `computeParameters` leave. -/
def labelled (m : Mage) (label : Label) : Mage :=
  { m with
    action := noaction
    modelQueue := (m.modelQueue.writeNext (m.modelOf label m.nextModel)).push 1 }

/-- The model of a label keeps what was checked of the weights. -/
theorem weightsChecked_modelOf (m : Mage) (label : Label) (model : Model) :
    (m.modelOf label model).weightsChecked = model.weightsChecked := by
  have hdurations : (m.usedEngines.foldl (fun model e => model.computeDuration e.1 label e.2)
      model.initDuration).weightsChecked = model.weightsChecked := by
    refine foldl_invariant (I := fun r : Model => r.weightsChecked = model.weightsChecked)
      (fun r e hr => ?_) m.usedEngines model.initDuration rfl
    exact hr
  refine foldl_invariant (I := fun r : Model => r.weightsChecked = model.weightsChecked)
    (fun r e hr => ?_) m.usedEngines _ hdurations
  rw [(Model.computeGlobalVariances_keeps _ _ _).1, (Model.computeParameters_keeps _ _ _ _).1, hr]

/-- What is written at the write position is read there. -/
theorem nextModel_writeModel (hwrite : m.modelQueue.write < m.modelQueue.length) (model : Model) :
    (m.writeModel model).nextModel = model := by
  show (m.modelQueue.rawData.set m.modelQueue.write model).getD m.modelQueue.write default = model
  have hlt : m.modelQueue.write < m.modelQueue.rawData.length := hwrite
  simp [List.getD, hlt]

/-- Writing into the queue's array leaves the map alone. -/
theorem registered_writeModel (h : m.Registered) (model : Model) :
    (m.writeModel model).Registered := by
  refine ⟨h.loaded, h.ready_ne, h.default_mem, h.default_eq, ?_⟩
  show m.modelQueue.write < (m.modelQueue.writeNext model).length
  rw [MemQueue.length_writeNext]
  exact h.write_lt

/-- With a default voice the model can be prepared. -/
theorem prepareModel_eq {voice : Voice}
    (hvoice : m.engine.get? m.defaultEngine = some (some voice)) :
    m.prepareModel = some (m.prepared voice) := by
  rw [prepareModel, engineRef_of_get? hvoice]
  rfl

/-- Preparing checks one voice and writes one model. -/
theorem registered_prepared (h : m.Registered) (voice : Voice) :
    (m.prepared voice).Registered ∧ (m.prepared voice).engine.keys = m.engine.keys := by
  have hkeys : (m.prepared voice).engine.keys = m.engine.keys := SortedMap.keys_adjust _
  refine ⟨⟨?_, ?_, ?_, ?_, ?_⟩, hkeys⟩
  -- the default voice's entry is replaced by another that is loaded
  · intro e he
    obtain ⟨d, hd, rfl⟩ := SortedMap.mem_adjust.mp he
    split
    · exact Option.some_ne_none _
    · exact h.loaded d hd
  · rw [hkeys]
    exact h.ready_ne
  · rw [hkeys]
    exact h.default_mem
  · rw [hkeys]
    exact h.default_eq
  · exact (registered_writeModel h _).write_lt

/-- The two computations of a label's model. -/
theorem computed_eq (h : m.Registered) (hne : m.engine.keys ≠ []) (label : Label) :
    (m.computeDuration label).bind (fun m => m.computeParameters label)
      = some (m.labelled label) := by
  obtain ⟨timed, htimed⟩ : ∃ timed, timed = (m.usedEngines.foldl
      (fun model e => model.computeDuration e.1 label e.2) m.nextModel.initDuration).updateDuration
        nOfBackup nOfLookup m.updateFunction m.action := ⟨_, rfl⟩
  obtain ⟨m', hm'⟩ : ∃ m', m' = { m.writeModel timed with action := noaction } := ⟨_, rfl⟩
  have hduration : m.computeDuration label = some m' := by
    rw [computeDuration, forEngines_eq h hne, hm', htimed]
    rfl
  -- the map is the same, and the slot holds the durations
  have hregistered : m'.Registered := by
    have hwritten := registered_writeModel h timed
    rw [hm']
    exact ⟨hwritten.loaded, hwritten.ready_ne, hwritten.default_mem, hwritten.default_eq,
      hwritten.write_lt⟩
  have hnext : m'.nextModel = timed := by
    rw [hm']
    exact nextModel_writeModel h.write_lt timed
  have hne' : m'.engine.keys ≠ [] := by
    rw [hm']
    exact hne
  rw [hduration, Option.bind_some, computeParameters, forEngines_eq hregistered hne', hnext]
  -- the slot is written twice
  have hset : (m.writeModel timed).modelQueue.writeNext (m.modelOf label m.nextModel)
      = m.modelQueue.writeNext (m.modelOf label m.nextModel) := by
    simp only [writeModel, MemQueue.writeNext, List.set_set]
  rw [labelled, ← hset, modelOf, ← htimed, hm']
  rfl

/-- Computing a label's model leaves the map alone. -/
theorem registered_labelled (h : m.Registered) (label : Label) : (m.labelled label).Registered := by
  refine ⟨h.loaded, h.ready_ne, h.default_mem, h.default_eq, ?_⟩
  refine Nat.mod_lt _ ?_
  rw [MemQueue.length_writeNext]
  exact Nat.zero_lt_of_lt h.write_lt

/-- The optimiser changes its flag and the queue, and no voice is missing on the way. -/
theorem optimizeParameters_keeps (h : m.Registered) (hne : m.engine.keys ≠ []) :
    ∃ flag q, m.optimizeParameters = some { m with flag := flag, modelQueue := q } ∧
      q.rawData = m.modelQueue.rawData ∧ q.write = m.modelQueue.write := by
  obtain ⟨voice, hvoice⟩ := h.exists_default hne
  rw [optimizeParameters]
  split
  · exact ⟨m.flag, m.modelQueue, rfl, rfl, rfl⟩
  · rw [engineRef_of_get? hvoice]
    by_cases hmany : m.modelQueue.getNumOfItems > nOfLookup + nOfBackup
    · exact ⟨false, m.modelQueue.pop 1, if_pos hmany, rfl, rfl⟩
    · exact ⟨m.flag, m.modelQueue, if_neg hmany, rfl, rfl⟩

/-- **A label always finds its voices.** It leaves the map as it was, but for the
weights of the default voice, and fills the next slot. -/
theorem run_registered (h : m.Registered) (hne : m.engine.keys ≠ []) (label : Label) :
    ∃ voice flag q, m.engine.get? m.defaultEngine = some (some voice) ∧
      m.run (some label)
        = some { (m.prepared voice).labelled (label.setSpeed m.labelSpeed) with
            flag := flag, modelQueue := q } ∧
      q.rawData = ((m.prepared voice).labelled (label.setSpeed m.labelSpeed)).modelQueue.rawData ∧
      q.write = ((m.prepared voice).labelled (label.setSpeed m.labelSpeed)).modelQueue.write := by
  -- the default voice is checked, then the label computed, then the optimiser called
  obtain ⟨voice, hvoice⟩ := h.exists_default hne
  obtain ⟨hprepared, hkeys⟩ := registered_prepared h voice
  have hne' : (m.prepared voice).engine.keys ≠ [] := by rwa [hkeys]
  have hcomputed := computed_eq hprepared hne' (label.setSpeed m.labelSpeed)
  have hlabelled := registered_labelled hprepared (label.setSpeed m.labelSpeed)
  obtain ⟨flag, q, hoptimize, hrawData, hwrite⟩ := optimizeParameters_keeps hlabelled hne'
  refine ⟨voice, flag, q, hvoice, ?_, hrawData, hwrite⟩
  rw [run, prepareModel_eq hvoice, ← hoptimize]
  show ((m.prepared voice).computeDuration (label.setSpeed m.labelSpeed)).bind (fun m' =>
    (m'.computeParameters (label.setSpeed m.labelSpeed)).bind optimizeParameters) = _
  rw [← Option.bind_assoc, hcomputed]
  rfl

-- ---------------------------------------------------------------------------
-- Calls
-- ---------------------------------------------------------------------------

/-- A run of a ready synthesiser goes through. -/
theorem registered_run (h : m.Registered) (hready : m.flagReady = true) (label : Option Label) :
    ∃ m', m.run label = some m' ∧ m'.Registered ∧ m'.engine.keys = m.engine.keys ∧
      m'.flagReady = m.flagReady := by
  cases label with
  | none => exact ⟨m, rfl, h, rfl, rfl⟩
  | some label =>
    obtain ⟨voice, flag, q, hvoice, hrun, hrawData, hwrite⟩ :=
      run_registered h (h.ready_ne hready) label
    obtain ⟨hprepared, hkeys⟩ := registered_prepared h voice
    refine ⟨_, hrun, ?_, hkeys, rfl⟩
    refine ⟨hprepared.loaded, hprepared.ready_ne, hprepared.default_mem,
      hprepared.default_eq, ?_⟩
    show q.write < q.rawData.length
    rw [hrawData, hwrite]
    exact (registered_labelled hprepared _).write_lt

/-- Every call keeps what the map and its default are. -/
theorem registered_call (h : m.Registered) (c : EngineCall) :
    ∃ m', m.call c = some m' ∧ m'.Registered := by
  cases c with
  | addEngine EngineName loaded => exact ⟨_, rfl, registered_addEngine h EngineName loaded⟩
  | addEngineFile EngineName argc loaded =>
    refine ⟨_, rfl, ?_⟩
    rw [addEngineFile]
    split
    · exact registered_addEngine h EngineName loaded
    · exact h
  | removeEngine EngineName => exact ⟨_, rfl, registered_removeEngine h EngineName⟩
  | setDefaultEngine defaultEngine => exact ⟨_, rfl, registered_setDefaultEngine h defaultEngine⟩
  | checkReady => exact ⟨_, rfl, registered_checkReady h⟩
  | enableInterpolation interpolationFlag =>
    exact ⟨_, rfl, h.loaded, h.ready_ne, h.default_mem, h.default_eq, h.write_lt⟩
  | run label =>
    -- `run` is called only when the synthesiser says that it is ready
    by_cases hready : m.flagReady = true
    · obtain ⟨m', hrun, hregistered, -⟩ := registered_run h hready label
      exact ⟨m', (if_pos hready).trans hrun, hregistered⟩
    · exact ⟨m, if_neg hready, h⟩

-- ---------------------------------------------------------------------------
-- Names that are not empty
-- ---------------------------------------------------------------------------

/-- Without an empty name in the map, the ready flag is up whenever there is a voice. -/
structure Announced (m : Mage) : Prop where
  names : [] ∉ m.engine.keys
  ready : m.engine.keys ≠ [] → m.flagReady = true

/-- A name that is added has a letter. -/
theorem announced_addEngine (h : m.Registered) (ha : m.Announced) {name : List Char}
    (hname : name ≠ []) (loaded : Engine) : (m.addEngine name loaded).Announced := by
  rw [addEngine]
  split
  · exact ha
  -- the empty name does not come in
  · have hnames : [] ∉ (m.engine.insert name
        (some (fun _ => (defaultInterpolationWeight : ℚ), loaded))).keys := by
      rw [SortedMap.mem_keys_insert]
      rintro (hnil | hnil)
      · exact hname hnil.symm
      · exact ha.names hnil
    simp only
    split
    -- the first voice sets the flag
    · exact ⟨hnames, fun _ => rfl⟩
    · rename_i hdefault
      exact ⟨hnames, fun _ => ha.ready fun hnil => hdefault (h.default_eq hnil)⟩

/-- When a voice is left, the flag stays set. -/
theorem announced_removeEngine (ha : m.Announced) (name : List Char) :
    (m.removeEngine name).Announced := by
  rw [removeEngine]
  split
  · exact ha
  · rename_i voice hsome
    have hnames : [] ∉ (m.engine.erase name).keys :=
      fun hnil => ha.names (SortedMap.mem_keys_erase.mp hnil).1
    simp only
    split
    -- the last voice is gone
    · rename_i hnil
      exact ⟨hnames, fun hne => absurd hnil hne⟩
    · split
      · exact ⟨hnames, fun _ => rfl⟩
      · exact ⟨hnames, fun _ => ha.ready (List.ne_nil_of_mem (mem_keys_of_get? hsome))⟩

/-- Calls with named voices keep the flag true to the map. -/
theorem announced_call (h : m.Registered) (ha : m.Announced) {c : EngineCall} (hc : c.Named)
    {m' : Mage} (hcall : m.call c = some m') : m'.Announced := by
  cases c with
  | addEngine EngineName loaded =>
    obtain rfl := Option.some.inj hcall
    exact announced_addEngine h ha hc loaded
  | addEngineFile EngineName argc loaded =>
    obtain rfl := Option.some.inj hcall
    rw [addEngineFile]
    split
    · exact announced_addEngine h ha hc loaded
    · exact ha
  | removeEngine EngineName =>
    obtain rfl := Option.some.inj hcall
    exact announced_removeEngine ha EngineName
  | setDefaultEngine defaultEngine =>
    obtain rfl := Option.some.inj hcall
    rw [setDefaultEngine]
    split
    · exact ⟨ha.names, ha.ready⟩
    · exact ha
  | checkReady =>
    obtain rfl := Option.some.inj hcall
    refine ⟨ha.names, fun hne => checkReady_iff.mpr ⟨hne, ?_⟩⟩
    intro hnil
    exact ha.names (hnil ▸ h.default_mem hne)
  | enableInterpolation interpolationFlag =>
    obtain rfl := Option.some.inj hcall
    exact ⟨ha.names, ha.ready⟩
  | run label =>
    by_cases hready : m.flagReady = true
    · obtain ⟨m₁, hrun, -, hkeys, hflag⟩ := registered_run h hready label
      obtain rfl : m₁ = m' := Option.some.inj (hrun.symm.trans ((if_pos hready).symm.trans hcall))
      refine ⟨?_, fun _ => hflag.trans hready⟩
      rw [hkeys]
      exact ha.names
    · -- not ready: nothing happens
      obtain rfl : m = m' := Option.some.inj ((if_neg hready).symm.trans hcall)
      exact ha

/-- Every sequence of calls is defined. -/
theorem registered_calls {calls : List EngineCall} (hnames : ∀ c ∈ calls, c.Named) {m : Mage}
    (h : m.Registered) (ha : m.Announced) :
    ∃ m', calls.foldlM call m = some m' ∧ m'.Registered ∧ m'.Announced := by
  induction calls generalizing m with
  | nil => exact ⟨m, rfl, h, ha⟩
  | cons c calls ih =>
    obtain ⟨m₁, hcall, h₁⟩ := registered_call h c
    have ha₁ := announced_call h ha (hnames c List.mem_cons_self) hcall
    obtain ⟨m', hcalls, h'⟩ := ih (fun c hc => hnames c (List.mem_cons_of_mem _ hc)) h₁ ha₁
    refine ⟨m', ?_, h'⟩
    rw [List.foldlM_cons, hcall]
    exact hcalls

/--
**The map of voices never lets `run` use a missing voice.** After any calls, MAGE is ready
exactly when there is a voice, and the default one is then in the map, so that it is
found without a null entry being inserted; a name that is in the map is not added again,
and one that is not in it neither removed nor made the default. -/
theorem engines_registered (updateFunction : Nat → ℚ) (model : Nat → Model)
    {calls : List EngineCall} (hnames : ∀ c ∈ calls, c.Named) :
    ∃ m, calls.foldlM call (init updateFunction model) = some m ∧
      (m.flagReady = true ↔ m.engine.keys ≠ []) ∧
      (m.engine.keys ≠ [] → m.defaultEngine ∈ m.engine.keys ∧
        ∃ voice, m.engineRef m.defaultEngine = (m, some voice)) ∧
      (m.flagReady = true → ∀ label, ∃ m', m.run label = some m' ∧
        m'.engine.keys = m.engine.keys ∧ ∀ e ∈ m'.engine.entries, e.2 ≠ none) ∧
      (∀ name ∈ m.engine.keys, ∀ argc loaded, m.addEngine name loaded = m ∧
        m.addEngineFile name argc loaded = m) ∧
      ∀ name, name ∉ m.engine.keys → m.removeEngine name = m ∧ m.setDefaultEngine name = m := by
  -- both invariants hold after the calls
  obtain ⟨m, hcalls, h, ha⟩ := registered_calls hnames (registered_init updateFunction model)
    ⟨List.not_mem_nil, fun hne => absurd rfl hne⟩
  refine ⟨m, hcalls, ⟨h.ready_ne, ha.ready⟩, ?_, ?_, ?_, ?_⟩
  · intro hne
    obtain ⟨voice, hvoice⟩ := h.exists_default hne
    exact ⟨h.default_mem hne, voice, engineRef_of_get? hvoice⟩
  · intro hready label
    obtain ⟨m', hrun, h', hkeys, -⟩ := registered_run h hready label
    exact ⟨m', hrun, hkeys, h'.loaded⟩
  · intro name hname argc loaded
    have hadd := addEngine_of_mem hname loaded
    refine ⟨hadd, ?_⟩
    rw [addEngineFile, hadd, ite_self]
  · intro name hname
    exact ⟨removeEngine_of_not_mem hname, setDefaultEngine_of_not_mem hname⟩

/-- A voice is added twice and another name is removed. -/
theorem engines_registered_added :
    let calls : List EngineCall := [.addEngine ['a'] plainEngine, .addEngine ['a'] plainEngine,
      .removeEngine ['b'], .checkReady, .run (some default)]
    ∃ m, calls.foldlM call (init (fun _ => 0) fun _ => default) = some m ∧
      (m.flagReady = true ↔ m.engine.keys ≠ []) ∧
      (m.engine.keys ≠ [] → m.defaultEngine ∈ m.engine.keys ∧
        ∃ voice, m.engineRef m.defaultEngine = (m, some voice)) ∧
      (m.flagReady = true → ∀ label, ∃ m', m.run label = some m' ∧
        m'.engine.keys = m.engine.keys ∧ ∀ e ∈ m'.engine.entries, e.2 ≠ none) ∧
      (∀ name ∈ m.engine.keys, ∀ argc loaded, m.addEngine name loaded = m ∧
        m.addEngineFile name argc loaded = m) ∧
      ∀ name, name ∉ m.engine.keys → m.removeEngine name = m ∧ m.setDefaultEngine name = m := by
  refine @engines_registered (fun _ => 0) (fun _ => default) _ ?_
  simp [EngineCall.Named]

end Vox.Mage.Mage
