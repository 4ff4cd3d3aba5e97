import Vox.Mage.LabelModel

/-!
# MAGE — what a voice adds to a model

The computations of a label's model, state by state and cell by cell. A voice adds its
means and variances to a cell and overwrites its MSD value (`addStream`), and it
overwrites global variances (`overwriteGv`); what the scratch arrays of the slot hold
before that does not matter.

* `state_foldl_computeDuration`, `state_foldl_voices` — the state that the computations of
  all voices leave, and `State.foldl_addVoice` — its cells.
* `DurationsAgree` — the state durations of a length depend on the distributions only.
-/

namespace Vox.Mage

open Lib

-- ---------------------------------------------------------------------------
-- Parameters
-- ---------------------------------------------------------------------------

/-- The mean of coefficient `j` of stream `k` in state `i`. -/
def Engine.mean (engine : Engine) (label : Label) (i k j : Nat) : ℚ :=
  interpolate (engine.ms.stream k).interpolation_size (engine.global.parameter_iw k) fun n =>
    (engine.ms.stream k).pdf label.query (i + 2) n j

def Engine.vari (engine : Engine) (label : Label) (i k j : Nat) : ℚ :=
  interpolateSquared (engine.ms.stream k).interpolation_size (engine.global.parameter_iw k) fun n =>
    (engine.ms.stream k).pdf label.query (i + 2) n (j + (engine.ms.stream k).vector_length)

/-- The MSD value of stream `k` in state `i`. -/
def Engine.msd (engine : Engine) (label : Label) (i k : Nat) : ℚ :=
  if (engine.ms.stream k).msd_flag then
    interpolate (engine.ms.stream k).interpolation_size (engine.global.parameter_iw k) fun n =>
      (engine.ms.stream k).pdf label.query (i + 2) n (2 * (engine.ms.stream k).vector_length)
  else defaultMSDflag

/-- What a voice makes of a cell. -/
def Engine.addTo (engine : Engine) (label : Label) (interpolationWeight : Option (Nat → ℚ))
    (i k j : Nat) (cell : Distribution) : Distribution :=
  if j < (engine.ms.stream k).vector_length then
    { mean := cell.mean + weightOf interpolationWeight k * engine.mean label i k j
      vari := cell.vari
        + weightOf interpolationWeight k * weightOf interpolationWeight k * engine.vari label i k j
      msdFlag := engine.msd label i k }
  else cell

/-- What a voice makes of stream `k` of state `i`. -/
def State.addStream (engine : Engine) (label : Label) (interpolationWeight : Option (Nat → ℚ))
    (k i : Nat) (state : State) : State :=
  { state with
    streams := fun k' j =>
      if k' = k then engine.addTo label interpolationWeight i k j (state.streams k j)
      else state.streams k' j }

/-- What a voice makes of the streams below `n` of state `i`. -/
def State.addStreams (engine : Engine) (label : Label) (interpolationWeight : Option (Nat → ℚ))
    (n i : Nat) (state : State) : State :=
  { state with
    streams := fun k j =>
      if k < n then engine.addTo label interpolationWeight i k j (state.streams k j)
      else state.streams k j }

variable {engine : Engine} {label : Label} {interpolationWeight : Option (Nat → ℚ)}

/-- The streams are added one by one. -/
theorem State.addStreams_succ (n i : Nat) (state : State) :
    (state.addStreams engine label interpolationWeight n i).addStream engine label
        interpolationWeight n i
      = state.addStreams engine label interpolationWeight (n + 1) i := by
  simp only [State.addStream, State.addStreams]
  congr 1
  funext k j
  by_cases hk : k = n
  · subst hk
    rw [if_pos rfl, if_neg (Nat.lt_irrefl k), if_pos (Nat.lt_succ_self k)]
  · rw [if_neg hk]
    by_cases hlt : k < n
    · rw [if_pos hlt, if_pos (Nat.lt_succ_of_lt hlt)]
    · rw [if_neg hlt, if_neg (by omega)]

namespace Model

/-- Computing a stream adds it to one state. -/
theorem state_computeStream (k i : Nat) (model : Model) :
    (computeStream engine label interpolationWeight k i model).state
      = Function.update model.state i
          ((model.state i).addStream engine label interpolationWeight k i) := by
  simp only [computeStream, State.addStream]
  congr 2
  funext k' j
  by_cases hk : k' = k
  · subst hk
    rw [Function.update_self, if_pos rfl, Engine.addTo]
    by_cases hj : j < (engine.ms.stream k').vector_length
    · simp only [HTS_ModelSet_get_parameter, if_pos hj]
      rfl
    · rw [if_neg hj, if_neg hj]
  · rw [Function.update_of_ne hk, if_neg hk]

/-- After the states below `n` of stream `k`. -/
structure StreamAdded (engine : Engine) (label : Label) (interpolationWeight : Option (Nat → ℚ))
    (model : Model) (k n : Nat) (r : Model) : Prop where
  state : ∀ i, r.state i
    = if i < n then (model.state i).addStream engine label interpolationWeight k i
      else model.state i
  duration : r.duration = model.duration
  mean : 0 < n → ∀ j < (engine.ms.stream k).vector_length,
    r.modelMemory.stream_mean k j = engine.mean label (n - 1) k j
  vari : 0 < n → ∀ j < (engine.ms.stream k).vector_length,
    r.modelMemory.stream_vari k j = engine.vari label (n - 1) k j
  others : ∀ k' ≠ k, r.modelMemory.stream_mean k' = model.modelMemory.stream_mean k' ∧
    r.modelMemory.stream_vari k' = model.modelMemory.stream_vari k'

/-- One state more has the stream added. -/
theorem StreamAdded.computeStream {model r : Model} {k n : Nat}
    (h : StreamAdded engine label interpolationWeight model k n r) :
    StreamAdded engine label interpolationWeight model k (n + 1)
      (computeStream engine label interpolationWeight k n r) := by
  refine ⟨?_, h.duration, ?_, ?_, ?_⟩
  · intro i
    rw [state_computeStream]
    -- the state that is computed, those before it and those to come
    by_cases hi : i = n
    · subst hi
      rw [Function.update_self, if_pos (Nat.lt_succ_self i), h.state, if_neg (Nat.lt_irrefl i)]
    · rw [Function.update_of_ne hi, h.state]
      by_cases hlt : i < n
      · rw [if_pos hlt, if_pos (Nat.lt_succ_of_lt hlt)]
      · rw [if_neg hlt, if_neg (by omega)]
  · intro _ j hj
    show Function.update r.modelMemory.stream_mean k _ k j = _
    rw [Function.update_self]
    exact if_pos hj
  · intro _ j hj
    show Function.update r.modelMemory.stream_vari k _ k j = _
    rw [Function.update_self]
    exact if_pos hj
  · intro k' hk'
    refine ⟨?_, ?_⟩
    · exact (Function.update_of_ne hk' _ _).trans (h.others k' hk').1
    · exact (Function.update_of_ne hk' _ _).trans (h.others k' hk').2

/-- After the streams below `n`. -/
structure StreamsAdded (engine : Engine) (label : Label) (interpolationWeight : Option (Nat → ℚ))
    (model : Model) (n : Nat) (r : Model) : Prop where
  state : ∀ i, r.state i
    = if i < nOfStates then (model.state i).addStreams engine label interpolationWeight n i
      else model.state i
  duration : r.duration = model.duration
  mean : ∀ k < n, ∀ j < (engine.ms.stream k).vector_length,
    r.modelMemory.stream_mean k j = engine.mean label (nOfStates - 1) k j
  vari : ∀ k < n, ∀ j < (engine.ms.stream k).vector_length,
    r.modelMemory.stream_vari k j = engine.vari label (nOfStates - 1) k j

/-- **The parameters of a voice** are added to all streams of all states. -/
theorem computeParameters_added (model : Model) :
    StreamsAdded engine label interpolationWeight model nOfStreams
      (model.computeParameters engine label interpolationWeight) := by
  rw [computeParameters]
  refine foldl_range_induction
    (fun n r => StreamsAdded engine label interpolationWeight model n r) ?_ ?_
  · refine ⟨?_, rfl, fun k hk => absurd hk (Nat.not_lt_zero k),
      fun k hk => absurd hk (Nat.not_lt_zero k)⟩
    intro i
    -- no stream yet
    rw [State.addStreams]
    simp only [Nat.not_lt_zero, if_false, ite_self]
  · intro k _ r hr
    -- the inner loop: this stream in all states
    have hstream : StreamAdded engine label interpolationWeight r k nOfStates
        ((List.range nOfStates).foldl
          (fun model i => Model.computeStream engine label interpolationWeight k i model) r) := by
      refine foldl_range_induction
        (fun n r' => StreamAdded engine label interpolationWeight r k n r') ?_ ?_
      · exact ⟨fun i => (if_neg (Nat.not_lt_zero i)).symm, rfl, fun h => absurd h (Nat.lt_irrefl 0),
          fun h => absurd h (Nat.lt_irrefl 0), fun _ _ => ⟨rfl, rfl⟩⟩
      · exact fun n _ r' hr' => hr'.computeStream
    refine ⟨?_, hstream.duration.trans hr.duration, ?_, ?_⟩
    · intro i
      rw [hstream.state, hr.state]
      by_cases hi : i < nOfStates
      · rw [if_pos hi, if_pos hi, if_pos hi, State.addStreams_succ]
      · rw [if_neg hi, if_neg hi, if_neg hi]
    · intro k' hk' j hj
      by_cases hk : k' = k
      · subst hk
        exact hstream.mean (by decide) j hj
      · rw [(hstream.others k' hk).1]
        exact hr.mean k' (by omega) j hj
    · intro k' hk' j hj
      by_cases hk : k' = k
      · subst hk
        exact hstream.vari (by decide) j hj
      · rw [(hstream.others k' hk).2]
        exact hr.vari k' (by omega) j hj

end Model

-- ---------------------------------------------------------------------------
-- Global variances
-- ---------------------------------------------------------------------------

/-- The global variance of coefficient `j` of stream `k`: its mean. Past the end of the
global variance's pdf it is what the last state has left in the scratch array. -/
def Engine.gvMean (engine : Engine) (label : Label) (gv : Nat → Pdfs) (k j : Nat) : ℚ :=
  if j < (gv k).vector_length then
    interpolate (gv k).interpolation_size (engine.global.gv_iw k) fun n =>
      (gv k).pdf label.query n j
  else engine.mean label (nOfStates - 1) k j

def Engine.gvVari (engine : Engine) (label : Label) (gv : Nat → Pdfs) (k j : Nat) : ℚ :=
  if j < (gv k).vector_length then
    interpolateSquared (gv k).interpolation_size (engine.global.gv_iw k) fun n =>
      (gv k).pdf label.query n (j + (gv k).vector_length)
  else engine.vari label (nOfStates - 1) k j

/-- What a voice makes of a cell of the global variances. -/
def Engine.overwriteGv (engine : Engine) (label : Label) (k j : Nat) (cell : Distribution) :
    Distribution :=
  match engine.ms.gv with
  | none => cell
  | some gv =>
    if engine.ms.use_gv k = true ∧ j < (engine.ms.stream k).vector_length then
      { cell with mean := engine.gvMean label gv k j, vari := engine.gvVari label gv k j }
    else cell

/-- What a voice makes of the global variances of the streams below `n`. -/
def State.overwriteGvs (engine : Engine) (label : Label) (n : Nat) (state : State) : State :=
  { state with
    gv_streams := fun k j =>
      if k < n then engine.overwriteGv label k j (state.gv_streams k j)
      else state.gv_streams k j }

/-- One more stream. -/
theorem State.overwriteGvs_succ (n : Nat) (state : State) {cells : Nat → Distribution}
    (hcells : ∀ j, cells j = engine.overwriteGv label n j (state.gv_streams n j)) :
    { state.overwriteGvs engine label n with
        gv_streams := Function.update (state.overwriteGvs engine label n).gv_streams n cells }
      = state.overwriteGvs engine label (n + 1) := by
  simp only [State.overwriteGvs]
  congr 1
  funext k j
  by_cases hk : k = n
  · subst hk
    rw [Function.update_self, if_pos (Nat.lt_succ_self k), hcells]
  · rw [Function.update_of_ne hk]
    by_cases hlt : k < n
    · rw [if_pos hlt, if_pos (Nat.lt_succ_of_lt hlt)]
    · rw [if_neg hlt, if_neg (by omega)]

/-- One more stream that the voice leaves alone. -/
theorem State.overwriteGvs_keep {n : Nat}
    (hcell : ∀ j cell, engine.overwriteGv label n j cell = cell) (state : State) :
    state.overwriteGvs engine label n = state.overwriteGvs engine label (n + 1) := by
  have hold : (state.overwriteGvs engine label n).gv_streams n = state.gv_streams n := by
    funext j
    exact if_neg (Nat.lt_irrefl n)
  rw [← overwriteGvs_succ n state fun j => (hcell j (state.gv_streams n j)).symm, ← hold,
    Function.update_eq_self]

/-- What the parameters and the global variances of a voice make of state `i`. -/
def State.addVoice (engine : Engine) (label : Label) (interpolationWeight : Option (Nat → ℚ))
    (i : Nat) (state : State) : State :=
  { (state.addStreams engine label interpolationWeight nOfStreams i).overwriteGvs engine label
      nOfStreams with
    gv_switch_streams := fun j => if j < nOfStreams then false else state.gv_switch_streams j }

namespace Model

/-- After the global variances below `n`, in a model whose parameters are computed. -/
structure GvWritten (engine : Engine) (label : Label) (model : Model) (n : Nat) (r : Model) :
    Prop where
  state : ∀ i, r.state i
    = if i < nOfStates then (model.state i).overwriteGvs engine label n else model.state i
  duration : r.duration = model.duration
  others : ∀ k, n ≤ k → r.modelMemory.stream_mean k = model.modelMemory.stream_mean k ∧
    r.modelMemory.stream_vari k = model.modelMemory.stream_vari k

/-- A stream that the voice has no GV for. -/
theorem GvWritten.keep {model r : Model} {n : Nat} (h : GvWritten engine label model n r)
    (hcell : ∀ j cell, engine.overwriteGv label n j cell = cell) :
    GvWritten engine label model (n + 1) r := by
  refine ⟨fun i => ?_, h.duration, fun k hk => h.others k (by omega)⟩
  rw [h.state, State.overwriteGvs_keep hcell]

theorem GvWritten.computeGlobalVariance {model r : Model} {n : Nat}
    (h : GvWritten engine label model n r)
    (hmean : ∀ j < (engine.ms.stream n).vector_length,
      model.modelMemory.stream_mean n j = engine.mean label (nOfStates - 1) n j)
    (hvari : ∀ j < (engine.ms.stream n).vector_length,
      model.modelMemory.stream_vari n j = engine.vari label (nOfStates - 1) n j) :
    GvWritten engine label model (n + 1) (computeGlobalVariance engine label n r) := by
  rw [Model.computeGlobalVariance]
  cases hgv : engine.ms.gv with
  | none =>
    -- a voice without global variances
    exact h.keep fun j cell => by rw [Engine.overwriteGv, hgv]
  | some gv =>
    simp only
    by_cases huse : engine.ms.use_gv n = true
    · rw [if_pos huse]
      refine ⟨fun i => ?_, h.duration, fun k hk => ?_⟩
      · show (if i < nOfStates then _ else r.state i) = _
        by_cases hi : i < nOfStates
        · rw [if_pos hi, if_pos hi, h.state, if_pos hi]
          refine State.overwriteGvs_succ n (model.state i) fun j => ?_
          have hcell : ((model.state i).overwriteGvs engine label n).gv_streams n j
              = (model.state i).gv_streams n j := if_neg (Nat.lt_irrefl n)
          rw [hcell, Engine.overwriteGv, hgv]
          by_cases hj : j < (engine.ms.stream n).vector_length
          · -- past the end of its pdf, what the parameters have left in the scratch array
            have hmean' := congrFun (h.others n (Nat.le_refl n)).1 j
            have hvari' := congrFun (h.others n (Nat.le_refl n)).2 j
            simp only [if_pos hj, if_pos (And.intro huse hj), HTS_ModelSet_get_gv, hmean', hvari',
              hmean j hj, hvari j hj, Engine.gvMean, Engine.gvVari]
          · simp only [if_neg hj, if_neg (fun hand : _ ∧ j < _ => hj hand.2)]
        · rw [if_neg hi, if_neg hi, h.state, if_neg hi]
      · -- the scratch arrays of later streams are not touched
        have hne : k ≠ n := by omega
        refine ⟨?_, ?_⟩
        · exact (Function.update_of_ne hne _ _).trans (h.others k (by omega)).1
        · exact (Function.update_of_ne hne _ _).trans (h.others k (by omega)).2
    · -- or with one of another stream only
      rw [if_neg huse]
      refine h.keep fun j cell => ?_
      rw [Engine.overwriteGv, hgv]
      exact if_neg fun hand => huse hand.1

/-- **The parameters and global variances of a voice**, which leave the durations alone. -/
theorem state_computeGlobalVariances (engine : Engine) (label : Label)
    (interpolationWeight : Option (Nat → ℚ)) (model : Model) :
    (∀ i < nOfStates, ((model.computeParameters engine label
        interpolationWeight).computeGlobalVariances engine label).state i
      = (model.state i).addVoice engine label interpolationWeight i) ∧
    ((model.computeParameters engine label interpolationWeight).computeGlobalVariances engine
      label).duration = model.duration := by
  have hadded : StreamsAdded engine label interpolationWeight model nOfStreams
      (model.computeParameters engine label interpolationWeight) := computeParameters_added model
  have hwritten : GvWritten engine label (model.computeParameters engine label interpolationWeight)
      nOfStreams ((List.range nOfStreams).foldl
        (fun model k => Model.computeGlobalVariance engine label k model)
        (model.computeParameters engine label interpolationWeight)) := by
    -- the GV of a stream reads what the last state left of its means
    refine foldl_range_induction (fun n r => GvWritten engine label _ n r) ?_ ?_
    · refine ⟨fun i => ?_, rfl, fun _ _ => ⟨rfl, rfl⟩⟩
      rw [State.overwriteGvs]
      simp only [Nat.not_lt_zero, if_false, ite_self]
    · exact fun k hk r hr => hr.computeGlobalVariance (hadded.mean k hk) (hadded.vari k hk)
  refine ⟨fun i hi => ?_, hwritten.duration.trans hadded.duration⟩
  rw [computeGlobalVariances]
  show (if i < nOfStates then _ else _) = _
  rw [if_pos hi, hwritten.state, if_pos hi, hadded.state, if_pos hi]
  rfl

end Model

-- ---------------------------------------------------------------------------
-- Durations
-- ---------------------------------------------------------------------------

/-- The rounded durations, and the sum that the loop keeps. -/
theorem roundDurations_spec (value : Nat → ℚ) (size : Nat) (duration : Int → Int) :
    (∀ i < size, (roundDurations value size duration).1 i = max 1 (truncate (value i + 1 / 2))) ∧
      (roundDurations value size duration).2
        = (List.range size).foldl (fun sum i => sum + max 1 (truncate (value i + 1 / 2))) 0 := by
  induction size with
  | zero => exact ⟨fun i hi => absurd hi (Nat.not_lt_zero i), rfl⟩
  | succ n ih =>
    rw [roundDurations] at ih ⊢
    rw [List.range_succ, List.foldl_append, List.foldl_append]
    refine ⟨fun i hi => ?_, ?_⟩
    · show Function.update _ (n : Int) _ (i : Int) = _
      by_cases hlast : i = n
      · rw [hlast, Function.update_self]
      · rw [Function.update_of_ne (by omega)]
        exact ih.1 i (by omega)
    · show _ + _ = _
      rw [ih.2]
      rfl

/-- The search looks at the states below `size` only. -/
theorem flexibleState_congr {size : Nat} {allowed allowed' : Nat → Bool} {temp2 temp2' : Nat → ℚ}
    (hallowed : ∀ i < size, allowed i = allowed' i) (htemp2 : ∀ i < size, temp2 i = temp2' i) :
    flexibleState size allowed temp2 = flexibleState size allowed' temp2' := by
  rw [flexibleState, flexibleState]
  congr 1
  refine List.foldl_ext _ _ _ fun s i hi => ?_
  obtain ⟨hpos, hlt⟩ := List.mem_range'_1.mp hi
  have hsize : i < size := by omega
  rw [hallowed i hsize, htemp2 i hsize]

/-- The durations of the states and their sum. -/
def DurationsAgree (size : Nat) (s s' : (Int → Int) × Int) : Prop :=
  (∀ i : Nat, i < size → s.1 i = s'.1 i) ∧ s.2 = s'.2

section Durations

variable {size : Nat} {mean mean' vari vari' : Nat → ℚ}

/-- A turn looks at the states below `size` only. -/
theorem DurationsAgree.adaptDuration (hmean : ∀ i < size, mean i = mean' i)
    (hvari : ∀ i < size, vari i = vari' i) (rho : ℚ) (target_length : Int)
    {s s' : (Int → Int) × Int} (h : DurationsAgree size s s') :
    DurationsAgree size (adaptDuration mean vari size rho target_length s)
      (adaptDuration mean' vari' size rho target_length s') := by
  -- the same cell changes by the same amount
  have hupdate : ∀ (j d : Int), ∀ i : Nat, i < size →
      Function.update s.1 j (s.1 j + d) i = Function.update s'.1 j (s'.1 j + d) i := by
    intro j d i hi
    by_cases hj : (i : Int) = j
    · rw [← hj, Function.update_self, Function.update_self, h.1 i hi]
    · rw [Function.update_of_ne hj, Function.update_of_ne hj, h.1 i hi]
  rw [Mage.adaptDuration, Mage.adaptDuration, h.2]
  split
  · refine ⟨fun i hi => ?_, rfl⟩
    have hj : flexibleState size (fun _ => true)
        (fun i => |rho - (s.1 i + 1 - mean i) / vari i|)
        = flexibleState size (fun _ => true)
          fun i => |rho - (s'.1 i + 1 - mean' i) / vari' i| := by
      refine flexibleState_congr (fun _ _ => rfl) fun i hi => ?_
      rw [h.1 i hi, hmean i hi, hvari i hi]
    simp only [hj]
    exact hupdate _ 1 i hi
  · refine ⟨fun i hi => ?_, rfl⟩
    have hj : flexibleState size (fun i => s.1 i > 1)
        (fun i => |rho - (s.1 i - 1 - mean i) / vari i|)
        = flexibleState size (fun i => s'.1 i > 1)
          fun i => |rho - (s'.1 i - 1 - mean' i) / vari' i| := by
      refine flexibleState_congr (fun i hi => ?_) fun i hi => ?_
      · rw [h.1 i hi]
      · rw [h.1 i hi, hmean i hi, hvari i hi]
    simp only [hj]
    exact hupdate _ (-1) i hi

/-- Rounding writes over whatever was there. -/
theorem roundDurations_agree {value value' : Nat → ℚ} (hvalue : ∀ i < size, value i = value' i)
    (duration duration' : Int → Int) :
    DurationsAgree size (roundDurations value size duration)
      (roundDurations value' size duration') := by
  refine ⟨fun i hi => ?_, ?_⟩
  · rw [(roundDurations_spec value size duration).1 i hi,
      (roundDurations_spec value' size duration').1 i hi, hvalue i hi]
  · rw [(roundDurations_spec value size duration).2, (roundDurations_spec value' size duration').2]
    exact foldl_range_congr (fun i hi sum => by rw [hvalue i hi]) 0

/-- One frame for every state. -/
theorem foldl_update_one (duration : Int → Int) {n i : Nat} (hi : i < n) :
    (List.range n).foldl (fun d (i : Nat) => Function.update d (i : Int) 1) duration i = 1 := by
  induction n with
  | zero => exact absurd hi (Nat.not_lt_zero i)
  | succ n ih =>
    rw [List.range_succ, List.foldl_append]
    show Function.update _ (n : Int) 1 (i : Int) = 1
    by_cases hlast : i = n
    · rw [hlast, Function.update_self]
    · rw [Function.update_of_ne (by omega)]
      exact ih (by omega)

/-- The turns of the loop that moves the sum to the target. -/
theorem iterate_adaptDuration_agree (hmean : ∀ i < size, mean i = mean' i)
    (hvari : ∀ i < size, vari i = vari' i) (rho : ℚ) (target_length : Int)
    {s s' : (Int → Int) × Int} (h : DurationsAgree size s s') (n : Nat) :
    DurationsAgree size ((adaptDuration mean vari size rho target_length)^[n] s)
      ((adaptDuration mean' vari' size rho target_length)^[n] s') := by
  induction n with
  | zero => exact h
  | succ n ih =>
    rw [Function.iterate_succ_apply', Function.iterate_succ_apply']
    exact ih.adaptDuration hmean hvari rho target_length

/-- **State durations of a length** depend on the distributions of the states only. -/
theorem mHTS_set_duration_agree (hmean : ∀ i < size, mean i = mean' i)
    (hvari : ∀ i < size, vari i = vari' i) (duration duration' : Int → Int) (frame_length : ℚ) :
    DurationsAgree size (mHTS_set_duration duration mean vari size frame_length)
      (mHTS_set_duration duration' mean' vari' size frame_length) := by
  -- rho is the same for both
  have hmeans : (List.range size).foldl (fun t i => t + mean i) 0
      = (List.range size).foldl (fun t i => t + mean' i) 0 :=
    foldl_range_congr (fun i hi t => by rw [hmean i hi]) 0
  have hvaris : (List.range size).foldl (fun t i => t + vari i) 0
      = (List.range size).foldl (fun t i => t + vari' i) 0 :=
    foldl_range_congr (fun i hi t => by rw [hvari i hi]) 0
  rw [mHTS_set_duration, mHTS_set_duration]
  split
  · exact roundDurations_agree hmean duration duration'
  · simp only
    split
    · -- too short a length: one frame for each state
      exact ⟨fun i hi => (foldl_update_one duration hi).trans (foldl_update_one duration' hi).symm,
        rfl⟩
    · rw [hmeans, hvaris]
      generalize hrho : ((truncate (frame_length + 1 / 2) : ℚ)
        - (List.range size).foldl (fun t i => t + mean' i) 0)
          / (List.range size).foldl (fun t i => t + vari' i) 0 = rho
      have hfirst : DurationsAgree size
          (roundDurations (fun i => mean i + rho * vari i) size duration)
          (roundDurations (fun i => mean' i + rho * vari' i) size duration') :=
        roundDurations_agree (fun i hi => by rw [hmean i hi, hvari i hi]) duration duration'
      -- so is the number of turns
      rw [hfirst.2]
      exact ⟨(iterate_adaptDuration_agree hmean hvari rho _ hfirst _).1, rfl⟩

end Durations

/-- A forced end time that is rejected: only a warning is printed. -/
def Label.Rejected (label : Label) : Prop := label.isDurationForcedFlag = true ∧ label.end_ ≤ 0

instance (label : Label) : Decidable label.Rejected :=
  inferInstanceAs (Decidable (label.isDurationForcedFlag = true ∧ label.end_ ≤ 0))

/-- The state durations that a voice gives a label. -/
def Engine.stateDuration (engine : Engine) (label : Label) (i : Nat) : Int :=
  ((default : Model).setDurations engine label).modelMemory.duration_array i

namespace Model

/-- The distributions of durations do not depend on the slot. -/
theorem get_duration_agree (engine : Engine) (label : Label) (mean mean' vari vari' : Nat → ℚ)
    {j : Nat} (hj : j < nOfStates) :
    (HTS_ModelSet_get_duration engine.ms label.query mean vari engine.global.duration_iw).1 j
        = (HTS_ModelSet_get_duration engine.ms label.query mean' vari'
            engine.global.duration_iw).1 j ∧
      (HTS_ModelSet_get_duration engine.ms label.query mean vari engine.global.duration_iw).2 j
        = (HTS_ModelSet_get_duration engine.ms label.query mean' vari'
            engine.global.duration_iw).2 j := by
  have hstate : j < engine.ms.nstate := by
    rw [engine.nstate_eq]
    exact hj
  simp only [HTS_ModelSet_get_duration, if_pos hstate, and_self]

/-- **The state durations of a voice** do not depend on the slot, unless the label is
rejected. -/
theorem duration_array_setDurations (h : ¬ label.Rejected) (model : Model) {i : Nat}
    (hi : i < nOfStates) :
    (model.setDurations engine label).modelMemory.duration_array i
      = engine.stateDuration label i := by
  have hpdf := fun j hj => get_duration_agree engine label model.modelMemory.duration_mean
    (default : Model).modelMemory.duration_mean model.modelMemory.duration_vari
    (default : Model).modelMemory.duration_vari (j := j) hj
  -- so for every length the durations are the same
  have hset := fun frame_length => mHTS_set_duration_agree (fun j hj => (hpdf j hj).1)
    (fun j hj => (hpdf j hj).2) model.modelMemory.duration_array
    (default : Model).modelMemory.duration_array frame_length
  -- the sum that the speed divides
  have hsum : (List.range nOfStates).foldl (fun temp i => temp
      + (HTS_ModelSet_get_duration engine.ms label.query model.modelMemory.duration_mean
          model.modelMemory.duration_vari engine.global.duration_iw).1 i) 0
      = (List.range nOfStates).foldl (fun temp i => temp
        + (HTS_ModelSet_get_duration engine.ms label.query
            (default : Model).modelMemory.duration_mean
            (default : Model).modelMemory.duration_vari engine.global.duration_iw).1 i) 0 :=
    foldl_range_congr (fun j hj temp => by rw [(hpdf j hj).1]) 0
  rw [Engine.stateDuration, setDurations, setDurations]
  simp only
  rw [hsum]
  by_cases hforced : label.isDurationForcedFlag = true
  · -- a forced duration that is not rejected has an end
    have hend : label.end_ > 0 := by
      by_contra hle
      exact h ⟨hforced, by omega⟩
    rw [if_pos hforced, if_pos hforced, if_pos hend, if_pos hend]
    exact (hset _).1 i hi
  · rw [if_neg hforced, if_neg hforced]
    by_cases hspeed : label.speed ≠ 1
    · rw [if_pos hspeed, if_pos hspeed]
      exact (hset _).1 i hi
    · rw [if_neg hspeed, if_neg hspeed]
      exact (hset 0).1 i hi

/-- A rejected label keeps what the slot held. -/
theorem duration_array_rejected (h : label.Rejected) (model : Model) :
    (model.setDurations engine label).modelMemory.duration_array
      = model.modelMemory.duration_array := by
  rw [setDurations]
  simp only
  rw [if_pos h.1, if_neg (by have hend := h.2; omega)]

/-- The state duration that a voice adds to, where the slot held `stale`. -/
def addedDuration (label : Label) (stale : Int → Int) (e : Engine × Option (Nat → ℚ)) (i : Nat) :
    Int :=
  Round (weightOf e.2 durStreamIndex *
    (if label.Rejected then stale i else e.1.stateDuration label i : Int))

/-- **The durations by all voices.** -/
theorem state_foldl_computeDuration (used : List (Engine × Option (Nat → ℚ))) (model : Model)
    {i : Nat} (hi : i < nOfStates) :
    (used.foldl (fun model e => model.computeDuration e.1 label e.2) model).state i
      = { model.state i with
          duration := used.foldl
            (fun d e => toInt (d + addedDuration label model.modelMemory.duration_array e i))
            (model.state i).duration } := by
  induction used generalizing model with
  | nil => rfl
  | cons e used ih =>
    rw [List.foldl_cons, List.foldl_cons, ih]
    have hstate : (model.computeDuration e.1 label e.2).state i
        = { model.state i with
            duration := toInt ((model.state i).duration
              + addedDuration label model.modelMemory.duration_array e i) } := by
      rw [computeDuration]
      show (if i < nOfStates then _ else _) = _
      rw [if_pos hi, addedDuration]
      by_cases hrejected : label.Rejected
      · rw [if_pos hrejected, duration_array_rejected hrejected]
        rfl
      · rw [if_neg hrejected, duration_array_setDurations hrejected model hi]
        rfl
    rw [hstate]
    -- the stale durations are those that the slot held
    have hadded : ∀ e', addedDuration label
        (model.computeDuration e.1 label e.2).modelMemory.duration_array e' i
          = addedDuration label model.modelMemory.duration_array e' i := by
      intro e'
      rw [addedDuration, addedDuration]
      by_cases hrejected : label.Rejected
      · rw [if_pos hrejected, if_pos hrejected]
        congr 3
        exact congrFun (duration_array_rejected hrejected model) i
      · rw [if_neg hrejected, if_neg hrejected]
    simp only [hadded]

/-- **The parameters and global variances by all voices.** -/
theorem state_foldl_voices (label : Label) (used : List (Engine × Option (Nat → ℚ)))
    (model : Model) :
    (∀ i < nOfStates, (used.foldl (fun model e =>
        (model.computeParameters e.1 label e.2).computeGlobalVariances e.1 label) model).state i
      = used.foldl (fun state e => state.addVoice e.1 label e.2 i) (model.state i)) ∧
    (used.foldl (fun model e =>
      (model.computeParameters e.1 label e.2).computeGlobalVariances e.1 label) model).duration
        = model.duration := by
  induction used generalizing model with
  | nil => exact ⟨fun _ _ => rfl, rfl⟩
  | cons e used ih =>
    obtain ⟨hstate, hduration⟩ := state_computeGlobalVariances e.1 label e.2 model
    obtain ⟨hstates, hdurations⟩ := ih
      ((model.computeParameters e.1 label e.2).computeGlobalVariances e.1 label)
    refine ⟨fun i hi => ?_, hdurations.trans hduration⟩
    rw [List.foldl_cons, List.foldl_cons, hstates i hi, hstate i hi]

end Model

/-- The cells of a state after all voices. -/
theorem State.foldl_addVoice (label : Label) (used : List (Engine × Option (Nat → ℚ))) (i : Nat)
    (state : State) :
    (used.foldl (fun state e => state.addVoice e.1 label e.2 i) state).duration = state.duration ∧
      ∀ k < nOfStreams, ∀ j,
        (used.foldl (fun state e => state.addVoice e.1 label e.2 i) state).streams k j
            = used.foldl (fun cell e => e.1.addTo label e.2 i k j cell) (state.streams k j) ∧
          (used.foldl (fun state e => state.addVoice e.1 label e.2 i) state).gv_streams k j
            = used.foldl (fun cell e => e.1.overwriteGv label k j cell) (state.gv_streams k j) := by
  induction used generalizing state with
  | nil => exact ⟨rfl, fun _ _ _ => ⟨rfl, rfl⟩⟩
  | cons e used ih =>
    obtain ⟨hduration, hcells⟩ := ih (state.addVoice e.1 label e.2 i)
    refine ⟨hduration, fun k hk j => ?_⟩
    obtain ⟨hstreams, hgv⟩ := hcells k hk j
    have hcell : (state.addVoice e.1 label e.2 i).streams k j
        = e.1.addTo label e.2 i k j (state.streams k j) := if_pos hk
    have hgvCell : (state.addVoice e.1 label e.2 i).gv_streams k j
        = e.1.overwriteGv label k j (state.gv_streams k j) := if_pos hk
    rw [List.foldl_cons, List.foldl_cons, List.foldl_cons, hstreams, hgv, hcell, hgvCell]
    exact ⟨rfl, rfl⟩

end Vox.Mage
