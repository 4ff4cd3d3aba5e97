import Vox.Mage.ModelQueue

/-!
# MAGE — the frames of a window

The three nested loops of parameter generation visit the frames of the window one
after the other (`frames`), so what they compute is said by an invariant on the
frames visited so far.

* `Marked` — the first pass records the voicing of every frame.
* `Stored` — the second pass stores one row for each frame that the stream has a row
  for: for all frames, or for the voiced ones of an MSD stream.

Row `t` of a stream belongs to its frame number `t`; the row of a frame is the number
of the stream's frames before it (`rowOf`).

Two things are taken for granted of what the loops are given. The models are settled
(`Model.Settled`), as an update leaves them; and where a result says so, lf0 is the only
MSD stream, as it is in every voice that `Engine::load` loads.
-/

namespace Vox.Mage

/-- What `updateDuration` leaves: state durations that are not negative and sum to the
model's duration. -/
structure Model.Settled (model : Model) : Prop where
  nonneg : ∀ state < nOfStates, 0 ≤ (model.state state).duration
  int : ∀ state < nOfStates, (model.state state).duration < 2 ^ 31
  duration_eq : model.duration = ((List.range nOfStates).map fun s => (model.state s).duration).sum

/-- Two frames in every state, voiced at the threshold `0`. -/
def steady : Model where
  state _ := ⟨2, fun _ => false, fun _ _ => ⟨1, 1, 1⟩, fun _ _ => ⟨1, 1, 1⟩⟩
  duration := 10
  weightsChecked := true
  modelMemory := default

/-- Each state of `steady` has its frames. -/
theorem settled_steady : steady.Settled := ⟨by decide, by decide, by decide⟩

/-- From one frame in the first state to five in the last one, and an unvoiced state in the
middle. -/
def uneven : Model where
  state s := ⟨s + 1, fun _ => false, fun i m => ⟨s + i + m, 1, if s = 2 then 0 else 1⟩,
    fun _ _ => ⟨1, 1, 1⟩⟩
  duration := 15
  weightsChecked := true
  modelMemory := default

theorem settled_uneven : uneven.Settled := ⟨by decide, by decide, by decide⟩

theorem msd_plainVoice :
    ∀ i < nOfStreams, (plainVoice.stream i).msd_flag = true → i = lf0StreamIndex := by
  intro i _ h
  exact beq_iff_eq.mp h

theorem msd_deltaVoice :
    ∀ i < nOfStreams, (deltaVoice.stream i).msd_flag = true → i = lf0StreamIndex := msd_plainVoice

namespace ModelQueue

open Lib

variable {σ : Type*}

-- ---------------------------------------------------------------------------
-- Loops over frames
-- ---------------------------------------------------------------------------

/-- The frames of a model, state by state. -/
def framesOf (w : Nat) (model : Model) : List WindowFrame :=
  (List.range nOfStates).flatMap fun state =>
    (List.range (model.state state).duration.toNat).map fun j =>
      ⟨⟨w, state, j⟩, model, model.state state⟩

/-- The frames of the first `window` models. -/
def frames (queue : MemQueue Model) (window : Nat) : List WindowFrame :=
  (List.range window).flatMap fun w => framesOf w (modelAt queue w)

/-- The frames of one more model come last. -/
theorem frames_succ (queue : MemQueue Model) (n : Nat) :
    frames queue (n + 1) = frames queue n ++ framesOf n (modelAt queue n) := by
  simp [frames, List.range_succ]

/-- The frames of the first models are in front. -/
theorem frames_add (queue : MemQueue Model) (m n : Nat) :
    ∃ rest, frames queue (m + n) = frames queue m ++ rest := by
  induction n with
  | zero => exact ⟨[], (List.append_nil _).symm⟩
  | succ n ih =>
    obtain ⟨rest, hrest⟩ := ih
    refine ⟨rest ++ framesOf (m + n) (modelAt queue (m + n)), ?_⟩
    rw [← Nat.add_assoc, frames_succ, hrest, List.append_assoc]

/-- The loops over states and frames go through the frames of the model. -/
theorem forFrames_eq (w : Nat) (model : Model) (body : WindowFrame → σ → σ) (s : σ) :
    forFrames w model body s = (framesOf w model).foldl (fun s f => body f s) s := by
  simp only [forFrames, framesOf, List.foldl_flatMap, List.foldl_map]

/-- Walking the queue with `next` reads the models in their order. -/
theorem forModels_eq {queue : MemQueue Model} (hread : queue.read < queue.length) (window : Nat)
    (body : Nat → Model → σ → σ) (s : σ) :
    forModels queue window body s
      = (List.range window).foldl (fun s w => body w (modelAt queue w) s) s := by
  rw [forModels, foldl_range_iterate (fun p => (p + 1) % queue.length)
    (fun p w s => body w (queue.rawData.getD p default) s)]
  simp only [iterate_succ_mod hread]
  rfl

/-- All three loops go through the frames of the window. -/
theorem forModels_forFrames_eq {queue : MemQueue Model} (hread : queue.read < queue.length)
    (window : Nat) (body : WindowFrame → σ → σ) (s : σ) :
    forModels queue window (fun w model => forFrames w model body) s
      = (frames queue window).foldl (fun s f => body f s) s := by
  rw [forModels_eq hread]
  simp only [forFrames_eq, frames, List.foldl_flatMap]

/-- A settled model has as many frames as its duration says. -/
theorem length_framesOf {model : Model} (h : model.Settled) (w : Nat) :
    ((framesOf w model).length : Int) = model.duration := by
  rw [h.duration_eq, framesOf, List.length_flatMap]
  -- state by state; no duration is negative
  have hcast : ∀ n ≤ nOfStates,
      ((((List.range n).map fun s => ((List.range (model.state s).duration.toNat).map fun j =>
        (⟨⟨w, s, j⟩, model, model.state s⟩ : WindowFrame)).length).sum : Nat) : Int)
        = ((List.range n).map fun s => (model.state s).duration).sum := by
    intro n hn
    induction n with
    | zero => rfl
    | succ n ih =>
      have hnonneg := h.nonneg n (by omega)
      simp only [List.range_succ, List.map_append, List.sum_append, List.map_cons, List.map_nil,
        List.sum_cons, List.sum_nil, List.length_map, List.length_range, Nat.cast_add,
        Nat.cast_zero, Int.add_zero] at ih ⊢
      rw [ih (by omega)]
      omega
  exact hcast nOfStates (Nat.le_refl _)

/-- As many frames as the durations of the models say. -/
theorem length_frames {queue : MemQueue Model} {window : Nat}
    (h : ∀ w < window, (modelAt queue w).Settled) :
    ((frames queue window).length : Int)
      = ((List.range window).map fun w => (modelAt queue w).duration).sum := by
  induction window with
  | zero => rfl
  | succ n ih =>
    have hlast := length_framesOf (h n (Nat.lt_succ_self n)) n
    rw [frames_succ, List.length_append, List.range_succ, List.map_append, List.sum_append,
      Nat.cast_add, ih fun w hw => h w (Nat.lt_succ_of_lt hw), hlast]
    simp

-- ---------------------------------------------------------------------------
-- The first pass
-- ---------------------------------------------------------------------------

/-- The voicing of the frames visited is recorded. -/
structure Marked (msd_threshold : Nat → ℚ) (memory : Memory) (pre : List WindowFrame)
    (s : Voicing) : Prop where
  frame_eq : s.frame = pre.length
  voiced_eq : ∀ t f, pre[t]? = some f →
    s.memory.voiced_unvoiced t = voiced msd_threshold f.state
  accesses : ∀ a ∈ s.memory.accesses, a ∈ memory.accesses ∨
    ∃ t < pre.length, a = .voiced_unvoiced t

variable {msd_threshold : Nat → ℚ} {memory : Memory}

theorem Marked.markFrame {pre : List WindowFrame} {s : Voicing}
    (h : Marked msd_threshold memory pre s) (f : WindowFrame) :
    Marked msd_threshold memory (pre ++ [f]) (markFrame msd_threshold f s) := by
  have hlength : (pre ++ [f]).length = pre.length + 1 := by simp
  refine ⟨?_, ?_, ?_⟩
  · show s.frame + 1 = (pre ++ [f]).length
    rw [hlength, h.frame_eq]
  · intro t g hg
    show Function.update s.memory.voiced_unvoiced s.frame (voiced msd_threshold f.state) t = _
    rw [h.frame_eq]
    -- an earlier frame keeps its mark, the new one gets its own
    rcases getElem?_concat_cases hg with ⟨hpre, hlt⟩ | ⟨rfl, rfl⟩
    · rw [Function.update_of_ne (by omega)]
      exact h.voiced_eq t g hpre
    · rw [Function.update_self]
  · intro a ha
    rcases List.mem_append.mp ha with ha | ha
    · rcases h.accesses a ha with hold | ⟨t, ht, rfl⟩
      · exact .inl hold
      · exact .inr ⟨t, by omega, rfl⟩
    · obtain rfl := List.mem_singleton.mp ha
      exact .inr ⟨s.frame, by rw [h.frame_eq]; omega, rfl⟩

theorem Marked.forFrames {pre : List WindowFrame} {s : Voicing}
    (h : Marked msd_threshold memory pre s) (w : Nat) (model : Model) :
    Marked msd_threshold memory (pre ++ framesOf w model)
      (forFrames w model (ModelQueue.markFrame msd_threshold) s) := by
  rw [forFrames_eq]
  refine foldl_prefix_induction (fun part s => Marked msd_threshold memory (pre ++ part) s) ?_ ?_
  · rw [List.append_nil]
    exact h
  · intro part f _ _ s hs
    rw [← List.append_assoc]
    exact hs.markFrame f

/-- **The first pass** records the voicing of all frames of the window, and their
number. -/
theorem markVoicing_marked {queue : MemQueue Model} (hread : queue.read < queue.length)
    {window : Nat} (hsettled : ∀ w < window, (modelAt queue w).Settled)
    (msd_threshold : Nat → ℚ) (memory : Memory) :
    Marked msd_threshold memory (frames queue window)
        (markVoicing queue window msd_threshold memory) ∧
      (markVoicing queue window msd_threshold memory).total_duration
        = (frames queue window).length := by
  rw [length_frames hsettled, markVoicing, forModels_eq hread]
  -- model by model: its frames are marked and its duration is added
  refine foldl_range_induction (fun n s => Marked msd_threshold memory (frames queue n) s ∧
    s.total_duration = ((List.range n).map fun w => (modelAt queue w).duration).sum) ?_ ?_
  · exact ⟨⟨rfl, by simp [frames], fun a ha => .inl ha⟩, rfl⟩
  · rintro n _ s ⟨hmarked, htotal⟩
    have hnext := hmarked.forFrames n (modelAt queue n)
    rw [← frames_succ] at hnext
    refine ⟨⟨hnext.frame_eq, hnext.voiced_eq, hnext.accesses⟩, ?_⟩
    have hkeep : (ModelQueue.forFrames n (modelAt queue n)
        (ModelQueue.markFrame msd_threshold) s).total_duration = s.total_duration := by
      rw [forFrames_eq]
      refine foldl_prefix_induction
        (fun _ (r : Voicing) => r.total_duration = s.total_duration) rfl ?_
      intro _ _ _ _ r hr
      exact hr
    show (ModelQueue.forFrames n (modelAt queue n)
        (ModelQueue.markFrame msd_threshold) s).total_duration + (modelAt queue n).duration = _
    rw [hkeep, htotal, List.range_succ, List.map_append, List.sum_append]
    simp

-- ---------------------------------------------------------------------------
-- Rows
-- ---------------------------------------------------------------------------

/-- A cell is written when its place is within whole parts of the vector. -/
theorem storeCells_apply {α : Type*} (stream : Stream) (value : Nat → Nat → α) (cells : Nat → α)
    (m : Nat) :
    storeCells stream value cells m
      = if m < stream.vector_length / stream.window.size * stream.window.size then
          value (m / (stream.vector_length / stream.window.size)) m
        else cells m :=
  foldl_update_grid value _ _ cells m

/-- The row of a frame is the number of frames before it that have one. -/
def rowOf (has : WindowFrame → Bool) (fs : List WindowFrame) (t : Nat) : Nat :=
  (fs.take t).countP has

variable {has : WindowFrame → Bool} {pre : List WindowFrame} {f : WindowFrame}

theorem rowOf_append {t : Nat} (ht : t ≤ pre.length) (post : List WindowFrame) :
    rowOf has (pre ++ post) t = rowOf has pre t := by
  rw [rowOf, rowOf, List.take_append_of_le_length ht]

/-- The next row is the number of rows so far. -/
theorem rowOf_length (post : List WindowFrame) :
    rowOf has (pre ++ post) pre.length = pre.countP has := by
  rw [rowOf, List.take_left]

/-- A frame that has a row has one of the rows counted. -/
theorem rowOf_lt {t : Nat} (hf : pre[t]? = some f) (hhas : has f = true) :
    rowOf has pre t < pre.countP has := by
  obtain ⟨ht, rfl⟩ := List.getElem?_eq_some_iff.mp hf
  have hsplit : pre.countP has = (pre.take t).countP has + (pre.drop t).countP has := by
    rw [← List.countP_append, List.take_append_drop]
  have hcons : (pre.drop t).countP has = (pre.drop (t + 1)).countP has + 1 := by
    rw [List.drop_eq_getElem_cons ht, List.countP_cons_of_pos hhas]
  rw [rowOf]
  omega

/-- Every row counted is the row of a frame. -/
theorem exists_rowOf {fs : List WindowFrame} {r : Nat} (hr : r < fs.countP has) :
    ∃ t f, fs[t]? = some f ∧ has f = true ∧ rowOf has fs t = r := by
  induction fs using List.reverseRecOn with
  | nil => cases hr
  | append_singleton fs f ih =>
    rw [List.countP_append, List.countP_singleton] at hr
    by_cases hlt : r < fs.countP has
    · obtain ⟨t, g, hg, hhas, hrow⟩ := ih hlt
      have ht := (List.getElem?_eq_some_iff.mp hg).1
      refine ⟨t, g, ?_, hhas, ?_⟩
      · rw [List.getElem?_append_left ht, hg]
      · rw [rowOf_append (Nat.le_of_lt ht), hrow]
    · -- the last row is the last frame's
      have hhas : has f = true := by
        by_contra hno
        rw [if_neg hno] at hr
        omega
      refine ⟨fs.length, f, List.getElem?_concat_length, hhas, ?_⟩
      rw [if_pos hhas] at hr
      rw [rowOf_length]
      omega

/-- A row of a stream: the means and inverse variances of a state, where `not_bound`
says which windows keep their inverse variances. -/
structure RowFor (stream : Stream) (dist : Nat → Distribution) (not_bound : Nat → Bool)
    (mean ivar : Nat → ℚ) : Prop where
  mean_eq : ∀ m < stream.vector_length / stream.window.size * stream.window.size,
    mean m = (dist m).mean
  ivar_eq : ∀ m < stream.vector_length / stream.window.size * stream.window.size,
    ivar m = ivarOf dist not_bound (m / (stream.vector_length / stream.window.size)) m

/-- The frames visited that a stream has rows for have them. -/
def RowsOf (i : Nat) (stream : Stream) (has : WindowFrame → Bool) (not_bound : Nat → Nat → Bool)
    (pre : List WindowFrame) (mean ivar : Nat → Nat → ℚ) : Prop :=
  ∀ t f, pre[t]? = some f → has f = true →
    RowFor stream (f.state.streams i) (not_bound t) (mean (rowOf has pre t))
      (ivar (rowOf has pre t))

namespace RowsOf

variable {i : Nat} {stream : Stream} {not_bound : Nat → Nat → Bool} {mean ivar : Nat → Nat → ℚ}

/-- A frame without a row. -/
theorem skip (h : RowsOf i stream has not_bound pre mean ivar) (hf : has f = false) :
    RowsOf i stream has not_bound (pre ++ [f]) mean ivar := by
  intro t g hg hhas
  rcases getElem?_concat_cases hg with ⟨hpre, hlt⟩ | ⟨rfl, rfl⟩
  · rw [rowOf_append (Nat.le_of_lt hlt)]
    exact h t g hpre hhas
  · rw [hf] at hhas
    cases hhas

/-- A frame with a row: it gets the next one, and the others stay. -/
theorem store (h : RowsOf i stream has not_bound pre mean ivar) :
    RowsOf i stream has not_bound (pre ++ [f])
      (Function.update mean (pre.countP has)
        (storeCells stream (fun _ m => (f.state.streams i m).mean) (mean (pre.countP has))))
      (Function.update ivar (pre.countP has)
        (storeCells stream (ivarOf (f.state.streams i) (not_bound pre.length))
          (ivar (pre.countP has)))) := by
  intro t g hg hhas
  rcases getElem?_concat_cases hg with ⟨hpre, hlt⟩ | ⟨rfl, rfl⟩
  · have hne : rowOf has pre t ≠ pre.countP has := Nat.ne_of_lt (rowOf_lt hpre hhas)
    rw [rowOf_append (Nat.le_of_lt hlt), Function.update_of_ne hne, Function.update_of_ne hne]
    exact h t g hpre hhas
  · rw [rowOf_length, Function.update_self, Function.update_self]
    refine ⟨?_, ?_⟩
    · intro m hm
      rw [storeCells_apply, if_pos hm]
    · intro m hm
      rw [storeCells_apply, if_pos hm]

end RowsOf

/-- An access of the second pass over the frames of a stream. -/
def AccessOf (i : Nat) (stream : Stream) (has : WindowFrame → Bool) (total : Int)
    (pre : List WindowFrame) : Access → Prop
  | .voiced_unvoiced t => t < pre.length
  | .look_around x => 0 ≤ x ∧ x < total
  | .row j r place => j = i ∧ ∃ t f, pre[t]? = some f ∧ has f = true ∧ r = rowOf has pre t ∧
    place = f.place
  | .gv_switch _ n => n < pre.length ∨ n < stream.vector_length

/-- The frames visited that have a row in stream `i` have it stored: as many rows as
there are such frames, each with its own number. -/
structure Stored (i : Nat) (stream : Stream) (has : WindowFrame → Bool) (total : Int)
    (not_bound : Nat → Nat → Bool) (memory : Memory) (pre : List WindowFrame) (row : Nat)
    (memory' : Memory) : Prop where
  row_eq : row = pre.countP has
  voiced_eq : memory'.voiced_unvoiced = memory.voiced_unvoiced
  rows : RowsOf i stream has not_bound pre (memory'.mean i) (memory'.ivar i)
  logged : ∀ t f, pre[t]? = some f → has f = true →
    .row i (rowOf has pre t) f.place ∈ memory'.accesses
  kept : ∀ a ∈ memory.accesses, a ∈ memory'.accesses
  accesses : ∀ a ∈ memory'.accesses, a ∈ memory.accesses ∨ AccessOf i stream has total pre a

/-- An access is still one when a frame is added. -/
theorem AccessOf.concat {i : Nat} {stream : Stream} {total : Int} {a : Access}
    (h : AccessOf i stream has total pre a) (f : WindowFrame) :
    AccessOf i stream has total (pre ++ [f]) a := by
  have hlength : (pre ++ [f]).length = pre.length + 1 := by simp
  cases a with
  | voiced_unvoiced t =>
    have ht : t < pre.length := h
    show t < (pre ++ [f]).length
    omega
  | look_around x => exact h
  | row j r place =>
    -- the row is still that of its frame
    obtain ⟨hj, t, g, hg, hhas, hr, hplace⟩ := h
    have ht : t < pre.length := (List.getElem?_eq_some_iff.mp hg).1
    refine ⟨hj, t, g, ?_, hhas, ?_, hplace⟩
    · rw [List.getElem?_append_left ht, hg]
    · rw [rowOf_append (Nat.le_of_lt ht), hr]
  | gv_switch j n =>
    have hn : n < pre.length ∨ n < stream.vector_length := h
    show n < (pre ++ [f]).length ∨ n < stream.vector_length
    omega

namespace Stored

variable {i row : Nat} {stream : Stream} {total : Int} {not_bound : Nat → Nat → Bool}
  {memory' memory'' : Memory} {more : List Access}

/-- The log after the next frame: what was logged, and accesses of that frame. -/
theorem log_concat (h : Stored i stream has total not_bound memory pre row memory')
    (haccesses : memory''.accesses = memory'.accesses ++ more)
    (hmore : ∀ a ∈ more, AccessOf i stream has total (pre ++ [f]) a) :
    (∀ t g, pre[t]? = some g → has g = true →
        .row i (rowOf has (pre ++ [f]) t) g.place ∈ memory''.accesses) ∧
      (∀ a ∈ memory.accesses, a ∈ memory''.accesses) ∧
      ∀ a ∈ memory''.accesses,
        a ∈ memory.accesses ∨ AccessOf i stream has total (pre ++ [f]) a := by
  rw [haccesses]
  refine ⟨fun t g hg hhas => ?_, fun a ha => List.mem_append_left _ (h.kept a ha), fun a ha => ?_⟩
  · have hlt : t < pre.length := (List.getElem?_eq_some_iff.mp hg).1
    rw [rowOf_append (Nat.le_of_lt hlt)]
    exact List.mem_append_left _ (h.logged t g hg hhas)
  · rcases List.mem_append.mp ha with ha | ha
    · exact (h.accesses a ha).imp id fun hof => hof.concat f
    · exact .inr (hmore a ha)

/-- A frame without a row. -/
theorem skip (h : Stored i stream has total not_bound memory pre row memory')
    (hf : has f = false) (hvoiced : memory''.voiced_unvoiced = memory'.voiced_unvoiced)
    (hmean : memory''.mean = memory'.mean) (hivar : memory''.ivar = memory'.ivar)
    (haccesses : memory''.accesses = memory'.accesses ++ more)
    (hmore : ∀ a ∈ more, AccessOf i stream has total (pre ++ [f]) a) :
    Stored i stream has total not_bound memory (pre ++ [f]) row memory'' := by
  obtain ⟨hlogged, hkept, hnew⟩ := h.log_concat haccesses hmore
  refine ⟨?_, hvoiced.trans h.voiced_eq, ?_, ?_, hkept, hnew⟩
  · rw [List.countP_append, List.countP_singleton, hf]
    exact h.row_eq
  · rw [hmean, hivar]
    exact h.rows.skip hf
  · intro t g hg hhas
    rcases getElem?_concat_cases hg with ⟨hpre, -⟩ | ⟨rfl, rfl⟩
    · exact hlogged t g hpre hhas
    · rw [hf] at hhas
      cases hhas

/-- A frame with a row, which is the next one. -/
theorem store (h : Stored i stream has total not_bound memory pre row memory')
    (hf : has f = true) (hvoiced : memory''.voiced_unvoiced = memory'.voiced_unvoiced)
    (hmean : memory''.mean i = Function.update (memory'.mean i) row
      (storeCells stream (fun _ m => (f.state.streams i m).mean) (memory'.mean i row)))
    (hivar : memory''.ivar i = Function.update (memory'.ivar i) row
      (storeCells stream (ivarOf (f.state.streams i) (not_bound pre.length))
        (memory'.ivar i row)))
    (haccesses : memory''.accesses = memory'.accesses ++ more)
    (hrow : .row i row f.place ∈ more)
    (hmore : ∀ a ∈ more, AccessOf i stream has total (pre ++ [f]) a) :
    Stored i stream has total not_bound memory (pre ++ [f]) (row + 1) memory'' := by
  obtain ⟨hlogged, hkept, hnew⟩ := h.log_concat haccesses hmore
  refine ⟨?_, hvoiced.trans h.voiced_eq, ?_, ?_, hkept, hnew⟩
  · rw [List.countP_append, List.countP_singleton, hf, h.row_eq]
    rfl
  · rw [hmean, hivar, h.row_eq]
    exact h.rows.store
  · intro t g hg hhas
    rcases getElem?_concat_cases hg with ⟨hpre, -⟩ | ⟨rfl, rfl⟩
    · exact hlogged t g hpre hhas
    · rw [rowOf_length, ← h.row_eq, haccesses]
      exact List.mem_append_right _ hrow

end Stored

-- ---------------------------------------------------------------------------
-- Dynamic windows
-- ---------------------------------------------------------------------------

/-- The look-around is true when every frame in reach is there and voiced. -/
theorem lookAround_iff (vu : Nat → Bool) (total : Int) (t : Nat) (ls : List Int) :
    (lookAround vu total t ls).1 = true ↔
      ∀ l ∈ ls, 0 ≤ t + l ∧ t + l < total ∧ vu (t + l).toNat = true := by
  induction ls with
  | nil => simp [lookAround]
  | cons l ls ih =>
    rw [lookAround, List.forall_mem_cons]
    by_cases hout : (t : Int) + l < 0 ∨ total ≤ t + l
    -- it ends at the first place outside
    · rw [if_pos hout]
      refine ⟨fun h => (by cases h), ?_⟩
      intro h
      omega
    · rw [if_neg hout]
      -- or at the first unvoiced one
      cases hvu : vu ((t : Int) + l).toNat with
      | false => simp
      | true =>
        rw [if_neg (by simp), ih]
        refine ⟨fun h => ⟨⟨by omega, by omega, rfl⟩, h⟩, fun h => h.2⟩

/-- What is looked at is inside the frames of the window. -/
theorem lookAround_accesses {vu : Nat → Bool} {total : Int} {t : Nat} {ls : List Int} {a : Access}
    (ha : a ∈ (lookAround vu total t ls).2) : ∃ x, 0 ≤ x ∧ x < total ∧ a = .look_around x := by
  induction ls with
  | nil => cases ha
  | cons l ls ih =>
    rw [lookAround] at ha
    by_cases hout : (t : Int) + l < 0 ∨ total ≤ t + l
    -- nothing is read outside
    · rw [if_pos hout] at ha
      cases ha
    · rw [if_neg hout] at ha
      cases hvu : vu ((t : Int) + l).toNat with
      | false =>
        rw [hvu, if_pos (by rfl)] at ha
        exact ⟨t + l, by omega, by omega, List.mem_singleton.mp ha⟩
      | true =>
        rw [hvu, if_neg (by simp)] at ha
        rcases List.mem_cons.mp ha with rfl | ha
        · exact ⟨t + l, by omega, by omega, rfl⟩
        · exact ih ha

/-- A frame is not at the bound when its whole reach is inside. -/
theorem notBound_iff (total : Int) (t : Nat) (ls : List Int) :
    notBound total t ls = true ↔ ∀ l ∈ ls, 0 ≤ t + l ∧ t + l < total := by
  induction ls with
  | nil => simp [notBound]
  | cons l ls ih =>
    rw [notBound, List.forall_mem_cons]
    by_cases hout : (t : Int) + l < 0 ∨ total ≤ t + l
    · rw [if_pos hout]
      refine ⟨fun h => (by cases h), ?_⟩
      intro h
      omega
    · rw [if_neg hout, ih]
      refine ⟨fun h => ⟨by omega, h⟩, fun h => h.2⟩

/-- What both loops find for frame `t` and window `k`. -/
def notBoundAt (stream : Stream) (vu : Nat → Bool) (total : Int) (t k : Nat) : Bool :=
  let ls := offsets (stream.window.l_width k) (stream.window.r_width k)
  if stream.msd_flag then (lookAround vu total t ls).1 else notBound total t ls

-- ---------------------------------------------------------------------------
-- The second pass
-- ---------------------------------------------------------------------------

/-- Whether a stream has a row for a frame. -/
def hasRow (stream : Stream) (msd_threshold : Nat → ℚ) (f : WindowFrame) : Bool :=
  !stream.msd_flag || voiced msd_threshold f.state

section Stream

variable {i : Nat} {stream : Stream} {total : Int} {s : Rows}

/-- The row that the next frame gets, if it gets one. -/
def nextRow (stream : Stream) (s : Rows) : Nat := if stream.msd_flag then s.msd_frame else s.frame

/-- One frame of a stream with spaces: unvoiced, it has no row. -/
theorem stored_storeMsdFrame (hmsd : stream.msd_flag = true)
    (h : Stored i stream (hasRow stream msd_threshold) total
      (notBoundAt stream memory.voiced_unvoiced total) memory pre s.msd_frame s.memory)
    (hframe : s.frame = pre.length)
    (hvoiced : memory.voiced_unvoiced pre.length = voiced msd_threshold f.state) :
    Stored i stream (hasRow stream msd_threshold) total
      (notBoundAt stream memory.voiced_unvoiced total) memory (pre ++ [f])
      (storeMsdFrame i stream total f s).msd_frame (storeMsdFrame i stream total f s).memory := by
  have hlength : (pre ++ [f]).length = pre.length + 1 := by simp
  have hhas : hasRow stream msd_threshold f = s.memory.voiced_unvoiced s.frame := by
    rw [hasRow, hmsd, h.voiced_eq, hframe, hvoiced]
    rfl
  have hfirst : AccessOf i stream (hasRow stream msd_threshold) total (pre ++ [f])
      (.voiced_unvoiced s.frame) := by
    show s.frame < (pre ++ [f]).length
    omega
  -- an unvoiced frame has no row; only its voicing is read
  cases hv : s.memory.voiced_unvoiced s.frame with
  | false =>
    rw [hv] at hhas
    simp only [storeMsdFrame, hv]
    refine h.skip hhas rfl rfl rfl rfl ?_
    intro a ha
    obtain rfl := List.mem_singleton.mp ha
    exact hfirst
  | true =>
    rw [hv] at hhas
    -- the look-around is that of the specification, since the voicing is kept
    have hbound : (fun k => (lookAround s.memory.voiced_unvoiced total s.frame
        (offsets (stream.window.l_width k) (stream.window.r_width k))).1)
        = notBoundAt stream memory.voiced_unvoiced total pre.length := by
      funext k
      rw [notBoundAt, hmsd, if_pos rfl, h.voiced_eq, hframe]
    simp only [storeMsdFrame, hv, if_true]
    refine h.store hhas rfl ?_ ?_ (by simp only [List.append_assoc]; rfl) ?_ ?_
    · simp only [Function.update_self]
    · simp only [Function.update_self, hbound]
    · simp
    · -- what is looked at is inside, and the row is the next one
      intro a ha
      simp only [List.mem_append, List.mem_cons, List.mem_flatMap, List.not_mem_nil,
        or_false] at ha
      rcases ha with rfl | ⟨k, -, ha⟩ | rfl | rfl
      · exact hfirst
      · obtain ⟨x, hlo, hhi, rfl⟩ := lookAround_accesses ha
        exact ⟨hlo, hhi⟩
      · refine ⟨rfl, pre.length, f, List.getElem?_concat_length, hhas, ?_, rfl⟩
        rw [rowOf_length, h.row_eq]
      · have hle : pre.countP (hasRow stream msd_threshold) ≤ pre.length := List.countP_le_length
        have hrow := h.row_eq
        refine .inl ?_
        omega

/-- One frame of any other stream, which always has a row. -/
theorem stored_storeFrame (hmsd : stream.msd_flag = false)
    (h : Stored i stream (hasRow stream msd_threshold) total
      (notBoundAt stream memory.voiced_unvoiced total) memory pre s.frame s.memory)
    (hframe : s.frame = pre.length) :
    Stored i stream (hasRow stream msd_threshold) total
      (notBoundAt stream memory.voiced_unvoiced total) memory (pre ++ [f])
      (storeFrame i stream total f s).frame (storeFrame i stream total f s).memory := by
  have hhas : hasRow stream msd_threshold f = true := by
    rw [hasRow, hmsd]
    rfl
  have hbound : (fun k => notBound total s.frame
      (offsets (stream.window.l_width k) (stream.window.r_width k)))
      = notBoundAt stream memory.voiced_unvoiced total pre.length := by
    funext k
    rw [notBoundAt, hmsd, if_neg (by simp), hframe]
  simp only [storeFrame]
  refine h.store hhas rfl ?_ ?_ (by simp only [List.append_assoc]; rfl) ?_ ?_
  · simp only [Function.update_self]
  · simp only [Function.update_self, hbound]
  · simp
  · intro a ha
    simp only [List.mem_append, List.mem_cons, List.mem_flatMap, List.mem_map, List.mem_range,
      List.not_mem_nil, or_false] at ha
    rcases ha with rfl | ⟨k, hk, l, hl, rfl⟩
    · refine ⟨rfl, pre.length, f, List.getElem?_concat_length, hhas, ?_, rfl⟩
      rw [rowOf_length, h.row_eq]
    · -- a coefficient of the stream
      refine .inr ?_
      -- `k` rows of statics are before it
      have hcell : stream.vector_length / stream.window.size * k + l
          < stream.vector_length / stream.window.size * stream.window.size := by
        calc stream.vector_length / stream.window.size * k + l
            < stream.vector_length / stream.window.size * k
              + stream.vector_length / stream.window.size := by omega
          _ = stream.vector_length / stream.window.size * (k + 1) := by ring
          _ ≤ stream.vector_length / stream.window.size * stream.window.size :=
              Nat.mul_le_mul_left _ hk
      exact Nat.lt_of_lt_of_le hcell (Nat.div_mul_le_self _ _)

/-- **The second pass** stores a row for each frame of the window that the stream has
one for. -/
theorem storeStream_stored (i : Nat) (stream : Stream) (total : Int) {queue : MemQueue Model}
    (hread : queue.read < queue.length) {window : Nat}
    (hvoiced : ∀ t f, (frames queue window)[t]? = some f →
      memory.voiced_unvoiced t = voiced msd_threshold f.state) :
    (storeStream queue window i stream total memory).frame = (frames queue window).length ∧
      Stored i stream (hasRow stream msd_threshold) total
        (notBoundAt stream memory.voiced_unvoiced total) memory (frames queue window)
        (nextRow stream (storeStream queue window i stream total memory))
        (storeStream queue window i stream total memory).memory := by
  -- nothing is stored before the first frame
  have hstart : ∀ row, row = 0 → Stored i stream (hasRow stream msd_threshold) total
      (notBoundAt stream memory.voiced_unvoiced total) memory [] row memory := by
    rintro row rfl
    refine ⟨rfl, rfl, ?_, ?_, fun a ha => ha, fun a ha => .inl ha⟩
    · intro t f hf
      cases hf
    · intro t f hf
      cases hf
  rw [storeStream]
  cases hmsd : stream.msd_flag with
  | true =>
    rw [if_pos rfl, forModels_forFrames_eq hread]
    refine foldl_prefix_induction (fun pre (s : Rows) => s.frame = pre.length ∧
      Stored i stream (hasRow stream msd_threshold) total
        (notBoundAt stream memory.voiced_unvoiced total) memory pre (nextRow stream s) s.memory)
      ⟨rfl, hstart _ (by rw [nextRow, hmsd, if_pos rfl])⟩ ?_
    rintro pre f post hframes s ⟨hframe, hstored⟩
    simp only [nextRow, hmsd, if_true] at hstored ⊢
    refine ⟨?_, stored_storeMsdFrame hmsd hstored hframe (hvoiced _ _ (getElem?_visited hframes))⟩
    -- voiced or not, the frame is counted
    have hnext : (storeMsdFrame i stream total f s).frame = s.frame + 1 := by
      simp only [storeMsdFrame]
      split <;> rfl
    rw [hnext, hframe, List.length_append, List.length_singleton]
  | false =>
    rw [if_neg (by simp), forModels_forFrames_eq hread]
    refine foldl_prefix_induction (fun pre (s : Rows) => s.frame = pre.length ∧
      Stored i stream (hasRow stream msd_threshold) total
        (notBoundAt stream memory.voiced_unvoiced total) memory pre (nextRow stream s) s.memory)
      ⟨rfl, hstart _ (by rw [nextRow, hmsd, if_neg (by simp)])⟩ ?_
    rintro pre f post hframes s ⟨hframe, hstored⟩
    simp only [nextRow, hmsd] at hstored ⊢
    refine ⟨?_, stored_storeFrame hmsd hstored hframe⟩
    show s.frame + 1 = (pre ++ [f]).length
    rw [hframe, List.length_append, List.length_singleton]

end Stream

-- ---------------------------------------------------------------------------
-- All streams
-- ---------------------------------------------------------------------------

/-- Window `k` around frame `t` stays on frames of the window that the stream has rows
for. -/
def insideRows (stream : Stream) (msd_threshold : Nat → ℚ) (fs : List WindowFrame) (t k : Nat) :
    Bool :=
  (offsets (stream.window.l_width k) (stream.window.r_width k)).all fun l =>
    decide (0 ≤ t + l) && match fs[(t + l).toNat]? with
      | some f => hasRow stream msd_threshold f
      | none => false

/-- On the voicing of the frames, both branches of the test ask the same. -/
theorem notBoundAt_eq {vu : Nat → Bool} {fs : List WindowFrame} (stream : Stream)
    (hvu : ∀ t f, fs[t]? = some f → vu t = voiced msd_threshold f.state) (t k : Nat) :
    notBoundAt stream vu fs.length t k = insideRows stream msd_threshold fs t k := by
  -- one offset
  have hone : ∀ l : Int, ((decide (0 ≤ t + l) && match fs[(t + l).toNat]? with
      | some f => hasRow stream msd_threshold f
      | none => false) = true) ↔
      0 ≤ t + l ∧ t + l < fs.length ∧ (stream.msd_flag = true → vu (t + l).toNat = true) := by
    intro l
    rw [Bool.and_eq_true, decide_eq_true_iff]
    refine and_congr_right fun hlo => ?_
    cases hf : fs[(t + l).toNat]? with
    | none =>
      have hge := List.getElem?_eq_none_iff.mp hf
      simp only [Bool.false_eq_true, false_iff]
      omega
    | some f =>
      have hlt := (List.getElem?_eq_some_iff.mp hf).1
      rw [hvu _ _ hf]
      simp only [hasRow]
      cases stream.msd_flag <;> simp <;> omega
  rw [Bool.eq_iff_iff, insideRows, List.all_eq_true, notBoundAt]
  simp only [hone]
  cases hmsd : stream.msd_flag with
  | true => simp only [if_true, lookAround_iff, true_implies]
  | false => simp only [Bool.false_eq_true, if_false, notBound_iff, false_implies, and_true]

/-- **What the solver is handed for a stream**: as many rows as there are frames that the
stream has a row for, in their order. -/
structure Handed (ms : ModelSet) (msd_threshold : Nat → ℚ) (fs : List WindowFrame) (i : Nat)
    (pss : PStream ℚ) : Prop where
  vector_length : pss.vector_length = (ms.stream i).vector_length
  window : pss.window = (ms.stream i).window
  width : pss.width = (ms.stream i).window.max_width * 2 + 1
  static_length : pss.static_length = (ms.stream i).vector_length / (ms.stream i).window.size
  length_eq : pss.length = fs.countP (hasRow (ms.stream i) msd_threshold)
  rows : RowsOf i (ms.stream i) (hasRow (ms.stream i) msd_threshold)
    (insideRows (ms.stream i) msd_threshold fs) fs pss.mean pss.ivar

/-- Memory as it is allocated. -/
def emptyMemory : Memory where
  voiced_unvoiced _ := false
  mean _ _ _ := 0
  ivar _ _ _ := 0
  gv_mean _ _ := 0
  gv_vari _ _ := 0
  gv_switch _ _ := false
  accesses := []

/-- Four slots, of which the oldest three models are in slots 2, 3 and 0. -/
def mixedQueue : MemQueue Model := ⟨[uneven, steady, uneven, steady], 2, 1, 3⟩

/-- Each model of the example has its frames. -/
theorem settled_mixedQueue (w : Nat) : (modelAt mixedQueue w).Settled := by
  have hlt : (2 + w) % 4 < 4 := Nat.mod_lt _ (by decide)
  show (([uneven, steady, uneven, steady])[(2 + w) % 4]?.getD default).Settled
  generalize (2 + w) % 4 = slot at hlt
  match slot, hlt with
  | 0, _ => exact settled_uneven
  | 1, _ => exact settled_steady
  | 2, _ => exact settled_uneven
  | 3, _ => exact settled_steady

/-- What the optimiser leaves after the first `n` streams of a window with the frames
`fs`. -/
structure Optimized (ms : ModelSet) (msd_threshold : Nat → ℚ) (fs : List WindowFrame) (n : Nat)
    (r : (Nat → PStream ℚ) × Memory) : Prop where
  handed : ∀ i < n, Handed ms msd_threshold fs i (r.1 i)
  voiced_eq : ∀ t f, fs[t]? = some f → r.2.voiced_unvoiced t = voiced msd_threshold f.state
  logged : ∀ i < n, ∀ t f, fs[t]? = some f → hasRow (ms.stream i) msd_threshold f = true →
    .row i (rowOf (hasRow (ms.stream i) msd_threshold) fs t) f.place ∈ r.2.accesses
  accesses : ∀ a ∈ r.2.accesses, (∃ t < fs.length, a = .voiced_unvoiced t) ∨
    ∃ i < n, AccessOf i (ms.stream i) (hasRow (ms.stream i) msd_threshold) fs.length fs a

/-- **The optimiser** over a window of settled models. -/
theorem optimizeParameters_optimized {queue : MemQueue Model} (hread : queue.read < queue.length)
    {backup lookup : Nat} (hsettled : ∀ w < backup + lookup + 1, (modelAt queue w).Settled)
    (ms : ModelSet) (msd_threshold : Nat → ℚ) (memory : Memory) :
    Optimized ms msd_threshold (frames queue (backup + lookup + 1)) nOfStreams
      (optimizeParameters queue ms msd_threshold backup lookup memory) := by
  obtain ⟨hmarked, htotal⟩ := markVoicing_marked hread hsettled msd_threshold
    { memory with accesses := [] }
  rw [optimizeParameters]
  refine foldl_range_induction (fun n r =>
    Optimized ms msd_threshold (frames queue (backup + lookup + 1)) n r) ?_ ?_
  · refine ⟨fun i hi => absurd hi (Nat.not_lt_zero i), hmarked.voiced_eq,
      fun i hi => absurd hi (Nat.not_lt_zero i), ?_⟩
    intro a ha
    rcases hmarked.accesses a ha with hold | hnew
    · cases hold
    · exact .inl hnew
  · intro n _ r hr
    -- the loops of stream `n`
    obtain ⟨hframe, hstored⟩ := storeStream_stored n (ms.stream n)
      (markVoicing queue (backup + lookup + 1) msd_threshold
        { memory with accesses := [] }).total_duration hread hr.voiced_eq
    simp only
    generalize hs : storeStream queue (backup + lookup + 1) n (ms.stream n)
      (markVoicing queue (backup + lookup + 1) msd_threshold
        { memory with accesses := [] }).total_duration r.2 = s at hframe hstored
    rw [htotal] at hstored
    have hlength : (assign ms n s).length
        = (frames queue (backup + lookup + 1)).countP (hasRow (ms.stream n) msd_threshold) :=
      hstored.row_eq
    refine ⟨?_, ?_, ?_, ?_⟩
    · intro i hi
      -- earlier streams are left alone, and stream `n` gets the rows just stored
      show Handed ms msd_threshold _ i (Function.update r.1 n (assign ms n s) i)
      rcases Nat.lt_succ_iff_lt_or_eq.mp hi with hlt | rfl
      · rw [Function.update_of_ne (by omega)]
        exact hr.handed i hlt
      · rw [Function.update_self]
        refine ⟨rfl, rfl, rfl, rfl, hlength, ?_⟩
        -- what the code tests is what the window means
        have hbound : notBoundAt (ms.stream i) r.2.voiced_unvoiced
            (frames queue (backup + lookup + 1)).length
            = insideRows (ms.stream i) msd_threshold (frames queue (backup + lookup + 1)) := by
          funext t k
          exact notBoundAt_eq (ms.stream i) hr.voiced_eq t k
        rw [← hbound]
        exact hstored.rows
    · intro t f hf
      rw [hstored.voiced_eq]
      exact hr.voiced_eq t f hf
    · intro i hi t f hf hhas
      rcases Nat.lt_succ_iff_lt_or_eq.mp hi with hlt | rfl
      · exact hstored.kept _ (hr.logged i hlt t f hf hhas)
      · exact hstored.logged t f hf hhas
    · intro a ha
      -- an access of an earlier stream, or of this one
      rcases hstored.accesses a ha with hold | hnew
      · exact (hr.accesses a hold).imp id fun ⟨i, hi, hof⟩ => ⟨i, Nat.lt_succ_of_lt hi, hof⟩
      · exact .inr ⟨n, Nat.lt_succ_self n, hnew⟩

end ModelQueue

end Vox.Mage
