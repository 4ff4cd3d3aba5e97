import Vox.Hts.PStream
import Vox.Mage.WindowFrames

/-!
# MAGE — the equations of the batch synthesiser

hts_engine builds the problems of the parameter solver from all states of an
utterance at once; MAGE builds them again and again, from the states of a window of
models. Over the same states the problems are the same.

Both visit the same frames in the same order: those of the window's models are those
of its states, one after the other (`map_state_frames`). On the frames visited so far
both have the same rows (`CopiedPdfs`, `Stored`).

Main result: `equations_eq_batch`.
-/

namespace Vox.Mage.ModelQueue

open Lib

variable {σ : Type*}

-- ---------------------------------------------------------------------------
-- The states of a window
-- ---------------------------------------------------------------------------

/-- The states of the first `window` models, one after the other. -/
def windowStates (queue : MemQueue Model) (window : Nat) : List State :=
  (List.range window).flatMap fun w => (List.range nOfStates).map (modelAt queue w).state

/-- The utterance made of `states`, with the voice's stream properties and global
variances. -/
def concatenation (ms : ModelSet) (gv : Nat → Nat → Distribution) (states : List State) :
    Hts.SStreamSet where
  total_state := states.length
  total_frame := (states.map (·.duration)).sum
  duration state := (states.getD state default).duration
  is_msd i := (ms.stream i).msd_flag
  vector_length i := (ms.stream i).vector_length
  window i := (ms.stream i).window
  msd i state := ((states.getD state default).streams i 0).msdFlag
  mean i state m := ((states.getD state default).streams i m).mean
  vari i state m := ((states.getD state default).streams i m).vari
  use_gv := ms.use_gv
  gv_mean i j := (gv i j).mean
  gv_vari i j := (gv i j).vari
  gv_switch i state := (states.getD state default).gv_switch_streams i

/-- Every state, once for each of its frames. -/
def stateFrames (states : List State) : List State :=
  states.flatMap fun state => (List.range state.duration.toNat).map fun _ => state

theorem map_state_frames (queue : MemQueue Model) (window : Nat) :
    (frames queue window).map (·.state) = stateFrames (windowStates queue window) := by
  simp only [frames, framesOf, windowStates, stateFrames, List.map_flatMap, List.flatMap_assoc,
    List.flatMap_map, List.map_map]
  rfl

theorem nonneg_windowStates {queue : MemQueue Model} {window : Nat}
    (hsettled : ∀ w < window, (modelAt queue w).Settled) :
    ∀ state ∈ windowStates queue window, 0 ≤ state.duration := by
  intro state hstate
  obtain ⟨w, hw, hstate⟩ := List.mem_flatMap.mp hstate
  obtain ⟨s, hs, rfl⟩ := List.mem_map.mp hstate
  exact (hsettled w (List.mem_range.mp hw)).nonneg s (List.mem_range.mp hs)

/-- The loop over all states and frames, as a loop over frames. -/
theorem hts_forFrames_eq (ms : ModelSet) (gv : Nat → Nat → Distribution) (states : List State)
    (body : State → σ → σ) (s : σ) :
    Hts.forFrames (concatenation ms gv states)
        (fun state s => body (states.getD state default) s) s
      = (stateFrames states).foldl (fun s state => body state s) s := by
  refine (foldl_range_getD (fun s (state : State) => (List.range state.duration.toNat).foldl
    (fun s _ => body state s) s) default states s).trans ?_
  simp only [stateFrames, List.foldl_flatMap, List.foldl_map]

/-- Over the states of a window, it is a loop over the frames of the window. -/
theorem hts_forFrames_window (ms : ModelSet) (gv : Nat → Nat → Distribution)
    (queue : MemQueue Model) (window : Nat) (body : State → σ → σ) (s : σ) :
    Hts.forFrames (concatenation ms gv (windowStates queue window))
        (fun state s => body ((windowStates queue window).getD state default) s) s
      = (frames queue window).foldl (fun s f => body f.state s) s := by
  rw [hts_forFrames_eq, ← map_state_frames, List.foldl_map]

/-- As many frames as all durations say. -/
theorem length_stateFrames {states : List State} (h : ∀ state ∈ states, 0 ≤ state.duration) :
    ((stateFrames states).length : Int) = (states.map (·.duration)).sum := by
  induction states with
  | nil => rfl
  | cons state states ih =>
    have hstate := h state List.mem_cons_self
    have hrest := ih fun st hst => h st (List.mem_cons_of_mem _ hst)
    simp only [stateFrames, List.flatMap_cons, List.length_append, List.length_map,
      List.length_range, List.map_cons, List.sum_cons, Nat.cast_add] at hrest ⊢
    omega

/-- As many frames in the states that `p` picks. -/
theorem countP_stateFrames (p : State → Bool) {states : List State}
    (h : ∀ state ∈ states, 0 ≤ state.duration) (n : Int) :
    states.foldl (fun length state => if p state then length + state.duration else length) n
      = n + (stateFrames states).countP p := by
  induction states generalizing n with
  | nil => simp [stateFrames]
  | cons state states ih =>
    have hstate := h state List.mem_cons_self
    have hrest := ih fun st hst => h st (List.mem_cons_of_mem _ hst)
    -- the frames of one state are all picked or none is
    have hcount : (stateFrames (state :: states)).countP p
        = (if p state then state.duration.toNat else 0) + (stateFrames states).countP p := by
      rw [stateFrames, List.flatMap_cons, List.countP_append, List.countP_map]
      congr 1
      cases hp : p state with
      | true => simp [Function.comp_def, hp]
      | false => simp [Function.comp_def, hp]
    rw [List.foldl_cons, hrest, hcount]
    cases p state with
    | true =>
      simp only [if_true]
      omega
    | false =>
      simp only [Bool.false_eq_true, if_false]
      omega

-- ---------------------------------------------------------------------------
-- The rows of the batch synthesiser
-- ---------------------------------------------------------------------------

section Batch

variable {ms : ModelSet} (gv : Nat → Nat → Distribution) (msd_threshold : Nat → ℚ)
  {queue : MemQueue Model} {window i : Nat}

/-- Where lf0 is the only MSD stream, the MSD flag of a frame is its voicing. -/
theorem hts_msdFlag_eq {msd_threshold : Nat → ℚ} (hlf0 : i = lf0StreamIndex) {t : Nat}
    {f : WindowFrame}
    (hf : (frames queue window)[t]? = some f) :
    Hts.msdFlag (concatenation ms gv (windowStates queue window)) msd_threshold i t
      = voiced msd_threshold f.state := by
  have hloop := hts_forFrames_eq ms gv (windowStates queue window)
    (fun state (s : Nat × (Nat → Bool)) =>
      (s.1 + 1, Function.update s.2 s.1
        (decide ((state.streams i 0).msdFlag > msd_threshold i)))) (0, fun _ => false)
  have hstate : (stateFrames (windowStates queue window))[t]? = some f.state := by
    rw [← map_state_frames, List.getElem?_map, hf]
    rfl
  have hrecord := (foldl_record
    (fun state : State => decide ((state.streams i 0).msdFlag > msd_threshold i))
    (stateFrames (windowStates queue window)) (fun _ => false)).2 t f.state hstate
  rw [voiced, ← hlf0, ← hrecord]
  exact congrArg (fun s => s.2 t) hloop

/-- The length of a stream is the number of frames that it has rows for. -/
theorem hts_length_eq (hsettled : ∀ w < window, (modelAt queue w).Settled)
    (hmsd : (ms.stream i).msd_flag = true → i = lf0StreamIndex) :
    Hts.length (concatenation ms gv (windowStates queue window)) msd_threshold i
      = (frames queue window).countP (hasRow (ms.stream i) msd_threshold) := by
  have hnonneg := nonneg_windowStates hsettled
  rw [Hts.length]
  show (if (ms.stream i).msd_flag = true then _ else _) = _
  cases hflag : (ms.stream i).msd_flag with
  | true =>
    -- an MSD stream: its length counts the voiced states
    obtain rfl := hmsd hflag
    have hhas : hasRow (ms.stream lf0StreamIndex) msd_threshold
        = (voiced msd_threshold ∘ fun f : WindowFrame => f.state) := by
      funext f
      rw [hasRow, hflag]
      rfl
    have hcount := countP_stateFrames (voiced msd_threshold) hnonneg 0
    simp only [voiced, decide_eq_true_eq, Int.zero_add] at hcount
    rw [if_pos rfl, hhas, ← List.countP_map, map_state_frames]
    exact (foldl_range_getD (fun (length : Int) (state : State) =>
      if (state.streams lf0StreamIndex 0).msdFlag > msd_threshold lf0StreamIndex then
        length + state.duration else length) default (windowStates queue window) 0).trans hcount
  | false =>
    -- every frame has a row
    have hall : (frames queue window).countP (hasRow (ms.stream i) msd_threshold)
        = (frames queue window).length := by
      rw [List.countP_eq_length]
      intro f _
      rw [hasRow, hflag]
      rfl
    rw [if_neg (by simp), hall, ← List.length_map (fun f : WindowFrame => f.state),
      map_state_frames, length_stateFrames hnonneg]
    rfl

/-- The rows of the frames visited so far are copied. -/
structure CopiedPdfs (i : Nat) (stream : Stream) (has : WindowFrame → Bool)
    (not_bound : Nat → Nat → Bool) (pre : List WindowFrame) (row : Nat) (s : Hts.Pdfs) : Prop where
  frame_eq : s.frame = pre.length
  row_eq : row = pre.countP has
  rows : RowsOf i stream has not_bound pre s.mean s.ivar

/-- The row that hts_engine copies for a frame. -/
def hts_store (i : Nat) (stream : Stream) (state : State) (row : Nat) (not_bound : Nat → Bool)
    (s : Hts.Pdfs) : Hts.Pdfs :=
  { s with
    mean := Function.update s.mean row
      (storeCells stream (fun _ m => (state.streams i m).mean) (s.mean row))
    ivar := Function.update s.ivar row
      (storeCells stream (ivarOf (state.streams i) not_bound) (s.ivar row)) }

theorem CopiedPdfs.store {stream : Stream} {has : WindowFrame → Bool}
    {not_bound : Nat → Nat → Bool} {pre : List WindowFrame} {row : Nat} {s s' : Hts.Pdfs}
    {f : WindowFrame} (h : CopiedPdfs i stream has not_bound pre row s) (hf : has f = true)
    (hframe : s'.frame = s.frame + 1)
    (hmean : s'.mean = (hts_store i stream f.state row (not_bound pre.length) s).mean)
    (hivar : s'.ivar = (hts_store i stream f.state row (not_bound pre.length) s).ivar) :
    CopiedPdfs i stream has not_bound (pre ++ [f]) (row + 1) s' := by
  refine ⟨?_, ?_, ?_⟩
  · rw [hframe, h.frame_eq, List.length_append, List.length_singleton]
  · rw [List.countP_append, List.countP_singleton, hf, h.row_eq]
    rfl
  · rw [hmean, hivar, h.row_eq]
    exact h.rows.store

/-- The dynamic windows are tested in the same way. -/
theorem insideRows_eq_all {msd_threshold : Nat → ℚ} {total : Int} {flags : Nat → Bool}
    {fs : List WindowFrame}
    (stream : Stream) (htotal : total = fs.length)
    (hflags : stream.msd_flag = true → ∀ t f, fs[t]? = some f →
      flags t = voiced msd_threshold f.state) (t k : Nat) :
    ((offsets (stream.window.l_width k) (stream.window.r_width k)).all fun l =>
        !(t + l < 0 || total ≤ t + l ||
          (stream.msd_flag && !flags ((t : Int) + l).toNat)))
      = insideRows stream msd_threshold fs t k := by
  rw [insideRows]
  congr 1
  funext l
  rw [Bool.eq_iff_iff, Bool.and_eq_true, decide_eq_true_iff]
  simp only [Bool.not_eq_true', Bool.or_eq_false_iff, decide_eq_false_iff_not, htotal]
  cases hf : fs[((t : Int) + l).toNat]? with
  | none =>
    -- past the last frame: both tests fail
    have hge := List.getElem?_eq_none_iff.mp hf
    simp only [Bool.false_eq_true, and_false, iff_false]
    omega
  | some f =>
    have hlt := (List.getElem?_eq_some_iff.mp hf).1
    simp only [hasRow]
    cases hmsd : stream.msd_flag with
    | true =>
      -- the MSD flag of the frame decides
      rw [hflags hmsd _ _ hf]
      cases voiced msd_threshold f.state <;> simp
      omega
    | false =>
      simp
      omega

/-- A frame of an MSD stream in the loop: its row is copied when it is voiced. -/
def hts_copyMsd (i : Nat) (stream : Stream) (total : Int) (flags : Nat → Bool) (state : State)
    (s : Hts.Pdfs) : Hts.Pdfs :=
  if flags s.frame then
    { hts_store i stream state s.msd_frame
        (fun k => (offsets (stream.window.l_width k) (stream.window.r_width k)).all fun l =>
          !(s.frame + l < 0 || total ≤ s.frame + l || !flags (s.frame + l).toNat)) s with
      msd_frame := s.msd_frame + 1
      frame := s.frame + 1 }
  else { s with frame := s.frame + 1 }

/-- A frame of a stream in which every frame has a row. -/
def hts_copyFrame (i : Nat) (stream : Stream) (total : Int) (state : State) (s : Hts.Pdfs) :
    Hts.Pdfs :=
  { hts_store i stream state s.frame
      (fun k => (offsets (stream.window.l_width k) (stream.window.r_width k)).all fun l =>
        !(s.frame + l < 0 || total ≤ s.frame + l)) s with
    frame := s.frame + 1 }

section Turn

variable {stream : Stream} {msd_threshold : Nat → ℚ} {total : Int} {flags : Nat → Bool}
  {fs pre post : List WindowFrame} {f : WindowFrame} {s : Hts.Pdfs}

theorem CopiedPdfs.copyMsd (hmsd : stream.msd_flag = true) (htotal : total = fs.length)
    (hflags : stream.msd_flag = true → ∀ t f, fs[t]? = some f →
      flags t = voiced msd_threshold f.state) (hfs : fs = pre ++ f :: post)
    (h : CopiedPdfs i stream (hasRow stream msd_threshold) (insideRows stream msd_threshold fs) pre
      s.msd_frame s) :
    CopiedPdfs i stream (hasRow stream msd_threshold) (insideRows stream msd_threshold fs)
      (pre ++ [f]) (hts_copyMsd i stream total flags f.state s).msd_frame
      (hts_copyMsd i stream total flags f.state s) := by
  -- the frame has a row when its flag is set
  have hflag : flags s.frame = voiced msd_threshold f.state := by
    rw [h.frame_eq]
    exact hflags hmsd _ f (getElem?_visited hfs)
  have hhas : hasRow stream msd_threshold f = flags s.frame := by
    rw [hasRow, hmsd, hflag]
    rfl
  rw [hts_copyMsd]
  cases hv : flags s.frame with
  | true =>
    refine h.store (hhas.trans hv) ?_ ?_ ?_
    · simp only [if_true]
    · simp only [if_true, hts_store]
    · -- the tests of the dynamic windows are those of `insideRows`
      have hbound := funext (insideRows_eq_all stream htotal hflags pre.length)
      simp only [hmsd, Bool.true_and, ← h.frame_eq] at hbound
      rw [← h.frame_eq]
      simp only [if_true, hts_store, hbound]
  | false =>
    -- only the frame counter advances
    simp only [Bool.false_eq_true, if_false]
    refine ⟨?_, ?_, ?_⟩
    · show s.frame + 1 = (pre ++ [f]).length
      rw [h.frame_eq, List.length_append, List.length_singleton]
    · rw [List.countP_append, List.countP_singleton, hhas, hv]
      exact h.row_eq
    · exact h.rows.skip (hhas.trans hv)

theorem CopiedPdfs.copyFrame (hmsd : stream.msd_flag = false) (htotal : total = fs.length)
    (h : CopiedPdfs i stream (hasRow stream msd_threshold) (insideRows stream msd_threshold fs) pre
      s.frame s) :
    CopiedPdfs i stream (hasRow stream msd_threshold) (insideRows stream msd_threshold fs)
      (pre ++ [f]) (hts_copyFrame i stream total f.state s).frame
      (hts_copyFrame i stream total f.state s) := by
  have hhas : hasRow stream msd_threshold f = true := by
    rw [hasRow, hmsd]
    rfl
  refine h.store hhas rfl rfl ?_
  -- no flags are looked at
  have hflags : stream.msd_flag = true → ∀ (t : Nat) (f : WindowFrame), fs[t]? = some f →
      (fun _ => false) t = voiced msd_threshold f.state := by
    intro htrue
    rw [hmsd] at htrue
    exact absurd htrue Bool.false_ne_true
  have hbound := funext (insideRows_eq_all stream htotal hflags pre.length)
  simp only [hmsd, Bool.false_and, Bool.or_false, ← h.frame_eq] at hbound
  rw [← h.frame_eq]
  simp only [hts_copyFrame, hts_store, hbound]

end Turn

/-- **The batch synthesiser's rows.** -/
theorem hts_copyPdfs_rows (hsettled : ∀ w < window, (modelAt queue w).Settled)
    (flags : Nat → Bool)
    (hflags : (ms.stream i).msd_flag = true → ∀ t f, (frames queue window)[t]? = some f →
      flags t = voiced msd_threshold f.state) :
    RowsOf i (ms.stream i) (hasRow (ms.stream i) msd_threshold)
      (insideRows (ms.stream i) msd_threshold (frames queue window)) (frames queue window)
      (Hts.copyPdfs (concatenation ms gv (windowStates queue window)) flags i).mean
      (Hts.copyPdfs (concatenation ms gv (windowStates queue window)) flags i).ivar := by
  have hlength : ((windowStates queue window).map (·.duration)).sum
      = (frames queue window).length := by
    rw [← length_stateFrames (nonneg_windowStates hsettled), ← map_state_frames, List.length_map]
  have hstart : CopiedPdfs i (ms.stream i) (hasRow (ms.stream i) msd_threshold)
      (insideRows (ms.stream i) msd_threshold (frames queue window)) [] 0
      ⟨0, 0, fun _ _ => 0, fun _ _ => 0⟩ := by
    refine ⟨rfl, rfl, ?_⟩
    intro t f hf
    cases hf
  cases hmsd : (ms.stream i).msd_flag with
  | true =>
    have hloop : Hts.copyPdfs (concatenation ms gv (windowStates queue window)) flags i
        = Hts.forFrames (concatenation ms gv (windowStates queue window))
            (fun state s => hts_copyMsd i (ms.stream i)
              ((windowStates queue window).map (·.duration)).sum flags
              ((windowStates queue window).getD state default) s)
            ⟨0, 0, fun _ _ => 0, fun _ _ => 0⟩ := if_pos hmsd
    rw [hloop, hts_forFrames_window]
    exact (foldl_prefix_induction (fun pre (s : Hts.Pdfs) => CopiedPdfs i (ms.stream i)
      (hasRow (ms.stream i) msd_threshold)
      (insideRows (ms.stream i) msd_threshold (frames queue window)) pre s.msd_frame s)
      hstart fun pre f post hfs s hs => hs.copyMsd hmsd hlength hflags hfs).rows
  | false =>
    have hnot : ¬ (ms.stream i).msd_flag = true := by
      rw [hmsd]
      exact Bool.false_ne_true
    have hloop : Hts.copyPdfs (concatenation ms gv (windowStates queue window)) flags i
        = Hts.forFrames (concatenation ms gv (windowStates queue window))
            (fun state s => hts_copyFrame i (ms.stream i)
              ((windowStates queue window).map (·.duration)).sum
              ((windowStates queue window).getD state default) s)
            ⟨0, 0, fun _ _ => 0, fun _ _ => 0⟩ := if_neg hnot
    rw [hloop, hts_forFrames_window]
    exact (foldl_prefix_induction (fun pre (s : Hts.Pdfs) => CopiedPdfs i (ms.stream i)
      (hasRow (ms.stream i) msd_threshold)
      (insideRows (ms.stream i) msd_threshold (frames queue window)) pre s.frame s)
      hstart fun pre f post _ s hs => hs.copyFrame hmsd hlength).rows

end Batch

-- ---------------------------------------------------------------------------
-- The same equations
-- ---------------------------------------------------------------------------

/-- Two problems with the same length, windows and rows. -/
structure SameEquations (pss : PStream ℚ) (pst : Hts.PStream) : Prop where
  length_eq : (pss.length : Int) = pst.length
  vector_length_eq : pss.vector_length = pst.vector_length
  window_eq : pss.window = pst.window
  width_eq : pss.width = pst.width
  static_length_eq : pss.static_length = pst.static_length
  mean_eq : ∀ t < pss.length, ∀ m < pss.static_length * pss.window.size,
    pss.mean t m = pst.mean t m
  ivar_eq : ∀ t < pss.length, ∀ m < pss.static_length * pss.window.size,
    pss.ivar t m = pst.ivar t m

/--
**The streaming window assembles the equations of the batch synthesiser** for the
states of the window, and these are: a row for each frame (`hasRow`: each voiced one,
for lf0), with static features kept and a dynamic feature zeroed exactly when its
window leaves the frames that have rows (`Handed`, `insideRows`). -/
theorem equations_eq_batch {queue : MemQueue Model} (hread : queue.read < queue.length)
    {backup lookup : Nat} (hsettled : ∀ w < backup + lookup + 1, (modelAt queue w).Settled)
    {ms : ModelSet}
    (hmsd : ∀ i < nOfStreams, (ms.stream i).msd_flag = true → i = lf0StreamIndex)
    (msd_threshold gv_weight : Nat → ℚ) (gv : Nat → Nat → Distribution) (memory : Memory) :
    ∀ i < nOfStreams,
      SameEquations ((optimizeParameters queue ms msd_threshold backup lookup memory).1 i)
          (Hts.HTS_PStreamSet_create
            (concatenation ms gv (windowStates queue (backup + lookup + 1)))
            msd_threshold gv_weight i) ∧
        Handed ms msd_threshold (frames queue (backup + lookup + 1)) i
          ((optimizeParameters queue ms msd_threshold backup lookup memory).1 i) := by
  intro i hi
  have hhanded := (optimizeParameters_optimized hread hsettled ms msd_threshold memory).handed i hi
  have hlength := hts_length_eq gv msd_threshold hsettled (hmsd i hi)
  -- the rows of both, frame by frame
  have hbatch := hts_copyPdfs_rows gv msd_threshold hsettled
    (if (ms.stream i).msd_flag = true then
      Hts.msdFlag (concatenation ms gv (windowStates queue (backup + lookup + 1))) msd_threshold i
      else fun _ => false) (by
    intro hflag t f hf
    rw [if_pos hflag]
    exact hts_msdFlag_eq gv (hmsd i hi hflag) hf)
  generalize (optimizeParameters queue ms msd_threshold backup lookup memory).1 i = pss
    at hhanded ⊢
  -- every row belongs to a frame, so that it is enough to compare frames
  have hcells : ∀ r < pss.length, ∃ t f,
      (frames queue (backup + lookup + 1))[t]? = some f ∧
        hasRow (ms.stream i) msd_threshold f = true ∧
        rowOf (hasRow (ms.stream i) msd_threshold) (frames queue (backup + lookup + 1)) t = r := by
    intro r hr
    rw [hhanded.length_eq] at hr
    exact exists_rowOf hr
  refine ⟨⟨?_, hhanded.vector_length, hhanded.window, hhanded.width, hhanded.static_length,
    ?_, ?_⟩, hhanded⟩
  · rw [hhanded.length_eq]
    exact hlength.symm
  · intro r hr m hm
    rw [hhanded.static_length, hhanded.window] at hm
    obtain ⟨t, f, hf, hhas, rfl⟩ := hcells r hr
    exact ((hhanded.rows t f hf hhas).mean_eq m hm).trans
      ((hbatch t f hf hhas).mean_eq m hm).symm
  · intro r hr m hm
    rw [hhanded.static_length, hhanded.window] at hm
    obtain ⟨t, f, hf, hhas, rfl⟩ := hcells r hr
    exact ((hhanded.rows t f hf hhas).ivar_eq m hm).trans
      ((hbatch t f hf hhas).ivar_eq m hm).symm

/-- The lf0 and its difference, in a window of three models with unvoiced states. -/
theorem equations_eq_batch_mixed :
    SameEquations ((optimizeParameters mixedQueue deltaVoice
          (fun _ => 1 / 2) 2 0 emptyMemory).1 lf0StreamIndex)
        (Hts.HTS_PStreamSet_create
          (concatenation deltaVoice (fun _ _ => default)
            (windowStates mixedQueue 3)) (fun _ => 1 / 2) (fun _ => 1) lf0StreamIndex) ∧
      Handed deltaVoice (fun _ => 1 / 2) (frames mixedQueue 3) lf0StreamIndex
        ((optimizeParameters mixedQueue deltaVoice
          (fun _ => 1 / 2) 2 0 emptyMemory).1 lf0StreamIndex) :=
  equations_eq_batch (by decide) (fun w _ => settled_mixedQueue w) msd_deltaVoice (fun _ => 1 / 2)
    (fun _ => 1) (fun _ _ => default) emptyMemory lf0StreamIndex (by decide)

end Vox.Mage.ModelQueue
