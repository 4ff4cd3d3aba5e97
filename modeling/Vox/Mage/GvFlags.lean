import Vox.Lib.Run
import Vox.Mage.BatchEquations

/-!
# MAGE — the flags of the global variance

The solver takes the global variance of a stream over the frames whose flag is set:
`gv_switch` has a flag for each of them, and `gv_length` is the number of flags that are set.
hts_engine fills both from the states that own the frames. MAGE does so for lf0 alone. For
the other streams it writes `gv_switch` by coefficient, with the flag of the first state of a
model; and for all of them `gv_length` is the number of frames.

* `hts_flagsOf` — the batch synthesiser's flags are those of the frames.
* `storeStream_flagged`, `storeStream_gv_switch` — what the loops of the window leave in
  `gv_switch`.
* `sameFlags_iff` — the flags agree exactly when all flags are set.
-/

namespace Vox.Mage.ModelQueue

open Lib

-- ---------------------------------------------------------------------------
-- Flags of frames
-- ---------------------------------------------------------------------------

/-- The frames that a stream has rows for. -/
def rowFrames (stream : Stream) (msd_threshold : Nat → ℚ) (fs : List WindowFrame) :
    List WindowFrame := fs.filter (hasRow stream msd_threshold)

/-- The flag of the state that owns a frame. -/
def gvFlag (i : Nat) (f : WindowFrame) : Bool := f.state.gv_switch_streams i

/-- Flag `t` is the one of frame `t`. -/
def Flagged (i : Nat) (rows : List WindowFrame) (gv_switch : Nat → Bool) : Prop :=
  ∀ t f, rows[t]? = some f → gv_switch t = gvFlag i f

/-- The flags belong to the frames, and `gv_length` is the number of those that are set. -/
structure FlagsOf (i : Nat) (rows : List WindowFrame) (gv_switch : Nat → Bool)
    (gv_length : Nat) : Prop where
  flagged : Flagged i rows gv_switch
  gv_length_eq : gv_length = rows.countP (gvFlag i)

variable {i : Nat} {rows : List WindowFrame} {gv_switch : Nat → Bool}

theorem flagged_nil : Flagged i [] gv_switch := fun _ _ h => nomatch h

/-- The flag of the next frame. -/
theorem Flagged.store (h : Flagged i rows gv_switch) (f : WindowFrame) :
    Flagged i (rows ++ [f]) (Function.update gv_switch rows.length (gvFlag i f)) := by
  intro t g hg
  rcases getElem?_concat_cases hg with ⟨hrows, hlt⟩ | ⟨rfl, rfl⟩
  · rw [Function.update_of_ne (Nat.ne_of_lt hlt)]
    exact h t g hrows
  · rw [Function.update_self]

/-- The flags that are set are counted by their frames. -/
theorem Flagged.countP (h : Flagged i rows gv_switch) :
    (List.range rows.length).countP gv_switch = rows.countP (gvFlag i) := by
  have hmap : (List.range rows.length).map gv_switch = rows.map (gvFlag i) := by
    apply List.ext_getElem
    · rw [List.length_map, List.length_map, List.length_range]
    · intro t ht _
      rw [List.getElem_map, List.getElem_map, List.getElem_range]
      exact h t _ (List.getElem?_eq_getElem _)
  have hcount := congrArg (List.countP id) hmap
  rwa [List.countP_map, List.countP_map] at hcount

section Rows

variable {stream : Stream} {msd_threshold : Nat → ℚ} {pre fs : List WindowFrame} {f : WindowFrame}

/-- A frame with a row is one more of them. -/
theorem rowFrames_of_row (hf : hasRow stream msd_threshold f = true) :
    rowFrames stream msd_threshold (pre ++ [f]) = rowFrames stream msd_threshold pre ++ [f] := by
  rw [rowFrames, List.filter_append, List.filter_cons_of_pos hf, List.filter_nil]
  rfl

theorem rowFrames_of_no_row (hf : hasRow stream msd_threshold f = false) :
    rowFrames stream msd_threshold (pre ++ [f]) = rowFrames stream msd_threshold pre := by
  rw [rowFrames, List.filter_append, List.filter_cons_of_neg (by rw [hf]; decide),
    List.filter_nil, List.append_nil]
  rfl

/-- Every frame has a row in a stream that is not an MSD stream. -/
theorem rowFrames_eq (hmsd : stream.msd_flag = false) :
    rowFrames stream msd_threshold fs = fs := by
  refine List.filter_eq_self.mpr fun f _ => ?_
  rw [hasRow, hmsd]
  rfl

/-- There are as many rows as frames that have one. -/
theorem length_rowFrames :
    (rowFrames stream msd_threshold fs).length = fs.countP (hasRow stream msd_threshold) :=
  List.countP_eq_length_filter.symm

/-- The flags of the frames visited so far, with the counters of frames and rows. -/
structure Filled (i : Nat) (stream : Stream) (msd_threshold : Nat → ℚ) (pre : List WindowFrame)
    (frame row : Nat) (gv_switch : Nat → Bool) : Prop where
  frame_eq : frame = pre.length
  row_eq : row = (rowFrames stream msd_threshold pre).length
  flagged : Flagged i (rowFrames stream msd_threshold pre) gv_switch

namespace Filled

variable {frame row : Nat}

theorem start (i : Nat) (stream : Stream) (msd_threshold : Nat → ℚ) (gv_switch : Nat → Bool) :
    Filled i stream msd_threshold [] 0 0 gv_switch := ⟨rfl, rfl, flagged_nil⟩

/-- A frame without a row. -/
theorem skip (h : Filled i stream msd_threshold pre frame row gv_switch)
    (hf : hasRow stream msd_threshold f = false) :
    Filled i stream msd_threshold (pre ++ [f]) (frame + 1) row gv_switch := by
  refine ⟨?_, ?_, ?_⟩
  · rw [h.frame_eq, List.length_append, List.length_singleton]
  · rw [rowFrames_of_no_row hf]
    exact h.row_eq
  · rw [rowFrames_of_no_row hf]
    exact h.flagged

/-- A frame with a row. -/
theorem store (h : Filled i stream msd_threshold pre frame row gv_switch)
    (hf : hasRow stream msd_threshold f = true) :
    Filled i stream msd_threshold (pre ++ [f]) (frame + 1) (row + 1)
      (Function.update gv_switch row (gvFlag i f)) := by
  refine ⟨?_, ?_, ?_⟩
  · rw [h.frame_eq, List.length_append, List.length_singleton]
  · rw [rowFrames_of_row hf, List.length_append, List.length_singleton, h.row_eq]
  · rw [rowFrames_of_row hf, h.row_eq]
    exact h.flagged.store f

end Filled

end Rows

-- ---------------------------------------------------------------------------
-- The flags of the batch synthesiser
-- ---------------------------------------------------------------------------

section Batch

variable {ms : ModelSet} (gv : Nat → Nat → Distribution) (msd_threshold gv_weight : Nat → ℚ)
  {queue : MemQueue Model} {window : Nat}

/-- The flag of a frame of an MSD stream in the loop: it is stored when the frame is voiced. -/
def hts_flagMsd (i : Nat) (flags : Nat → Bool) (state : State) (s : Nat × Nat × (Nat → Bool)) :
    Nat × Nat × (Nat → Bool) :=
  if flags s.1 then
    (s.1 + 1, s.2.1 + 1, Function.update s.2.2 s.2.1 (state.gv_switch_streams i))
  else (s.1 + 1, s.2.1, s.2.2)

/-- The flag of a frame of a stream in which every frame has a row. -/
def hts_flag (i : Nat) (state : State) (s : Nat × (Nat → Bool)) : Nat × (Nat → Bool) :=
  (s.1 + 1, Function.update s.2 s.1 (state.gv_switch_streams i))

/-- **The batch synthesiser's flags** are those of the frames that have rows. -/
theorem hts_flagged (flags : Nat → Bool)
    (hflags : (ms.stream i).msd_flag = true → ∀ t f, (frames queue window)[t]? = some f →
      flags t = voiced msd_threshold f.state) :
    Flagged i (rowFrames (ms.stream i) msd_threshold (frames queue window))
      (Hts.gvSwitch (concatenation ms gv (windowStates queue window)) flags i) := by
  cases hmsd : (ms.stream i).msd_flag with
  | true =>
    have hloop : Hts.gvSwitch (concatenation ms gv (windowStates queue window)) flags i
        = (Hts.forFrames (concatenation ms gv (windowStates queue window))
            (fun state s => hts_flagMsd i flags ((windowStates queue window).getD state default) s)
            (0, 0, fun _ => false)).2.2 := if_pos hmsd
    rw [hloop, hts_forFrames_window]
    refine (foldl_prefix_induction (fun pre (s : Nat × Nat × (Nat → Bool)) =>
      Filled i (ms.stream i) msd_threshold pre s.1 s.2.1 s.2.2) (Filled.start _ _ _ _)
      ?_).flagged
    intro pre f post hframes s hs
    -- a frame has a row when its flag is set
    have hhas : hasRow (ms.stream i) msd_threshold f = flags s.1 := by
      rw [hasRow, hmsd, hs.frame_eq, hflags hmsd _ _ (getElem?_visited hframes)]
      rfl
    rw [hts_flagMsd]
    cases hflag : flags s.1 with
    | true => exact hs.store (hhas.trans hflag)
    | false => exact hs.skip (hhas.trans hflag)
  | false =>
    have hnot : ¬ (ms.stream i).msd_flag = true := by
      rw [hmsd]
      exact Bool.false_ne_true
    have hloop : Hts.gvSwitch (concatenation ms gv (windowStates queue window)) flags i
        = (Hts.forFrames (concatenation ms gv (windowStates queue window))
            (fun state s => hts_flag i ((windowStates queue window).getD state default) s)
            (0, fun _ => false)).2 := if_neg hnot
    rw [hloop, hts_forFrames_window, rowFrames_eq hmsd]
    exact (foldl_record (gvFlag i) (frames queue window) fun _ => false).2

/-- **What the batch synthesiser hands to the solver.** -/
theorem hts_flagsOf (hsettled : ∀ w < window, (modelAt queue w).Settled)
    (hmsd : (ms.stream i).msd_flag = true → i = lf0StreamIndex) (huse : ms.use_gv i = true) :
    let pst := Hts.HTS_PStreamSet_create (concatenation ms gv (windowStates queue window))
      msd_threshold gv_weight i
    let rows := rowFrames (ms.stream i) msd_threshold (frames queue window)
    pst.length = rows.length ∧ FlagsOf i rows pst.gv_switch pst.gv_length := by
  intro pst rows
  have hlength : pst.length = rows.length := by
    rw [length_rowFrames]
    exact hts_length_eq gv msd_threshold hsettled hmsd
  -- the switch of each row is its frame's
  have hflagged : Flagged i rows pst.gv_switch := by
    have hswitch : pst.gv_switch = Hts.gvSwitch (concatenation ms gv (windowStates queue window))
        (if (ms.stream i).msd_flag = true then
          Hts.msdFlag (concatenation ms gv (windowStates queue window)) msd_threshold i
        else fun _ => false) i := if_pos huse
    rw [hswitch]
    refine hts_flagged gv msd_threshold _ fun hflag t f hf => ?_
    rw [if_pos hflag]
    exact hts_msdFlag_eq gv (hmsd hflag) hf
  -- and the length is the number of switches that are on
  have hcount : pst.gv_length = (List.range rows.length).countP pst.gv_switch := by
    rw [← Int.toNat_natCast rows.length, ← hlength]
    rfl
  exact ⟨hlength, hflagged, hcount.trans hflagged.countP⟩

end Batch

-- ---------------------------------------------------------------------------
-- The flags of MAGE
-- ---------------------------------------------------------------------------

/-- The cells of `gv_switch` that a frame of a stream that is not an MSD stream writes: one for
each coefficient. -/
def coefficientsOf (stream : Stream) : Nat :=
  stream.vector_length / stream.window.size * stream.window.size

section Loops

variable {stream : Stream} {msd_threshold : Nat → ℚ} {total : Int} {queue : MemQueue Model}
  {window : Nat} {memory : Memory} {pre : List WindowFrame}

/-- One frame of a stream with spaces. -/
theorem storeMsdFrame_filled (hmsd : stream.msd_flag = true) {f : WindowFrame} {s : Rows}
    (h : Filled i stream msd_threshold pre s.frame s.msd_frame (s.memory.gv_switch i))
    (hvoiced : s.memory.voiced_unvoiced pre.length = voiced msd_threshold f.state) :
    Filled i stream msd_threshold (pre ++ [f]) (storeMsdFrame i stream total f s).frame
      (storeMsdFrame i stream total f s).msd_frame
      ((storeMsdFrame i stream total f s).memory.gv_switch i) := by
  have hhas : hasRow stream msd_threshold f = s.memory.voiced_unvoiced s.frame := by
    rw [hasRow, hmsd, h.frame_eq, hvoiced]
    rfl
  simp only [storeMsdFrame]
  cases hv : s.memory.voiced_unvoiced s.frame with
  | true =>
    simp only [if_true, Function.update_self]
    exact h.store (hhas.trans hv)
  | false => exact h.skip (hhas.trans hv)

/-- An MSD stream's frame leaves the voicing, and the flags of other streams. -/
theorem storeMsdFrame_keeps (f : WindowFrame) (s : Rows) :
    (storeMsdFrame i stream total f s).memory.voiced_unvoiced = s.memory.voiced_unvoiced ∧
      ∀ j, j ≠ i →
        (storeMsdFrame i stream total f s).memory.gv_switch j = s.memory.gv_switch j := by
  simp only [storeMsdFrame]
  split
  · exact ⟨rfl, fun j hj => Function.update_of_ne hj _ _⟩
  · exact ⟨rfl, fun _ _ => rfl⟩

/-- The last model that has frames writes the cells of the coefficients. -/
def lastFlag (i : Nat) (fs : List WindowFrame) (old : Bool) : Bool :=
  (fs.map fun f => (f.model.state 0).gv_switch_streams i).getLastD old

/-- The last flag is that of the last frame. -/
theorem lastFlag_concat (f : WindowFrame) (old : Bool) :
    lastFlag i (pre ++ [f]) old = (f.model.state 0).gv_switch_streams i := by
  rw [lastFlag, List.map_append, List.map_singleton, List.getLastD_concat]

/-- **The loops of an MSD stream** store the flags of the frames that have rows. -/
theorem storeStream_flagged (hmsd : stream.msd_flag = true) (hread : queue.read < queue.length)
    (hvoiced : ∀ t f, (frames queue window)[t]? = some f →
      memory.voiced_unvoiced t = voiced msd_threshold f.state) :
    Flagged i (rowFrames stream msd_threshold (frames queue window))
      ((storeStream queue window i stream total memory).memory.gv_switch i) := by
  rw [storeStream, if_pos hmsd, forModels_forFrames_eq hread]
  refine (foldl_prefix_induction (fun pre (s : Rows) =>
    s.memory.voiced_unvoiced = memory.voiced_unvoiced ∧
      Filled i stream msd_threshold pre s.frame s.msd_frame (s.memory.gv_switch i))
    ⟨rfl, Filled.start _ _ _ _⟩ ?_).2.flagged
  rintro pre f post hframes s ⟨hkept, hfilled⟩
  refine ⟨(storeMsdFrame_keeps f s).1.trans hkept, storeMsdFrame_filled hmsd hfilled ?_⟩
  rw [hkept]
  exact hvoiced _ _ (getElem?_visited hframes)

/-- **The loops of another stream** write the cells of its coefficients, with the flag of the
first state of a model, and leave the rest as it was. -/
theorem storeStream_gv_switch (hmsd : stream.msd_flag = false) (hread : queue.read < queue.length)
    (t : Nat) :
    (storeStream queue window i stream total memory).memory.gv_switch i t
      = if t < coefficientsOf stream then lastFlag i (frames queue window) (memory.gv_switch i t)
        else memory.gv_switch i t := by
  have hnot : ¬ stream.msd_flag = true := by
    rw [hmsd]
    exact Bool.false_ne_true
  rw [storeStream, if_neg hnot, forModels_forFrames_eq hread]
  refine foldl_prefix_induction (fun pre (s : Rows) => s.memory.gv_switch i t =
    if t < coefficientsOf stream then lastFlag i pre (memory.gv_switch i t)
    else memory.gv_switch i t) ?_ ?_
  · exact (ite_self _).symm
  · intro pre f post _ s hs
    simp only [storeFrame, Function.update_self, storeCells_apply, lastFlag_concat]
    -- a cell of a coefficient is written anew by every frame, the others by none
    by_cases ht : t < coefficientsOf stream
    · rw [if_pos ht]
      exact if_pos ht
    · rw [if_neg ht] at hs ⊢
      exact (if_neg ht).trans hs

/-- The loops of a stream leave the flags of the others. -/
theorem storeStream_gv_switch_of_ne (hread : queue.read < queue.length) {j : Nat} (hj : j ≠ i) :
    (storeStream queue window i stream total memory).memory.gv_switch j = memory.gv_switch j := by
  rw [storeStream]
  split
  · rw [forModels_forFrames_eq hread]
    refine foldl_invariant (I := fun s : Rows => s.memory.gv_switch j = memory.gv_switch j)
      (fun s f hs => ?_) _ _ rfl
    exact ((storeMsdFrame_keeps f s).2 j hj).trans hs
  · rw [forModels_forFrames_eq hread]
    refine foldl_invariant (I := fun s : Rows => s.memory.gv_switch j = memory.gv_switch j)
      (fun s f hs => ?_) _ _ rfl
    exact (Function.update_of_ne hj _ _).trans hs

/-- The first pass leaves all flags. -/
theorem markVoicing_gv_switch (hread : queue.read < queue.length) :
    (markVoicing queue window msd_threshold memory).memory.gv_switch = memory.gv_switch := by
  rw [markVoicing, forModels_eq hread]
  refine foldl_invariant (I := fun s : Voicing => s.memory.gv_switch = memory.gv_switch)
    (fun s w hs => ?_) _ _ rfl
  show (forFrames w (modelAt queue w) (markFrame msd_threshold) s).memory.gv_switch = _
  rw [forFrames_eq]
  refine foldl_invariant (I := fun s : Voicing => s.memory.gv_switch = memory.gv_switch)
    (fun s f hs => ?_) _ _ hs
  exact hs

end Loops

/-- What the loops of stream `i` find: the voicing of the frames, and the flags of the stream
as they were before the call. -/
structure FlagsFound (msd_threshold : Nat → ℚ) (fs : List WindowFrame) (i : Nat)
    (old : Nat → Bool) (memory : Memory) : Prop where
  voiced_eq : ∀ t f, fs[t]? = some f → memory.voiced_unvoiced t = voiced msd_threshold f.state
  gv_switch_eq : memory.gv_switch i = old

/-- **Stream by stream**: a problem is assigned after the loops of its own stream. -/
theorem optimizeParameters_assign {queue : MemQueue Model} (hread : queue.read < queue.length)
    {backup lookup : Nat} (hsettled : ∀ w < backup + lookup + 1, (modelAt queue w).Settled)
    (ms : ModelSet) (msd_threshold : Nat → ℚ) (memory : Memory) :
    ∀ i < nOfStreams, ∃ total memory',
      FlagsFound msd_threshold (frames queue (backup + lookup + 1)) i (memory.gv_switch i)
          memory' ∧
        (optimizeParameters queue ms msd_threshold backup lookup memory).1 i
          = assign ms i
              (storeStream queue (backup + lookup + 1) i (ms.stream i) total memory') := by
  have hmarked := (markVoicing_marked hread hsettled msd_threshold
    { memory with accesses := [] }).1
  rw [optimizeParameters]
  refine (foldl_range_induction (fun n (r : (Nat → PStream ℚ) × Memory) =>
    (∀ i < n, ∃ total memory',
      FlagsFound msd_threshold (frames queue (backup + lookup + 1)) i (memory.gv_switch i)
          memory' ∧
        r.1 i = assign ms i
          (storeStream queue (backup + lookup + 1) i (ms.stream i) total memory')) ∧
      ∀ j, n ≤ j →
        FlagsFound msd_threshold (frames queue (backup + lookup + 1)) j (memory.gv_switch j) r.2)
    ?_ ?_).1
  · refine ⟨fun i hi => absurd hi (Nat.not_lt_zero i), fun j _ => ⟨hmarked.voiced_eq, ?_⟩⟩
    rw [markVoicing_gv_switch hread]
  -- after stream `n` its problem is assigned, and the flags of the later ones are as found
  · rintro n _ r ⟨hassigned, hfound⟩
    refine ⟨fun i hi => ?_, fun j hj => ⟨?_, ?_⟩⟩
    · rcases Nat.lt_succ_iff_lt_or_eq.mp hi with hlt | rfl
      · simp only [Function.update_of_ne (Nat.ne_of_lt hlt)]
        exact hassigned i hlt
      · simp only [Function.update_self]
        exact ⟨_, r.2, hfound i (Nat.le_refl i), rfl⟩
    · -- the voicing is kept
      intro t f hf
      have hvoiced := (hfound n (Nat.le_refl n)).voiced_eq
      have hkept := (storeStream_stored n (ms.stream n)
        (markVoicing queue (backup + lookup + 1) msd_threshold
          { memory with accesses := [] }).total_duration hread hvoiced).2.voiced_eq
      rw [← hvoiced t f hf]
      exact congrFun hkept t
    · rw [storeStream_gv_switch_of_ne hread (by omega)]
      exact (hfound j (by omega)).gv_switch_eq

-- ---------------------------------------------------------------------------
-- When the flags agree
-- ---------------------------------------------------------------------------

/-- Two problems with the same frames, flags and number of flags. -/
structure SameFlags (pss : PStream ℚ) (pst : Hts.PStream) : Prop where
  length_eq : (pss.length : Int) = pst.length
  gv_switch_eq : ∀ t < pss.length, pss.gv_switch t = pst.gv_switch t
  gv_length_eq : pss.gv_length = pst.gv_length

/-- All flags are set: those of the frames that have rows; and where the flags are written by
coefficient, the one that is written last, and those that were in the cells of the frames
that are not written. -/
structure FlagsSet (i : Nat) (stream : Stream) (msd_threshold : Nat → ℚ) (fs : List WindowFrame)
    (old : Nat → Bool) : Prop where
  owned : ∀ f ∈ rowFrames stream msd_threshold fs, gvFlag i f = true
  written : stream.msd_flag = false → 0 < coefficientsOf stream →
    ∀ f ∈ fs.getLast?, (f.model.state 0).gv_switch_streams i = true
  unwritten : stream.msd_flag = false →
    ∀ t, coefficientsOf stream ≤ t → t < fs.length → old t = true

/-- The same for a list that has a last frame. -/
theorem lastFlag_of_getLast? {fs : List WindowFrame} {f : WindowFrame}
    (hf : f ∈ fs.getLast?) (old : Bool) :
    lastFlag i fs old = (f.model.state 0).gv_switch_streams i := by
  obtain ⟨pre, rfl⟩ := List.getLast?_eq_some_iff.mp hf
  exact lastFlag_concat f old

/-- With the batch synthesiser's flags those of the frames, and all frames counted: it is
enough to look at the flags that are handed over, and at those that are set. -/
theorem sameFlags_and_flagsOf_iff {pss : PStream ℚ} {pst : Hts.PStream} {rows : List WindowFrame}
    (hpss : pss.length = rows.length) (hgv : pss.gv_length = pss.length)
    (hpst : pst.length = rows.length) (hflags : FlagsOf i rows pst.gv_switch pst.gv_length) :
    SameFlags pss pst ∧ FlagsOf i rows pss.gv_switch pss.gv_length ↔
      Flagged i rows pss.gv_switch ∧ ∀ f ∈ rows, gvFlag i f = true := by
  rw [← List.countP_eq_length]
  constructor
  · rintro ⟨-, hof⟩
    refine ⟨hof.flagged, ?_⟩
    rw [← hof.gv_length_eq, hgv, hpss]
  · rintro ⟨hflagged, hset⟩
    -- all rows are counted, so the number is right when all flags are set
    have hnumber : pss.gv_length = rows.countP (gvFlag i) := by rw [hgv, hpss, hset]
    refine ⟨⟨?_, fun t ht => ?_, hnumber.trans hflags.gv_length_eq.symm⟩, hflagged, hnumber⟩
    · rw [hpss, hpst]
    · rw [hpss] at ht
      have hf := List.getElem?_eq_getElem ht
      exact (hflagged t _ hf).trans (hflags.flagged t _ hf).symm

/-- Where the flags are written by coefficient, and all frames have theirs set. -/
theorem flagged_written_iff {fs : List WindowFrame} {n : Nat} {old : Nat → Bool}
    (hset : ∀ f ∈ fs, gvFlag i f = true)
    (hswitch : ∀ t, gv_switch t = if t < n then lastFlag i fs (old t) else old t) :
    Flagged i fs gv_switch ↔
      (0 < n → ∀ f ∈ fs.getLast?, (f.model.state 0).gv_switch_streams i = true) ∧
        ∀ t, n ≤ t → t < fs.length → old t = true := by
  have hflagged : Flagged i fs gv_switch ↔ ∀ t < fs.length, gv_switch t = true := by
    constructor
    · intro h t ht
      rw [h t _ (List.getElem?_eq_getElem ht)]
      exact hset _ (List.getElem_mem ht)
    · intro h t f hf
      rw [h t (List.getElem?_eq_some_iff.mp hf).1, hset f (List.mem_of_getElem? hf)]
  rw [hflagged]
  constructor
  · intro h
    refine ⟨fun hn f hf => ?_, fun t hn ht => ?_⟩
    · -- the first cell is written, and there is a first frame
      have hfirst := h 0 (List.length_pos_of_mem (List.mem_of_getLast? hf))
      rwa [hswitch, if_pos hn, lastFlag_of_getLast? hf] at hfirst
    · have hcell := h t ht
      rwa [hswitch, if_neg (by omega)] at hcell
  · rintro ⟨hwritten, hunwritten⟩ t ht
    rw [hswitch]
    by_cases hn : t < n
    · have hne : fs ≠ [] := by
        rintro rfl
        exact absurd ht (Nat.not_lt_zero t)
      have hlast := List.getLast?_eq_some_getLast hne
      rw [if_pos hn, lastFlag_of_getLast? hlast]
      exact hwritten (by omega) _ hlast
    · rw [if_neg hn]
      exact hunwritten t (by omega) ht

/-- **When the flags agree.** For every window of settled models, whatever its flags, and for
every stream with global variance: MAGE hands to the solver the flags of the batch
synthesiser, which are those of the states that own the frames, and their number, exactly
when all flags are set. -/
theorem sameFlags_iff {queue : MemQueue Model} (hread : queue.read < queue.length)
    {backup lookup : Nat} (hsettled : ∀ w < backup + lookup + 1, (modelAt queue w).Settled)
    {ms : ModelSet}
    (hmsd : ∀ i < nOfStreams, (ms.stream i).msd_flag = true → i = lf0StreamIndex)
    (msd_threshold gv_weight : Nat → ℚ) (gv : Nat → Nat → Distribution) (memory : Memory) :
    ∀ i < nOfStreams, ms.use_gv i = true →
      let pss := (optimizeParameters queue ms msd_threshold backup lookup memory).1 i
      let pst := Hts.HTS_PStreamSet_create
        (concatenation ms gv (windowStates queue (backup + lookup + 1))) msd_threshold gv_weight i
      let fs := frames queue (backup + lookup + 1)
      SameFlags pss pst ∧
          FlagsOf i (rowFrames (ms.stream i) msd_threshold fs) pss.gv_switch pss.gv_length ↔
        FlagsSet i (ms.stream i) msd_threshold fs (memory.gv_switch i) := by
  intro i hi huse pss pst fs
  -- the batch side is as it should be, so what is left is about MAGE's own flags
  obtain ⟨hlength, hflags⟩ := hts_flagsOf gv msd_threshold gv_weight hsettled (hmsd i hi) huse
  have hpss : pss.length = (rowFrames (ms.stream i) msd_threshold fs).length := by
    rw [length_rowFrames]
    exact ((optimizeParameters_optimized hread hsettled ms msd_threshold memory).handed i
      hi).length_eq
  obtain ⟨total, memory', hfound, hassign⟩ :=
    optimizeParameters_assign hread hsettled ms msd_threshold memory i hi
  have hgv : pss.gv_length = pss.length := by
    show ((optimizeParameters queue ms msd_threshold backup lookup memory).1 i).gv_length
      = ((optimizeParameters queue ms msd_threshold backup lookup memory).1 i).length
    rw [hassign]
    exact if_pos huse
  have hswitch : pss.gv_switch = (storeStream queue (backup + lookup + 1) i (ms.stream i) total
      memory').memory.gv_switch i := by
    show ((optimizeParameters queue ms msd_threshold backup lookup memory).1 i).gv_switch = _
    rw [hassign]
    rfl
  rw [sameFlags_and_flagsOf_iff hpss hgv hlength hflags, hswitch]
  cases hflag : (ms.stream i).msd_flag with
  | true =>
    -- lf0: MAGE's flags are right, so it depends on the number alone
    have hflagged : Flagged i (rowFrames (ms.stream i) msd_threshold fs)
        ((storeStream queue (backup + lookup + 1) i (ms.stream i) total
          memory').memory.gv_switch i) := storeStream_flagged hflag hread hfound.voiced_eq
    constructor
    · exact fun h => ⟨h.2, by simp [hflag], by simp [hflag]⟩
    · exact fun h => ⟨hflagged, h.owned⟩
  | false =>
    -- the other streams: every frame has a row, and the flags are written by coefficient
    have hcells : ∀ t, (storeStream queue (backup + lookup + 1) i (ms.stream i) total
        memory').memory.gv_switch i t =
          if t < coefficientsOf (ms.stream i) then lastFlag i fs (memory.gv_switch i t)
          else memory.gv_switch i t := by
      intro t
      rw [storeStream_gv_switch hflag hread, hfound.gv_switch_eq]
    constructor
    · rintro ⟨hflagged, hset⟩
      rw [rowFrames_eq hflag] at hflagged hset
      obtain ⟨hwritten, hunwritten⟩ := (flagged_written_iff hset hcells).mp hflagged
      exact ⟨by rwa [rowFrames_eq hflag], fun _ => hwritten, fun _ => hunwritten⟩
    · intro h
      have hset := h.owned
      refine ⟨?_, hset⟩
      rw [rowFrames_eq hflag] at hset ⊢
      exact (flagged_written_iff hset hcells).mpr ⟨h.written hflag, h.unwritten hflag⟩

/-- A voice with one static feature and a global variance in every stream. -/
def gvVoice : ModelSet := { plainVoice with gv := some fun _ => ⟨1, 1, fun _ _ _ => 0⟩ }

theorem msd_gvVoice :
    ∀ i < nOfStreams, (gvVoice.stream i).msd_flag = true → i = lf0StreamIndex := msd_plainVoice

/-- The mel-cepstra of a window of three models, whose flags are not set. -/
theorem sameFlags_iff_mixed :
    let pss := (optimizeParameters mixedQueue gvVoice (fun _ => 1 / 2) 2 0 emptyMemory).1
      mgcStreamIndex
    let pst := Hts.HTS_PStreamSet_create (concatenation gvVoice (fun _ _ => default)
      (windowStates mixedQueue 3)) (fun _ => 1 / 2) (fun _ => 1) mgcStreamIndex
    let fs := frames mixedQueue 3
    SameFlags pss pst ∧
        FlagsOf mgcStreamIndex (rowFrames (gvVoice.stream mgcStreamIndex) (fun _ => 1 / 2) fs)
          pss.gv_switch pss.gv_length ↔
      FlagsSet mgcStreamIndex (gvVoice.stream mgcStreamIndex) (fun _ => 1 / 2) fs
        (emptyMemory.gv_switch mgcStreamIndex) :=
  sameFlags_iff (by decide) (fun w _ => settled_mixedQueue w) msd_gvVoice (fun _ => 1 / 2)
    (fun _ => 1) (fun _ _ => default) emptyMemory mgcStreamIndex (by decide) (by decide)

/-- One voiced frame in every state, and the flag of the second state is not set. -/
def gated : Model where
  state s := ⟨1, fun _ => s != 1, fun _ _ => ⟨1, 1, 1⟩, fun _ _ => ⟨1, 1, 1⟩⟩
  duration := 5
  weightsChecked := true
  modelMemory := default

/-- Of five flags four are set: the number of flags is wrong in both kinds of streams, and of
the mel-cepstra only the first flag is written. -/
theorem not_sameFlags_gated :
    gated.Settled ∧
      (∀ i < 2, ((optimizeParameters ⟨[gated], 0, 0, 1⟩ gvVoice (fun _ => 0) 0 0 emptyMemory).1
          i).gv_length ≠
        (Hts.HTS_PStreamSet_create (concatenation gvVoice (fun _ _ => default)
          (windowStates ⟨[gated], 0, 0, 1⟩ 1)) (fun _ => 0) (fun _ => 1) i).gv_length) ∧
      ((optimizeParameters ⟨[gated], 0, 0, 1⟩ gvVoice (fun _ => 0) 0 0 emptyMemory).1
          mgcStreamIndex).gv_switch 2 ≠
        (Hts.HTS_PStreamSet_create (concatenation gvVoice (fun _ _ => default)
          (windowStates ⟨[gated], 0, 0, 1⟩ 1)) (fun _ => 0) (fun _ => 1)
            mgcStreamIndex).gv_switch 2 := by
  refine ⟨⟨by decide, by decide, by decide⟩, by decide, by decide⟩

end Vox.Mage.ModelQueue
