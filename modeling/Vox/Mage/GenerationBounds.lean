import Vox.Mage.ReadBack

/-!
# MAGE — the memory of parameter generation

`ModelQueueMemory` has `maxNumOfFrames` rows for each stream, whatever the labels
say. A model is capped at `maxDuration` frames, so the frames of a window fit
(`length_frames_le`); the counters of the optimiser stay below their number, and the
solver's rows and the rows that the generator reads stay below the length of the
stream.

Main result: `generation_in_bounds`.
-/

namespace Vox.Mage.ModelQueue

open Lib

-- ---------------------------------------------------------------------------
-- The rows that the solver accesses
-- ---------------------------------------------------------------------------

inductive SolverArray
  | mean
  | ivar
  | wum
  | wuw
  | g
  | par
  | gv_switch
  deriving DecidableEq, Repr

variable {K : Type*}

/-- `for( i = 1; i < width && t >= i; i++ )` -/
def backward (width t : Nat) : List Nat := (List.range' 1 (width - 1)).takeWhile (· ≤ t)

/-- `for( i = 1; i < width && t + i < length; i++ )` -/
def forward (width t length : Nat) : List Nat :=
  (List.range' 1 (width - 1)).takeWhile (t + · < length)

def HTS_PStream_calc_wuw_and_wum [Zero K] [DecidableEq K] (pst : PStream K) :
    List (SolverArray × Int) :=
  (List.range pst.length).flatMap fun (t : Nat) =>
    (.wum, (t : Int)) :: (List.range pst.width).map (fun _ => (.wuw, (t : Int))) ++
      (List.range pst.window.size).flatMap fun (i : Nat) =>
        (offsets (pst.window.l_width i) (pst.window.r_width i)).flatMap fun (j : Int) =>
          if 0 ≤ (t : Int) + j ∧ (t : Int) + j < pst.length ∧
              pst.window.coefficient i (-j) ≠ 0 then
            [(.ivar, (t : Int) + j), (.wum, (t : Int)), (.mean, (t : Int) + j)] ++
              ((List.range pst.width).takeWhile (t + · < pst.length)).flatMap fun (k : Nat) =>
                if k - j ≤ pst.window.r_width i ∧ pst.window.coefficient i (k - j) ≠ 0 then
                  [(.wuw, (t : Int))]
                else []
          else []

def HTS_PStream_ldl_factorization (pst : PStream K) : List (SolverArray × Int) :=
  (List.range pst.length).flatMap fun (t : Nat) =>
    (backward pst.width t).flatMap (fun (i : Nat) => [(.wuw, (t : Int)), (.wuw, (t : Int) - i)]) ++
      (List.range' 1 (pst.width - 1)).flatMap fun (i : Nat) =>
        (backward (pst.width - i) t).flatMap
            (fun (j : Nat) => [(.wuw, (t : Int)), (.wuw, (t : Int) - j)]) ++
          [(.wuw, (t : Int))]

def HTS_PStream_forward_substitution (pst : PStream K) : List (SolverArray × Int) :=
  (List.range pst.length).flatMap fun (t : Nat) =>
    [(.g, (t : Int)), (.wum, (t : Int))] ++
      (backward pst.width t).flatMap fun (i : Nat) =>
        [(.g, (t : Int)), (.wuw, (t : Int) - i), (.g, (t : Int) - i)]

def HTS_PStream_backward_substitution (pst : PStream K) : List (SolverArray × Int) :=
  (List.range pst.length).reverse.flatMap fun (t : Nat) =>
    [(.par, (t : Int)), (.g, (t : Int)), (.wuw, (t : Int))] ++
      (forward pst.width t pst.length).flatMap fun (i : Nat) =>
        [(.par, (t : Int)), (.wuw, (t : Int)), (.par, (t : Int) + i)]

/-- The loop `if( gv_switch[t] ) … par[t][m] …`. -/
def switched (pst : PStream K) : List (SolverArray × Int) :=
  (List.range pst.length).flatMap fun (t : Nat) =>
    (.gv_switch, (t : Int)) :: if pst.gv_switch t then [(.par, (t : Int))] else []

def HTS_PStream_calc_gv (pst : PStream K) : List (SolverArray × Int) := switched pst ++ switched pst

def HTS_PStream_conv_gv (pst : PStream K) : List (SolverArray × Int) :=
  HTS_PStream_calc_gv pst ++ switched pst

def HTS_PStream_calc_derivative (pst : PStream K) : List (SolverArray × Int) :=
  HTS_PStream_calc_gv pst ++
    ((List.range pst.length).flatMap fun (t : Nat) =>
      [(.g, (t : Int)), (.wuw, (t : Int)), (.par, (t : Int))] ++
        (List.range' 1 (pst.width - 1)).flatMap fun (i : Nat) =>
          (if t + i < pst.length then
            [(.g, (t : Int)), (.wuw, (t : Int)), (.par, (t : Int) + i)] else []) ++
          (if t + 1 > i then
            [(.g, (t : Int)), (.wuw, (t : Int) - i), (.par, (t : Int) - i)] else [])) ++
    (List.range pst.length).flatMap fun (t : Nat) =>
      [(.par, (t : Int)), (.wum, (t : Int)), (.g, (t : Int)), (.wuw, (t : Int)),
        (.gv_switch, (t : Int))]

def GV_MAX_ITERATION : Nat := 5

def HTS_PStream_gv_parmgen [Zero K] [DecidableEq K] (pst : PStream K) : List (SolverArray × Int) :=
  if pst.gv_length = 0 then []
  else
    HTS_PStream_conv_gv pst ++ HTS_PStream_calc_wuw_and_wum pst ++
      (List.range GV_MAX_ITERATION).flatMap fun _ =>
        HTS_PStream_calc_derivative pst ++
          (List.range pst.length).flatMap fun (t : Nat) => [(.par, (t : Int)), (.g, (t : Int))]

/-- `HTS_PStream_mlpg`: the arrays it accesses, and at which row. -/
def HTS_PStream_mlpg [Zero K] [DecidableEq K] (pst : PStream K) : List (SolverArray × Int) :=
  if pst.length = 0 then []
  else
    (List.range pst.static_length).flatMap fun _ =>
      HTS_PStream_calc_wuw_and_wum pst ++ HTS_PStream_ldl_factorization pst ++
        HTS_PStream_forward_substitution pst ++ HTS_PStream_backward_substitution pst ++
        if pst.gv_length > 0 then HTS_PStream_gv_parmgen pst else []

-- ---------------------------------------------------------------------------
-- Inside the stream
-- ---------------------------------------------------------------------------

/-- All rows are rows of the stream. -/
def WithinLength (pst : PStream K) (rows : List (SolverArray × Int)) : Prop :=
  ∀ a ∈ rows, 0 ≤ a.2 ∧ a.2 < pst.length

section Solver

variable {pst : PStream K} {xs ys : List (SolverArray × Int)}

theorem WithinLength.append (hxs : WithinLength pst xs) (hys : WithinLength pst ys) :
    WithinLength pst (xs ++ ys) := by
  intro a ha
  rcases List.mem_append.mp ha with ha | ha
  · exact hxs a ha
  · exact hys a ha

theorem WithinLength.flatMap {α : Type*} {zs : List α} {f : α → List (SolverArray × Int)}
    (h : ∀ z ∈ zs, WithinLength pst (f z)) : WithinLength pst (zs.flatMap f) := by
  intro a ha
  obtain ⟨z, hz, ha⟩ := List.mem_flatMap.mp ha
  exact h z hz a ha

theorem WithinLength.cons {x : SolverArray × Int} (hx : 0 ≤ x.2 ∧ x.2 < pst.length)
    (hxs : WithinLength pst xs) : WithinLength pst (x :: xs) := by
  intro a ha
  rcases List.mem_cons.mp ha with rfl | ha
  · exact hx
  · exact hxs a ha

theorem WithinLength.nil : WithinLength pst [] := fun _ ha => absurd ha List.not_mem_nil

/-- The loop over earlier frames stops at the first one. -/
theorem mem_backward {width t i : Nat} (h : i ∈ backward width t) : i ≤ t := by
  have hp := List.all_eq_true.mp List.all_takeWhile i h
  exact of_decide_eq_true hp

/-- The loop over later frames stops at the last one. -/
theorem mem_forward {width t length i : Nat} (h : i ∈ forward width t length) :
    t + i < length := by
  have hp := List.all_eq_true.mp List.all_takeWhile i h
  exact of_decide_eq_true hp

/-- A later frame that is still in the window. -/
theorem inside_later {t i : Nat} (h : t + i < pst.length) (array : SolverArray) :
    0 ≤ (array, (t : Int) + i).2 ∧ (array, (t : Int) + i).2 < pst.length :=
  ⟨by simp only; omega, by simp only; omega⟩

theorem inside_earlier {t i : Nat} (ht : t ∈ List.range pst.length) (hi : i ≤ t)
    (array : SolverArray) :
    0 ≤ (array, (t : Int) - i).2 ∧ (array, (t : Int) - i).2 < pst.length := by
  have hlt := List.mem_range.mp ht
  exact ⟨by simp only; omega, by simp only; omega⟩

theorem inside_time {t : Nat} (ht : t ∈ List.range pst.length) (array : SolverArray) :
    0 ≤ (array, (t : Int)).2 ∧ (array, (t : Int)).2 < pst.length := by
  have hlt := List.mem_range.mp ht
  exact ⟨by simp only; omega, by simp only; omega⟩

/-- A frame that the loop backwards reaches. -/
theorem inside_backward {width t i : Nat} (ht : t ∈ List.range pst.length)
    (hi : i ∈ backward width t) (array : SolverArray) :
    0 ≤ (array, (t : Int) - i).2 ∧ (array, (t : Int) - i).2 < pst.length :=
  inside_earlier ht (mem_backward hi) array

theorem withinLength_calc_wuw_and_wum [Zero K] [DecidableEq K] :
    WithinLength pst (HTS_PStream_calc_wuw_and_wum pst) := by
  refine .flatMap fun t ht => ?_
  have hrow := inside_time ht
  refine .append (.cons (hrow _) ?_) (.flatMap fun i _ => .flatMap fun j _ => ?_)
  · intro a ha
    obtain ⟨_, _, rfl⟩ := List.mem_map.mp ha
    exact hrow .wuw
  · -- the other rows are tested first
    split
    · rename_i hin
      have hother : ∀ array : SolverArray,
          0 ≤ (array, (t : Int) + j).2 ∧ (array, (t : Int) + j).2 < pst.length :=
        fun _ => ⟨hin.1, hin.2.1⟩
      refine .append (.cons (hother _) (.cons (hrow _) (.cons (hother _) .nil))) (.flatMap ?_)
      intro k _
      split
      · exact .cons (hrow _) .nil
      · exact .nil
    · exact .nil

theorem withinLength_ldl_factorization : WithinLength pst (HTS_PStream_ldl_factorization pst) := by
  refine .flatMap fun t ht => ?_
  have hrow := inside_time ht
  refine .append (.flatMap fun i hi => .cons (hrow _) (.cons (inside_backward ht hi _) .nil)) ?_
  refine .flatMap fun i _ => .append (.flatMap fun j hj => ?_) (.cons (hrow _) .nil)
  exact .cons (hrow _) (.cons (inside_backward ht hj _) .nil)

theorem withinLength_forward_substitution :
    WithinLength pst (HTS_PStream_forward_substitution pst) := by
  refine .flatMap fun t ht => ?_
  have hrow := inside_time ht
  refine .append (.cons (hrow _) (.cons (hrow _) .nil)) (.flatMap fun i hi => ?_)
  have hback := inside_backward ht hi
  exact .cons (hrow _) (.cons (hback _) (.cons (hback _) .nil))

theorem withinLength_backward_substitution :
    WithinLength pst (HTS_PStream_backward_substitution pst) := by
  refine .flatMap fun t ht => ?_
  have hrow := inside_time (List.mem_reverse.mp ht)
  refine .append (.cons (hrow _) (.cons (hrow _) (.cons (hrow _) .nil))) (.flatMap fun i hi => ?_)
  exact .cons (hrow _) (.cons (hrow _) (.cons (inside_later (mem_forward hi) _) .nil))

theorem withinLength_switched : WithinLength pst (switched pst) := by
  refine .flatMap fun t ht => .cons (inside_time ht _) ?_
  split
  · exact .cons (inside_time ht _) .nil
  · exact .nil

theorem withinLength_calc_gv : WithinLength pst (HTS_PStream_calc_gv pst) :=
  .append withinLength_switched withinLength_switched

/-- The derivative of the objective. -/
theorem withinLength_calc_derivative : WithinLength pst (HTS_PStream_calc_derivative pst) := by
  refine .append (.append withinLength_calc_gv (.flatMap fun t ht => ?_)) (.flatMap fun t ht => ?_)
  · have hrow := inside_time ht
    refine .append (.cons (hrow _) (.cons (hrow _) (.cons (hrow _) .nil))) (.flatMap fun i _ => ?_)
    refine .append ?_ ?_
    · split
      · rename_i hlt
        exact .cons (hrow _) (.cons (hrow _) (.cons (inside_later hlt _) .nil))
      · exact .nil
    · split
      · rename_i hle
        have hback := inside_earlier ht (Nat.lt_succ_iff.mp hle)
        exact .cons (hrow _) (.cons (hback _) (.cons (hback _) .nil))
      · exact .nil
  · have hrow := inside_time ht
    exact .cons (hrow _) (.cons (hrow _) (.cons (hrow _) (.cons (hrow _) (.cons (hrow _) .nil))))

theorem withinLength_gv_parmgen [Zero K] [DecidableEq K] :
    WithinLength pst (HTS_PStream_gv_parmgen pst) := by
  rw [HTS_PStream_gv_parmgen]
  split
  · exact .nil
  · refine .append (.append (.append withinLength_calc_gv withinLength_switched)
      withinLength_calc_wuw_and_wum) (.flatMap fun _ _ => ?_)
    refine .append withinLength_calc_derivative (.flatMap fun t ht => ?_)
    exact .cons (inside_time ht _) (.cons (inside_time ht _) .nil)

/-- The solver accesses rows of the stream only. -/
theorem withinLength_mlpg [Zero K] [DecidableEq K] :
    WithinLength pst (HTS_PStream_mlpg pst) := by
  rw [HTS_PStream_mlpg]
  split
  · exact .nil
  · refine .flatMap fun _ _ => .append (.append (.append (.append withinLength_calc_wuw_and_wum
      withinLength_ldl_factorization) withinLength_forward_substitution)
      withinLength_backward_substitution) ?_
    split
    · exact withinLength_gv_parmgen
    · exact .nil

end Solver

-- ---------------------------------------------------------------------------
-- The frames of a window fit
-- ---------------------------------------------------------------------------

variable {queue : MemQueue Model}

/-- A window of capped models has no more frames than there is memory for. -/
theorem length_frames_le {window nOfBackup nOfLookup : Nat}
    (hwindow : window ≤ nOfBackup + nOfLookup + 1)
    (hsettled : ∀ w < window, (modelAt queue w).Settled)
    (hcapped : ∀ w < window, (modelAt queue w).duration ≤ maxDuration nOfBackup nOfLookup) :
    (frames queue window).length ≤ maxNumOfFrames := by
  -- model by model: each has at most `maxDuration` frames
  have hsum : ∀ n ≤ window, ((frames queue n).length : Int)
      ≤ n * (maxDuration nOfBackup nOfLookup : Int) := by
    intro n hn
    induction n with
    | zero => simp [frames]
    | succ n ih =>
      have hlast := length_framesOf (hsettled n (by omega)) n
      have hcap := hcapped n (by omega)
      have hprev := ih (by omega)
      rw [frames_succ, List.length_append, Nat.cast_add, hlast, Nat.cast_succ, Int.add_mul,
        Int.one_mul]
      omega
  have hall := hsum window (Nat.le_refl _)
  -- and that bound was divided by the number of models
  have hmul : window * maxDuration nOfBackup nOfLookup ≤ maxNumOfFrames :=
    calc window * maxDuration nOfBackup nOfLookup
        ≤ (nOfBackup + nOfLookup + 1) * maxDuration nOfBackup nOfLookup :=
          Nat.mul_le_mul_right _ hwindow
      _ ≤ maxNumOfFrames := Nat.mul_div_le _ _
  refine Int.ofNat_le.mp (hall.trans ?_)
  exact_mod_cast hmul

/-- The windows of MAGE are not wider than the constants say, and hold models that are
in the queue. -/
theorem windowOf_le {nOfBackup nOfLookup numOfItems backup lookup : Nat} {flag : Bool}
    (h : windowOf nOfBackup nOfLookup numOfItems flag = some (backup, lookup)) :
    backup + lookup ≤ nOfBackup + nOfLookup ∧ backup + lookup + 1 ≤ numOfItems := by
  rw [windowOf] at h
  split at h
  · rename_i hmany
    obtain ⟨rfl, rfl⟩ := Prod.mk.inj (Option.some.inj h)
    omega
  · split at h
    · rename_i hfew
      obtain ⟨rfl, rfl⟩ := Prod.mk.inj (Option.some.inj h)
      have hlookup := hfew.1
      omega
    · cases h

-- ---------------------------------------------------------------------------
-- Parameter generation
-- ---------------------------------------------------------------------------

/-- An access of the optimiser inside its memory, and inside the `total` frames of the
window where it looks around. -/
def Access.InBounds (total : Nat) : Access → Prop
  | .voiced_unvoiced frame => frame < maxNumOfFrames
  | .look_around frame => 0 ≤ frame ∧ frame < total
  | .row i frame _ => i < nOfStreams ∧ frame < maxNumOfFrames
  | .gv_switch _ index => index < maxNumOfFrames

/-- An access of the loops is inside the arrays. -/
theorem AccessOf.inBounds {i : Nat} (hi : i < nOfStreams) {stream : Stream}
    (hvector : stream.vector_length ≤ maxStreamLen) {has : WindowFrame → Bool}
    {fs : List WindowFrame} (hfit : fs.length ≤ maxNumOfFrames) {a : Access}
    (h : AccessOf i stream has fs.length fs a) : a.InBounds fs.length := by
  cases a with
  | voiced_unvoiced frame => exact Nat.lt_of_lt_of_le h hfit
  | look_around frame => exact h
  | row j r place =>
    obtain ⟨rfl, t, f, hf, hhas, rfl, -⟩ := h
    exact ⟨hi, Nat.lt_of_lt_of_le (rowOf_lt hf hhas) (List.countP_le_length.trans hfit)⟩
  | gv_switch j index =>
    have hlen : maxStreamLen < maxNumOfFrames := by decide
    have hindex : index < fs.length ∨ index < stream.vector_length := h
    show index < maxNumOfFrames
    omega

/-- Every stream has a row for every frame that the generator reads from it. -/
theorem index_lt {fs : List WindowFrame} {stream : Stream} {i t : Nat} {f : WindowFrame}
    {msd_threshold : Nat → ℚ} (hmsd : stream.msd_flag = true → i = lf0StreamIndex)
    (hf : fs[t]? = some f) (hvoiced : i = lf0StreamIndex → voiced msd_threshold f.state = true) :
    earlier msd_threshold fs i t < fs.countP (hasRow stream msd_threshold) := by
  have hhas : hasRow stream msd_threshold f = true := by
    rw [hasRow]
    cases hflag : stream.msd_flag with
    | true => exact hvoiced (hmsd hflag)
    | false => rfl
  refine Nat.lt_of_le_of_lt ?_ (rowOf_lt hf hhas)
  have ht := (List.getElem?_eq_some_iff.mp hf).1
  -- no frame counted is without a row
  rw [← countP_counts (Nat.le_of_lt ht), rowOf]
  refine List.countP_mono_left fun g _ hcounts => ?_
  rw [hasRow]
  cases hflag : stream.msd_flag with
  | false => rfl
  | true => simpa [counts, hmsd hflag] using hcounts

/--
**Parameter generation stays inside its memory.** However many models are kept and
known, the frames of a window of capped models fit; the optimiser's accesses are in
bounds, those of the solver are inside the memory, and the rows that the generator
reads are rows that were solved. -/
theorem generation_in_bounds (hread : queue.read < queue.length)
    {nOfBackup nOfLookup backup lookup : Nat} (hwindow : backup + lookup ≤ nOfBackup + nOfLookup)
    (hsettled : ∀ w < backup + lookup + 1, (modelAt queue w).Settled)
    (hcapped : ∀ w < backup + lookup + 1,
      (modelAt queue w).duration ≤ maxDuration nOfBackup nOfLookup)
    {ms : ModelSet} (hmsd : ∀ i < nOfStreams, (ms.stream i).msd_flag = true → i = lf0StreamIndex)
    (hvector : ∀ i < nOfStreams, (ms.stream i).vector_length ≤ maxStreamLen)
    (msd_threshold : Nat → ℚ) (memory : Memory) :
    (frames queue (backup + lookup + 1)).length ≤ maxNumOfFrames ∧
      (∀ a ∈ (optimizeParameters queue ms msd_threshold backup lookup memory).2.accesses,
        a.InBounds (frames queue (backup + lookup + 1)).length) ∧
      (∀ i < nOfStreams, ∀ a ∈ HTS_PStream_mlpg
        ((optimizeParameters queue ms msd_threshold backup lookup memory).1 i),
        0 ≤ a.2 ∧ a.2 < maxNumOfFrames) ∧
      ∀ e ∈ generate queue msd_threshold backup, ∀ i < nOfStreams,
        (i = lf0StreamIndex → e.voiced = true) →
          e.index i
            < ((optimizeParameters queue ms msd_threshold backup lookup memory).1 i).length := by
  have hfit : (frames queue (backup + lookup + 1)).length ≤ maxNumOfFrames :=
    length_frames_le (by omega) hsettled hcapped
  have hoptimized := optimizeParameters_optimized hread hsettled ms msd_threshold memory
  refine ⟨hfit, ?_, ?_, ?_⟩
  · intro a ha
    rcases hoptimized.accesses a ha with ⟨t, ht, rfl⟩ | ⟨i, hi, hof⟩
    · exact Nat.lt_of_lt_of_le ht hfit
    · exact hof.inBounds hi (hvector i hi) hfit
  · intro i hi a ha
    -- the solver stays below the length, and the length below the frames
    obtain ⟨hlo, hlt⟩ := withinLength_mlpg a ha
    have hlength := (hoptimized.handed i hi).length_eq
    have hcount : (frames queue (backup + lookup + 1)).countP
        (hasRow (ms.stream i) msd_threshold) ≤ (frames queue (backup + lookup + 1)).length :=
      List.countP_le_length
    exact ⟨hlo, by omega⟩
  · intro e he i hi hv
    -- the index counts the rows before one that exists
    obtain ⟨t, f, hf, -, hvoiced, hindex⟩ := generate_index hsettled he
    rw [hindex i hi, (hoptimized.handed i hi).length_eq]
    exact index_lt (hmsd i hi) hf fun hlf0 => hvoiced.symm.trans (hv hlf0)

/-- Two models kept and none known: forty frames, of which three in each outer model are
unvoiced. -/
theorem generation_in_bounds_mixed :
    (frames mixedQueue (2 + 0 + 1)).length ≤ maxNumOfFrames ∧
      (∀ a ∈ (optimizeParameters mixedQueue deltaVoice (fun _ => 1 / 2) 2 0 emptyMemory).2.accesses,
        a.InBounds (frames mixedQueue (2 + 0 + 1)).length) ∧
      (∀ i < nOfStreams, ∀ a ∈ HTS_PStream_mlpg
        ((optimizeParameters mixedQueue deltaVoice (fun _ => 1 / 2) 2 0 emptyMemory).1 i),
        0 ≤ a.2 ∧ a.2 < maxNumOfFrames) ∧
      ∀ e ∈ generate mixedQueue (fun _ => 1 / 2) 2, ∀ i < nOfStreams,
        (i = lf0StreamIndex → e.voiced = true) →
          e.index i < ((optimizeParameters mixedQueue deltaVoice (fun _ => 1 / 2) 2 0
            emptyMemory).1 i).length := by
  refine @generation_in_bounds mixedQueue (by decide) 2 0 2 0 (by decide)
    (fun w _ => settled_mixedQueue w) ?_ deltaVoice msd_deltaVoice ?_ (fun _ => 1 / 2) emptyMemory
  · decide
  · intro i _
    show 2 ≤ maxStreamLen
    decide

end Vox.Mage.ModelQueue
