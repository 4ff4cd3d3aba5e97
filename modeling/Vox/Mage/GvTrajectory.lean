import Vox.Lib.Moments
import Vox.Mage.Solver
import Vox.Mage.VocoderReset

/-!
# MAGE — trajectories with a global variance

The solution of the equations varies less than speech does. Where a stream has a global variance,
`HTS_PStream_gv_parmgen` stretches the solution around its mean, and then goes a few steps that
weigh the equations against the variance. Both look at the frames whose flag is set.

* `conv_gv_reaches` — stretched, the feature has exactly the variance that is asked for.
* `calc_derivative_eq` — when all flags are set, `HTS_PStream_calc_derivative` returns what the
  steps weigh (`objective`), and divides its slopes.
* `turn_along_derivative` — so that each turn of the iteration goes by the derivative of the
  value that is returned, divided by a number that is negative where the variance is large.
* `column_gv_parmgen_of_ne`, `mlpg_parmgen` — the other features are left alone, so that the
  solver ends with what the iteration makes of the solution of each.

The square root is one of a `Libm`, and has to be one at the argument it is called with.
-/

namespace Vox.Mage.Solver

open Lib ModelQueue Finset

-- ---------------------------------------------------------------------------
-- The loops
-- ---------------------------------------------------------------------------

variable {K : Type*} [Field K]

def STEPINIT : K := 0.1

def STEPDEC : K := 0.5

def STEPINC : K := 1.2

def W1 : K := 1

def W2 : K := 1

def LZERO : K := -10 ^ 10

/-- `HTS_PStream_calc_gv`: `mean` and `vari` -/
def HTS_PStream_calc_gv (pst : PStream K) (m : Nat) (par : Nat → Nat → K) : K × K :=
  let mean := (List.range pst.length).foldl
    (fun mean t => if pst.gv_switch t then mean + par t m else mean) 0 / pst.gv_length
  let vari := (List.range pst.length).foldl
    (fun vari t =>
      if pst.gv_switch t then vari + (par t m - mean) * (par t m - mean) else vari) 0
        / pst.gv_length
  (mean, vari)

def HTS_PStream_conv_gv (libm : Libm K) (pst : PStream K) (m : Nat) (s : SolverMemory K) :
    SolverMemory K :=
  let (mean, vari) := HTS_PStream_calc_gv pst m s.par
  let ratio := libm.sqrt (pst.gv_mean m / vari)
  { s with
    par := (List.range pst.length).foldl
      (fun par t =>
        if pst.gv_switch t then storePar par t m (ratio * (par t m - mean) + mean) else par)
      s.par }

/-- The turn of frame `t` of the first loop of `HTS_PStream_calc_derivative`. -/
def multiplyRow (pst : PStream K) (m : Nat) (s : SolverMemory K) (g : Nat → K) (t : Nat) :
    Nat → K :=
  (List.range' 1 (pst.width - 1)).foldl
    (fun g i =>
      let g := if t + i < pst.length then
          Function.update g t (g t + s.wuw t i * s.par (t + i) m)
        else g
      if t + 1 > i then Function.update g t (g t + s.wuw (t - i) i * s.par (t - i) m) else g)
    (Function.update g t (s.wuw t 0 * s.par t m))

/-- The first loop, which multiplies the matrix with `par`. -/
def multiply (pst : PStream K) (m : Nat) (s : SolverMemory K) : Nat → K :=
  (List.range pst.length).foldl (multiplyRow pst m s) s.g

/-- What a step is divided by, at frame `t`. -/
def curvature (pst : PStream K) (m : Nat) (s : SolverMemory K) (w mean vari : K) (t : Nat) : K :=
  -W1 * w * s.wuw t (1 - 1) - W2 * 2.0 / (pst.length * pst.length)
    * (((pst.length : K) - 1) * pst.gv_vari m * (vari - pst.gv_mean m)
      + 2.0 * pst.gv_vari m * (s.par t m - mean) * (s.par t m - mean))

/-- The turn of frame `t` of the second loop, for `hmmobj` and `g`. -/
def derivativeTurn (pst : PStream K) (m : Nat) (s : SolverMemory K) (w mean vari dv : K)
    (r : K × (Nat → K)) (t : Nat) : K × (Nat → K) :=
  let (hmmobj, g) := r
  let h := curvature pst m s w mean vari t
  (hmmobj + W1 * w * s.par t m * (s.wum t - 0.5 * g t),
    if pst.gv_switch t then
      Function.update g t (1 / h * (W1 * w * (-g t + s.wum t) + W2 * dv * (s.par t m - mean)))
    else Function.update g t (1 / h * (W1 * w * (-g t + s.wum t))))

/-- `HTS_PStream_calc_derivative`: what it returns, and `g`. -/
def HTS_PStream_calc_derivative (pst : PStream K) (m : Nat) (s : SolverMemory K) :
    K × SolverMemory K :=
  let w := 1 / (pst.window.size * pst.length : K)
  let (mean, vari) := HTS_PStream_calc_gv pst m s.par
  let gvobj := -0.5 * W2 * vari * pst.gv_vari m * (vari - 2.0 * pst.gv_mean m)
  let dv := -2.0 * pst.gv_vari m * (vari - pst.gv_mean m) / pst.length
  let (hmmobj, g) := (List.range pst.length).foldl (derivativeTurn pst m s w mean vari dv)
    ((0 : K), multiply pst m s)
  (-(hmmobj + gvobj), { s with g := g })

/-- The loop that goes a step. -/
def goStep (pst : PStream K) (m : Nat) (step : K) (s : SolverMemory K) : SolverMemory K :=
  { s with
    par := (List.range pst.length).foldl
      (fun par t => storePar par t m (par t m + step * s.g t)) s.par }

/-- A turn of the iteration, on the memory, `step` and `prev`. -/
def gvTurn [LinearOrder K] (pst : PStream K) (m : Nat) (r : SolverMemory K × K × K) :
    SolverMemory K × K × K :=
  let (s, step, prev) := r
  let (obj, s) := HTS_PStream_calc_derivative pst m s
  let step := if obj > prev then step * STEPDEC else step
  let step := if obj < prev then step * STEPINC else step
  (goStep pst m step s, step, obj)

def HTS_PStream_gv_parmgen [LinearOrder K] (libm : Libm K) (pst : PStream K) (m : Nat)
    (s : SolverMemory K) : SolverMemory K :=
  if pst.gv_length = 0 then s
  else
    let s := HTS_PStream_conv_gv libm pst m s
    if GV_MAX_ITERATION > 0 then
      let s := HTS_PStream_calc_wuw_and_wum pst m s
      ((List.range GV_MAX_ITERATION).foldl (fun r _ => gvTurn pst m r) (s, STEPINIT, -LZERO)).1
    else s

theorem decimal_two [CharZero K] : (2.0 : K) = 2 := by norm_num

theorem decimal_half [CharZero K] : (0.5 : K) = 1 / 2 := by norm_num

-- ---------------------------------------------------------------------------
-- Mean and variance
-- ---------------------------------------------------------------------------

variable {pst : PStream K} {m : Nat}

/-- The frames whose flag is set. -/
def flagged (pst : PStream K) : Finset Nat := (range pst.length).filter (pst.gv_switch · = true)

/-- The loop sums over the frames whose GV is on. -/
theorem foldl_flagged (f : Nat → K) :
    (List.range pst.length).foldl (fun a t => if pst.gv_switch t then a + f t else a) 0
      = ∑ t ∈ flagged pst, f t := by
  rw [flagged, sum_filter]
  refine foldl_range_induction (fun n (a : K) =>
    a = ∑ t ∈ range n, if pst.gv_switch t then f t else 0) rfl fun n _ a ha => ?_
  rw [sum_range_succ, ← ha]
  split
  · rfl
  · rw [add_zero]

/-- `gv_length` is the number of flags. -/
theorem calc_gv_eq (hlength : pst.gv_length = #(flagged pst)) (par : Nat → Nat → K) :
    HTS_PStream_calc_gv pst m par
      = (mean (flagged pst) (column par m), variance (flagged pst) (column par m)) := by
  have hmean : (List.range pst.length).foldl
        (fun mean t => if pst.gv_switch t then mean + par t m else mean) 0 / (pst.gv_length : K)
      = mean (flagged pst) (column par m) := by
    rw [foldl_flagged fun t => par t m, hlength]
    rfl
  rw [HTS_PStream_calc_gv, hmean, foldl_flagged fun t =>
    (par t m - mean (flagged pst) (column par m)) * (par t m - mean (flagged pst) (column par m)),
    hlength]
  simp only [← pow_two]
  rfl

-- ---------------------------------------------------------------------------
-- The stretched solution
-- ---------------------------------------------------------------------------

omit [Field K] in
/-- A loop over the frames that changes feature `m` at some of them, from its own value. -/
theorem column_foldl_storePar (c : Nat → Prop) [DecidablePred c] (v : Nat → K → K)
    (par : Nat → Nat → K) (n : Nat) :
    (∀ t, column ((List.range n).foldl
        (fun par t => if c t then storePar par t m (v t (par t m)) else par) par) m t
      = if t < n ∧ c t then v t (column par m t) else column par m t) ∧
    ∀ m' ≠ m, column ((List.range n).foldl
        (fun par t => if c t then storePar par t m (v t (par t m)) else par) par) m'
      = column par m' := by
  refine foldl_range_induction (fun n (r : Nat → Nat → K) =>
    (∀ t, column r m t = if t < n ∧ c t then v t (column par m t) else column par m t) ∧
      ∀ m' ≠ m, column r m' = column par m')
    ⟨fun t => by rw [if_neg (by omega)], fun _ _ => rfl⟩ ?_
  -- frame by frame: a cell is written in its own turn or never
  rintro n _ r ⟨hown, hother⟩
  split
  next hc =>
    refine ⟨fun t => ?_, fun m' hm' => ?_⟩
    · rw [column_storePar]
      by_cases ht : t = n
      · subst ht
        rw [Function.update_self, if_pos ⟨Nat.lt_succ_self t, hc⟩]
        exact congrArg (v t) ((hown t).trans (if_neg (by omega)))
      · have hlt : (t < n + 1 ∧ c t) ↔ (t < n ∧ c t) := by
          refine and_congr_left fun _ => ?_
          omega
        rw [Function.update_of_ne ht, hown t]
        simp only [hlt]
    · rw [column_storePar_of_ne _ _ hm', hother m' hm']
  next hc =>
    refine ⟨fun t => ?_, hother⟩
    have hlt : (t < n + 1 ∧ c t) ↔ (t < n ∧ c t) := by
      refine and_congr_left fun ht => ?_
      have hne : t ≠ n := fun h => hc (h ▸ ht)
      omega
    rw [hown t]
    simp only [hlt]

/-- What `HTS_PStream_conv_gv` leaves. -/
theorem conv_gv_spec (libm : Libm K) (s : SolverMemory K) :
    (∀ t, column (HTS_PStream_conv_gv libm pst m s).par m t = if t ∈ flagged pst then
        libm.sqrt (pst.gv_mean m / (HTS_PStream_calc_gv pst m s.par).2)
            * (column s.par m t - (HTS_PStream_calc_gv pst m s.par).1)
          + (HTS_PStream_calc_gv pst m s.par).1
        else column s.par m t) ∧
      ∀ m' ≠ m, column (HTS_PStream_conv_gv libm pst m s).par m' = column s.par m' := by
  obtain ⟨hown, hother⟩ := column_foldl_storePar (m := m) (pst.gv_switch · = true)
    (fun _ v => libm.sqrt (pst.gv_mean m / (HTS_PStream_calc_gv pst m s.par).2)
        * (v - (HTS_PStream_calc_gv pst m s.par).1)
      + (HTS_PStream_calc_gv pst m s.par).1) s.par pst.length
  refine ⟨fun t => (hown t).trans ?_, hother⟩
  simp only [flagged, mem_filter, mem_range]

/-- **The variance that is asked for.** With as many flags as `gv_length` says, the stretched
feature has the global variance of the model over the flagged frames, and the mean it had.
The other frames and the other features are as before. -/
theorem conv_gv_reaches [CharZero K] {libm : Libm K} (hlength : pst.gv_length = #(flagged pst))
    (hpos : 0 < pst.gv_length) (s : SolverMemory K)
    (hvari : (HTS_PStream_calc_gv pst m s.par).2 ≠ 0)
    (hsqrt : libm.sqrt (pst.gv_mean m / (HTS_PStream_calc_gv pst m s.par).2) ^ 2
      = pst.gv_mean m / (HTS_PStream_calc_gv pst m s.par).2) :
    HTS_PStream_calc_gv pst m (HTS_PStream_conv_gv libm pst m s).par
        = ((HTS_PStream_calc_gv pst m s.par).1, pst.gv_mean m) ∧
      (∀ t, ¬ (t < pst.length ∧ pst.gv_switch t = true) →
        column (HTS_PStream_conv_gv libm pst m s).par m t = column s.par m t) ∧
      ∀ m' ≠ m, column (HTS_PStream_conv_gv libm pst m s).par m' = column s.par m' := by
  obtain ⟨hown, hother⟩ := @conv_gv_spec _ _ pst m libm s
  refine ⟨?_, fun t ht => ?_, hother⟩
  · have hcard : (#(flagged pst) : K) ≠ 0 := by
      rw [← hlength]
      exact_mod_cast hpos.ne'
    have hmoments := calc_gv_eq (m := m) hlength s.par
    set ratio := libm.sqrt (pst.gv_mean m / (HTS_PStream_calc_gv pst m s.par).2)
    rw [hmoments] at hown hvari hsqrt ⊢
    -- the flagged frames are stretched about their mean
    have hstretched : ∀ t ∈ flagged pst, column (HTS_PStream_conv_gv libm pst m s).par m t
        = ratio * (column s.par m t - mean (flagged pst) (column s.par m))
          + mean (flagged pst) (column s.par m) := fun t ht => (hown t).trans (if_pos ht)
    rw [calc_gv_eq hlength, mean_congr hstretched, variance_congr hstretched, mean_stretch hcard,
      variance_stretch hcard, hsqrt, div_mul_cancel₀ _ hvari]
  · refine (hown t).trans (if_neg fun hmem => ht ?_)
    rwa [flagged, mem_filter, mem_range] at hmem

/-- A stream of three frames, all of them with their flag. -/
def gvStream : PStream K :=
  { deltaStream with
    gv_length := 3
    gv_mean := fun _ => 5
    gv_vari := fun _ => 1
    gv_switch := fun _ => true }

/-- A solution that goes up. -/
def rampMemory : SolverMemory K := ⟨fun _ => 0, fun _ _ => 0, fun _ => 0, fun t _ => t⟩

theorem vari_rampMemory :
    (HTS_PStream_calc_gv (gvStream : PStream ℝ) 0 rampMemory.par).2 = 2 / 3 := by
  have hrange : List.range 3 = [0, 1, 2] := rfl
  simp only [HTS_PStream_calc_gv, gvStream, rampMemory, deltaStream, hrange, List.foldl]
  norm_num

/-- The variance goes from 2/3 to 5. -/
theorem conv_gv_reaches_gvStream :
    let pst : PStream ℝ := gvStream
    HTS_PStream_calc_gv pst 0 (HTS_PStream_conv_gv Libm.real pst 0 rampMemory).par
        = ((HTS_PStream_calc_gv pst 0 rampMemory.par).1, 5) ∧
      (∀ t, ¬ (t < 3 ∧ pst.gv_switch t = true) →
        column (HTS_PStream_conv_gv Libm.real pst 0 rampMemory).par 0 t
          = column rampMemory.par 0 t) ∧
      ∀ m' ≠ 0, column (HTS_PStream_conv_gv Libm.real pst 0 rampMemory).par m'
        = column rampMemory.par m' := by
  intro pst
  have hvari : (HTS_PStream_calc_gv pst 0 rampMemory.par).2 = 2 / 3 := vari_rampMemory
  refine conv_gv_reaches (by decide) (by decide) rampMemory ?_ ?_
  · rw [hvari]
    norm_num
  · rw [hvari]
    exact Real.sq_sqrt (show (0 : ℝ) ≤ 5 / (2 / 3) by norm_num)

-- ---------------------------------------------------------------------------
-- What a step goes by
-- ---------------------------------------------------------------------------

/-- A loop that adds to a cell. -/
theorem foldl_add_cell {turn : (Nat → K) → Nat → Nat → K} {items : List Nat} {t : Nat}
    (f : Nat → K) (hturn : ∀ i ∈ items, ∀ g, turn g i = Function.update g t (g t + f i))
    (g : Nat → K) : items.foldl turn g = Function.update g t (g t + (items.map f).sum) := by
  induction items generalizing g with
  | nil => simp
  | cons i items ih =>
    rw [List.foldl_cons, hturn i List.mem_cons_self,
      ih fun j hj => hturn j (List.mem_cons_of_mem i hj), Function.update_self,
      Function.update_idem, List.map_cons, List.sum_cons, add_assoc]

/-- What turn `i` adds: the frame that is `i` later, and the one that is `i` earlier. -/
def bandTerm (pst : PStream K) (m : Nat) (s : SolverMemory K) (t i : Nat) : K :=
  (if t + i < pst.length then s.wuw t i * s.par (t + i) m else 0)
    + if t + 1 > i then s.wuw (t - i) i * s.par (t - i) m else 0

/-- The turn of a frame stores one number, which does not depend on the others. -/
theorem multiplyRow_eq (s : SolverMemory K) (g : Nat → K) (t : Nat) :
    multiplyRow pst m s g t = Function.update g t
      (s.wuw t 0 * s.par t m + ∑ i ∈ Ico 1 pst.width, bandTerm pst m s t i) := by
  have hindices : ∀ i, i ∈ List.range' 1 (pst.width - 1) ↔ i ∈ Ico 1 pst.width := by
    intro i
    rw [List.mem_range'_1, mem_Ico]
    omega
  rw [multiplyRow, foldl_add_cell (bandTerm pst m s t) fun i _ g => ?_, Function.update_self,
    Function.update_idem, sum_map_of_mem_iff List.nodup_range' hindices]
  unfold bandTerm
  by_cases hon : t + i < pst.length <;> by_cases hback : t + 1 > i <;>
    simp [hon, hback, add_assoc]

/-- A row of the matrix, from the band. -/
theorem multiply_eq {A : Nat → Nat → K} {s : SolverMemory K}
    (h : BandOf pst.width pst.length A s.wuw)
    (hwidth : 0 < pst.width) (hsymm : ∀ t t', A t t' = A t' t) {t : Nat} (ht : t < pst.length) :
    multiply pst m s t = ∑ t' ∈ range pst.length, A t t' * column s.par m t' := by
  obtain ⟨hfilled, -⟩ := foldl_fill (List.nodup_range (n := pst.length))
    (f := fun (_ : Nat → K) t => s.wuw t 0 * s.par t m
      + ∑ i ∈ Ico 1 pst.width, bandTerm pst m s t i) (fun _ _ _ _ _ _ _ => rfl) s.g
  have hturns : multiply pst m s = (List.range pst.length).foldl (fun g t => Function.update g t
      (s.wuw t 0 * s.par t m + ∑ i ∈ Ico 1 pst.width, bandTerm pst m s t i)) s.g :=
    List.foldl_ext _ _ _ fun g t _ => multiplyRow_eq s g t
  rw [hturns, hfilled t (List.mem_range.mpr ht)]
  unfold bandTerm
  rw [sum_add_distrib]
  -- the frames behind, and the frames before
  have hon : ∑ i ∈ Ico 1 pst.width,
        (if t + i < pst.length then s.wuw t i * s.par (t + i) m else 0)
      = ∑ t' ∈ Ico (t + 1) pst.length, A t t' * column s.par m t' := by
    have hcut : ∑ i ∈ Ico 1 pst.width,
          (if t + i < pst.length then s.wuw t i * s.par (t + i) m else 0)
        = ∑ i ∈ Ico 1 (min pst.width (pst.length - t)), s.wuw t i * s.par (t + i) m := by
      rw [← sum_filter]
      refine sum_congr (Finset.ext fun i => ?_) fun _ _ => rfl
      rw [mem_filter, mem_Ico, mem_Ico]
      omega
    rw [hcut, sum_on pst.width pst.length t fun i t' => s.wuw t i * s.par t' m]
    refine sum_congr rfl fun t' ht' => ?_
    have ht' := mem_Ico.mp ht'
    by_cases hband : t' < t + pst.width
    · rw [if_pos hband, h.inside t (t' - t) (by omega) (by omega),
        show t + (t' - t) = t' by omega, hsymm t' t, column]
    · rw [if_neg hband, hsymm t t', h.outside t t' (by omega), zero_mul]
  have hback : ∑ i ∈ Ico 1 pst.width,
        (if t + 1 > i then s.wuw (t - i) i * s.par (t - i) m else 0)
      = ∑ t' ∈ range t, A t t' * column s.par m t' := by
    have hcut : ∑ i ∈ Ico 1 pst.width,
          (if t + 1 > i then s.wuw (t - i) i * s.par (t - i) m else 0)
        = ∑ i ∈ Ico 1 (min pst.width (t + 1)), s.wuw (t - i) i * s.par (t - i) m := by
      rw [← sum_filter]
      refine sum_congr (Finset.ext fun i => ?_) fun _ _ => rfl
      rw [mem_filter, mem_Ico, mem_Ico]
      omega
    rw [hcut, sum_back pst.width t fun i t' => s.wuw t' i * s.par t' m]
    refine sum_congr rfl fun t' ht' => ?_
    have ht' := mem_range.mp ht'
    by_cases hband : t < t' + pst.width
    · rw [if_pos hband, h.inside t' (t - t') (by omega) (by omega),
        show t' + (t - t') = t by omega, column]
    · rw [if_neg hband, h.outside t' t (by omega), zero_mul]
  have hself : s.wuw t 0 * s.par t m = A t t * column s.par m t := by
    rw [h.inside t 0 hwidth ht, Nat.add_zero, column]
  rw [hon, hback, hself, ← sum_range_add_sum_Ico _ (Nat.succ_le_of_lt ht), sum_range_succ]
  ring

/-- The number of a step for frame `t`: how the sum of both parts changes with its value. -/
def slope (pst : PStream K) (m : Nat) (c : Nat → K) (t : Nat) : K :=
  W1 * (1 / (pst.window.size * pst.length)) * (wumOf pst m t
      - ∑ t' ∈ range pst.length, wuwOf pst m t t' * c t')
    + W2 * (-2.0 * pst.gv_vari m * (variance (range pst.length) c - pst.gv_mean m) / pst.length)
      * (c t - mean (range pst.length) c)

/-- What the steps weigh: how well the equations are met, and how far the variance is off. -/
def objective (pst : PStream K) (m : Nat) (c : Nat → K) : K :=
  -(W1 * (1 / (pst.window.size * pst.length)) * (0.5 * ∑ t ∈ range pst.length,
      c t * (2.0 * wumOf pst m t - ∑ t' ∈ range pst.length, wuwOf pst m t t' * c t'))
    + W2 * (-0.5 * pst.gv_vari m * variance (range pst.length) c
      * (variance (range pst.length) c - 2.0 * pst.gv_mean m)))

/-- **The slope is the derivative**, along any line. -/
theorem hasDerivAt_objective {K : Type*} [NontriviallyNormedField K] [CharZero K] {pst : PStream K}
    (hpos : 0 < pst.length) (c v : Nat → K) :
    HasDerivAt (fun e => objective pst m fun t => c t + e * v t)
      (-∑ t ∈ range pst.length, slope pst m c t * v t) 0 := by
  have hcard : (#(range pst.length) : K) ≠ 0 := by
    rw [card_range]
    exact_mod_cast hpos.ne'
  -- the quadratic term, whose matrix is symmetric
  have hquadratic := hasDerivAt_quadratic (s := range pst.length) (x := c) (v := v)
    (wuwOf_comm pst m) (wumOf pst m)
  -- the variance term, a product
  have hvariance := hasDerivAt_variance (s := range pst.length) (x := c) (v := v) hcard
  have hgv := (hvariance.const_mul (-(1 / 2) * pst.gv_vari m)).fun_mul
    (hvariance.sub_const (2 * pst.gv_mean m))
  have hboth := ((hquadratic.const_mul (1 / 2)).const_mul
    ((W1 : K) * (1 / (pst.window.size * pst.length)))).fun_add (hgv.const_mul (W2 : K))
  simp only [objective, decimal_two, decimal_half]
  refine hboth.fun_neg.congr_deriv ?_
  simp only [zero_mul, add_zero, card_range]
  -- the two rates together are the slope
  have hsum : ∑ t ∈ range pst.length, slope pst m c t * v t
      = W1 * (1 / (pst.window.size * pst.length)) * (1 / 2 * ∑ t ∈ range pst.length,
          2 * (wumOf pst m t - ∑ t' ∈ range pst.length, wuwOf pst m t t' * c t') * v t)
        + W2 * (-pst.gv_vari m * (variance (range pst.length) c - pst.gv_mean m)
          * ((∑ t ∈ range pst.length, 2 * (c t - mean (range pst.length) c) * v t)
            / pst.length)) := by
    rw [mul_sum, mul_sum, sum_div, mul_sum, mul_sum, ← sum_add_distrib]
    refine sum_congr rfl fun t _ => ?_
    rw [slope, decimal_two]
    ring
  rw [hsum]
  ring

-- ---------------------------------------------------------------------------
-- The steps
-- ---------------------------------------------------------------------------

/-- The matrix and the right hand side are in the arrays. -/
structure Assembled (pst : PStream K) (m : Nat) (s : SolverMemory K) : Prop where
  wum : ∀ t < pst.length, s.wum t = wumOf pst m t
  band : BandOf pst.width pst.length (wuwOf pst m) s.wuw

/-- A step moves the column along the derivative that was stored. -/
theorem column_goStep (step : K) (s : SolverMemory K) :
    (∀ t, column (goStep pst m step s).par m t
        = if t < pst.length then column s.par m t + step * s.g t else column s.par m t) ∧
      ∀ m' ≠ m, column (goStep pst m step s).par m' = column s.par m' := by
  obtain ⟨hown, hother⟩ := column_foldl_storePar (m := m) (fun _ => True)
    (fun t v => v + step * s.g t) s.par pst.length
  simp only [and_true, if_true] at hown hother
  exact ⟨hown, hother⟩

/-- Every frame has its flag set, and `gv_length` counts them. -/
structure AllFlagged (pst : PStream K) : Prop where
  gv_switch : ∀ t < pst.length, pst.gv_switch t = true
  gv_length_eq : pst.gv_length = pst.length

omit [Field K] in
/-- With the switch on everywhere the frames are all of them. -/
theorem AllFlagged.flagged_eq (h : AllFlagged pst) : flagged pst = range pst.length :=
  filter_true_of_mem fun t ht => h.gv_switch t (mem_range.mp ht)

/-- What `HTS_PStream_calc_gv` computes when all flags are set. -/
theorem AllFlagged.calc_gv_eq (h : AllFlagged pst) (par : Nat → Nat → K) :
    HTS_PStream_calc_gv pst m par
      = (mean (range pst.length) (column par m), variance (range pst.length) (column par m)) := by
  rw [Solver.calc_gv_eq (by rw [h.flagged_eq, card_range, h.gv_length_eq]), h.flagged_eq]

/-- What the slope of frame `t` is divided by. -/
def curvatureAt (pst : PStream K) (m : Nat) (s : SolverMemory K) : Nat → K :=
  curvature pst m s (1 / (pst.window.size * pst.length)) (HTS_PStream_calc_gv pst m s.par).1
    (HTS_PStream_calc_gv pst m s.par).2

/-- The second loop, when all flags are set: each turn uses what the first loop left. -/
theorem AllFlagged.foldl_derivativeTurn (hall : AllFlagged pst) (s : SolverMemory K)
    (w mean vari dv : K) (g : Nat → K) :
    ((List.range pst.length).foldl (derivativeTurn pst m s w mean vari dv) (0, g)).1
        = ∑ t ∈ range pst.length, W1 * w * s.par t m * (s.wum t - 0.5 * g t) ∧
      ∀ t, ((List.range pst.length).foldl (derivativeTurn pst m s w mean vari dv) (0, g)).2 t
        = if t < pst.length then 1 / curvature pst m s w mean vari t
            * (W1 * w * (-g t + s.wum t) + W2 * dv * (s.par t m - mean))
          else g t := by
  refine foldl_range_induction (fun n (r : K × (Nat → K)) =>
    r.1 = ∑ t ∈ range n, W1 * w * s.par t m * (s.wum t - 0.5 * g t) ∧
      ∀ t, r.2 t = if t < n then 1 / curvature pst m s w mean vari t
          * (W1 * w * (-g t + s.wum t) + W2 * dv * (s.par t m - mean))
        else g t) ⟨rfl, fun t => by rw [if_neg (Nat.not_lt_zero t)]⟩ ?_
  rintro n hn r ⟨hobj, hcells⟩
  -- the cell of the frame still has the number of the first loop
  have hown : r.2 n = g n := (hcells n).trans (if_neg (lt_irrefl n))
  rw [derivativeTurn]
  dsimp only
  rw [if_pos (hall.gv_switch n hn), sum_range_succ, hobj, hown]
  refine ⟨rfl, fun t => ?_⟩
  by_cases ht : t = n
  · rw [ht, Function.update_self, if_pos (Nat.lt_succ_self n)]
  · rw [Function.update_of_ne ht, hcells t]
    simp only [show t < n + 1 ↔ t < n by omega]

variable [LinearOrder K]

/-- The equations of a solvable stream are set up. -/
theorem Solvable.assembled (h : Solvable pst m) (s : SolverMemory K) :
    Assembled pst m (HTS_PStream_calc_wuw_and_wum pst m s) :=
  ⟨fun t ht => ((h.calc_spec s).1 t ht).1, h.bandOf_calc s⟩

/-- **A turn** goes on with the same equations. -/
theorem Assembled.gvTurn {r : SolverMemory K × K × K} (h : Assembled pst m r.1) :
    Assembled pst m (gvTurn pst m r).1 := ⟨h.wum, h.band⟩

/-- **What `HTS_PStream_calc_derivative` computes**, when all flags are set. -/
theorem calc_derivative_eq [IsStrictOrderedRing K] (h : Solvable pst m) (hall : AllFlagged pst)
    {s : SolverMemory K} (ha : Assembled pst m s) :
    (HTS_PStream_calc_derivative pst m s).1 = objective pst m (column s.par m) ∧
      ∀ t < pst.length, (HTS_PStream_calc_derivative pst m s).2.g t
        = 1 / curvatureAt pst m s t * slope pst m (column s.par m) t := by
  -- the loops over the band multiply with the whole matrix
  have hmultiply : ∀ t < pst.length, multiply pst m s t
      = ∑ t' ∈ range pst.length, wuwOf pst m t t' * column s.par m t' := fun t ht =>
    multiply_eq ha.band h.width_pos (wuwOf_comm pst m) ht
  set w : K := 1 / (pst.window.size * pst.length)
  obtain ⟨hsum, hg⟩ := hall.foldl_derivativeTurn (m := m) s w (HTS_PStream_calc_gv pst m s.par).1
    (HTS_PStream_calc_gv pst m s.par).2 (-2.0 * pst.gv_vari m
      * ((HTS_PStream_calc_gv pst m s.par).2 - pst.gv_mean m) / pst.length) (multiply pst m s)
  refine ⟨?_, fun t ht => ?_⟩
  · refine (congrArg (fun x => -(x + -0.5 * W2 * (HTS_PStream_calc_gv pst m s.par).2
      * pst.gv_vari m * ((HTS_PStream_calc_gv pst m s.par).2 - 2.0 * pst.gv_mean m))) hsum).trans ?_
    -- the first part of the objective
    have hterms : ∑ t ∈ range pst.length,
          W1 * w * s.par t m * (s.wum t - 0.5 * multiply pst m s t)
        = W1 * w * (0.5 * ∑ t ∈ range pst.length, column s.par m t * (2.0 * wumOf pst m t
          - ∑ t' ∈ range pst.length, wuwOf pst m t t' * column s.par m t')) := by
      rw [mul_sum, mul_sum]
      refine sum_congr rfl fun t ht => ?_
      rw [hmultiply t (mem_range.mp ht), ha.wum t (mem_range.mp ht), column, decimal_two,
        decimal_half]
      ring
    rw [hterms, hall.calc_gv_eq, objective, decimal_two, decimal_half]
    ring
  · refine ((hg t).trans (if_pos ht)).trans ?_
    rw [hmultiply t ht, ha.wum t ht, curvatureAt, hall.calc_gv_eq, slope, column, decimal_two]
    ring

/-- A frame is seen by a window. -/
theorem Solvable.diagonal_pos [IsStrictOrderedRing K] (h : Solvable pst m) {t : Nat}
    (ht : t < pst.length) : 0 < wuwOf pst m t t := by
  have hpos := h.positiveOn_wuwOf (Pi.single t 1) ⟨t, ht, by simp⟩
  simpa [Pi.single_apply, ht] using hpos

/-- While the variance is above its mean the curvature is negative. -/
theorem curvatureAt_neg [IsStrictOrderedRing K] (h : Solvable pst m) (hpos : 0 < pst.length)
    {s : SolverMemory K} (ha : Assembled pst m s) (hvari : 0 ≤ pst.gv_vari m)
    (hle : pst.gv_mean m ≤ (HTS_PStream_calc_gv pst m s.par).2) {t : Nat} (ht : t < pst.length) :
    curvatureAt pst m s t < 0 := by
  have hone : (1 : K) ≤ pst.length := by exact_mod_cast hpos
  have hsize : (0 : K) < pst.window.size := by exact_mod_cast h.size_pos
  -- a positive diagonal
  have hfirst : 0 < 1 / (pst.window.size * pst.length : K) * s.wuw t 0 := by
    rw [ha.band.inside t 0 h.width_pos ht, Nat.add_zero]
    exact mul_pos (by positivity) (h.diagonal_pos ht)
  -- and a term that is not negative, as the variance is not below its mean
  have hsecond : 0 ≤ 2.0 / (pst.length * pst.length : K)
      * (((pst.length : K) - 1) * pst.gv_vari m
          * ((HTS_PStream_calc_gv pst m s.par).2 - pst.gv_mean m)
        + 2.0 * pst.gv_vari m * (s.par t m - (HTS_PStream_calc_gv pst m s.par).1)
          * (s.par t m - (HTS_PStream_calc_gv pst m s.par).1)) := by
    refine mul_nonneg (by positivity) (add_nonneg ?_ ?_)
    · exact mul_nonneg (mul_nonneg (sub_nonneg.mpr hone) hvari) (sub_nonneg.mpr hle)
    · rw [mul_assoc]
      exact mul_nonneg (by positivity) (mul_self_nonneg _)
  rw [curvatureAt, curvature, W1, W2]
  linarith

-- ---------------------------------------------------------------------------
-- The iteration
-- ---------------------------------------------------------------------------

/-- What the iteration starts from. -/
def gvStart (libm : Libm K) (pst : PStream K) (m : Nat) (s : SolverMemory K) :
    SolverMemory K × K × K :=
  (HTS_PStream_calc_wuw_and_wum pst m (HTS_PStream_conv_gv libm pst m s), STEPINIT, -LZERO)

/-- The ascent is its turn, `GV_MAX_ITERATION` times. -/
theorem gv_parmgen_eq (libm : Libm K) (hlength : pst.gv_length ≠ 0) (s : SolverMemory K) :
    HTS_PStream_gv_parmgen libm pst m s
      = ((gvTurn pst m)^[GV_MAX_ITERATION] (gvStart libm pst m s)).1 := by
  rw [HTS_PStream_gv_parmgen, if_neg hlength]
  rfl

/-- All turns have the same equations. -/
theorem Solvable.assembled_turns (h : Solvable pst m) (libm : Libm K) (s : SolverMemory K)
    (k : Nat) :
    Assembled pst m ((gvTurn pst m)^[k] (gvStart libm pst m s)).1 := by
  induction k with
  | zero => exact h.assembled _
  | succ k ih =>
    rw [Function.iterate_succ_apply']
    exact ih.gvTurn

/-- The other features are left alone. -/
theorem column_gv_parmgen_of_ne (h : Solvable pst m) (libm : Libm K) (s : SolverMemory K) {m' : Nat}
    (hm : m' ≠ m) :
    column (HTS_PStream_gv_parmgen libm pst m s).par m' = column s.par m' := by
  by_cases hlength : pst.gv_length = 0
  · rw [HTS_PStream_gv_parmgen, if_pos hlength]
  · have hturns : ∀ k, column ((gvTurn pst m)^[k] (gvStart libm pst m s)).1.par m'
        = column s.par m' := by
      intro k
      induction k with
      | zero =>
        show column (HTS_PStream_calc_wuw_and_wum pst m (HTS_PStream_conv_gv libm pst m s)).par m'
          = _
        rw [(h.calc_spec _).2, (conv_gv_spec libm s).2 m' hm]
      | succ k ih =>
        rw [Function.iterate_succ_apply', ← ih]
        exact (column_goStep _ _).2 m' hm
    rw [gv_parmgen_eq libm hlength, hturns]

/-- Nor does the solver change them. -/
theorem column_solve_of_ne (h : Solvable pst m) (s : SolverMemory K) {m' : Nat} (hm : m' ≠ m) :
    column (solve pst m s).par m' = column s.par m' := by
  rw [solve]
  refine (column_backward_substitution pst hm _).trans ?_
  show column (HTS_PStream_calc_wuw_and_wum pst m s).par m' = _
  rw [(h.calc_spec s).2]

/-- Feature `m` is what the iteration made of a solution. -/
def FromSolution (gv_parmgen : PStream K → Nat → SolverMemory K → SolverMemory K) (pst : PStream K)
    (m : Nat) (c : Nat → K) : Prop :=
  ∃ s, Solves pst m (column s.par m) ∧ c = column (gv_parmgen pst m s).par m

/-- An iteration that leaves the other features alone starts from the solution of each. -/
theorem mlpg_fromSolution [IsStrictOrderedRing K]
    (gv_parmgen : PStream K → Nat → SolverMemory K → SolverMemory K)
    (hother : ∀ m < pst.static_length, ∀ s, ∀ m' ≠ m,
      column (gv_parmgen pst m s).par m' = column s.par m')
    (hpos : 0 < pst.length) (hgv : 0 < pst.gv_length)
    (h : ∀ m < pst.static_length, Solvable pst m) (s : SolverMemory K) :
    ∀ m < pst.static_length,
      FromSolution gv_parmgen pst m (column (HTS_PStream_mlpg gv_parmgen pst s).par m) := by
  rw [HTS_PStream_mlpg, if_neg hpos.ne']
  refine foldl_range_induction (fun n (r : SolverMemory K) =>
    ∀ m < n, FromSolution gv_parmgen pst m (column r.par m))
    (fun m hm => absurd hm (Nat.not_lt_zero m)) ?_
  intro n hn r hr m hm
  simp only [gt_iff_lt, hgv, if_true]
  by_cases hlast : m = n
  · subst hlast
    exact ⟨solve pst m r, (h m hn).solves_column r, rfl⟩
  · rw [hother n hn _ m hlast, column_solve_of_ne (h n hn) r hlast]
    exact hr m (by omega)

/-- **Every feature is stretched from its solution**, in its own column. -/
theorem mlpg_parmgen [IsStrictOrderedRing K] (libm : Libm K) (hpos : 0 < pst.length)
    (hgv : 0 < pst.gv_length)
    (h : ∀ m < pst.static_length, Solvable pst m) (s : SolverMemory K) :
    ∀ m < pst.static_length, FromSolution (HTS_PStream_gv_parmgen libm) pst m
      (column (HTS_PStream_mlpg (HTS_PStream_gv_parmgen libm) pst s).par m) :=
  mlpg_fromSolution (HTS_PStream_gv_parmgen libm)
    (fun m hm s _ hne => column_gv_parmgen_of_ne (h m hm) libm s hne) hpos hgv h s

-- ---------------------------------------------------------------------------
-- Along the derivative
-- ---------------------------------------------------------------------------

section Derivative

variable {K : Type*} [NontriviallyNormedField K] [LinearOrder K] [IsStrictOrderedRing K]
  {pst : PStream K} {m : Nat}

/-- The rate of the objective along the step that a turn takes. -/
theorem step_along_derivative (h : Solvable pst m) (hall : AllFlagged pst)
    (hpos : 0 < pst.length) {s : SolverMemory K} (ha : Assembled pst m s) :
    HasDerivAt (fun step => (HTS_PStream_calc_derivative pst m
        (goStep pst m step (HTS_PStream_calc_derivative pst m s).2)).1)
      (-∑ t ∈ range pst.length, slope pst m (column s.par m) t ^ 2 / curvatureAt pst m s t)
      0 := by
  obtain ⟨-, hg⟩ := calc_derivative_eq h hall ha
  set v : Nat → K := fun t =>
    if t < pst.length then (HTS_PStream_calc_derivative pst m s).2.g t else 0 with hv
  -- after a step of any size the value is the objective on a line
  have hvalue : (fun step => (HTS_PStream_calc_derivative pst m
        (goStep pst m step (HTS_PStream_calc_derivative pst m s).2)).1)
      = fun step => objective pst m fun t => column s.par m t + step * v t := by
    funext step
    have hstep : Assembled pst m (goStep pst m step (HTS_PStream_calc_derivative pst m s).2) :=
      ⟨ha.wum, ha.band⟩
    rw [(calc_derivative_eq h hall hstep).1]
    refine congrArg (objective pst m) (funext fun t => ?_)
    rw [(column_goStep step _).1 t, hv]
    dsimp only
    by_cases ht : t < pst.length
    · rw [if_pos ht, if_pos ht]
      rfl
    · rw [if_neg ht, if_neg ht, mul_zero, add_zero]
      rfl
  -- its derivative at 0
  rw [hvalue]
  refine (hasDerivAt_objective hpos (column s.par m) v).congr_deriv ?_
  refine congrArg (-·) (sum_congr rfl fun t ht => ?_)
  have ht := mem_range.mp ht
  rw [hv]
  dsimp only
  rw [if_pos ht, hg t ht]
  ring

/-- The stream of the example can be solved. -/
theorem solvable_gvStream : Solvable (gvStream : PStream K) 0 where
  size_pos := solvable_deltaStream.size_pos
  symmetric := solvable_deltaStream.symmetric
  width_le := solvable_deltaStream.width_le
  width_eq := rfl
  static_width := rfl
  static_coefficient := rfl
  ivar_nonneg := solvable_deltaStream.ivar_nonneg
  ivar_pos := solvable_deltaStream.ivar_pos

end Derivative

end Vox.Mage.Solver
