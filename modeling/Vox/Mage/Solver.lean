import Vox.Lib.LDL
import Vox.Lib.Run
import Vox.Mage.GenerationBounds

/-!
# MAGE — the parameter solver

`HTS_PStream_mlpg` solves, for each static feature, the equations `W' U^-1 W c = W' U^-1 M`:
`W` applies the windows to a sequence, `U^-1` is the diagonal of the inverse variances and
`M` holds the means. The matrix is a band, which is built, factorised in place and solved by
substitution. `wuw[t][i]` is the entry of frames `t` and `t + i`, and later a factor.

* `bandOf_calc` — the arrays hold the band of `W' U^-1 W`, and `W' U^-1 M`.
* `bandLDL_factorization` — what the factorisation in place leaves.
* `positiveOn_wuwOf` — the matrix is positive definite: the static window sees every frame.
* `solves_equations` — no pivot is 0, and `par` solves the equations; `mlpg_solves` — so it
  does for every feature, each in its own column.
-/

namespace Vox.Mage.Solver

open Lib ModelQueue Finset

-- ---------------------------------------------------------------------------
-- The solver
-- ---------------------------------------------------------------------------

/-- `pst->sm` and `pst->par`. -/
structure SolverMemory (K : Type*) where
  wum : Nat → K
  wuw : Nat → Nat → K
  g : Nat → K
  par : Nat → Nat → K
  deriving Inhabited

variable {K : Type*} [Field K]

/-- The turn of window `i`, for `wum[t]` and the row `wuw[t]`. -/
def calcWindow [LinearOrder K] (pst : PStream K) (m t : Nat) (s : K × (Nat → K)) (i : Nat) :
    K × (Nat → K) :=
  let window := pst.window
  (offsets (window.l_width i) (window.r_width i)).foldl
    (fun s (j : Int) =>
      if 0 ≤ t + j ∧ t + j < pst.length ∧ window.coefficient i (-j) ≠ 0 then
        let wu := window.coefficient i (-j) * pst.ivar (t + j).toNat (i * pst.static_length + m)
        (s.1 + wu * pst.mean (t + j).toNat (i * pst.static_length + m),
          ((List.range pst.width).takeWhile (t + · < pst.length)).foldl
            (fun row (k : Nat) =>
              if k - j ≤ window.r_width i ∧ window.coefficient i (k - j) ≠ 0 then
                Function.update row k (row k + wu * window.coefficient i (k - j))
              else row) s.2)
      else s) s

/-- The turn of frame `t` of `HTS_PStream_calc_wuw_and_wum`: `wum[t]` and the row `wuw[t]`. -/
def calcRow [LinearOrder K] (pst : PStream K) (m t : Nat) (row : Nat → K) : K × (Nat → K) :=
  -- initialize
  let cleared := (List.range pst.width).foldl (fun row i => Function.update row i 0) row
  (List.range pst.window.size).foldl (calcWindow pst m t) (0, cleared)

def HTS_PStream_calc_wuw_and_wum [LinearOrder K] (pst : PStream K) (m : Nat)
    (s : SolverMemory K) : SolverMemory K :=
  (List.range pst.length).foldl
    (fun s t =>
      let row := calcRow pst m t (s.wuw t)
      { s with wum := Function.update s.wum t row.1, wuw := Function.update s.wuw t row.2 }) s

/-- The turn of frame `t` of `HTS_PStream_ldl_factorization`. It writes to row `t` only, and
the other rows that it reads are above. -/
def factorRow (pst : PStream K) (wuw : Nat → Nat → K) (t : Nat) : Nat → K :=
  let row := (backward pst.width t).foldl
    (fun row i =>
      Function.update row 0 (row 0 - wuw (t - i) i * wuw (t - i) i * wuw (t - i) 0)) (wuw t)
  (List.range' 1 (pst.width - 1)).foldl
    (fun row i =>
      let row := (backward (pst.width - i) t).foldl
        (fun row j =>
          Function.update row i (row i - wuw (t - j) j * wuw (t - j) (i + j) * wuw (t - j) 0)) row
      Function.update row i (row i / row 0)) row

def HTS_PStream_ldl_factorization (pst : PStream K) (s : SolverMemory K) : SolverMemory K :=
  { s with
    wuw := (List.range pst.length).foldl
      (fun wuw t => Function.update wuw t (factorRow pst wuw t)) s.wuw }

def HTS_PStream_forward_substitution (pst : PStream K) (s : SolverMemory K) : SolverMemory K :=
  { s with
    g := (List.range pst.length).foldl
      (fun g t =>
        (backward pst.width t).foldl
          (fun g i => Function.update g t (g t - s.wuw (t - i) i * g (t - i)))
          (Function.update g t (s.wum t))) s.g }

omit [Field K] in
/-- `par[t][m] = v` -/
def storePar (par : Nat → Nat → K) (t m : Nat) (v : K) : Nat → Nat → K :=
  Function.update par t (Function.update (par t) m v)

def HTS_PStream_backward_substitution (pst : PStream K) (m : Nat) (s : SolverMemory K) :
    SolverMemory K :=
  { s with
    par := (List.range pst.length).reverse.foldl
      (fun par t =>
        (forward pst.width t pst.length).foldl
          (fun par i => storePar par t m (par t m - s.wuw t i * par (t + i) m))
          (storePar par t m (s.g t / s.wuw t 0))) s.par }

/-- The equations of feature `m`, solved. -/
def solve [LinearOrder K] (pst : PStream K) (m : Nat) (s : SolverMemory K) : SolverMemory K :=
  let s := HTS_PStream_calc_wuw_and_wum pst m s
  let s := HTS_PStream_ldl_factorization pst s
  let s := HTS_PStream_forward_substitution pst s
  HTS_PStream_backward_substitution pst m s

/-- `HTS_PStream_mlpg`, with the iteration for global variances, which starts from the
solution. -/
def HTS_PStream_mlpg [LinearOrder K]
    (HTS_PStream_gv_parmgen : PStream K → Nat → SolverMemory K → SolverMemory K)
    (pst : PStream K) (s : SolverMemory K) : SolverMemory K :=
  if pst.length = 0 then s
  else
    (List.range pst.static_length).foldl
      (fun s m =>
        let s := solve pst m s
        if pst.gv_length > 0 then HTS_PStream_gv_parmgen pst m s else s) s

-- ---------------------------------------------------------------------------
-- Indices of the loops
-- ---------------------------------------------------------------------------

/-- The offsets of the loop backwards. -/
theorem mem_backward_iff {width t i : Nat} :
    i ∈ backward width t ↔ 1 ≤ i ∧ i < width ∧ i ≤ t := by
  rw [backward, mem_takeWhile_range' (fun i j hij hj => by
    simp only [decide_eq_true_eq] at hj ⊢
    omega), decide_eq_true_iff]
  omega

theorem mem_forward_iff {width t length i : Nat} :
    i ∈ forward width t length ↔ 1 ≤ i ∧ i < width ∧ t + i < length := by
  rw [forward, mem_takeWhile_range' (fun i j hij hj => by
    simp only [decide_eq_true_eq] at hj ⊢
    omega), decide_eq_true_iff]
  omega

/-- The sum of a list of indices without repetitions. -/
theorem sum_map_of_mem_iff {items : List Nat} (hnodup : items.Nodup) {indices : Finset Nat}
    (hmem : ∀ i, i ∈ items ↔ i ∈ indices) (f : Nat → K) :
    (items.map f).sum = ∑ i ∈ indices, f i := by
  have hset : items.toFinset = indices := by
    ext i
    rw [List.mem_toFinset, hmem]
  rw [← hset, List.sum_toFinset f hnodup]

theorem sum_backward (width t : Nat) (f : Nat → K) :
    ((backward width t).map f).sum = ∑ i ∈ Ico 1 (min width (t + 1)), f i := by
  have hnodup : (backward width t).Nodup := (List.takeWhile_sublist _).nodup List.nodup_range'
  refine sum_map_of_mem_iff hnodup (fun i => ?_) f
  rw [mem_backward_iff, mem_Ico]
  omega

theorem sum_forward (width t length : Nat) (f : Nat → K) :
    ((forward width t length).map f).sum = ∑ i ∈ Ico 1 (min width (length - t)), f i := by
  have hnodup : (forward width t length).Nodup :=
    (List.takeWhile_sublist _).nodup List.nodup_range'
  refine sum_map_of_mem_iff hnodup (fun i => ?_) f
  rw [mem_forward_iff, mem_Ico]
  omega

-- ---------------------------------------------------------------------------
-- The factorisation
-- ---------------------------------------------------------------------------

section Factor

variable (pst : PStream K) (wuw : Nat → Nat → K) (t : Nat)

/-- The row as its turn leaves it: the pivot, and the entries divided by it. -/
theorem factorRow_spec :
    factorRow pst wuw t 0 = wuw t 0 - ∑ i ∈ Ico 1 (min pst.width (t + 1)),
        wuw (t - i) i * wuw (t - i) i * wuw (t - i) 0 ∧
      ∀ i, 1 ≤ i → i < pst.width → factorRow pst wuw t i
        = (wuw t i - ∑ j ∈ Ico 1 (min (pst.width - i) (t + 1)),
            wuw (t - j) j * wuw (t - j) (i + j) * wuw (t - j) 0) / factorRow pst wuw t 0 := by
  -- the loop for the pivot
  set pivoted := Function.update (wuw t) 0 (wuw t 0 - ∑ i ∈ Ico 1 (min pst.width (t + 1)),
    wuw (t - i) i * wuw (t - i) i * wuw (t - i) 0) with hpivoted
  set entry : (Nat → K) → Nat → K := fun row i =>
    (row i - ∑ j ∈ Ico 1 (min (pst.width - i) (t + 1)),
      wuw (t - j) j * wuw (t - j) (i + j) * wuw (t - j) 0) / row 0 with hentry
  -- the loop for the other entries: each is a single assignment
  have hrow : factorRow pst wuw t = (List.range' 1 (pst.width - 1)).foldl
      (fun row i => Function.update row i (entry row i)) pivoted := by
    rw [factorRow, foldl_sub_cell 0 (fun _ i => wuw (t - i) i * wuw (t - i) i * wuw (t - i) 0)
      (fun _ _ _ _ => rfl), sum_backward, ← hpivoted]
    refine List.foldl_ext _ _ _ fun row i hi => ?_
    have hi : i ≠ 0 := by
      have := List.mem_range'_1.mp hi
      omega
    simp only
    rw [foldl_sub_cell i (fun _ j => wuw (t - j) j * wuw (t - j) (i + j) * wuw (t - j) 0)
      (fun _ _ _ _ => rfl), sum_backward, Function.update_self, Function.update_of_ne hi.symm,
      Function.update_idem]
  -- every entry is computed from itself and the pivot
  obtain ⟨hfilled, hrest⟩ := foldl_fill (List.nodup_range' (s := 1) (n := pst.width - 1))
    (f := entry) (fun pre i post hitems a a' hagree => by
      have hnodup : (List.range' 1 (pst.width - 1)).Nodup := List.nodup_range'
      have hi : i ∉ post := by
        rw [hitems] at hnodup
        exact (List.nodup_cons.mp (List.nodup_append.mp hnodup).2.1).1
      have hzero : 0 ∉ post := fun hmem => by
        have : 0 ∈ List.range' 1 (pst.width - 1) := by
          rw [hitems]
          exact List.mem_append_right _ (List.mem_cons_of_mem _ hmem)
        have := List.mem_range'_1.mp this
        omega
      rw [hentry]
      simp only
      rw [hagree i hi, hagree 0 hzero]) pivoted
  rw [← hrow] at hfilled hrest
  have hpivot : factorRow pst wuw t 0 = pivoted 0 :=
    hrest 0 fun hmem => by have := List.mem_range'_1.mp hmem; omega
  refine ⟨by rw [hpivot, hpivoted, Function.update_self], fun i hi hlt => ?_⟩
  rw [hfilled i (List.mem_range'_1.mpr (by omega)), hentry]
  simp only
  rw [Function.update_self, Function.update_of_ne (by omega), hpivoted,
    Function.update_of_ne (by omega)]

/-- A turn reads its own row and those above. -/
theorem factorRow_congr {wuw wuw' : Nat → Nat → K} (h : ∀ k ≤ t, wuw k = wuw' k) :
    factorRow pst wuw t = factorRow pst wuw' t := by
  rw [factorRow, factorRow, h t (Nat.le_refl t)]
  have hpivot : (backward pst.width t).foldl (fun row i => Function.update row 0
        (row 0 - wuw (t - i) i * wuw (t - i) i * wuw (t - i) 0)) (wuw' t)
      = (backward pst.width t).foldl (fun row i => Function.update row 0
        (row 0 - wuw' (t - i) i * wuw' (t - i) i * wuw' (t - i) 0)) (wuw' t) :=
    List.foldl_ext _ _ _ fun row i _ => by rw [h (t - i) (Nat.sub_le t i)]
  rw [hpivot]
  refine List.foldl_ext _ _ _ fun row i _ => ?_
  have hentry : (backward (pst.width - i) t).foldl (fun row j => Function.update row i
        (row i - wuw (t - j) j * wuw (t - j) (i + j) * wuw (t - j) 0)) row
      = (backward (pst.width - i) t).foldl (fun row j => Function.update row i
        (row i - wuw' (t - j) j * wuw' (t - j) (i + j) * wuw' (t - j) 0)) row :=
    List.foldl_ext _ _ _ fun row j _ => by rw [h (t - j) (Nat.sub_le t j)]
  rw [hentry]

end Factor

/-- **The factorisation in place**: the rows hold pivots and factors, computed from the
matrix that they held before. -/
theorem bandLDL_factorization (pst : PStream K) (s : SolverMemory K) :
    BandLDL pst.width pst.length s.wuw (HTS_PStream_ldl_factorization pst s).wuw := by
  obtain ⟨hfilled, -⟩ := foldl_fill (List.nodup_range (n := pst.length)) (f := factorRow pst)
    (fun pre t post hitems a a' hagree => factorRow_congr pst t fun k hk =>
      hagree k fun hmem => by
        have := rel_later List.pairwise_lt_range hitems k hmem
        omega) s.wuw
  set wuw := (HTS_PStream_ldl_factorization pst s).wuw with hwuw
  have hrow : ∀ t < pst.length, wuw t = factorRow pst (Function.update wuw t (s.wuw t)) t :=
    fun t ht => hfilled t (List.mem_range.mpr ht)
  -- the rows above are those of the result
  have habove : ∀ t i j, 1 ≤ i → i ≤ t →
      Function.update wuw t (s.wuw t) (t - i) j = wuw (t - i) j := by
    intro t i j hi hle
    rw [Function.update_of_ne (by omega)]
  refine ⟨fun t ht => ?_, fun t ht i hi hlt => ?_⟩
  · rw [hrow t ht, (factorRow_spec pst _ t).1, Function.update_self]
    refine congrArg (s.wuw t 0 - ·) (sum_congr rfl fun i hi => ?_)
    have hi := mem_Ico.mp hi
    simp only [habove t i _ hi.1 (by omega)]
  · rw [hrow t ht, (factorRow_spec pst _ t).2 i hi hlt, ← hrow t ht, Function.update_self]
    refine congrArg (fun x => (s.wuw t i - x) / wuw t 0) (sum_congr rfl fun j hj => ?_)
    have hj := mem_Ico.mp hj
    simp only [habove t j _ hj.1 (by omega)]

-- ---------------------------------------------------------------------------
-- The substitutions
-- ---------------------------------------------------------------------------

/-- Forward substitution. -/
theorem g_forward_substitution (pst : PStream K) (s : SolverMemory K) {t : Nat}
    (ht : t < pst.length) :
    (HTS_PStream_forward_substitution pst s).g t
      = s.wum t - ∑ i ∈ Ico 1 (min pst.width (t + 1)),
          s.wuw (t - i) i * (HTS_PStream_forward_substitution pst s).g (t - i) := by
  set cell : (Nat → K) → Nat → K := fun g t =>
    s.wum t - ∑ i ∈ Ico 1 (min pst.width (t + 1)), s.wuw (t - i) i * g (t - i) with hcell
  have hloop : (HTS_PStream_forward_substitution pst s).g
      = (List.range pst.length).foldl (fun g t => Function.update g t (cell g t)) s.g := by
    refine List.foldl_ext _ _ _ fun g t _ => ?_
    rw [foldl_sub_cell t (fun g i => s.wuw (t - i) i * g (t - i)), sum_backward,
      Function.update_idem, Function.update_self, hcell]
    · refine congrArg (fun x => Function.update g t (s.wum t - x)) (sum_congr rfl fun i hi => ?_)
      have hi := mem_Ico.mp hi
      rw [Function.update_of_ne (by omega)]
    · intro i hi a v
      have hi := mem_backward_iff.mp hi
      rw [Function.update_of_ne (by omega)]
  -- a cell is computed from those before it, which have their final values by then
  have hreads : ∀ t, ∀ a a' : Nat → K, (∀ k < t, a k = a' k) → cell a t = cell a' t := by
    intro t a a' hagree
    refine congrArg (s.wum t - ·) (sum_congr rfl fun i hi => ?_)
    have hi := mem_Ico.mp hi
    rw [hagree (t - i) (by omega)]
  obtain ⟨hfilled, -⟩ := foldl_fill (List.nodup_range (n := pst.length)) (f := cell)
    (fun pre t post hitems a a' hagree => hreads t a a' fun k hk => hagree k fun hmem => by
      have := rel_later List.pairwise_lt_range hitems k hmem
      omega) s.g
  rw [← hloop] at hfilled
  rw [hfilled t (List.mem_range.mpr ht)]
  refine hreads t _ _ fun k hk => ?_
  rw [Function.update_of_ne (by omega)]

omit [Field K] in
/-- A column of `par`. -/
def column (par : Nat → Nat → K) (m : Nat) : Nat → K := fun t => par t m

omit [Field K] in
theorem column_storePar (par : Nat → Nat → K) (t m : Nat) (v : K) :
    column (storePar par t m v) m = Function.update (column par m) t v := by
  funext t'
  rw [column, storePar]
  by_cases ht : t' = t
  · rw [ht, Function.update_self, Function.update_self, Function.update_self]
  · rw [Function.update_of_ne ht, Function.update_of_ne ht, column]

omit [Field K] in
theorem column_storePar_of_ne (par : Nat → Nat → K) (t : Nat) {m m' : Nat} (h : m' ≠ m) (v : K) :
    column (storePar par t m v) m' = column par m' := by
  funext t'
  rw [column, storePar]
  by_cases ht : t' = t
  · rw [ht, Function.update_self, Function.update_of_ne h, column]
  · rw [Function.update_of_ne ht, column]

/-- Backward substitution. -/
theorem par_backward_substitution (pst : PStream K) (m : Nat) (s : SolverMemory K) {t : Nat}
    (ht : t < pst.length) :
    (HTS_PStream_backward_substitution pst m s).par t m
      = s.g t / s.wuw t 0 - ∑ i ∈ Ico 1 (min pst.width (pst.length - t)),
          s.wuw t i * (HTS_PStream_backward_substitution pst m s).par (t + i) m := by
  set cell : (Nat → K) → Nat → K := fun c t => s.g t / s.wuw t 0
    - ∑ i ∈ Ico 1 (min pst.width (pst.length - t)), s.wuw t i * c (t + i) with hcell
  have hloop : column (HTS_PStream_backward_substitution pst m s).par m
      = (List.range pst.length).reverse.foldl (fun c t => Function.update c t (cell c t))
          (column s.par m) := by
    symm
    refine List.foldl_hom (column · m) fun par t => ?_
    -- the turn of frame `t`, in the column
    have hturn : column ((forward pst.width t pst.length).foldl
          (fun par i => storePar par t m (par t m - s.wuw t i * par (t + i) m))
          (storePar par t m (s.g t / s.wuw t 0))) m
        = (forward pst.width t pst.length).foldl
            (fun c i => Function.update c t (c t - s.wuw t i * c (t + i)))
            (Function.update (column par m) t (s.g t / s.wuw t 0)) := by
      rw [← column_storePar]
      symm
      exact List.foldl_hom (column · m) fun par i => (column_storePar par t m _).symm
    rw [hturn, foldl_sub_cell t (fun c i => s.wuw t i * c (t + i)), sum_forward,
      Function.update_idem, Function.update_self, hcell]
    · refine congrArg (fun x => Function.update (column par m) t (s.g t / s.wuw t 0 - x))
        (sum_congr rfl fun i hi => ?_)
      have hi := mem_Ico.mp hi
      rw [Function.update_of_ne (by omega)]
    · intro i hi a v
      have hi := mem_forward_iff.mp hi
      rw [Function.update_of_ne (by omega)]
  -- a cell is computed from those after it, and the loop runs backwards
  have hreads : ∀ t, ∀ a a' : Nat → K, (∀ k, t < k → k < pst.length → a k = a' k) →
      cell a t = cell a' t := by
    intro t a a' hagree
    refine congrArg (s.g t / s.wuw t 0 - ·) (sum_congr rfl fun i hi => ?_)
    have hi := mem_Ico.mp hi
    rw [hagree (t + i) (by omega) (by omega)]
  have hdescending : (List.range pst.length).reverse.Pairwise (· > ·) :=
    List.pairwise_reverse.mpr List.pairwise_lt_range
  obtain ⟨hfilled, -⟩ := foldl_fill (List.nodup_reverse.mpr (List.nodup_range (n := pst.length)))
    (f := cell) (fun pre t post hitems a a' hagree => hreads t a a' fun k hk _ =>
      hagree k fun hmem => by
        have := rel_later hdescending hitems k hmem
        omega) (column s.par m)
  rw [← hloop] at hfilled
  have hlater : cell (Function.update (column (HTS_PStream_backward_substitution pst m s).par m) t
      (column s.par m t)) t = cell (column (HTS_PStream_backward_substitution pst m s).par m) t :=
    hreads t _ _ fun k hk _ => by rw [Function.update_of_ne (by omega)]
  exact (hfilled t (List.mem_reverse.mpr (List.mem_range.mpr ht))).trans hlater

/-- Only the column that is solved for changes. -/
theorem column_backward_substitution (pst : PStream K) {m m' : Nat} (h : m' ≠ m)
    (s : SolverMemory K) :
    column (HTS_PStream_backward_substitution pst m s).par m' = column s.par m' := by
  refine foldl_invariant (I := fun par => column par m' = column s.par m') (fun par t hpar => ?_)
    _ s.par rfl
  refine foldl_invariant (I := fun par => column par m' = column s.par m')
    (fun par i hpar => ?_) _ _ ?_
  · rw [column_storePar_of_ne _ _ h, hpar]
  · rw [column_storePar_of_ne _ _ h, hpar]

-- ---------------------------------------------------------------------------
-- The equations
-- ---------------------------------------------------------------------------

section Equations

variable (pst : PStream K) (m : Nat)

/-- The weight of frame `t` in window `i` at frame `s`: an entry of `W`. -/
def weight (i s t : Nat) : K :=
  if pst.window.l_width i ≤ t - s ∧ (t - s : Int) ≤ pst.window.r_width i then
    pst.window.coefficient i (t - s)
  else 0

/-- `W c`: window `i` at frame `s`, on a sequence of the frames of the stream. -/
def applyWindow (c : Nat → K) (i s : Nat) : K := ∑ t ∈ range pst.length, weight pst i s t * c t

/-- `W' v` -/
def applyTransposed (v : Nat → Nat → K) (t : Nat) : K :=
  ∑ i ∈ range pst.window.size, ∑ s ∈ range pst.length, weight pst i s t * v i s

/-- The inverse variance of window `i` at frame `s`, for feature `m`. -/
def ivarAt (i s : Nat) : K := pst.ivar s (i * pst.static_length + m)

def meanAt (i s : Nat) : K := pst.mean s (i * pst.static_length + m)

/-- `W' U^-1 W` -/
def wuwOf (t t' : Nat) : K :=
  ∑ i ∈ range pst.window.size, ∑ s ∈ range pst.length,
    weight pst i s t * ivarAt pst m i s * weight pst i s t'

/-- `W' U^-1 M` -/
def wumOf : Nat → K := applyTransposed pst fun i s => ivarAt pst m i s * meanAt pst m i s

/-- **The equations of feature `m`**: `(W' U^-1 W c)(t) = (W' U^-1 M)(t)`. -/
def Solves (c : Nat → K) : Prop :=
  ∀ t < pst.length,
    applyTransposed pst (fun i s => ivarAt pst m i s * applyWindow pst c i s) t = wumOf pst m t

/-- `W' U^-1 W` is symmetric. -/
theorem wuwOf_comm (t t' : Nat) : wuwOf pst m t t' = wuwOf pst m t' t :=
  sum_congr rfl fun i _ => sum_congr rfl fun s _ => by ring

/-- It is what the two applications make of a sequence. -/
theorem sum_wuwOf (c : Nat → K) (t : Nat) :
    ∑ t' ∈ range pst.length, wuwOf pst m t t' * c t'
      = applyTransposed pst (fun i s => ivarAt pst m i s * applyWindow pst c i s) t := by
  calc ∑ t' ∈ range pst.length, wuwOf pst m t t' * c t'
      = ∑ t' ∈ range pst.length, ∑ i ∈ range pst.window.size, ∑ s ∈ range pst.length,
          weight pst i s t * ivarAt pst m i s * (weight pst i s t' * c t') := by
        -- an entry is a sum over windows and frames
        refine sum_congr rfl fun t' _ => ?_
        rw [wuwOf, sum_mul]
        refine sum_congr rfl fun i _ => ?_
        rw [sum_mul]
        exact sum_congr rfl fun s _ => by ring
    _ = ∑ i ∈ range pst.window.size, ∑ s ∈ range pst.length, ∑ t' ∈ range pst.length,
          weight pst i s t * ivarAt pst m i s * (weight pst i s t' * c t') := by
        rw [sum_comm]
        exact sum_congr rfl fun i _ => sum_comm
    _ = applyTransposed pst (fun i s => ivarAt pst m i s * applyWindow pst c i s) t := by
        refine sum_congr rfl fun i _ => sum_congr rfl fun s _ => ?_
        rw [← mul_sum, mul_assoc]
        rfl

/-- The quadratic form of `W' U^-1 W`: the squares of the windows, weighted. -/
theorem quadratic_wuwOf (c : Nat → K) :
    ∑ t ∈ range pst.length, ∑ t' ∈ range pst.length, c t * wuwOf pst m t t' * c t'
      = ∑ i ∈ range pst.window.size, ∑ s ∈ range pst.length,
          ivarAt pst m i s * applyWindow pst c i s ^ 2 := by
  calc ∑ t ∈ range pst.length, ∑ t' ∈ range pst.length, c t * wuwOf pst m t t' * c t'
      = ∑ t ∈ range pst.length, ∑ i ∈ range pst.window.size, ∑ s ∈ range pst.length,
          weight pst i s t * c t * (ivarAt pst m i s * applyWindow pst c i s) := by
        refine sum_congr rfl fun t _ => ?_
        -- a row of the matrix applied to the column
        have hrow : ∑ t' ∈ range pst.length, c t * wuwOf pst m t t' * c t'
            = c t * ∑ t' ∈ range pst.length, wuwOf pst m t t' * c t' := by
          rw [mul_sum]
          exact sum_congr rfl fun t' _ => mul_assoc _ _ _
        rw [hrow, sum_wuwOf, applyTransposed, mul_sum]
        refine sum_congr rfl fun i _ => ?_
        rw [mul_sum]
        exact sum_congr rfl fun s _ => by ring
    _ = ∑ i ∈ range pst.window.size, ∑ s ∈ range pst.length, ∑ t ∈ range pst.length,
          weight pst i s t * c t * (ivarAt pst m i s * applyWindow pst c i s) := by
        rw [sum_comm]
        exact sum_congr rfl fun i _ => sum_comm
    _ = ∑ i ∈ range pst.window.size, ∑ s ∈ range pst.length,
          ivarAt pst m i s * applyWindow pst c i s ^ 2 := by
        refine sum_congr rfl fun i _ => sum_congr rfl fun s _ => ?_
        rw [← sum_mul]
        show applyWindow pst c i s * _ = _
        ring

/-- A problem with the static feature as its first window, symmetric windows within the band,
and inverse variances that are not negative, those of the static feature positive. -/
structure Solvable [LinearOrder K] : Prop where
  size_pos : 0 < pst.window.size
  symmetric : ∀ i < pst.window.size, pst.window.l_width i = -pst.window.r_width i
  width_le : ∀ i < pst.window.size, pst.window.r_width i ≤ pst.window.max_width
  width_eq : pst.width = 2 * pst.window.max_width + 1
  static_width : pst.window.r_width 0 = 0
  static_coefficient : pst.window.coefficient 0 0 = 1
  ivar_nonneg : ∀ i < pst.window.size, ∀ s < pst.length, 0 ≤ ivarAt pst m i s
  ivar_pos : ∀ s < pst.length, 0 < ivarAt pst m 0 s

-- ---------------------------------------------------------------------------
-- The matrix
-- ---------------------------------------------------------------------------

/-- The offsets of a window, from left to right. -/
theorem offsets_eq (l r : Int) :
    offsets l r = (List.range (r + 1 - l).toNat).map fun d : Nat => l + (d : Int) := by
  show ((List.range (r + 1 - l).toNat).flatMap fun d : Nat => [(d : Int)]).map _ = _
  rw [← List.map_eq_flatMap, List.map_map]
  rfl

/-- The sum over the offsets of a window around frame `t`, as a sum over frames. -/
theorem sum_offsets (l r : Int) (t length : Nat) {F : Int → K} (G : Nat → K)
    (hin : ∀ j, l ≤ j → j ≤ r → 0 ≤ t + j → t + j < length → F j = G (t + j).toNat)
    (hout : ∀ j : Int, ¬ (0 ≤ t + j ∧ t + j < length) → F j = 0) :
    ((offsets l r).map F).sum
      = ∑ s ∈ range length, if l ≤ (s - t : Int) ∧ (s - t : Int) ≤ r then G s else 0 := by
  have hnodup : (offsets l r).Nodup := by
    rw [offsets_eq]
    exact List.nodup_range.map fun a b hab => by simpa using hab
  rw [← List.sum_toFinset F hnodup, ← sum_filter]
  have hmem : ∀ j, j ∈ (offsets l r).toFinset ↔ l ≤ j ∧ j ≤ r := by
    intro j
    rw [List.mem_toFinset, offsets_eq, List.mem_map]
    constructor
    · rintro ⟨d, hd, rfl⟩
      have hd := List.mem_range.mp hd
      omega
    · intro hj
      exact ⟨(j - l).toNat, List.mem_range.mpr (by omega), by omega⟩
  -- the offsets to other frames add nothing
  rw [← sum_filter_of_ne (p := fun j : Int => 0 ≤ t + j ∧ t + j < length)
    (fun j _ hne => by_contra fun hj => hne (hout j hj))]
  refine sum_nbij' (fun j => (t + j).toNat) (fun s => s - t) ?_ ?_ ?_ ?_ ?_
  · intro j hj
    obtain ⟨hj, hinside⟩ := mem_filter.mp hj
    have hj := (hmem j).mp hj
    exact mem_filter.mpr ⟨mem_range.mpr (by omega), by omega⟩
  · intro s hs
    obtain ⟨hs, hoffset⟩ := mem_filter.mp hs
    have hs := mem_range.mp hs
    exact mem_filter.mpr ⟨(hmem _).mpr (by omega), by omega⟩
  · intro j hj
    have hinside := (mem_filter.mp hj).2
    omega
  · intro s _
    omega
  · intro j hj
    obtain ⟨hj, hinside⟩ := mem_filter.mp hj
    have hj := (hmem j).mp hj
    exact hin j hj.1 hj.2 hinside.1 hinside.2

/-- A loop whose turns add to `wum[t]` and to the row `wuw[t]`. -/
theorem foldl_adds {ι : Type*} {f : K × (Nat → K) → ι → K × (Nat → K)} {x : ι → K}
    {y : ι → Nat → K} (items : List ι)
    (hf : ∀ e ∈ items, ∀ s, (f s e).1 = s.1 + x e ∧ ∀ k, (f s e).2 k = s.2 k + y e k)
    (s : K × (Nat → K)) :
    (items.foldl f s).1 = s.1 + (items.map x).sum ∧
      ∀ k, (items.foldl f s).2 k = s.2 k + (items.map fun e => y e k).sum := by
  induction items generalizing s with
  | nil => simp
  | cons e items ih =>
    obtain ⟨hfirst, hrow⟩ := hf e List.mem_cons_self s
    obtain ⟨hsum, hrows⟩ := ih (fun e' he' => hf e' (List.mem_cons_of_mem _ he')) (f s e)
    rw [List.foldl_cons]
    refine ⟨?_, fun k => ?_⟩
    · rw [hsum, hfirst, List.map_cons, List.sum_cons, add_assoc]
    · rw [hrows k, hrow k, List.map_cons, List.sum_cons, add_assoc]

/-- The innermost loop of a row: it adds `v k` to the cells that meet the condition. -/
theorem foldl_add_cells (c : Nat → Prop) [DecidablePred c] (v : Nat → K) {items : List Nat}
    (hnodup : items.Nodup) (row : Nat → K) (k : Nat) :
    items.foldl (fun row k => if c k then Function.update row k (row k + v k) else row) row k
      = row k + if k ∈ items ∧ c k then v k else 0 := by
  -- a skipped cell is one to which 0 is added
  have hloop : items.foldl
        (fun row k => if c k then Function.update row k (row k + v k) else row) row
      = items.foldl (fun row k => Function.update row k (row k + if c k then v k else 0)) row := by
    refine List.foldl_ext _ _ _ fun row k _ => ?_
    split
    · rfl
    · rw [add_zero, Function.update_eq_self]
  obtain ⟨hfilled, hrest⟩ := foldl_fill hnodup
    (f := fun (row : Nat → K) k => row k + if c k then v k else 0)
    (fun pre x post hitems a a' hagree => by
      rw [hitems] at hnodup
      rw [hagree x (List.nodup_cons.mp (List.nodup_append.mp hnodup).2.1).1]) row
  rw [hloop]
  by_cases hk : k ∈ items
  · rw [hfilled k hk, Function.update_self]
    simp only [hk, true_and]
  · rw [hrest k hk, if_neg (fun h => hk h.1), add_zero]

/-- The cells of a row that the innermost loop reaches. -/
theorem mem_rowCells {width t length k : Nat} :
    k ∈ (List.range width).takeWhile (t + · < length) ↔ k < width ∧ t + k < length := by
  rw [List.range_eq_range', mem_takeWhile_range' (fun i j hij hj => by
    simp only [decide_eq_true_eq] at hj ⊢
    omega), decide_eq_true_iff]
  omega

/-- The sum over the offsets of a symmetric window, in terms of `W`. -/
theorem sum_window {i : Nat} (hsym : pst.window.l_width i = -pst.window.r_width i) (t : Nat)
    (v : Nat → K) {F : Int → K}
    (hin : ∀ j, pst.window.l_width i ≤ j → j ≤ pst.window.r_width i → 0 ≤ t + j →
      t + j < pst.length → F j = pst.window.coefficient i (-j) * v (t + j).toNat)
    (hout : ∀ j : Int, ¬ (0 ≤ t + j ∧ t + j < pst.length) → F j = 0) :
    ((offsets (pst.window.l_width i) (pst.window.r_width i)).map F).sum
      = ∑ f ∈ range pst.length, weight pst i f t * v f := by
  rw [sum_offsets _ _ t pst.length (fun f => pst.window.coefficient i (t - f) * v f) ?_ hout]
  · refine sum_congr rfl fun f _ => ?_
    rw [weight]
    by_cases hf : pst.window.l_width i ≤ (f - t : Int) ∧ (f - t : Int) ≤ pst.window.r_width i
    · rw [if_pos hf, if_pos (by omega)]
    · rw [if_neg hf, if_neg (by omega), zero_mul]
  · intro j hl hr h0 hlt
    rw [hin j hl hr h0 hlt, show (t - ((t + j).toNat : Nat) : Int) = -j by omega]

variable [LinearOrder K]

/-- What the turn of offset `j` adds to `wum[t]`. -/
def wumTerm (i t : Nat) (j : Int) : K :=
  if 0 ≤ t + j ∧ t + j < pst.length ∧ pst.window.coefficient i (-j) ≠ 0 then
    pst.window.coefficient i (-j) * ivarAt pst m i (t + j).toNat * meanAt pst m i (t + j).toNat
  else 0

/-- What the turn of offset `j` adds to `wuw[t][k]`. -/
def wuwTerm (i t : Nat) (j : Int) (k : Nat) : K :=
  if 0 ≤ t + j ∧ t + j < pst.length ∧ pst.window.coefficient i (-j) ≠ 0 then
    if (k < pst.width ∧ t + k < pst.length) ∧
        k - j ≤ pst.window.r_width i ∧ pst.window.coefficient i (k - j) ≠ 0 then
      pst.window.coefficient i (-j) * ivarAt pst m i (t + j).toNat
        * pst.window.coefficient i (k - j)
    else 0
  else 0

/-- The turn of a window, offset by offset. -/
theorem calcWindow_terms (i t : Nat) (s : K × (Nat → K)) :
    (calcWindow pst m t s i).1 = s.1
        + ((offsets (pst.window.l_width i) (pst.window.r_width i)).map (wumTerm pst m i t)).sum ∧
      ∀ k, (calcWindow pst m t s i).2 k = s.2 k
        + ((offsets (pst.window.l_width i) (pst.window.r_width i)).map
            fun j => wuwTerm pst m i t j k).sum := by
  have hnodup : ((List.range pst.width).takeWhile (t + · < pst.length)).Nodup :=
    (List.takeWhile_sublist _).nodup List.nodup_range
  rw [calcWindow]
  refine foldl_adds _ (fun j _ s => ?_) s
  simp only [wumTerm, wuwTerm]
  by_cases hj : 0 ≤ t + j ∧ t + j < pst.length ∧ pst.window.coefficient i (-j) ≠ 0
  · simp only [if_pos hj]
    refine ⟨rfl, fun k => ?_⟩
    rw [foldl_add_cells (fun k : Nat => k - j ≤ pst.window.r_width i ∧
      pst.window.coefficient i (k - j) ≠ 0) _ hnodup]
    simp only [mem_rowCells]
    rfl
  · simp only [if_neg hj]
    exact ⟨(add_zero _).symm, fun k => (add_zero _).symm⟩

/-- Within the frames the test for a coefficient of zero makes no difference. -/
theorem wumTerm_eq {i t : Nat} {j : Int} (h0 : 0 ≤ t + j) (hlt : t + j < pst.length) :
    wumTerm pst m i t j = pst.window.coefficient i (-j)
      * (ivarAt pst m i (t + j).toNat * meanAt pst m i (t + j).toNat) := by
  rw [wumTerm]
  by_cases hcoefficient : pst.window.coefficient i (-j) = 0
  · simp only [hcoefficient, ne_eq, not_true_eq_false, and_false, if_false, zero_mul]
  · rw [if_pos ⟨h0, hlt, hcoefficient⟩, mul_assoc]

/-- The guards of the loop leave out zeros only: the term is the product of two weights. -/
theorem wuwTerm_eq {i t : Nat} (hsym : pst.window.l_width i = -pst.window.r_width i) {j : Int}
    (hr : j ≤ pst.window.r_width i) (h0 : 0 ≤ t + j) (hlt : t + j < pst.length) (k : Nat) :
    wuwTerm pst m i t j k = pst.window.coefficient i (-j)
      * if k < pst.width ∧ t + k < pst.length then
          ivarAt pst m i (t + j).toNat * weight pst i (t + j).toNat (t + k)
        else 0 := by
  -- the entry of `W` for frame `t + k`
  have hweight : weight pst i (t + j).toNat (t + k)
      = if k - j ≤ pst.window.r_width i then pst.window.coefficient i (k - j) else 0 := by
    rw [weight, show ((t + k : Nat) - ((t + j).toNat : Nat) : Int) = k - j by push_cast; omega]
    by_cases hin : k - j ≤ pst.window.r_width i
    · rw [if_pos hin, if_pos ⟨by omega, hin⟩]
    · rw [if_neg hin, if_neg fun h => hin h.2]
  rw [hweight, wuwTerm]
  by_cases hcoefficient : pst.window.coefficient i (-j) = 0
  · simp only [hcoefficient, ne_eq, not_true_eq_false, and_false, if_false, zero_mul]
  · rw [if_pos ⟨h0, hlt, hcoefficient⟩]
    -- the tests for the band, for the window and for its coefficient
    by_cases hk : k < pst.width ∧ t + k < pst.length
    · by_cases hin : k - j ≤ pst.window.r_width i
      · by_cases hvalue : pst.window.coefficient i (k - j) = 0
        · simp only [hvalue, ne_eq, not_true_eq_false, and_false, ite_self, mul_zero]
        · simp only [hk, hin, hvalue, ne_eq, not_false_eq_true, and_self, if_true, mul_assoc]
      · simp only [hin, false_and, and_false, if_false, mul_zero, ite_self]
    · simp only [hk, false_and, if_false, mul_zero]

/-- **The turn of a window** adds its part of the right hand side and of the matrix. -/
theorem calcWindow_adds {i : Nat} (hsym : pst.window.l_width i = -pst.window.r_width i) (t : Nat)
    (s : K × (Nat → K)) :
    (calcWindow pst m t s i).1 = s.1 + ∑ f ∈ range pst.length,
        weight pst i f t * (ivarAt pst m i f * meanAt pst m i f) ∧
      ∀ k, (calcWindow pst m t s i).2 k = s.2 k + ∑ f ∈ range pst.length,
        weight pst i f t * if k < pst.width ∧ t + k < pst.length then
          ivarAt pst m i f * weight pst i f (t + k)
        else 0 := by
  obtain ⟨hfirst, hrow⟩ := calcWindow_terms pst m i t s
  refine ⟨?_, fun k => ?_⟩
  · rw [hfirst, sum_window pst hsym t fun f => ivarAt pst m i f * meanAt pst m i f]
    · exact fun j _ _ h0 hlt => wumTerm_eq pst m h0 hlt
    · exact fun j hj => if_neg fun h => hj ⟨h.1, h.2.1⟩
  · rw [hrow k, sum_window pst hsym t fun f => if k < pst.width ∧ t + k < pst.length then
      ivarAt pst m i f * weight pst i f (t + k) else 0]
    · exact fun j _ hr h0 hlt => wuwTerm_eq pst m hsym hr h0 hlt k
    · exact fun j hj => if_neg fun h => hj ⟨h.1, h.2.1⟩

namespace Solvable

variable {pst m} (h : Solvable pst m)

include h

/-- The static window leaves a sequence as it is. -/
theorem applyWindow_static (c : Nat → K) {s : Nat} (hs : s < pst.length) :
    applyWindow pst c 0 s = c s := by
  have hsym := h.symmetric 0 h.size_pos
  rw [h.static_width] at hsym
  have hweight : ∀ t, weight pst 0 s t = if t = s then 1 else 0 := by
    intro t
    rw [weight, hsym, h.static_width]
    by_cases ht : t = s
    · rw [if_pos ht, if_pos (by omega), ht, sub_self, h.static_coefficient]
    · rw [if_neg ht, if_neg (by omega)]
  rw [applyWindow]
  simp only [hweight, ite_mul, one_mul, zero_mul]
  rw [sum_ite_eq', if_pos (mem_range.mpr hs)]

/-- A row of the matrix, and its right hand side. -/
theorem calcRow_spec (t : Nat) (row : Nat → K) :
    (calcRow pst m t row).1 = wumOf pst m t ∧
      ∀ k < pst.width, (calcRow pst m t row).2 k
        = if t + k < pst.length then wuwOf pst m t (t + k) else 0 := by
  have hrange : ∀ f : Nat → K, ((List.range pst.window.size).map f).sum
      = ∑ i ∈ range pst.window.size, f i :=
    sum_map_of_mem_iff List.nodup_range fun i => by rw [List.mem_range, mem_range]
  -- every window adds its terms to both
  obtain ⟨hsum, hrow⟩ := foldl_adds (List.range pst.window.size) (f := calcWindow pst m t)
    (fun i hi s => calcWindow_adds pst m (h.symmetric i (List.mem_range.mp hi)) t s)
    (0, (List.range pst.width).foldl (fun row i => Function.update row i 0) row)
  rw [calcRow]
  refine ⟨?_, fun k hk => ?_⟩
  · rw [hsum, hrange, zero_add]
    rfl
  -- the row was cleared before
  · obtain ⟨hcleared, -⟩ := foldl_fill (List.nodup_range (n := pst.width))
      (f := fun (_ : Nat → K) _ => 0) (fun _ _ _ _ _ _ _ => rfl) row
    have hzero : (List.range pst.width).foldl (fun row i => Function.update row i (0 : K)) row k
        = 0 := hcleared k (List.mem_range.mpr hk)
    simp only [hrow k, hrange, hzero, zero_add]
    by_cases hin : t + k < pst.length
    · rw [if_pos hin, wuwOf]
      simp only [hk, hin, and_self, if_true, mul_assoc]
    · rw [if_neg hin]
      simp only [hin, and_false, if_false, mul_zero, sum_const_zero]

/-- What `HTS_PStream_calc_wuw_and_wum` leaves. -/
theorem calc_spec (s : SolverMemory K) :
    (∀ t < pst.length, (HTS_PStream_calc_wuw_and_wum pst m s).wum t = wumOf pst m t ∧
      ∀ k < pst.width, (HTS_PStream_calc_wuw_and_wum pst m s).wuw t k
        = if t + k < pst.length then wuwOf pst m t (t + k) else 0) ∧
      (HTS_PStream_calc_wuw_and_wum pst m s).par = s.par := by
  rw [HTS_PStream_calc_wuw_and_wum]
  refine foldl_range_induction (fun n (r : SolverMemory K) =>
    (∀ t < n, r.wum t = wumOf pst m t ∧ ∀ k < pst.width, r.wuw t k
      = if t + k < pst.length then wuwOf pst m t (t + k) else 0) ∧ r.par = s.par)
    ⟨fun t ht => absurd ht (Nat.not_lt_zero t), rfl⟩ ?_
  rintro n _ r ⟨hrows, hpar⟩
  refine ⟨fun t ht => ?_, hpar⟩
  show Function.update r.wum n _ t = _ ∧ ∀ k < pst.width, Function.update r.wuw n _ t k = _
  by_cases hlast : t = n
  · subst hlast
    rw [Function.update_self, Function.update_self]
    exact h.calcRow_spec t (r.wuw t)
  · rw [Function.update_of_ne hlast, Function.update_of_ne hlast]
    exact hrows t (by omega)

/-- **The band of the matrix.** Two frames that are further apart share no window. -/
theorem bandOf_calc (s : SolverMemory K) :
    BandOf pst.width pst.length (wuwOf pst m) (HTS_PStream_calc_wuw_and_wum pst m s).wuw where
  inside t i hi hlt := by
    rw [((h.calc_spec s).1 t (by omega)).2 i hi, if_pos hlt, wuwOf_comm]
  outside t t' hfar := by
    refine sum_eq_zero fun i hi => sum_eq_zero fun f _ => ?_
    have hi := mem_range.mp hi
    have hsym := h.symmetric i hi
    have hle := h.width_le i hi
    have hwidth := h.width_eq
    by_cases hin : pst.window.l_width i ≤ (t' - f : Int) ∧ (t' - f : Int) ≤ pst.window.r_width i
    · have hother : ¬ (pst.window.l_width i ≤ (t - f : Int) ∧
          (t - f : Int) ≤ pst.window.r_width i) := by omega
      rw [weight, weight, if_neg hother, mul_zero]
    · rw [weight, if_neg hin, zero_mul, zero_mul]

/-- The band has the diagonal at least. -/
theorem width_pos : 0 < pst.width := by
  rw [h.width_eq]
  exact Nat.succ_pos _

variable [IsStrictOrderedRing K]

/-- **`W' U^-1 W` is positive definite**: the static window sees every frame. -/
theorem positiveOn_wuwOf : PositiveOn pst.length (wuwOf pst m) := by
  rintro c ⟨t, ht, hne⟩
  rw [quadratic_wuwOf]
  have hnonneg : ∀ i ∈ range pst.window.size,
      0 ≤ ∑ s ∈ range pst.length, ivarAt pst m i s * applyWindow pst c i s ^ 2 := fun i hi =>
    sum_nonneg fun s hs => mul_nonneg
      (h.ivar_nonneg i (mem_range.mp hi) s (mem_range.mp hs)) (sq_nonneg _)
  refine sum_pos' hnonneg ⟨0, mem_range.mpr h.size_pos, ?_⟩
  refine sum_pos' (fun s hs => mul_nonneg (h.ivar_pos s (mem_range.mp hs)).le (sq_nonneg _))
    ⟨t, mem_range.mpr ht, ?_⟩
  rw [h.applyWindow_static c ht]
  exact mul_pos (h.ivar_pos t ht) (sq_pos_iff.mpr hne)

/-- No division is by zero. -/
theorem pivots_pos (s : SolverMemory K) {t : Nat} (ht : t < pst.length) :
    0 < (HTS_PStream_ldl_factorization pst (HTS_PStream_calc_wuw_and_wum pst m s)).wuw t 0 :=
  ((bandLDL_factorization pst _).ldl (h.bandOf_calc s) h.width_pos).pivot_pos (wuwOf_comm pst m)
    h.positiveOn_wuwOf t ht

/-- The substitutions solve the equations. -/
theorem solves_column (s : SolverMemory K) : Solves pst m (column (solve pst m s).par m) := by
  set factorised := HTS_PStream_ldl_factorization pst (HTS_PStream_calc_wuw_and_wum pst m s)
    with hfactorised
  set forwarded := HTS_PStream_forward_substitution pst factorised with hforwarded
  have hsolution : ∀ t < pst.length,
      ∑ t' ∈ range pst.length, wuwOf pst m t t' * column (solve pst m s).par m t'
        = wumOf pst m t := by
    refine (bandLDL_factorization pst _).solves (h.bandOf_calc s) h.width_pos (wuwOf_comm pst m)
      (fun t ht => (h.pivots_pos s ht).ne') (g := forwarded.g) (fun t ht => ?_) fun t ht => ?_
    · -- forward, from the right hand side
      have hwum : factorised.wum t = wumOf pst m t := ((h.calc_spec s).1 t ht).1
      rw [← hwum]
      exact g_forward_substitution pst factorised ht
    · exact par_backward_substitution pst m forwarded ht
  intro t ht
  rw [← sum_wuwOf]
  exact hsolution t ht

/-- **The solver solves its equations**, and every pivot that it divides by is positive. -/
theorem solves_equations (s : SolverMemory K) :
    (∀ t < pst.length, 0 < (HTS_PStream_ldl_factorization pst
      (HTS_PStream_calc_wuw_and_wum pst m s)).wuw t 0) ∧
      Solves pst m (column (solve pst m s).par m) :=
  ⟨fun _ ht => h.pivots_pos s ht, h.solves_column s⟩

end Solvable

/-- A static and a delta window on three frames. -/
def deltaStream : PStream K where
  vector_length := 2
  length := 3
  width := 3
  window := deltaWindow
  static_length := 1
  gv_length := 0
  gv_mean := fun _ => 0
  gv_vari := fun _ => 0
  gv_switch := fun _ => false
  mean := fun s i => if i = 0 then s else 1
  ivar := fun _ _ => 1

/-- The stream of the example can be solved. -/
theorem solvable_deltaStream [IsStrictOrderedRing K] :
    Solvable (deltaStream : PStream K) 0 where
  size_pos := Nat.succ_pos 1
  symmetric i hi := by
    match i, hi with
    | 0, _ => rfl
    | 1, _ => rfl
  width_le i hi := by
    match i, hi with
    | 0, _ => exact Int.zero_le_ofNat 1
    | 1, _ => exact le_refl 1
  width_eq := rfl
  static_width := rfl
  static_coefficient := rfl
  ivar_nonneg _ _ _ _ := zero_le_one
  ivar_pos _ _ := zero_lt_one

/-- Three frames with a window of differences. -/
theorem solves_deltaStream :
    (∀ t < 3, 0 < (HTS_PStream_ldl_factorization (deltaStream : PStream ℚ)
      (HTS_PStream_calc_wuw_and_wum deltaStream 0 default)).wuw t 0) ∧
      Solves (deltaStream : PStream ℚ) 0 (column (solve deltaStream 0 default).par 0) :=
  solvable_deltaStream.solves_equations default

-- ---------------------------------------------------------------------------
-- All features
-- ---------------------------------------------------------------------------

/-- **Every feature is solved**, where nothing is left to the iteration for global
variances: a feature's turn leaves the columns of the others alone. -/
theorem mlpg_solves [IsStrictOrderedRing K]
    (gv_parmgen : PStream K → Nat → SolverMemory K → SolverMemory K)
    (hgv : pst.gv_length = 0) (hlength : 0 < pst.length)
    (h : ∀ m < pst.static_length, Solvable pst m) (s : SolverMemory K) :
    ∀ m < pst.static_length,
      Solves pst m (column (HTS_PStream_mlpg gv_parmgen pst s).par m) := by
  rw [HTS_PStream_mlpg, if_neg (by omega)]
  -- dimension by dimension; the columns that are solved stay
  refine foldl_range_induction (fun n (r : SolverMemory K) =>
    ∀ m < n, Solves pst m (column r.par m)) (fun m hm => absurd hm (Nat.not_lt_zero m)) ?_
  intro n hn r hr m hm
  simp only [hgv, gt_iff_lt, Nat.lt_irrefl, if_false]
  by_cases hlast : m = n
  · subst hlast
    exact (h m hn).solves_column r
  · have hcolumn : column (solve pst n r).par m = column r.par m := by
      rw [solve]
      refine (column_backward_substitution pst hlast _).trans ?_
      show column (HTS_PStream_calc_wuw_and_wum pst n r).par m = _
      rw [((h n hn).calc_spec r).2]
    rw [hcolumn]
    exact hr m (by omega)

end Equations

end Vox.Mage.Solver
