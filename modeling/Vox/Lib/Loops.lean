import Mathlib.Algebra.BigOperators.Group.List.Basic
import Mathlib.Algebra.BigOperators.Ring.List
import Mathlib.Algebra.Ring.Int.Defs
import Mathlib.Data.List.Basic
import Mathlib.Data.List.Forall2
import Mathlib.Data.Nat.Count
import Mathlib.Logic.Function.Iterate

/-!
# Loops

A loop over an index range is `List.foldl` over `List.range`; arrays that it
writes to are functions, written to by `Function.update`.

* `foldl_prefix_induction` — an invariant that speaks of the part of the list
  already visited.
* `foldl_range_iterate` — a variable that every turn advances in the same way is a
  function of the turn.
* `foldl_update_range` / `foldl_update_grid` — a loop, and a loop in a loop, that
  writes one cell a turn.
* `foldl_fill` — a recurrence: every cell is computed from those before.
* `lastWritten_insert_iff` — what one more item changes in a cell that items overwrite.
* `sum_ediv_mul_le` / `sum_le_sum_ediv_mul` / `sum_map_mul_ediv_le` — shares that are rounded
  down.
* `mapM_of_map_some` / `foldlM_eq_none_of_mem` — loops whose turns can raise an exception.
* `exists_foldlM_update` — one that fills a table.
-/

namespace Lib

variable {α β σ : Type*}

/-! ## Invariants -/

/-- **A loop invariant** for a loop over a list, which speaks of the part visited so
far. -/
theorem foldl_prefix_induction {f : σ → α → σ} {xs : List α} (I : List α → σ → Prop) {s : σ}
    (hstart : I [] s)
    (hstep : ∀ pre x post, xs = pre ++ x :: post → ∀ s, I pre s → I (pre ++ [x]) (f s x)) :
    I xs (xs.foldl f s) := by
  -- the visited part grows until nothing is left
  have hrest : ∀ (post pre : List α) (s : σ), xs = pre ++ post → I pre s →
      I xs (post.foldl f s) := by
    intro post
    induction post with
    | nil =>
      intro pre s hxs hI
      rw [hxs, List.append_nil]
      exact hI
    | cons x post ih =>
      intro pre s hxs hI
      exact ih (pre ++ [x]) (f s x) (by rw [hxs, List.append_assoc]; rfl)
        (hstep pre x post hxs s hI)
  exact hrest xs [] s rfl hstart

/-- The same for a loop over a range, by the number of turns. -/
theorem foldl_range_induction {f : σ → Nat → σ} {n : Nat} (I : Nat → σ → Prop) {s : σ}
    (hstart : I 0 s) (hstep : ∀ k < n, ∀ s, I k s → I (k + 1) (f s k)) :
    I n ((List.range n).foldl f s) := by
  induction n with
  | zero => exact hstart
  | succ n ih =>
    rw [List.range_succ, List.foldl_append]
    exact hstep n (Nat.lt_succ_self n) _
      (ih fun k hk s hs => hstep k (Nat.lt_succ_of_lt hk) s hs)

/-- Loops over a range with the same turns. -/
theorem foldl_range_congr {f g : σ → Nat → σ} {n : Nat} (h : ∀ k < n, ∀ s, f s k = g s k) (s : σ) :
    (List.range n).foldl f s = (List.range n).foldl g s :=
  List.foldl_ext _ _ _ fun s k hk => h k (List.mem_range.mp hk) s

/-- A loop over the indices of a list is a loop over its items. -/
theorem foldl_range_getD (f : σ → α → σ) (d : α) (xs : List α) (s : σ) :
    (List.range xs.length).foldl (fun s k => f s (xs.getD k d)) s = xs.foldl f s := by
  have hmap : (List.range xs.length).map (fun k => xs.getD k d) = xs := by
    apply List.ext_getElem
    · rw [List.length_map, List.length_range]
    · intro k _ hk
      simp [List.getD, hk]
  rw [← List.foldl_map, hmap]

/-- An item of a longer list is one of the list, or the new one. -/
theorem getElem?_concat_cases {pre : List α} {x y : α} {t : Nat} (h : (pre ++ [x])[t]? = some y) :
    (pre[t]? = some y ∧ t < pre.length) ∨ (t = pre.length ∧ y = x) := by
  rcases Nat.lt_or_ge t pre.length with hlt | hge
  · rw [List.getElem?_append_left hlt] at h
    exact .inl ⟨h, hlt⟩
  · have hlt := (List.getElem?_eq_some_iff.mp h).1
    rw [List.length_append, List.length_singleton] at hlt
    rw [List.getElem?_append_right hge] at h
    exact .inr ⟨by omega, List.mem_singleton.mp (List.mem_of_getElem? h)⟩

/-- The item that a loop visits after `pre`. -/
theorem getElem?_visited {xs pre post : List α} {x : α} (h : xs = pre ++ x :: post) :
    xs[pre.length]? = some x := by
  rw [h, List.getElem?_append_right (Nat.le_refl _), Nat.sub_self]
  rfl

/-- A loop that records a value of every item. -/
theorem foldl_record (v : α → β) (xs : List α) (a : Nat → β) :
    (xs.foldl (fun (p : Nat × (Nat → β)) x => (p.1 + 1, Function.update p.2 p.1 (v x)))
        (0, a)).1 = xs.length ∧
      ∀ t x, xs[t]? = some x →
        (xs.foldl (fun (p : Nat × (Nat → β)) x => (p.1 + 1, Function.update p.2 p.1 (v x)))
          (0, a)).2 t = v x := by
  refine foldl_prefix_induction (fun pre (p : Nat × (Nat → β)) =>
    p.1 = pre.length ∧ ∀ t x, pre[t]? = some x → p.2 t = v x) ⟨rfl, ?_⟩ ?_
  · intro t x hx
    cases hx
  · rintro pre x _ _ p ⟨hlength, hvalues⟩
    refine ⟨?_, ?_⟩
    · rw [List.length_append, List.length_singleton, hlength]
    · intro t y hy
      rcases getElem?_concat_cases hy with ⟨hpre, hlt⟩ | ⟨rfl, rfl⟩
      · show Function.update p.2 p.1 (v x) t = v y
        rw [Function.update_of_ne (by omega)]
        exact hvalues t y hpre
      · show Function.update p.2 p.1 (v y) pre.length = v y
        rw [hlength, Function.update_self]

/-! ## Variables that advance in every turn -/

/-- A variable that every turn advances by `next` is known in every turn. -/
theorem foldl_range_iterate (next : β → β) (f : β → Nat → σ → σ) (b : β) (s : σ) (n : Nat) :
    (List.range n).foldl (fun p k => (next p.1, f p.1 k p.2)) (b, s)
      = (next^[n] b, (List.range n).foldl (fun s k => f (next^[k] b) k s) s) := by
  induction n with
  | zero => rfl
  | succ n ih =>
    rw [List.range_succ, List.foldl_append, List.foldl_append, ih, Function.iterate_succ_apply']
    rfl

/-- A position that goes around a ring. -/
theorem iterate_succ_mod {len r : Nat} (hr : r < len) (k : Nat) :
    (fun p => (p + 1) % len)^[k] r = (r + k) % len := by
  induction k with
  | zero => exact (Nat.mod_eq_of_lt hr).symm
  | succ k ih => rw [Function.iterate_succ_apply', ih, Nat.mod_add_mod, Nat.add_assoc]

/-! ## Arrays -/

/-- A loop that writes cell `base + k` in turn `k`. -/
theorem foldl_update_range (v : Nat → β) (base n : Nat) (a : Nat → β) (i : Nat) :
    (List.range n).foldl (fun a k => Function.update a (base + k) (v (base + k))) a i
      = if base ≤ i ∧ i < base + n then v i else a i := by
  induction n with
  | zero =>
    rw [if_neg (by omega)]
    rfl
  | succ n ih =>
    rw [List.range_succ, List.foldl_append]
    simp only [List.foldl_cons, List.foldl_nil, Function.update_apply, ih]
    by_cases hi : i = base + n
    · rw [if_pos hi, if_pos (by omega), hi]
    · rw [if_neg hi]
      by_cases hin : base ≤ i ∧ i < base + n
      · rw [if_pos hin, if_pos (by omega)]
      · rw [if_neg hin, if_neg (by omega)]

/-- What comes later in a sorted list. -/
theorem rel_later {R : α → α → Prop} {items pre post : List α} {x : α} (h : items.Pairwise R)
    (hitems : items = pre ++ x :: post) : ∀ y ∈ post, R x y := by
  rw [hitems] at h
  exact (List.pairwise_cons.mp (List.pairwise_append.mp h).2.1).1

/-- A loop that takes amounts from one cell, which it does not read otherwise. -/
theorem foldl_sub_cell [DecidableEq α] {ι : Type*} [AddCommGroup β] (c : α) (f : (α → β) → ι → β)
    {items : List ι} (hf : ∀ e ∈ items, ∀ a v, f (Function.update a c v) e = f a e) (a : α → β) :
    items.foldl (fun a e => Function.update a c (a c - f a e)) a
      = Function.update a c (a c - (items.map (f a)).sum) := by
  induction items generalizing a with
  | nil => simp
  | cons e items ih =>
    have hrest : items.map (f (Function.update a c (a c - f a e))) = items.map (f a) :=
      List.map_congr_left fun e' he' => hf e' (List.mem_cons_of_mem _ he') a _
    rw [List.foldl_cons, ih fun e' he' => hf e' (List.mem_cons_of_mem _ he'), hrest,
      Function.update_idem, Function.update_self, List.map_cons, List.sum_cons, sub_sub]

/-- The indices that a loop reaches before its condition fails for good. -/
theorem mem_takeWhile_range' {p : Nat → Bool} (hp : ∀ i j, i ≤ j → p j = true → p i = true)
    {s n i : Nat} : i ∈ (List.range' s n).takeWhile p ↔ (s ≤ i ∧ i < s + n) ∧ p i = true := by
  induction n generalizing s with
  | zero => simp
  | succ n ih =>
    rw [List.range'_succ, List.takeWhile_cons]
    split
    · next hs =>
      rw [List.mem_cons, ih]
      constructor
      · rintro (rfl | ⟨hi, hpi⟩)
        · exact ⟨by omega, hs⟩
        · exact ⟨by omega, hpi⟩
      · rintro ⟨hi, hpi⟩
        by_cases hfirst : i = s
        · exact .inl hfirst
        · exact .inr ⟨by omega, hpi⟩
    · next hs =>
      -- once `p` fails it fails for all that follow
      refine iff_of_false List.not_mem_nil ?_
      rintro ⟨hi, hpi⟩
      exact hs (hp s i hi.1 hpi)

/-- **An array that is filled cell by cell**, from its old contents and the cells filled
before: each cell holds what its turn makes of the final array, with the cell's own old
value. -/
theorem foldl_fill [DecidableEq α] {f : (α → β) → α → β} {items : List α} (hnodup : items.Nodup)
    (hf : ∀ pre x post, items = pre ++ x :: post → ∀ a a' : α → β, (∀ y, y ∉ post → a y = a' y) →
      f a x = f a' x) (a₀ : α → β) :
    (∀ x ∈ items, items.foldl (fun a x => Function.update a x (f a x)) a₀ x
      = f (Function.update (items.foldl (fun a x => Function.update a x (f a x)) a₀) x (a₀ x)) x) ∧
    ∀ x, x ∉ items → items.foldl (fun a x => Function.update a x (f a x)) a₀ x = a₀ x := by
  refine foldl_prefix_induction (fun pre a =>
    (∀ x ∈ pre, a x = f (Function.update a x (a₀ x)) x) ∧ ∀ x, x ∉ pre → a x = a₀ x)
    ⟨fun x hx => absurd hx List.not_mem_nil, fun _ _ => rfl⟩ ?_
  rintro pre x post hitems a ⟨hfilled, hrest⟩
  rw [hitems] at hnodup
  have hx : x ∉ pre := fun hmem =>
    (List.nodup_append.mp hnodup).2.2 x hmem x List.mem_cons_self rfl
  refine ⟨fun y hy => ?_, fun y hy => ?_⟩
  · rcases List.mem_append.mp hy with hy | hy
    · -- a cell filled before does not look at this one
      have hne : y ≠ x := fun h => hx (h ▸ hy)
      obtain ⟨before, between, rfl⟩ := List.append_of_mem hy
      rw [Function.update_of_ne hne, hfilled y hy]
      refine hf before y (between ++ x :: post) (by rw [hitems, List.append_assoc]; rfl) _ _
        fun z hz => ?_
      have hzx : z ≠ x := by
        rintro rfl
        exact hz (List.mem_append_right _ List.mem_cons_self)
      by_cases hzy : z = y
      · rw [hzy, Function.update_self, Function.update_self]
      · rw [Function.update_of_ne hzy, Function.update_of_ne hzy, Function.update_of_ne hzx]
    · obtain rfl := List.mem_singleton.mp hy
      rw [Function.update_self, Function.update_idem, ← hrest y hx, Function.update_eq_self]
  · rw [Function.update_of_ne (fun h => hy (List.mem_append_right _ (List.mem_singleton.mpr h)))]
    exact hrest y fun h => hy (List.mem_append_left _ h)

/-- A loop in which turn `k` changes cell `k`, from its own value. -/
theorem foldl_update_own (c : Nat → Prop) [DecidablePred c] (g : β → β) (n : Nat) (a : Nat → β)
    (i : Nat) :
    (List.range n).foldl (fun a k => if c k then Function.update a k (g (a k)) else a) a i
      = if i < n ∧ c i then g (a i) else a i := by
  induction n with
  | zero =>
    rw [if_neg (by omega)]
    rfl
  | succ n ih =>
    rw [List.range_succ, List.foldl_append]
    simp only [List.foldl_cons, List.foldl_nil]
    generalize hrest : (List.range n).foldl
      (fun a k => if c k then Function.update a k (g (a k)) else a) a = rest at ih
    by_cases hi : i = n
    · subst hi
      -- before its turn the cell holds its own value
      rw [if_neg (by omega)] at ih
      by_cases hc : c i
      · rw [if_pos hc, Function.update_self, if_pos ⟨Nat.lt_succ_self i, hc⟩, ih]
      · rw [if_neg hc, if_neg (by tauto), ih]
    · -- the last turn changes another cell
      have hother : (if c n then Function.update rest n (g (rest n)) else rest) i = rest i := by
        split
        · rw [Function.update_of_ne hi]
        · rfl
      rw [hother, ih]
      by_cases hc : c i
      · by_cases hlt : i < n
        · rw [if_pos ⟨hlt, hc⟩, if_pos ⟨by omega, hc⟩]
        · rw [if_neg (by omega), if_neg (by omega)]
      · rw [if_neg (by tauto), if_neg (by tauto)]

/-- A loop over rows of `len` cells that writes every cell. -/
theorem foldl_update_grid (v : Nat → Nat → β) (len n : Nat) (a : Nat → β) (i : Nat) :
    (List.range n).foldl (fun a k => (List.range len).foldl
        (fun a l => Function.update a (len * k + l) (v k (len * k + l))) a) a i
      = if i < len * n then v (i / len) i else a i := by
  induction n with
  | zero =>
    rw [if_neg (by omega)]
    rfl
  | succ n ih =>
    rw [List.range_succ, List.foldl_append]
    simp only [List.foldl_cons, List.foldl_nil]
    rw [foldl_update_range (v n) (len * n) len, ih, Nat.mul_succ]
    -- the last row writes `len` cells behind the others
    by_cases hold : i < len * n
    · rw [if_neg (by omega), if_pos hold, if_pos (by omega)]
    · rw [if_neg hold]
      by_cases hnew : i < len * n + len
      · have hrow : i / len = n := Nat.div_eq_of_lt_le (by rw [Nat.mul_comm]; omega)
          (by rw [Nat.succ_mul, Nat.mul_comm]; omega)
        rw [if_pos (by omega), if_pos hnew, hrow]
      · rw [if_neg (by omega), if_neg hnew]

/-! ## A cell that items overwrite -/

section Overwrite

variable (writes : α → Prop) [DecidablePred writes] (value : α → β)

/-- The value of the last item that writes, or `d`. -/
def lastWritten (items : List α) (d : β) : β := ((items.filter (writes ·)).map value).getLastD d

/-- The first item writes, or leaves the default. -/
theorem lastWritten_cons (e : α) (items : List α) (d : β) :
    lastWritten writes value (e :: items) d
      = lastWritten writes value items (if writes e then value e else d) := by
  rw [lastWritten, lastWritten]
  by_cases he : writes e
  · rw [List.filter_cons_of_pos (by simpa using he), List.map_cons, List.getLastD_cons, if_pos he]
  · rw [List.filter_cons_of_neg (by simpa using he), if_neg he]

/-- A loop that overwrites a cell leaves the last value. -/
theorem foldl_overwrite (items : List α) (d : β) :
    items.foldl (fun v e => if writes e then value e else v) d
      = lastWritten writes value items d := by
  induction items generalizing d with
  | nil => rfl
  | cons e items ih => rw [List.foldl_cons, ih, lastWritten_cons]

/-- Later items write over earlier ones. -/
theorem lastWritten_append (items items' : List α) (d : β) :
    lastWritten writes value (items ++ items') d
      = lastWritten writes value items' (lastWritten writes value items d) := by
  rw [← foldl_overwrite, List.foldl_append, foldl_overwrite, foldl_overwrite]

/-- Only without a later item does it matter what was there. -/
theorem lastWritten_eq_iff (items : List α) (d d' : β) :
    lastWritten writes value items d = lastWritten writes value items d' ↔
      (∃ e ∈ items, writes e) ∨ d = d' := by
  induction items generalizing d d' with
  | nil => simp [lastWritten]
  | cons e items ih =>
    rw [lastWritten_cons, lastWritten_cons, ih, List.exists_mem_cons_iff]
    by_cases he : writes e
    · simp [he]
    · simp [he]

/-- **One more item** changes nothing exactly when it does not write, or a later one
does, or it writes what the earlier ones have left. -/
theorem lastWritten_insert_iff (pre post : List α) (e : α) (d : β) :
    lastWritten writes value (pre ++ e :: post) d = lastWritten writes value (pre ++ post) d ↔
      (writes e → (∃ e' ∈ post, writes e') ∨ value e = lastWritten writes value pre d) := by
  rw [lastWritten_append, lastWritten_append, lastWritten_cons, lastWritten_eq_iff]
  by_cases he : writes e
  · simp only [he, if_true, true_imp_iff]
  · simp only [he, if_false, or_true, false_imp_iff]

end Overwrite

/-! ## Shares -/

/-- Quotients that are rounded down, times the divisor, are not more than the sum. -/
theorem sum_ediv_mul_le (f : Nat → Int) (n : Nat) {d : Int} (hd : 0 < d) :
    ((List.range n).map fun i => f i / d).sum * d ≤ ((List.range n).map f).sum := by
  induction n with
  | zero => simp
  | succ n ih =>
    have hpart : f n / d * d ≤ f n := Int.ediv_mul_le _ (by omega)
    simp only [List.range_succ, List.map_append, List.sum_append, List.map_cons, List.map_nil,
      List.sum_cons, List.sum_nil, Int.add_zero, Int.add_mul]
    omega

/-- Each of them loses less than the divisor. -/
theorem sum_le_sum_ediv_mul (f : Nat → Int) (n : Nat) {d : Int} (hd : 0 < d) :
    ((List.range n).map f).sum ≤ ((List.range n).map fun i => f i / d).sum * d + n * (d - 1) := by
  induction n with
  | zero => simp
  | succ n ih =>
    have hpart : f n ≤ f n / d * d + (d - 1) := by
      have hmod := Int.emod_lt_of_pos (f n) hd
      have hdiv := Int.ediv_mul_add_emod (f n) d
      omega
    simp only [List.range_succ, List.map_append, List.sum_append, List.map_cons, List.map_nil,
      List.sum_cons, List.sum_nil, Int.add_zero, Int.add_mul, Nat.cast_succ, Int.one_mul]
    omega

/-- Parts of a whole, each rounded down, are not more than the whole. -/
theorem sum_map_mul_ediv_le {f : Nat → Int} (m : Int) (n : Nat)
    (hpos : 0 < ((List.range n).map f).sum) :
    ((List.range n).map fun i => f i * m / ((List.range n).map f).sum).sum ≤ m := by
  have hparts := sum_ediv_mul_le (fun i => f i * m) n hpos
  rw [List.sum_map_mul_right, Int.mul_comm _ m] at hparts
  exact Int.le_of_mul_le_mul_right hparts hpos

/-! ## Exceptions -/

/-- A loop whose every call returns: the list of what they return. -/
theorem exists_map_some {f : α → Option β} {l : List α} (h : ∀ x ∈ l, ∃ y, f x = some y) :
    ∃ ys : List β, l.map f = ys.map some := by
  induction l with
  | nil => exact ⟨[], rfl⟩
  | cons x l ih =>
    obtain ⟨y, hy⟩ := h x List.mem_cons_self
    obtain ⟨ys, hmap⟩ := ih fun x hx => h x (List.mem_cons_of_mem _ hx)
    exact ⟨y :: ys, by rw [List.map_cons, List.map_cons, hy, hmap]⟩

/-- A loop that fails nowhere gives all of its values. -/
theorem mapM_of_map_some {f : α → Option β} {l : List α} {ys : List β}
    (h : l.map f = ys.map some) : l.mapM f = some ys := by
  induction l generalizing ys with
  | nil =>
    rw [List.map_eq_nil_iff.mp h.symm]
    rfl
  | cons x l ih =>
    obtain ⟨y, ys, rfl, hx, hrest⟩ := List.map_eq_cons_iff.mp h.symm
    rw [List.mapM_cons, ← hx, ih hrest.symm]
    rfl

/-- What holds of each item and what its call returns. -/
theorem forall₂_of_map_some {R : α → β → Prop} {f : α → Option β} {l : List α}
    {ys : List β} (hmap : l.map f = ys.map some) (h : ∀ x ∈ l, ∀ y, f x = some y → R x y) :
    List.Forall₂ R l ys := by
  induction l generalizing ys with
  | nil =>
    rw [List.map_eq_nil_iff.mp hmap.symm]
    exact List.Forall₂.nil
  | cons x l ih =>
    obtain ⟨y, ys, rfl, hx, hrest⟩ := List.map_eq_cons_iff.mp hmap.symm
    exact List.Forall₂.cons (h x List.mem_cons_self y hx.symm)
      (ih hrest.symm fun z hz => h z (List.mem_cons_of_mem _ hz))

/-- A call that raises an exception ends the loop. -/
theorem mapM_eq_none_of_mem {f : α → Option β} {l : List α} {x : α} (hx : x ∈ l)
    (h : f x = none) : l.mapM f = none := by
  induction l with
  | nil => exact absurd hx List.not_mem_nil
  | cons y l ih =>
    rw [List.mapM_cons]
    rcases List.mem_cons.mp hx with rfl | hx
    · rw [h]
      rfl
    · cases f y with
      | none => rfl
      | some z =>
        rw [ih hx]
        rfl

/-- So does a turn that raises one in every state. -/
theorem foldlM_eq_none_of_mem {f : σ → α → Option σ} {l : List α} {x : α} (hx : x ∈ l)
    (h : ∀ s, f s x = none) (s : σ) : l.foldlM f s = none := by
  induction l generalizing s with
  | nil => exact absurd hx List.not_mem_nil
  | cons y l ih =>
    rw [List.foldlM_cons]
    rcases List.mem_cons.mp hx with rfl | hx
    · rw [h]
      rfl
    · cases f s y with
      | none => rfl
      | some s' => exact ih hx s'

/-- The last item that has a property. -/
theorem exists_last {p : α → Prop} {l : List α} (h : ∃ x ∈ l, p x) :
    ∃ pre x post, l = pre ++ x :: post ∧ p x ∧ ∀ y ∈ post, ¬ p y := by
  induction l with
  | nil =>
    obtain ⟨x, hx, -⟩ := h
    exact absurd hx List.not_mem_nil
  | cons x l ih =>
    by_cases hlater : ∃ y ∈ l, p y
    · obtain ⟨pre, y, post, rfl, hy, hpost⟩ := ih hlater
      exact ⟨x :: pre, y, post, rfl, hy, hpost⟩
    · obtain ⟨y, hy, hpy⟩ := h
      rcases List.mem_cons.mp hy with rfl | hy
      · exact ⟨[], y, l, rfl, hpy, fun z hz hpz => hlater ⟨z, hz, hpz⟩⟩
      · exact absurd ⟨y, hy, hpy⟩ hlater

/-- **A table that is filled with what calls return**: if all of them return, each cell has
what the last item for it has returned. -/
theorem exists_foldlM_update {κ : Type*} [DecidableEq κ] {f : α → Option β} (key : α → κ)
    {l : List α} (h : ∀ x ∈ l, ∃ y, f x = some y) (a : κ → Option β) :
    ∃ a', l.foldlM (fun a x => (f x).map fun y => Function.update a (key x) (some y)) a
        = some a' ∧
      (∀ pre x post, l = pre ++ x :: post → (∀ y ∈ post, key y ≠ key x) → a' (key x) = f x) ∧
      ∀ k, (∀ x ∈ l, key x ≠ k) → a' k = a k := by
  induction l generalizing a with
  | nil => exact ⟨a, rfl, fun pre x post hl => by simp at hl, fun _ _ => rfl⟩
  | cons x l ih =>
    obtain ⟨y, hy⟩ := h x List.mem_cons_self
    obtain ⟨a', hfold, hlast, hother⟩ :=
      ih (fun z hz => h z (List.mem_cons_of_mem _ hz)) (Function.update a (key x) (some y))
    refine ⟨a', ?_, ?_, fun k hk => ?_⟩
    · rw [List.foldlM_cons, hy]
      exact hfold
    · intro pre z post hl hpost
      cases pre with
      | nil =>
        -- the first item writes, and no other one does
        obtain ⟨rfl, rfl⟩ := List.cons_eq_cons.mp hl
        rw [hother (key x) hpost, Function.update_self, hy]
      | cons _ pre => exact hlast pre z post (List.cons_eq_cons.mp hl).2 hpost
    · rw [hother k fun z hz => hk z (List.mem_cons_of_mem _ hz),
        Function.update_of_ne (hk x List.mem_cons_self).symm]

end Lib
