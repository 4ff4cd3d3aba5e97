import Mathlib

/-!
# Readers of a format

A reader takes a prefix of its input and returns a value. It may also fail and go on, with a
flag in its state that says so. `Reads` ties it to a format, a relation between texts and values:
from a state that has not failed, the reader comes to one that has not failed exactly on the
texts of the format, whatever is behind them.

* `Reads.pure`, `Reads.bind` — a reader behind another one: the texts are concatenated.
* `Reads.loop` — a loop that carries a value, one text for each turn.
* `loopText_range` — where these texts have one size, the text of the loop is cut into them.
* `loopText_records`, `loopText_groups` — loops that collect records of one size.
-/

namespace Lib

variable {σ β γ δ ι : Type*}

/-- `run s v s'`: from `s` the reader returns `v` and leaves `s'`. -/
structure Reads (input : σ → List β) (ok : σ → Prop) (run : σ → γ → σ → Prop)
    (format : List β → γ → Prop) : Prop where
  complete : ∀ s text rest v, ok s → input s = text ++ rest → format text v →
    ∃ s', run s v s' ∧ ok s' ∧ input s' = rest
  sound : ∀ s v s', run s v s' → ok s' → ok s ∧ ∃ text, input s = text ++ input s' ∧ format text v

variable {input : σ → List β} {ok : σ → Prop}

/-- The same reader and the same format in other words. -/
theorem Reads.congr {run run' : σ → γ → σ → Prop} {format format' : List β → γ → Prop}
    (h : Reads input ok run format) (hrun : ∀ s v s', run' s v s' ↔ run s v s')
    (hformat : ∀ text v, format' text v ↔ format text v) : Reads input ok run' format' where
  complete := by
    intro s text rest v hok heq hv
    obtain ⟨s', hs', hok', hrest⟩ := h.complete s text rest v hok heq ((hformat text v).mp hv)
    exact ⟨s', (hrun s v s').mpr hs', hok', hrest⟩
  sound := by
    intro s v s' hs' hok'
    obtain ⟨hok, text, heq, hv⟩ := h.sound s v s' ((hrun s v s').mp hs') hok'
    exact ⟨hok, text, heq, (hformat text v).mpr hv⟩

theorem Reads.pure (a : γ) :
    Reads input ok (fun s v s' => v = a ∧ s' = s) fun text v => text = [] ∧ v = a where
  complete := by
    rintro s text rest v hok heq ⟨rfl, rfl⟩
    exact ⟨s, ⟨rfl, rfl⟩, hok, heq⟩
  sound := by
    rintro s v s' ⟨rfl, rfl⟩ hok
    exact ⟨hok, [], rfl, rfl, rfl⟩

/-- **A reader behind another one.** -/
theorem Reads.bind {run : σ → γ → σ → Prop} {format : List β → γ → Prop}
    {run' : γ → σ → δ → σ → Prop} {format' : γ → List β → δ → Prop}
    (h : Reads input ok run format) (h' : ∀ u, Reads input ok (run' u) (format' u)) :
    Reads input ok (fun s v s' => ∃ u s₁, run s u s₁ ∧ run' u s₁ v s')
      fun text v => ∃ text₁ text₂ u, text = text₁ ++ text₂ ∧ format text₁ u ∧
        format' u text₂ v where
  complete := by
    rintro s text rest v hok heq ⟨text₁, text₂, u, rfl, hu, hv⟩
    rw [List.append_assoc] at heq
    obtain ⟨s₁, hs₁, hok₁, hrest₁⟩ := h.complete s text₁ (text₂ ++ rest) u hok heq hu
    obtain ⟨s', hs', hok', hrest⟩ := (h' u).complete s₁ text₂ rest v hok₁ hrest₁ hv
    exact ⟨s', ⟨u, s₁, hs₁, hs'⟩, hok', hrest⟩
  sound := by
    rintro s v s' ⟨u, s₁, hs₁, hs'⟩ hok'
    obtain ⟨hok₁, text₂, heq₂, hv⟩ := (h' u).sound s₁ v s' hs' hok'
    obtain ⟨hok, text₁, heq₁, hu⟩ := h.sound s u s₁ hs₁ hok₁
    refine ⟨hok, text₁ ++ text₂, ?_, text₁, text₂, u, rfl, hu, hv⟩
    rw [heq₁, heq₂, List.append_assoc]

/-! ## Loops -/

/-- A loop over items that carries a value. -/
def loopRun (run : ι → γ → σ → γ → σ → Prop) : List ι → γ → σ → γ → σ → Prop
  | [], a, s, v, s' => v = a ∧ s' = s
  | x :: xs, a, s, v, s' => ∃ a₁ s₁, run x a s a₁ s₁ ∧ loopRun run xs a₁ s₁ v s'

/-- The texts that such a loop reads. -/
def loopText (format : ι → γ → List β → γ → Prop) : List ι → γ → List β → γ → Prop
  | [], a, text, v => text = [] ∧ v = a
  | x :: xs, a, text, v => ∃ text₁ text₂ a₁, text = text₁ ++ text₂ ∧ format x a text₁ a₁ ∧
      loopText format xs a₁ text₂ v

/-- **A loop** reads one text in each turn. -/
theorem Reads.loop {run : ι → γ → σ → γ → σ → Prop} {format : ι → γ → List β → γ → Prop}
    {xs : List ι} (h : ∀ x ∈ xs, ∀ a, Reads input ok (run x a) (format x a)) (a : γ) :
    Reads input ok (loopRun run xs a) (loopText format xs a) := by
  induction xs generalizing a with
  | nil => exact Reads.pure a
  | cons x xs ih =>
    exact (h x List.mem_cons_self a).bind fun a₁ =>
      ih (fun y hy => h y (List.mem_cons_of_mem x hy)) a₁

/-- The text of two loops is that of the first and then of the second. -/
theorem loopText_append {format : ι → γ → List β → γ → Prop} {xs ys : List ι} {a v : γ}
    {text : List β} :
    loopText format (xs ++ ys) a text v ↔ ∃ text₁ text₂ a₁, text = text₁ ++ text₂ ∧
      loopText format xs a text₁ a₁ ∧ loopText format ys a₁ text₂ v := by
  induction xs generalizing a text with
  | nil =>
    constructor
    · exact fun h => ⟨[], text, a, rfl, ⟨rfl, rfl⟩, h⟩
    · rintro ⟨text₁, text₂, a₁, rfl, ⟨rfl, rfl⟩, h⟩
      exact h
  | cons x xs ih =>
    constructor
    -- the first round's text goes with the first loop
    · rintro ⟨text₁, text₂, a₁, rfl, hx, hrest⟩
      obtain ⟨text₃, text₄, a₂, rfl, hxs, hys⟩ := ih.mp hrest
      exact ⟨text₁ ++ text₃, text₄, a₂, by rw [List.append_assoc],
        ⟨text₁, text₃, a₁, rfl, hx, hxs⟩, hys⟩
    · rintro ⟨text₁, text₂, a₁, rfl, ⟨text₃, text₄, a₂, rfl, hx, hxs⟩, hys⟩
      exact ⟨text₃, text₄ ++ text₂, a₂, by rw [List.append_assoc], hx,
        ih.mpr ⟨text₄, text₂, a₁, rfl, hxs, hys⟩⟩

/-- Piece `k` of a text that is cut every `size` symbols. -/
def chunk (size : Nat) (text : List β) (k : Nat) : List β := (text.drop (k * size)).take size

theorem chunk_append_left {size k n : Nat} {text : List β} (hlength : text.length = n * size)
    (hk : k < n) (rest : List β) : chunk size (text ++ rest) k = chunk size text k := by
  have hle : (k + 1) * size ≤ n * size := Nat.mul_le_mul_right size hk
  rw [Nat.add_mul, Nat.one_mul] at hle
  rw [chunk, List.drop_append_of_le_length (by omega), List.take_append_of_le_length, chunk]
  rw [List.length_drop]
  omega

theorem chunk_append_right {size n : Nat} {text last : List β} (hlength : text.length = n * size)
    (hlast : last.length = size) : chunk size (text ++ last) n = last := by
  rw [chunk, ← hlength, List.drop_left, ← hlast, List.take_length]

theorem chunk_append_add {size n : Nat} {text : List β} (hlength : text.length = n * size)
    (rest : List β) (k : Nat) : chunk size (text ++ rest) (n + k) = chunk size rest k := by
  rw [chunk, Nat.add_mul, ← hlength, List.drop_append, List.drop_of_length_le (by omega),
    Nat.add_sub_cancel_left, List.nil_append, chunk]

/-- **A loop whose turns all take a text of one size.** -/
theorem loopText_range {format : Nat → γ → List β → γ → Prop} {n : Nat} (size : Nat)
    (cond : Nat → List β → Prop) (f : Nat → List β → γ → γ)
    (h : ∀ k < n, ∀ a text v, format k a text v ↔
      text.length = size ∧ cond k text ∧ v = f k text a) {a v : γ} {text : List β} :
    loopText format (List.range n) a text v ↔ text.length = n * size ∧
      (∀ k < n, cond k (chunk size text k)) ∧
      v = (List.range n).foldl (fun a k => f k (chunk size text k) a) a := by
  induction n generalizing a v text with
  | zero =>
    rw [List.range_zero, Nat.zero_mul, List.length_eq_zero_iff]
    exact ⟨fun h => ⟨h.1, fun k hk => absurd hk (Nat.not_lt_zero k), h.2⟩, fun h => ⟨h.1, h.2.2⟩⟩
  | succ n ih =>
    have hfirst := fun a v text => @ih (fun k hk => h k (Nat.lt_succ_of_lt hk)) a v text
    -- the last block is not seen by the rounds before
    have hfold : ∀ text₁ text₂ : List β, text₁.length = n * size →
        (List.range n).foldl (fun a k => f k (chunk size (text₁ ++ text₂) k) a) a
          = (List.range n).foldl (fun a k => f k (chunk size text₁ k) a) a := by
      intro text₁ text₂ hlength
      refine List.foldl_ext _ _ _ fun b k hk => ?_
      rw [chunk_append_left hlength (List.mem_range.mp hk)]
    rw [List.range_succ, loopText_append, Nat.add_mul, Nat.one_mul, List.foldl_append]
    constructor
    · rintro ⟨text₁, text₂, a₁, rfl, hxs, text₃, text₄, a₂, rfl, hx, rfl, rfl⟩
      obtain ⟨hlength, hcond, rfl⟩ := (hfirst _ _ _).mp hxs
      obtain ⟨hlength₃, hcond₃, rfl⟩ := (h n (Nat.lt_succ_self n) _ _ _).mp hx
      rw [List.append_nil, hfold _ _ hlength, List.foldl_cons, List.foldl_nil,
        chunk_append_right hlength hlength₃, List.length_append]
      refine ⟨by omega, fun k hk => ?_, rfl⟩
      rcases Nat.lt_succ_iff_lt_or_eq.mp hk with hk | rfl
      · rw [chunk_append_left hlength hk]
        exact hcond k hk
      · rwa [chunk_append_right hlength hlength₃]
    · rintro ⟨hlength, hcond, rfl⟩
      obtain ⟨text₁, text₂, rfl, hlength₁⟩ : ∃ text₁ text₂, text = text₁ ++ text₂ ∧
          text₁.length = n * size :=
        ⟨text.take (n * size), text.drop (n * size), (List.take_append_drop _ _).symm, by
          rw [List.length_take]
          omega⟩
      have hlength₂ : text₂.length = size := by
        rw [List.length_append] at hlength
        omega
      have hlast := hcond n (Nat.lt_succ_self n)
      rw [chunk_append_right hlength₁ hlength₂] at hlast
      rw [hfold _ _ hlength₁, List.foldl_cons, List.foldl_nil,
        chunk_append_right hlength₁ hlength₂]
      refine ⟨text₁, text₂, _, rfl, (hfirst _ _ _).mpr ⟨hlength₁, fun k hk => ?_, rfl⟩, text₂, [],
        _, (List.append_nil _).symm, (h n (Nat.lt_succ_self n) _ _ _).mpr ⟨hlength₂, hlast, rfl⟩,
        rfl, rfl⟩
      have := hcond k (Nat.lt_succ_of_lt hk)
      rwa [chunk_append_left hlength₁ hk] at this

/-! ## Records of one size -/

/-- A text of `n` records, and what each of them says. -/
structure Records (size : Nat) (cond : List β → Prop) (value : List β → γ) (n : Nat)
    (text : List β) (vs : List γ) : Prop where
  length : text.length = n * size
  cond : ∀ k < n, cond (chunk size text k)
  values : vs = (List.range n).map fun k => value (chunk size text k)

section Records

variable {size : Nat} {cond : List β → Prop} {value : List β → γ}

theorem records_nil_iff {text : List β} {vs : List γ} :
    Records size cond value 0 text vs ↔ text = [] ∧ vs = [] := by
  constructor
  · rintro ⟨hlength, -, rfl⟩
    exact ⟨List.length_eq_zero_iff.mp (by rwa [Nat.zero_mul] at hlength), rfl⟩
  · rintro ⟨rfl, rfl⟩
    exact ⟨(Nat.zero_mul size).symm, fun k hk => absurd hk (Nat.not_lt_zero k), rfl⟩

theorem Records.append {n m : Nat} {text₁ text₂ : List β} {vs ws : List γ}
    (h₁ : Records size cond value n text₁ vs) (h₂ : Records size cond value m text₂ ws) :
    Records size cond value (n + m) (text₁ ++ text₂) (vs ++ ws) where
  length := by rw [List.length_append, h₁.length, h₂.length, Nat.add_mul]
  cond := by
    intro k hk
    -- a block is in one of the two texts
    by_cases hlt : k < n
    · rw [chunk_append_left h₁.length hlt]
      exact h₁.cond k hlt
    · obtain ⟨j, rfl⟩ := Nat.exists_eq_add_of_le (Nat.le_of_not_lt hlt)
      rw [chunk_append_add h₁.length]
      exact h₂.cond j (by omega)
  values := by
    rw [h₁.values, h₂.values, List.range_add, List.map_append, List.map_map]
    congr 1
    · refine List.map_congr_left fun k hk => ?_
      rw [chunk_append_left h₁.length (List.mem_range.mp hk)]
    · refine List.map_congr_left fun k _ => ?_
      rw [Function.comp_apply, chunk_append_add h₁.length]

/-- Records can be told apart where their values can. -/
theorem Records.split {n m : Nat} {text : List β} {vs ws : List γ}
    (h : Records size cond value (n + m) text (vs ++ ws)) (hn : vs.length = n) :
    ∃ text₁ text₂, text = text₁ ++ text₂ ∧ Records size cond value n text₁ vs ∧
      Records size cond value m text₂ ws := by
  have hlength := h.length
  rw [Nat.add_mul] at hlength
  -- the text is cut behind `n` records
  obtain ⟨text₁, text₂, rfl, hlength₁⟩ : ∃ text₁ text₂, text = text₁ ++ text₂ ∧
      text₁.length = n * size :=
    ⟨text.take (n * size), text.drop (n * size), (List.take_append_drop _ _).symm, by
      rw [List.length_take]
      omega⟩
  rw [List.length_append] at hlength
  have hvalues := h.values
  rw [List.range_add, List.map_append, List.map_map] at hvalues
  obtain ⟨hvs, hws⟩ := List.append_inj hvalues (by simpa using hn)
  refine ⟨text₁, text₂, rfl, ⟨hlength₁, fun k hk => ?_, ?_⟩, ⟨by omega, fun k hk => ?_, ?_⟩⟩
  · rw [← chunk_append_left hlength₁ hk text₂]
    exact h.cond k (by omega)
  · rw [hvs]
    refine List.map_congr_left fun k hk => ?_
    rw [chunk_append_left hlength₁ (List.mem_range.mp hk)]
  · rw [← chunk_append_add hlength₁ text₂ k]
    exact h.cond (n + k) (by omega)
  · rw [hws]
    refine List.map_congr_left fun k _ => ?_
    rw [Function.comp_apply, chunk_append_add hlength₁]

/-- **A loop that collects records.** -/
theorem loopText_records {n : Nat} {text : List β} {vs : List γ} :
    loopText (fun _ vs text vs' => text.length = size ∧ cond text ∧ vs' = vs ++ [value text])
      (List.range n) [] text vs ↔ Records size cond value n text vs := by
  have hcollect : ∀ (f : Nat → γ) (ks : List Nat) (vs : List γ),
      ks.foldl (fun vs k => vs ++ [f k]) vs = vs ++ ks.map f := by
    intro f ks
    induction ks with
    | nil => exact fun vs => (List.append_nil vs).symm
    | cons k ks ih =>
      intro vs
      rw [List.foldl_cons, ih, List.map_cons, List.append_assoc, List.singleton_append]
  rw [loopText_range _ _ _ fun k _ vs text vs' => Iff.rfl, hcollect, List.nil_append]
  exact ⟨fun h => ⟨h.1, h.2.1, h.2.2⟩, fun h => ⟨h.length, h.cond, h.values⟩⟩

/-- **Records in groups**, a number of them for each item of a list. -/
theorem loopText_groups {ns : List Nat} {a v : List (List γ)} {text : List β} :
    loopText (fun n groups text groups' => ∃ group, groups' = groups ++ [group] ∧
        Records size cond value n text group) ns a text v ↔
      ∃ groups, v = a ++ groups ∧ groups.map List.length = ns ∧
        Records size cond value ns.sum text groups.flatten := by
  induction ns generalizing a text with
  | nil =>
    rw [List.sum_nil]
    constructor
    · rintro ⟨rfl, rfl⟩
      exact ⟨[], (List.append_nil v).symm, rfl, records_nil_iff.mpr ⟨rfl, rfl⟩⟩
    · rintro ⟨groups, rfl, hgroups, h⟩
      obtain rfl : groups = [] := List.map_eq_nil_iff.mp hgroups
      exact ⟨(records_nil_iff.mp h).1, List.append_nil a⟩
  | cons n ns ih =>
    rw [List.sum_cons]
    constructor
    · rintro ⟨text₁, text₂, a₁, rfl, ⟨group, rfl, hgroup⟩, hrest⟩
      obtain ⟨groups, rfl, hgroups, hrecords⟩ := ih.mp hrest
      -- a group has as many records as its number says
      have hn : group.length = n := by
        rw [hgroup.values, List.length_map, List.length_range]
      refine ⟨group :: groups, by simp, ?_, ?_⟩
      · rw [List.map_cons, hn, hgroups]
      · rw [List.flatten_cons]
        exact hgroup.append hrecords
    · rintro ⟨groups, rfl, hgroups, h⟩
      obtain ⟨group, groups, rfl, rfl, rfl⟩ := List.map_eq_cons_iff.mp hgroups
      rw [List.flatten_cons] at h
      obtain ⟨text₁, text₂, rfl, hgroup, hrest⟩ := h.split rfl
      exact ⟨text₁, text₂, a ++ [group], rfl, ⟨group, rfl, hgroup⟩,
        ih.mpr ⟨groups, by simp, rfl, hrest⟩⟩

end Records

end Lib
