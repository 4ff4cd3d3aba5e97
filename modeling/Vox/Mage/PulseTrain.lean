import Vox.Mage.VocoderReset

/-!
# MAGE — the pulse train of voiced speech

Of the calls of `excite` in voiced speech one in a period gives a pulse. The counter is set
to the truncated period `p` by the call that gives a pulse, counts down to 0 in the next `p`
calls, and the call after these gives the next pulse: the pulses come every `p + 1` calls.
Since `p + 1` is more than the period, the pulses fall behind, by `p + 1 - t0` with each.

* `pulses_eq` — the number of pulses in `n` calls.
* `pulses_close_iff` — when it is within 1 of `n / t0`, exactly: the lateness of the pulses
  so far and the calls since the last one come to two periods at most.
* `pulses_fall_behind` — for every period this ends.
-/

namespace Vox.Mage

open Lib

namespace Vocoder

variable {K : Type*} [Field K] [LinearOrder K]

-- ---------------------------------------------------------------------------
-- Counting down
-- ---------------------------------------------------------------------------

section Countdown

variable [FloorRing K] (libm : Libm K) {v : Vocoder K}

/-- The samples of `n` calls of `excite`. -/
def excitation (libm : Libm K) : Vocoder K → (Nat → K) → Nat → List K
  | _, _, 0 => []
  | v, random, n + 1 =>
    let s := v.excite libm random
    s.1 :: excitation libm s.2.1 s.2.2 n

/-- The number of pulses among them. -/
def pulses (libm : Libm K) (v : Vocoder K) (random : Nat → K) (n : Nat) : Nat :=
  (v.excitation libm random n).countP (· ≠ 0)

theorem excite_of_due (hvoiced : v.voiced = true) (hcount : v.count ≤ 0) (random : Nat → K) :
    v.excite libm random = (libm.sqrt v.t0, { v with count := truncate v.t0 }, random) := by
  rw [excite, if_pos hvoiced, if_pos hcount]

theorem excite_of_waiting (hvoiced : v.voiced = true) (hcount : ¬ v.count ≤ 0)
    (random : Nat → K) : v.excite libm random = (0, { v with count := v.count - 1 }, random) := by
  rw [excite, if_pos hvoiced, if_neg hcount]

/-- From a counter of `k`, the first pulse comes after `k` calls and then one every `p + 1`. -/
theorem pulses_eq (hvoiced : v.voiced = true) (hsqrt : libm.sqrt v.t0 ≠ 0) {p : Nat}
    (hp : truncate v.t0 = p) (random : Nat → K) (n : Nat) {k : Nat} (hk : v.count = k) :
    v.pulses libm random n = (n - k + p) / (p + 1) := by
  induction n generalizing v k with
  | zero =>
    rw [Nat.zero_sub, Nat.zero_add, Nat.div_eq_of_lt (Nat.lt_succ_self p)]
    rfl
  | succ n ih =>
    rw [pulses, excitation, List.countP_cons]
    cases k with
    | zero =>
      -- a pulse, and a counter of `p`
      rw [excite_of_due libm hvoiced (by omega)]
      have hrest := ih (v := { v with count := truncate v.t0 }) hvoiced hsqrt hp hp
      rw [pulses] at hrest
      rw [hrest, if_pos (by simpa using hsqrt)]
      -- the rest of the calls may end before the counter does
      rcases Nat.lt_or_ge n p with hlt | hge
      · rw [Nat.sub_eq_zero_of_le hlt.le, Nat.zero_add, Nat.div_eq_of_lt (Nat.lt_succ_self p),
          show n + 1 - 0 + p = n + (p + 1) by omega, Nat.add_div_right _ (Nat.succ_pos p),
          Nat.div_eq_of_lt (by omega)]
      · rw [Nat.sub_add_cancel hge, show n + 1 - 0 + p = n + (p + 1) by omega,
          Nat.add_div_right _ (Nat.succ_pos p)]
    | succ k =>
      -- no pulse: the counter goes down
      rw [excite_of_waiting libm hvoiced (by omega)]
      have hcount : v.count - 1 = (k : Int) := by omega
      have hrest := ih (v := { v with count := v.count - 1 }) hvoiced hsqrt hp hcount
      rw [pulses] at hrest
      rw [hrest, if_neg (by simp), Nat.add_zero, Nat.add_sub_add_right]

/-- From a counter of 0 the first call of every `p + 1` gives a pulse. -/
theorem pulses_of_due (hvoiced : v.voiced = true) (hcount : v.count = 0)
    (hsqrt : libm.sqrt v.t0 ≠ 0) {p : Nat} (hp : truncate v.t0 = p) (random : Nat → K) {n : Nat}
    (hn : 0 < n) : v.pulses libm random n = (n - 1) / (p + 1) + 1 := by
  rw [pulses_eq libm hvoiced hsqrt hp random n (k := 0) hcount,
    show n - 0 + p = n - 1 + (p + 1) by omega, Nat.add_div_right _ (Nat.succ_pos p)]

end Countdown

-- ---------------------------------------------------------------------------
-- The pulses and the period
-- ---------------------------------------------------------------------------

section Ordered

variable [IsStrictOrderedRing K] [FloorRing K]

/-- In `n` calls the pulses fall behind by two periods at most: each of the completed turns
of `⌊t0⌋ + 1` calls is late by what it is longer than `t0`, and the turn that has begun
counts with the calls it has had. -/
def KeepsPace (t0 : K) (n : Nat) : Prop :=
  n = 0 ∨
    ((n - 1) / (⌊t0⌋₊ + 1) : Nat) * ((⌊t0⌋₊ : K) + 1 - t0) + (((n - 1) % (⌊t0⌋₊ + 1) : Nat) + 1)
      ≤ t0 + t0

omit [IsStrictOrderedRing K] in
theorem truncate_eq_natFloor {x : K} (hx : 0 ≤ x) :
    truncate x = (⌊x⌋₊ : Int) := by
  rw [truncate, if_neg (not_lt.mpr hx), Int.natCast_floor_eq_floor hx]

omit [IsStrictOrderedRing K] in
/-- A number of turns and the calls of the turn that has begun. -/
theorem turns_add (p : Nat) {n : Nat} (hn : 0 < n) :
    (n : K) = ((n - 1) / (p + 1) : Nat) * ((p : K) + 1) + (((n - 1) % (p + 1) : Nat) + 1) := by
  have h : (n - 1) / (p + 1) * (p + 1) + ((n - 1) % (p + 1) + 1) = n := by
    have := Nat.div_add_mod' (n - 1) (p + 1)
    omega
  exact_mod_cast h.symm

/--
**When the pulse train has its pitch.** In `n` calls of `excite` for voiced speech of the
period `t0`, from a counter of 0, the number of pulses is within 1 of `n / t0` exactly when
the pulses have not fallen behind by more than two periods. -/
theorem pulses_close_iff (libm : Libm K) (hsqrt : ∀ x, 0 < x → 0 < libm.sqrt x) {v : Vocoder K}
    (hvoiced : v.voiced = true) (hcount : v.count = 0) (ht0 : 1 ≤ v.t0) (random : Nat → K)
    (n : Nat) :
    |(v.pulses libm random n : K) - n / v.t0| ≤ 1 ↔ KeepsPace v.t0 n := by
  have hpos : 0 < v.t0 := lt_of_lt_of_le one_pos ht0
  rcases Nat.eq_zero_or_pos n with rfl | hn
  · simp [KeepsPace, pulses, excitation]
  set p := ⌊v.t0⌋₊ with hp
  have hpulses := pulses_of_due libm hvoiced hcount (hsqrt _ hpos).ne'
    (truncate_eq_natFloor hpos.le) random hn
  have hlonger : v.t0 < (p : K) + 1 := Nat.lt_floor_add_one v.t0
  have hsplit := turns_add (K := K) p hn
  rw [← hp] at hpulses
  simp only [KeepsPace, hn.ne', false_or, ← hp]
  set q := (n - 1) / (p + 1) with hq
  set r := (n - 1) % (p + 1) with hr
  have hq0 : (0 : K) ≤ q := Nat.cast_nonneg q
  have hr0 : (0 : K) ≤ r := Nat.cast_nonneg r
  -- the pulses are never early
  have hlate : (q : K) ≤ n / v.t0 := by
    rw [le_div_iff₀ hpos, hsplit]
    nlinarith
  -- they are late by two at most while the lost time is within two periods
  have hbound : (n : K) / v.t0 ≤ q + 2 ↔
      (q : K) * ((p : K) + 1 - v.t0) + ((r : K) + 1) ≤ v.t0 + v.t0 := by
    rw [div_le_iff₀ hpos, hsplit]
    constructor
    · intro h
      linarith
    · intro h
      linarith
  rw [hpulses, ← hbound, abs_le]
  push_cast
  constructor
  · intro h
    linarith [h.1]
  · intro h
    exact ⟨by linarith, by linarith⟩

/-- **The period error accumulates.** Whatever the period, after some number of calls the
pulses are behind for good. -/
theorem pulses_fall_behind (t0 : K) : ∃ n₀, ∀ n, n₀ ≤ n → ¬ KeepsPace t0 n := by
  have hlonger : 0 < (⌊t0⌋₊ : K) + 1 - t0 := sub_pos.mpr (Nat.lt_floor_add_one t0)
  -- every turn loses the same time, so enough turns lose more than two periods
  obtain ⟨turns, hturns⟩ := Archimedean.arch (2 * t0) hlonger
  refine ⟨turns * (⌊t0⌋₊ + 1) + 1, fun n hn => ?_⟩
  rintro (rfl | hle)
  · omega
  have hq : turns ≤ (n - 1) / (⌊t0⌋₊ + 1) := by
    rw [Nat.le_div_iff_mul_le (show 0 < ⌊t0⌋₊ + 1 by omega)]
    omega
  have hq' : (turns : K) ≤ ((n - 1) / (⌊t0⌋₊ + 1) : Nat) := Nat.cast_le.mpr hq
  have hr0 : (0 : K) ≤ ((n - 1) % (⌊t0⌋₊ + 1) : Nat) := Nat.cast_nonneg _
  rw [nsmul_eq_mul] at hturns
  have := mul_le_mul_of_nonneg_right hq' hlonger.le
  linarith

end Ordered

/-- A voiced vocoder with the period of 100 samples of a pitch of 480 Hz. -/
def humming : Vocoder ℚ :=
  { silent noaction 0 with voiced := true, f0 := 480, t0 := 100 }

/-- The first 10000 calls, a fifth of a second: 100 pulses, where 99 or 100 or 101 are close. -/
theorem pulses_close_iff_humming :
    |(humming.pulses Libm.trivial (fun _ => 0) 10000 : ℚ) - (10000 : Nat) / humming.t0| ≤ 1 ↔
      KeepsPace humming.t0 10000 :=
  pulses_close_iff Libm.trivial (fun _ hx => hx) rfl rfl (by decide) _ 10000

/-- After 20101 calls the pulses are late by more than one: there are 200 of them. -/
theorem humming_falls_behind :
    (1 : ℚ) ≤ humming.t0 ∧ humming.t0 = defaultSamplingRate / humming.f0 ∧
      ¬ |(humming.pulses Libm.trivial (fun _ => 0) 20101 : ℚ)
        - (20101 : Nat) / humming.t0| ≤ 1 := by
  have hpulses : humming.pulses Libm.trivial (fun _ => 0) 20101 = 200 :=
    pulses_of_due (p := 100) Libm.trivial rfl rfl (by decide) (by decide) _ (by decide)
  refine ⟨by decide, by norm_num [humming, defaultSamplingRate], ?_⟩
  rw [hpulses]
  norm_num [humming, abs_le]

end Vocoder

end Vox.Mage
