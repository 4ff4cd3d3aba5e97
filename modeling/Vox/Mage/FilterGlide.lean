import Vox.Mage.VocoderReset

/-!
# MAGE — the filter between two frames

A push hands the filter new coefficients to reach. The coefficients of the push before it
become the current ones at once, and every pop then adds a step of `iprd / fprd` of the
difference, `fprd / iprd` times. After that pops change nothing until the next push.

* `Targets` — what this makes of the calls: the coefficients that were pushed since the last
  reset, and the pops since the last push.
* `coefficients_glide` — after any calls, the coefficients of the filter are on the way from
  the target before the last one to the last one, as far as the pops have brought them; they
  never overshoot, and they stop at the target.
-/

namespace Vox.Mage

open Lib

-- ---------------------------------------------------------------------------
-- Interpolation
-- ---------------------------------------------------------------------------

section Interpolation

variable {K : Type*} [Field K]

/-- Between two vectors, after `k` steps of `fprd / iprd`. -/
def glide (fprd iprd : Int) (a b : List K) (k : Int) : List K :=
  List.zipWith (fun x y => x + (min k (fprd / iprd) : Int) * (y - x) * iprd / fprd) a b

/-- Adding two lists that are computed element by element. -/
theorem zipWith_add_zipWith (f g : K → K → K) (a b : List K) :
    List.zipWith (· + ·) (List.zipWith f a b) (List.zipWith (fun y x => g x y) b a) =
      List.zipWith (fun x y => f x y + g x y) a b := by
  induction a generalizing b with
  | nil => simp
  | cons x a ih =>
    cases b with
    | nil => rfl
    | cons y b => simp only [List.zipWith_cons_cons, ih]

omit [Field K] in
theorem zipWith_right {a b : List K} (h : a.length = b.length) :
    List.zipWith (fun _ y => y) a b = b := by
  induction a generalizing b with
  | nil => exact (List.length_eq_zero_iff.mp h.symm).symm
  | cons x a ih =>
    cases b with
    | nil => cases h
    | cons y b => rw [List.zipWith_cons_cons, ih (Nat.succ.inj h)]

theorem glide_self (fprd iprd : Int) (b : List K) (k : Int) : glide fprd iprd b b k = b := by
  rw [glide]
  induction b with
  | nil => rfl
  | cons y b ih => rw [List.zipWith_cons_cons, ih, sub_self, mul_zero, zero_mul, zero_div, add_zero]

theorem glide_zero {fprd iprd : Int} (h : 0 ≤ fprd / iprd) {a b : List K}
    (hlen : a.length = b.length) : glide fprd iprd a b 0 = a := by
  have hright := zipWith_right hlen.symm
  rw [List.zipWith_comm] at hright
  rw [glide, min_eq_left h]
  simpa using hright

/-- One more step, while there are steps left. -/
theorem glide_succ {fprd iprd k : Int} (h : k < fprd / iprd) (a b : List K) :
    List.zipWith (· + ·) (glide fprd iprd a b k)
        (List.zipWith (fun y x : K => (y - x) * iprd / fprd) b a) =
      glide fprd iprd a b (k + 1) := by
  rw [glide, zipWith_add_zipWith _ (fun x y : K => (y - x) * iprd / fprd), glide]
  congr 1
  funext x y
  rw [min_eq_left h.le, min_eq_left (by omega)]
  push_cast
  ring

variable [LinearOrder K] [IsStrictOrderedRing K]

section Whole

variable {fprd iprd : Int} (hf : 0 < fprd) (hi : 0 < iprd) (hdvd : iprd ∣ fprd)

include hf hi hdvd

/-- The part of the way after `k` steps. -/
theorem progress_mem {k : Int} (hk : 0 ≤ k) :
    (0 : K) ≤ (min k (fprd / iprd) : Int) * iprd / fprd ∧
      ((min k (fprd / iprd) : Int) : K) * iprd / fprd ≤ 1 := by
  have hmul : fprd / iprd * iprd = fprd := Int.ediv_mul_cancel hdvd
  have hsteps : 0 ≤ fprd / iprd := Int.ediv_nonneg hf.le hi.le
  have hfK : (0 : K) < fprd := Int.cast_pos.mpr hf
  have hle : min k (fprd / iprd) * iprd ≤ fprd := by
    calc min k (fprd / iprd) * iprd ≤ fprd / iprd * iprd :=
          Int.mul_le_mul_of_nonneg_right (min_le_right _ _) hi.le
      _ = fprd := hmul
  have hnonneg : 0 ≤ min k (fprd / iprd) * iprd := Int.mul_nonneg (le_min hk hsteps) hi.le
  rw [← Int.cast_mul]
  refine ⟨div_nonneg (Int.cast_nonneg hnonneg) hfK.le, ?_⟩
  rw [div_le_one hfK]
  exact_mod_cast hle

omit hi in
/-- After the last step. -/
theorem glide_of_le {k : Int} (hk : fprd / iprd ≤ k) {a b : List K}
    (hlen : a.length = b.length) : glide fprd iprd a b k = b := by
  have hfK : (fprd : K) ≠ 0 := Int.cast_ne_zero.mpr hf.ne'
  have hmul : ((fprd / iprd : Int) : K) * iprd = fprd := by
    exact_mod_cast Int.ediv_mul_cancel hdvd
  rw [glide, min_eq_right hk]
  calc List.zipWith (fun x y => x + ((fprd / iprd : Int) : K) * (y - x) * iprd / fprd) a b
      = List.zipWith (fun _ y => y) a b := by
        congr 1
        funext x y
        rw [mul_right_comm, hmul, mul_div_cancel_left₀ _ hfK, add_sub_cancel]
    _ = b := zipWith_right hlen

/-- **No overshoot**: a coefficient stays between the two it is interpolated from. -/
theorem glide_mem {k : Int} (hk : 0 ≤ k) {a b : List K} (hlen : a.length = b.length) (i : Nat) :
    min (a.getD i 0) (b.getD i 0) ≤ (glide fprd iprd a b k).getD i 0 ∧
      (glide fprd iprd a b k).getD i 0 ≤ max (a.getD i 0) (b.getD i 0) := by
  obtain ⟨hlo, hhi⟩ := progress_mem (K := K) hf hi hdvd hk
  rw [glide]
  rcases Nat.lt_or_ge i a.length with hia | hia
  · have hib : i < b.length := hlen ▸ hia
    simp only [List.getD_eq_getElem?_getD, List.getElem?_zipWith, List.getElem?_eq_getElem hia,
      List.getElem?_eq_getElem hib, Option.getD_some]
    -- the part `t` of the way is between 0 and 1, and so is the point between `a` and `b`
    set t : K := (min k (fprd / iprd) : Int) * iprd / fprd with ht
    have hpoint : a[i] + ((min k (fprd / iprd) : Int) : K) * (b[i] - a[i]) * iprd / fprd =
        a[i] + t * (b[i] - a[i]) := by
      rw [ht]
      ring
    rw [hpoint]
    rcases le_total a[i] b[i] with hab | hab
    · rw [min_eq_left hab, max_eq_right hab]
      exact ⟨by nlinarith, by nlinarith⟩
    · rw [min_eq_right hab, max_eq_left hab]
      exact ⟨by nlinarith, by nlinarith⟩
  -- past the end all three lists read 0
  · have hib : b.length ≤ i := hlen ▸ hia
    rw [List.getD_eq_default _ _ hia, List.getD_eq_default _ _ hib, List.getD_eq_default]
    · simp
    · rw [List.length_zipWith]
      exact (min_le_left _ _).trans hia

end Whole

end Interpolation

namespace Vocoder

variable {K : Type*} [Field K]

-- ---------------------------------------------------------------------------
-- Targets
-- ---------------------------------------------------------------------------

/-- What the calls ask of the filter: the coefficients that were pushed since the last reset,
the newest first, and the pops since the last push. -/
structure Targets (K : Type*) where
  alpha : K
  targets : List (List K)
  pops : Nat

/-- The coefficients of a frame for the filter without stages. -/
def target (m : Nat) (alpha : K) (frame : Frame K) : List K :=
  mc2b ((List.range (m + 1)).map (frame.streams mgcStreamIndex)) alpha

def Targets.call (m : Nat) (h : Targets K) : Call K → Targets K
  | .push frame _ => { h with targets := target m h.alpha frame :: h.targets, pops := 0 }
  | .pop => { h with pops := h.pops + 1 }
  | .setAlpha alpha => { h with alpha := alpha }
  | .reset => ⟨defaultAlpha, [], 0⟩
  | _ => h

/-- The targets of a history. -/
def targets (m : Nat) (aalpha : K) (calls : List (Call K)) : Targets K :=
  calls.foldl (Targets.call m) ⟨aalpha, [], 0⟩

-- ---------------------------------------------------------------------------
-- The filter follows
-- ---------------------------------------------------------------------------

/-- The vocoder glides from `a` to `b`, and has made `k` steps. -/
structure Gliding (v : Vocoder K) (fprd iprd : Int) (a b : List K) (k : Nat) : Prop where
  c_eq : v.c = glide fprd iprd a b k
  cc_eq : v.cc = b
  inc_eq : v.inc = List.zipWith (fun y x : K => (y - x) * (iprd : K) / (fprd : K)) b a
  pops_eq : v.nOfPopSinceLastPush = k

/-- The vocoder is where the targets of its history say. -/
structure Follows (v : Vocoder K) (m : Nat) (fprd iprd : Int) (h : Targets K) : Prop where
  m_eq : v.m = m
  stage_eq : v.stage = 0
  fprd_eq : v.fprd = fprd
  iprd_eq : v.iprd = iprd
  alpha_eq : v.alpha = h.alpha
  length_eq : ∀ b ∈ h.targets, b.length = m + 1
  first : v.flagFirstPush = h.targets.isEmpty
  gliding : ∀ b earlier, h.targets = b :: earlier →
    v.Gliding fprd iprd (earlier.headD b) b h.pops

/-- A target has the length of the filter. -/
theorem length_target (m : Nat) (alpha : K) (frame : Frame K) :
    (target m alpha frame).length = m + 1 := by
  rw [target, length_mc2b, List.length_map, List.length_range]

variable [LinearOrder K] {v : Vocoder K} {m : Nat} {fprd iprd : Int} {h : Targets K}

theorem Follows.prepare (libm : Libm K) (hfollows : v.Follows m fprd iprd h)
    (hsteps : 0 ≤ fprd / iprd) (frame : Frame K) (ignoreVoicing : Bool) :
    (v.prepare libm frame frame.voiced ignoreVoicing).Follows m fprd iprd
      (h.call m (.push frame ignoreVoicing)) := by
  have hcoefficients : coefficients libm v frame = target m h.alpha frame := by
    rw [coefficients_of_stage libm hfollows.stage_eq, hfollows.m_eq, hfollows.alpha_eq, target]
  -- the coefficients start from the target before, or from the new one
  have hstart : (if v.flagFirstPush then coefficients libm v frame else v.cc) =
      h.targets.headD (target m h.alpha frame) := by
    rw [hfollows.first, hcoefficients]
    cases htargets : h.targets with
    | nil => rfl
    | cons b earlier => exact (hfollows.gliding b earlier htargets).cc_eq
  refine ⟨hfollows.m_eq, hfollows.stage_eq, hfollows.fprd_eq, hfollows.iprd_eq,
    hfollows.alpha_eq, ?_, rfl, ?_⟩
  · intro b hb
    rcases List.mem_cons.mp hb with rfl | hb
    · exact length_target m h.alpha frame
    · exact hfollows.length_eq b hb
  -- the glide to the new target starts now: no steps are made
  · rintro b earlier heq
    obtain ⟨rfl, rfl⟩ := List.cons.inj heq
    have hlength : (h.targets.headD (target m h.alpha frame)).length =
        (target m h.alpha frame).length := by
      cases htargets : h.targets with
      | nil => rfl
      | cons b earlier =>
        rw [length_target]
        exact hfollows.length_eq b (htargets ▸ List.mem_cons_self)
    refine ⟨?_, hcoefficients, ?_, rfl⟩
    · exact hstart.trans (glide_zero hsteps hlength).symm
    · show List.zipWith (fun y x : K => (y - x) * (v.iprd : K) / (v.fprd : K))
        (coefficients libm v frame) _ = _
      rw [hstart, hcoefficients, hfollows.iprd_eq, hfollows.fprd_eq]

theorem Follows.pop [FloorRing K] (libm : Libm K) (hfollows : v.Follows m fprd iprd h)
    (hf : 0 < fprd) (random : Nat → K) :
    (v.pop libm random).2.1.Follows m fprd iprd (h.call m .pop) := by
  obtain ⟨count, d, hpop⟩ := v.pop_eq libm random
  rw [hpop]
  refine ⟨hfollows.m_eq, hfollows.stage_eq, hfollows.fprd_eq, hfollows.iprd_eq,
    hfollows.alpha_eq, hfollows.length_eq, hfollows.first, ?_⟩
  intro b earlier htargets
  have hgliding := hfollows.gliding b earlier htargets
  refine ⟨?_, hgliding.cc_eq, hgliding.inc_eq, ?_⟩
  · show (if v.nOfPopSinceLastPush < v.fprd.tdiv v.iprd then List.zipWith (· + ·) v.c v.inc
      else v.c) = glide fprd iprd _ b ((h.pops + 1 : Nat) : Int)
    rw [hfollows.fprd_eq, hfollows.iprd_eq, Int.tdiv_eq_ediv_of_nonneg hf.le, hgliding.pops_eq,
      hgliding.c_eq, hgliding.inc_eq]
    -- one more step, or the last one was made before
    split
    · rename_i hleft
      exact glide_succ hleft _ b
    · rename_i hdone
      rw [glide, glide, min_eq_right (by omega), min_eq_right (by omega)]
  · show v.nOfPopSinceLastPush + 1 = ((h.pops + 1 : Nat) : Int)
    rw [hgliding.pops_eq]
    rfl

/-- Every call keeps to the targets. -/
theorem Follows.call [FloorRing K] (libm : Libm K) (hf : 0 < fprd) (hi : 0 < iprd)
    (hfollows : v.Follows m fprd iprd h) (random : Nat → K) (c : Call K) :
    (v.call libm random c).2.1.Follows m fprd iprd (h.call m c) := by
  have hset := hfollows
  obtain ⟨hm, hstage, hfprd, hiprd, halpha, hlength, hfirst, hgliding⟩ := hset
  -- the calls that touch neither the coefficients nor the count of pops
  have hkeep : ∀ w : Vocoder K, w.c = v.c → w.cc = v.cc → w.inc = v.inc →
      w.nOfPopSinceLastPush = v.nOfPopSinceLastPush → ∀ b earlier, h.targets = b :: earlier →
      w.Gliding fprd iprd (earlier.headD b) b h.pops := by
    intro w hc hcc hinc hpops b earlier htargets
    have hv := hgliding b earlier htargets
    exact ⟨hc.trans hv.c_eq, hcc.trans hv.cc_eq, hinc.trans hv.inc_eq, hpops.trans hv.pops_eq⟩
  cases c with
  | push frame ignoreVoicing =>
    exact hfollows.prepare libm (Int.ediv_nonneg hf.le hi.le) frame ignoreVoicing
  | pop => exact hfollows.pop libm hf random
  | setPitch pitch action forceVoiced =>
    exact ⟨hm, hstage, hfprd, hiprd, halpha, hlength, hfirst, hkeep _ rfl rfl rfl rfl⟩
  | setVoiced forceVoiced =>
    exact ⟨hm, hstage, hfprd, hiprd, halpha, hlength, hfirst, hkeep _ rfl rfl rfl rfl⟩
  | setAlpha alpha =>
    exact ⟨hm, hstage, hfprd, hiprd, rfl, hlength, hfirst, hkeep _ rfl rfl rfl rfl⟩
  | setVolume volume =>
    exact ⟨hm, hstage, hfprd, hiprd, halpha, hlength, hfirst, hkeep _ rfl rfl rfl rfl⟩
  | reset =>
    -- after a reset there is no target to follow
    refine ⟨hm, rfl, hfprd, hiprd, rfl, ?_, rfl, ?_⟩
    · exact fun b hb => absurd hb List.not_mem_nil
    · exact fun b earlier htargets => absurd htargets (List.cons_ne_nil b earlier).symm

theorem follows_run [FloorRing K] (libm : Libm K) (hf : 0 < fprd) (hi : 0 < iprd) (random : Nat → K)
    (hfollows : v.Follows m fprd iprd h) (calls : List (Call K)) :
    (run libm v random calls).Follows m fprd iprd (calls.foldl (Targets.call m) h) := by
  induction calls generalizing v h random with
  | nil => exact hfollows
  | cons c calls ih => exact ih _ (hfollows.call libm hf hi random c)

/--
**The filter glides to its target and stops there.** After any calls, from a vocoder without
stages: after the first push since the last reset the coefficients are its target. After a
later one they are as far from the target before to its own as the pops since have brought
them, between the two, and from pop `fprd / iprd` on they are its own. -/
theorem coefficients_glide [IsStrictOrderedRing K] [FloorRing K] (libm : Libm K) (am : Nat)
    (aalpha : K) {afprd aiprd : Int} (apd : Int) (angain : Bool) (gamma actionValue : K)
    (hf : 0 < afprd) (hi : 0 < aiprd) (hdvd : aiprd ∣ afprd) (random : Nat → K)
    (calls : List (Call K)) :
    let v := run libm (construct am aalpha afprd aiprd 0 apd angain gamma actionValue) random calls
    let h := targets am aalpha calls
    (∀ b, h.targets = [b] → v.c = b) ∧
      ∀ a b earlier, h.targets = b :: a :: earlier →
        v.c = glide afprd aiprd a b h.pops ∧
          (afprd / aiprd ≤ h.pops → v.c = b) ∧
          ∀ i, min (a.getD i 0) (b.getD i 0) ≤ v.c.getD i 0 ∧
            v.c.getD i 0 ≤ max (a.getD i 0) (b.getD i 0) := by
  intro v h
  -- before the first frame there is no target
  have hstart : (construct am aalpha afprd aiprd 0 apd angain gamma actionValue).Follows am afprd
      aiprd ⟨aalpha, [], 0⟩ :=
    ⟨rfl, rfl, rfl, rfl, rfl, fun b hb => absurd hb List.not_mem_nil, rfl,
      fun b earlier htargets => absurd htargets (List.cons_ne_nil b earlier).symm⟩
  have hfollows : v.Follows am afprd aiprd h := follows_run libm hf hi random hstart calls
  constructor
  · intro b htargets
    rw [(hfollows.gliding b [] htargets).c_eq]
    exact glide_self afprd aiprd b _
  · intro a b earlier htargets
    -- the glide goes from the last target but one
    have hgliding := hfollows.gliding b (a :: earlier) htargets
    have hlength : a.length = b.length := by
      rw [hfollows.length_eq a (by simp [htargets]), hfollows.length_eq b (by simp [htargets])]
    rw [hgliding.c_eq]
    refine ⟨rfl, fun hdone => glide_of_le hf hdvd hdone hlength, fun i => ?_⟩
    exact glide_mem hf hi hdvd (Int.natCast_nonneg _) hlength i

/-- A voiced frame whose spectrum rises from `x`. -/
def rising (x : ℚ) : Frame ℚ where
  streams stream i := if stream = lf0StreamIndex then 100 else x + i
  voiced := true

/-- Two frames after a reset, and two pops on the way from the first to the second. -/
def risingCalls : List (Call ℚ) :=
  [.push (rising 1) false, .pop, .reset, .pop, .setAlpha (1 / 2), .push (rising 2) false, .pop,
    .push (rising 4) false, .pop, .pop]

/-- The pops that are left of the eight. -/
def arrivingCalls : List (Call ℚ) := risingCalls ++ [.pop, .pop, .pop, .pop, .pop, .pop]

/-- After two of eight pops the coefficients are on their way, and after eight they have
arrived. -/
theorem coefficients_glide_rising :
    (run Libm.trivial (construct 2 (1 / 2) 8 1 0 5 false 0 0) (fun _ => 0) risingCalls).c
        = [15 / 8, 5 / 4, 9 / 2] ∧
      (run Libm.trivial (construct 2 (1 / 2) 8 1 0 5 false 0 0) (fun _ => 0) arrivingCalls).c
        = [3, 2, 6] := by
  have hglide := coefficients_glide Libm.trivial 2 (1 / 2 : ℚ) 5 false 0 0
    (show (0 : Int) < 8 by decide) (show (0 : Int) < 1 by decide) (by decide) (fun _ => 0)
  constructor
  · have htargets : (targets 2 (1 / 2) risingCalls).targets = [[3, 2, 6], [3 / 2, 1, 4]] := by
      decide +kernel
    rw [((hglide risingCalls).2 [3 / 2, 1, 4] [3, 2, 6] [] htargets).1]
    decide +kernel
  · have htargets : (targets 2 (1 / 2) arrivingCalls).targets = [[3, 2, 6], [3 / 2, 1, 4]] := by
      decide +kernel
    have hpops : (8 : Int) / 1 ≤ ((targets 2 (1 / 2 : ℚ) arrivingCalls).pops : Nat) := by
      decide +kernel
    exact ((hglide arrivingCalls).2 [3 / 2, 1, 4] [3, 2, 6] [] htargets).2.1 hpops

end Vocoder

end Vox.Mage
