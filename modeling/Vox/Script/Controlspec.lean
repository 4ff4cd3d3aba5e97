import Vox.Lib.Rounding

/-!
# Script — control specifications

The control specifications of `vox.lua` and the map of norns from the unit
interval onto their ranges: clamp, warp, round to the step. The exponential
warp is a parameter of the development, with `Warps` what is known of it.
-/

namespace Vox.Script

open Lib

inductive Warp
  | lin
  | exp

/-- `controlspec.new( minval, maxval, warp, step )`. -/
structure Controlspec where
  minval : ℚ
  maxval : ℚ
  warp : Warp
  step : ℚ

/-- `w` carries the unit interval onto `[lo, hi]`, increasing. -/
structure Warps (w : ℚ → ℚ) (lo hi : ℚ) : Prop where
  zero : w 0 = lo
  one : w 1 = hi
  mono : ∀ x y, 0 ≤ x → x ≤ y → y ≤ 1 → w x ≤ w y

def clamp (x : ℚ) : ℚ := max 0 (min 1 x)

theorem clamp_nonneg (x : ℚ) : 0 ≤ clamp x := le_max_left _ _

theorem clamp_le_one (x : ℚ) : clamp x ≤ 1 := max_le zero_le_one (min_le_left _ _)

theorem clamp_of_nonpos {x : ℚ} (h : x ≤ 0) : clamp x = 0 :=
  max_eq_left ((min_le_right _ _).trans h)

theorem clamp_of_one_le {x : ℚ} (h : 1 ≤ x) : clamp x = 1 := by
  rw [clamp, min_eq_left h, max_eq_right zero_le_one]

theorem clamp_of_mem {x : ℚ} (h0 : 0 ≤ x) (h1 : x ≤ 1) : clamp x = x := by
  rw [clamp, min_eq_right h1, max_eq_right h0]

/-! ## The map -/

/-- What the script uses of norns: the exponential warp of a controlspec, from
the unit interval onto `[minval, maxval]`. -/
structure Norns where
  expWarp : ℚ → ℚ → ℚ → ℚ

/-- A norns whose exponential warp is the chord: it has the right ends. -/
def Norns.chord : Norns := ⟨fun lo hi x => lo + x * (hi - lo)⟩

theorem chord_warps {lo hi : ℚ} (h : lo ≤ hi) : Warps (Norns.chord.expWarp lo hi) lo hi where
  zero := by simp [Norns.chord]
  one := by simp [Norns.chord]
  mono := fun x y _ hxy _ => by
    have := mul_le_mul_of_nonneg_right hxy (sub_nonneg.mpr h)
    simp only [Norns.chord]
    linarith

namespace Controlspec

def warped (norns : Norns) (cs : Controlspec) (x : ℚ) : ℚ :=
  match cs.warp with
  | .lin => cs.minval + x * (cs.maxval - cs.minval)
  | .exp => norns.expWarp cs.minval cs.maxval x

/-- `controlspec:map`. -/
def map (norns : Norns) (cs : Controlspec) (x : ℚ) : ℚ :=
  roundStep cs.step (cs.warped norns (clamp x))

/-- The values a parameter of this specification can take: those of the range
on the grid of the step. -/
def Allows (cs : Controlspec) (v : ℚ) : Prop :=
  cs.minval ≤ v ∧ v ≤ cs.maxval ∧ ∃ n : Int, v = n * cs.step

/-- A usable specification: a positive step, both ends on its grid, and a warp
onto the range. -/
structure Fits (norns : Norns) (cs : Controlspec) : Prop where
  step_pos : 0 < cs.step
  min_grid : ∃ n : Int, cs.minval = n * cs.step
  max_grid : ∃ n : Int, cs.maxval = n * cs.step
  warps : Warps (cs.warped norns) cs.minval cs.maxval

variable {norns : Norns} {cs : Controlspec}

theorem fits_lin {lo hi step : ℚ} (hle : lo ≤ hi) (hstep : 0 < step)
    (hlo : ∃ n : Int, lo = n * step) (hhi : ∃ n : Int, hi = n * step) :
    Fits norns ⟨lo, hi, .lin, step⟩ where
  step_pos := hstep
  min_grid := hlo
  max_grid := hhi
  warps := chord_warps hle

/-- **The map lands on an allowed value.** -/
theorem Fits.allows_map (h : Fits norns cs) (x : ℚ) : cs.Allows (cs.map norns x) := by
  obtain ⟨a, ha⟩ := h.min_grid
  obtain ⟨b, hb⟩ := h.max_grid
  have hlo : cs.minval ≤ cs.warped norns (clamp x) := by
    have := h.warps.mono 0 (clamp x) le_rfl (clamp_nonneg x) (clamp_le_one x)
    rwa [h.warps.zero] at this
  have hhi : cs.warped norns (clamp x) ≤ cs.maxval := by
    have := h.warps.mono (clamp x) 1 (clamp_nonneg x) (clamp_le_one x) le_rfl
    rwa [h.warps.one] at this
  -- rounding keeps between two points of the grid
  rw [ha] at hlo
  rw [hb] at hhi
  obtain ⟨hmin, hmax⟩ := roundStep_mem h.step_pos hlo hhi
  refine ⟨?_, ?_, ⌊cs.warped norns (clamp x) / cs.step + 1 / 2⌋, rfl⟩
  · rw [ha]
    exact hmin
  · rw [hb]
    exact hmax

theorem Fits.map_of_nonpos (h : Fits norns cs) {x : ℚ} (hx : x ≤ 0) :
    cs.map norns x = cs.minval := by
  obtain ⟨a, ha⟩ := h.min_grid
  rw [map, clamp_of_nonpos hx, h.warps.zero, ha, roundStep_mul h.step_pos]

theorem Fits.map_of_one_le (h : Fits norns cs) {x : ℚ} (hx : 1 ≤ x) :
    cs.map norns x = cs.maxval := by
  obtain ⟨b, hb⟩ := h.max_grid
  rw [map, clamp_of_one_le hx, h.warps.one, hb, roundStep_mul h.step_pos]

end Controlspec

end Vox.Script
