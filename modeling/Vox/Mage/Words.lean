import Mathlib.Algebra.Ring.Int.Defs

/-!
# MAGE — machine integers

An `int` has 32 bits and wraps; an `unsigned int` is a natural number below
`uintMod` (see the label queue).
-/

namespace Vox.Mage

/-- The `int` that holds the low 32 bits of a number. -/
def toInt (n : Int) : Int := (n + 2 ^ 31) % 2 ^ 32 - 2 ^ 31

theorem toInt_of_mem {n : Int} (hlo : -2 ^ 31 ≤ n) (hhi : n < 2 ^ 31) : toInt n = n := by
  unfold toInt
  omega

theorem toInt_mem (n : Int) : -2 ^ 31 ≤ toInt n ∧ toInt n < 2 ^ 31 := by
  unfold toInt
  omega

/-- The value of an `int` in a comparison with an `unsigned int`. -/
def unsignedInt (d : Int) : Nat := (d % 2 ^ 32).toNat

theorem unsignedInt_eq {d : Int} (hpos : 0 ≤ d) (hlt : d < 2 ^ 32) : unsignedInt d = d := by
  rw [unsignedInt, Int.emod_eq_of_lt hpos hlt, Int.toNat_of_nonneg hpos]

end Vox.Mage
