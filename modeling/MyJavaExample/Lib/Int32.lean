import Mathlib.Algebra.Ring.Int.Defs
import Mathlib.Algebra.Ring.Nat
import Mathlib.Data.Int.Basic

/-!
# 32-bit signed integers

The `int` of C and of Java, as integers with explicit wrap-around.  `toInt32`
is the value an `int` variable takes when it is assigned a mathematical
integer.
-/

namespace MyJavaExample.Lib

/-- Wrap an integer into the range of a 32-bit signed integer. -/
def toInt32 (x : ℤ) : ℤ := (x + 2 ^ 31) % 2 ^ 32 - 2 ^ 31

theorem toInt32_of_range {x : ℤ} (hl : -2 ^ 31 ≤ x) (hu : x < 2 ^ 31) : toInt32 x = x := by
  unfold toInt32
  omega

theorem toInt32_lower (x : ℤ) : -2 ^ 31 ≤ toInt32 x := by
  unfold toInt32
  omega

theorem toInt32_upper (x : ℤ) : toInt32 x < 2 ^ 31 := by
  unfold toInt32
  omega

/-- Wrapping early does not change a sum. -/
theorem toInt32_add_left (x y : ℤ) : toInt32 (toInt32 x + y) = toInt32 (x + y) := by
  unfold toInt32
  omega

end MyJavaExample.Lib
