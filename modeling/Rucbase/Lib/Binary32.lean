import Mathlib.Algebra.Group.Nat.Defs
import Mathlib.Data.Int.Order.Basic
import Mathlib.Order.Compare

/-!
# Single-precision floats as bit patterns

A binary32 float is its 32-bit pattern: a sign bit, eight exponent bits and 23 fraction bits. Away
from the NaNs, numeric order is the order of the low 31 bits, reversed when the sign is set, so the
comparisons of the language need no arithmetic on exponents. Both zeros have the rank `0`.
-/

namespace Rucbase.Lib

/-- The exponent is all ones and the fraction is not zero. -/
def Binary32.isNaN (x : BitVec 32) : Bool := 0x7f800000 < x.toNat % 2^31

/-- The place of a float that is not a NaN in the numeric order. -/
def Binary32.rank (x : BitVec 32) : ℤ :=
  if x.msb then -((x.toNat % 2^31 : ℕ) : ℤ) else ((x.toNat % 2^31 : ℕ) : ℤ)

/-- `x < y` on floats; a NaN is not below anything and nothing is below it. -/
def Binary32.lt (x y : BitVec 32) : Bool :=
  !Binary32.isNaN x && !Binary32.isNaN y && decide (Binary32.rank x < Binary32.rank y)

/-- `x == y` on floats; a NaN is not equal to itself, and the two zeros are equal. -/
def Binary32.eq (x y : BitVec 32) : Bool :=
  !Binary32.isNaN x && !Binary32.isNaN y && decide (Binary32.rank x = Binary32.rank y)

end Rucbase.Lib
