import ElementKernel.Decimal.Shortest

/-!
The binary64 number nearest to a decimal.

The magnitudes of the numbers grow with their bits, so a rounded mantissa that needs one more bit
carries into the exponent by itself.
-/

namespace ElementKernel

namespace Fraction

/-- The exponent `k` of a positive fraction `x` with `2 ^ k ≤ x < 2 ^ (k + 1)`. -/
def binaryMagnitude (x : Fraction) : Int :=
  let k := (x.numerator.log2 : Int) - x.denominator.log2
  if x.denominator * Nat.pow 2 k.toNat ≤ x.numerator * Nat.pow 2 (-k).toNat then k else k - 1

/-- The exponent of the last binary place that a binary64 number of this size has. -/
def lastPlace (x : Fraction) : Int := max (x.binaryMagnitude - 52) (-1074)

/-- The bits below the sign bit of the number nearest to a fraction, as if the exponents had no
bound above; a half goes to the even mantissa. -/
def nearestBits (x : Fraction) : Nat :=
  if x.numerator = 0 then 0
  else
    let place := x.lastPlace
    let scaled : Fraction :=
      ⟨x.numerator * Nat.pow 2 (-place).toNat, x.denominator * Nat.pow 2 place.toNat⟩
    (place + 1074).toNat * Nat.pow 2 52 + scaled.round

/-- The bits of infinity, which are above those of every number. -/
def infinityBits : Nat := 2047 * Nat.pow 2 52

/-- The nearest number, if it is finite. -/
def toFloat? (x : Fraction) : Option Float :=
  let bits := x.nearestBits
  if bits < infinityBits then some (Float.ofBits (UInt64.ofNat bits)) else none

end Fraction

namespace Decimal

/-- The nearest number, if it is finite.  A decimal below half of the least positive number is not
expanded, nor is one above the largest number. -/
def toFloat? (d : Decimal) : Option Float :=
  let length := Fraction.decimalLength d.coefficient
  if d.coefficient = 0 ∨ length + d.place ≤ -324 then some 0
  else if 310 ≤ length + d.place then none
  else
    Fraction.toFloat? ⟨d.coefficient * Nat.pow 10 d.place.toNat, Nat.pow 10 (-d.place).toNat⟩

end Decimal

end ElementKernel
