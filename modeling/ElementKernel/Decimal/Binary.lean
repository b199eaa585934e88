import ElementKernel.Decimal.Fraction

/-!
The exact value of a binary64 number and the numbers that read back as it.

A finite number is `mantissa * 2 ^ exponent` up to its sign.  The reals that round to it form an
interval around it, closed exactly when the mantissa is even.
-/

namespace ElementKernel

structure Binary where
  mantissa : Nat
  exponent : Int
  /-- The next smaller number is half as far away as the next larger one. -/
  narrowBelow : Bool
  deriving DecidableEq, Repr

namespace Binary

/-- The magnitude encoded by the 63 bits below the sign bit. -/
def ofMagnitudeBits (bits : Nat) : Binary :=
  let fraction : Nat := bits % Nat.pow 2 52
  let biased : Nat := bits / Nat.pow 2 52 % Nat.pow 2 11
  if biased = 0 then ⟨fraction, -1074, false⟩
  else ⟨Nat.pow 2 52 + fraction, (biased : Int) - 1075, fraction = 0 ∧ 1 < biased⟩

def ofFloat (x : Float) : Binary := ofMagnitudeBits x.toBits.toNat

def toFraction (b : Binary) : Fraction :=
  ⟨b.mantissa * Nat.pow 2 b.exponent.toNat, Nat.pow 2 (-b.exponent).toNat⟩

/-- Compares `coefficient * 10 ^ place` with `quarters` fourths of the last binary place. -/
def compareDecimal (b : Binary) (coefficient : Nat) (place : Int) (quarters : Nat) : Ordering :=
  let binaryPlace := b.exponent - 2
  compare (coefficient * Nat.pow 10 place.toNat * Nat.pow 2 (-binaryPlace).toNat)
    (quarters * Nat.pow 2 binaryPlace.toNat * Nat.pow 10 (-place).toNat)

/-- Whether `coefficient * 10 ^ place` rounds to the number. -/
def reads (b : Binary) (coefficient : Nat) (place : Int) : Bool :=
  let closed := b.mantissa % 2 = 0
  let below := 4 * b.mantissa - (if b.narrowBelow then 1 else 2)
  let above := 4 * b.mantissa + 2
  let fromBelow := b.compareDecimal coefficient place below
  let fromAbove := b.compareDecimal coefficient place above
  (fromBelow == .gt || (closed && fromBelow == .eq)) &&
    (fromAbove == .lt || (closed && fromAbove == .eq))

end Binary

/-- Whether the sign bit of a number is set. -/
def signBit (x : Float) : Bool := Nat.pow 2 63 ≤ x.toBits.toNat

end ElementKernel
