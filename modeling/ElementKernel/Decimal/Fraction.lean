/-!
Nonnegative fractions and their decimal magnitude.

A fraction is scaled by powers of ten and rounded to an integer, which is all that is needed to
write a number with a given number of places or significant digits.
-/

namespace ElementKernel

structure Fraction where
  numerator : Nat
  denominator : Nat
  deriving DecidableEq, Repr

namespace Fraction

/-- The fraction times `10 ^ k`. -/
def shift (x : Fraction) (k : Int) : Fraction :=
  ⟨x.numerator * Nat.pow 10 k.toNat, x.denominator * Nat.pow 10 (-k).toNat⟩

def floor (x : Fraction) : Nat := x.numerator / x.denominator

/-- The nearest integer; a half goes to the even neighbour. -/
def round (x : Fraction) : Nat :=
  let quotient := x.numerator / x.denominator
  let twice := 2 * (x.numerator % x.denominator)
  if x.denominator < twice ∨ (twice = x.denominator ∧ quotient % 2 = 1) then quotient + 1
  else quotient

/-- The number of decimal digits of a positive integer. -/
def decimalLength (n : Nat) : Nat := (Nat.toDigits 10 n).length

/-- The exponent `k` of a positive fraction `x` with `10 ^ k ≤ x < 10 ^ (k + 1)`. -/
def magnitude (x : Fraction) : Int :=
  if x.denominator ≤ x.numerator then
    (decimalLength (x.numerator / x.denominator) : Int) - 1
  else
    -(decimalLength ((x.denominator - 1) / x.numerator) : Int)

/-- A rounded fraction is off by at most one half. -/
theorem round_near (x : Fraction) (h : 0 < x.denominator) :
    2 * x.numerator ≤ 2 * (x.denominator * x.round) + x.denominator ∧
      2 * (x.denominator * x.round) ≤ 2 * x.numerator + x.denominator := by
  have hdiv := Nat.div_add_mod x.numerator x.denominator
  have hmod := Nat.mod_lt x.numerator h
  unfold round
  dsimp only
  split
  next hup =>
    rw [Nat.mul_add, Nat.mul_one]
    omega
  next hdown => omega

theorem round_eq_or (x : Fraction) : x.round = x.floor ∨ x.round = x.floor + 1 := by
  unfold round floor
  dsimp only
  split
  · exact Or.inr rfl
  · exact Or.inl rfl

end Fraction

end ElementKernel
