import ElementKernel.Decimal.Binary

/-!
Decimals of few digits near a binary number.

`Decimal.shortest` has the fewest digits among the decimals that read back as the number and lies
nearest to it among those.  `Decimal.rounded` has a given number of significant digits.
-/

namespace ElementKernel

/-- The number `coefficient * 10 ^ place`. -/
structure Decimal where
  coefficient : Nat
  place : Int
  deriving DecidableEq, Repr

namespace Decimal

/-- The decimal with `count` significant digits nearest to a positive fraction. -/
def rounded (x : Fraction) (count : Nat) : Decimal :=
  let place := x.magnitude - (count : Int) + 1
  ⟨(x.shift (-place)).round, place⟩

/-- The neighbour of the number on the grid of `count` significant digits that reads back as it, the
nearer one if both do and the upper one if both are equally near. -/
def onGrid (b : Binary) (count : Nat) : Option Decimal :=
  let x := b.toFraction
  let place := x.magnitude - (count : Int) + 1
  let scaled := x.shift (-place)
  let lower := scaled.floor
  let upper := lower + 1
  match b.reads lower place, b.reads upper place with
  | true, true =>
      if (2 * lower + 1) * scaled.denominator ≤ 2 * scaled.numerator then some ⟨upper, place⟩
      else some ⟨lower, place⟩
  | true, false => some ⟨lower, place⟩
  | false, true => some ⟨upper, place⟩
  | false, false => none

/-- Seventeen digits tell any two binary64 numbers apart. -/
def maxDigits : Nat := 17

def shortest (b : Binary) : Decimal :=
  (((List.range maxDigits).map (· + 1)).findSome? (onGrid b)).getD (rounded b.toFraction maxDigits)

end Decimal

end ElementKernel
