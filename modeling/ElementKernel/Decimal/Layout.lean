import ElementKernel.Decimal.Shortest

/-!
Decimals as text, with a fixed number of places or with an exponent.

The exponent form has one digit before the point, no trailing zero after it and a bare exponent, as
in `2.5e20`.  `shortestText` writes the shortest decimal of a number, positionally from `1e-4` up to
`1e16`.
-/

namespace ElementKernel.Decimal

def digits (n : Nat) : List Char := Nat.toDigits 10 n

/-- The digits of `n` with a point in front of the last `places` of them. -/
def pointed (n places : Nat) : List Char :=
  let plain := digits n
  let padded := List.replicate (places + 1 - plain.length) '0' ++ plain
  let whole := padded.length - places
  padded.take whole ++ '.' :: padded.drop whole

/-- A fraction rounded to a number of decimal places. -/
def fixed (x : Fraction) (places : Nat) : List Char :=
  pointed (x.shift places).round places

def signed (negative : Bool) (text : List Char) : List Char :=
  if negative then '-' :: text else text

def integer (n : Int) : List Char := signed (n < 0) (digits n.natAbs)

/-- The digits of the coefficient without the zeros at the end. -/
def significant (d : Decimal) : List Char :=
  ((digits d.coefficient).reverse.dropWhile (· = '0')).reverse

/-- The exponent of the first digit. -/
def leadingExponent (d : Decimal) : Int :=
  d.place + ((digits d.coefficient).length : Int) - 1

def exponential (d : Decimal) : List Char :=
  let mantissa :=
    match d.significant with
    | first :: second :: rest => first :: '.' :: second :: rest
    | short => short
  mantissa ++ 'e' :: integer d.leadingExponent

/-- The decimal without exponent, with at least one place. -/
def positional (d : Decimal) : List Char :=
  if 0 ≤ d.place then pointed (d.coefficient * Nat.pow 10 d.place.toNat * 10) 1
  else pointed d.coefficient (-d.place).toNat

/-- Whether a finite number is written without exponent. -/
def isPositional (x : Float) : Bool :=
  x == 0 || (1e-4 ≤ x.abs && x.abs < 1e16)

/-- The text of a number that is not finite. -/
def specialText (x : Float) : String :=
  if x.isNaN then "NaN" else if x < 0 then "-inf" else "inf"

/-- The shortest text that reads back as the number. -/
def shortestText (x : Float) : String :=
  if x.isFinite then
    let d := if x == 0 then ⟨0, 0⟩ else shortest (Binary.ofFloat x)
    String.ofList (signed (signBit x) (if isPositional x then d.positional else d.exponential))
  else specialText x

/-- A number with exactly so many decimal places. -/
def fixedText (x : Float) (places : Nat) : String :=
  if x.isFinite then
    String.ofList (signed (signBit x) (fixed (Binary.ofFloat x).toFraction places))
  else specialText x

end ElementKernel.Decimal
