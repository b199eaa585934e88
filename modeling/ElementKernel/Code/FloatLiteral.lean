import ElementKernel.Decimal.Layout
import ElementKernel.Word

/-!
Float literals of generated code.

A literal has a number of significant digits.  From `1e-5` up to `1e16` it is written with a point
and at least one digit after it, beyond that range with an exponent.  Digits that are zero at the
end of the fraction are left out.
-/

namespace ElementKernel.FloatLiteral

/-- Drops the zeros at the end of a text with a point, but keeps one digit after the point. -/
def trimFraction (text : List Char) : List Char :=
  match text.reverse.dropWhile (· = '0') with
  | '.' :: whole => ('0' :: '.' :: whole).reverse
  | rest => rest.reverse

/-- No binary64 number has more places after the point. -/
def maxPlaces : Int := 1074

/-- The places after the point that give a number of this decimal exponent its digits.  The number
of digits counts as a signed word, and places that can only hold zeros are left out. -/
def places (exponent : Int) (digits : Nat) : Nat :=
  (min (max (Word.signed digits - 1 - exponent) 1) maxPlaces).toNat

def positional (exponent : Int) (digits : Nat) (x : Fraction) : List Char :=
  trimFraction (Decimal.fixed x (places exponent digits))

/-- The shortest decimal of the number, or the nearest one of so many digits if that is shorter. -/
def exponential (digits : Nat) (b : Binary) : List Char :=
  let shortest := Decimal.shortest b
  if shortest.significant.length ≤ digits then shortest.exponential
  else (Decimal.rounded b.toFraction digits).exponential

/-- Whether a finite number other than zero is written without exponent. -/
def isPositional (x : Float) : Bool := 1e-5 ≤ x.abs && x.abs < 1e16

/-- The literal of a finite number whose magnitude has the given decimal exponent. -/
def chars (exponent : Int) (digits : Nat) (x : Float) : List Char :=
  if x == 0 then ['0', '.', '0']
  else
    let b := Binary.ofFloat x
    Decimal.signed (signBit x)
      (if isPositional x then positional exponent digits b.toFraction
      else exponential digits b)

def decimalExponent (x : Float) : Int := x.abs.log10.floor.toInt64.toInt

/-- The literal of a finite number with the given number of significant digits. -/
def text (x : Float) (digits : Nat) : String :=
  String.ofList (chars (decimalExponent x) (max digits 1) x)

end ElementKernel.FloatLiteral
