/-!
Legendre polynomials by their three-term recurrence.

The recurrence `m P_m = (2 m - 1) x P_(m-1) - (m - 1) P_(m-2)` is evaluated over any numbers.  The
derivative is taken from the last two polynomials, which is possible only where `x * x` is not one.
-/

namespace ElementKernel.Quadrature

instance floatNatCast : NatCast Float := ⟨Float.ofNat⟩

/-- The values of two consecutive Legendre polynomials at a point, that of degree `n` first. -/
structure LegendrePair (α : Type) where
  current : α
  previous : α
  deriving Repr

variable {α : Type} [Add α] [Sub α] [Mul α] [Div α] [NatCast α]

namespace LegendrePair

def evaluate (x : α) : Nat → LegendrePair α
  | 0 => ⟨((1 : Nat) : α), ((0 : Nat) : α)⟩
  | k + 1 =>
      let last := evaluate x k
      let m := ((k + 1 : Nat) : α)
      let one := ((1 : Nat) : α)
      let two := ((2 : Nat) : α)
      ⟨((two * m - one) * x * last.current - (m - one) * last.previous) / m, last.current⟩

end LegendrePair

/-- The Legendre polynomial of degree `n`. -/
def legendre (n : Nat) (x : α) : α := (LegendrePair.evaluate x n).current

/-- The derivative of the Legendre polynomial of degree `n`. -/
def legendreDerivative (n : Nat) (x : α) : α :=
  let pair := LegendrePair.evaluate x n
  (n : α) * (x * pair.current - pair.previous) / (x * x - ((1 : Nat) : α))

end ElementKernel.Quadrature
