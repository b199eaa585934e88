import ElementKernel.Quadrature.Gauss
import ElementKernel.Quadrature.Tridiagonal

/-!
Gauss rules on the interval from -1 to 1 for the weight `(1 - x) ^ alpha`.

The points are the eigenvalues of the matrix of the three-term recurrence of the orthogonal
polynomials, and a weight is the integral of the weight function times the square of the first
component of the unit eigenvector.
-/

namespace ElementKernel.Quadrature

/-- The recurrence of the Jacobi polynomials whose second parameter is zero. -/
def jacobiMatrix (n alpha : Nat) : Tridiagonal where
  size := n
  diagonal k :=
    let a := alpha.toFloat
    if k = 0 then -a / (a + 2)
    else
      let s := 2 * k.toFloat + a
      (-a) * a / (s * (s + 2))
  offDiagonal k :=
    let a := alpha.toFloat
    let k := k.toFloat
    let s := 2 * k + a
    (4 * k * (k + a) * k * (k + a) / (s * s * (s + 1) * (s - 1))).sqrt

/-- The exponent `alpha + 1` as a 32-bit signed number. -/
def weightExponent (alpha : Nat) : Checked Int :=
  let exponent := Int.bmod alpha 0x100000000 + 1
  if exponent < 0x80000000 then .ok exponent else .error .overflow

/-- The integral of the weight function. -/
def weightIntegral (alpha : Nat) : Checked Float := do
  return Float.scaleB 1 (← weightExponent alpha) / (alpha.toFloat + 1)

/-- The Gauss-Jacobi rule with `n` points, in ascending order, by the eigenvalues that a solver
finds. -/
def gaussJacobiWith (solver : EigenSolver) (n alpha : Nat) : Checked (LineRule Float) := do
  if n = 0 then
    .error .noQuadraturePoints
  else
    let total ← weightIntegral alpha
    let pairs := solver (jacobiMatrix n alpha)
    let rule ← (List.range n).mapM fun i => do
      let (x, square) ← Checked.get pairs i
      return (total * square, x)
    return ascending rule

def gaussJacobi : Nat → Nat → Checked (LineRule Float) := gaussJacobiWith Tridiagonal.eigenpairs

end ElementKernel.Quadrature
