import ElementKernel.Element.Cell
import ElementKernel.Quadrature.GaussJacobi
import ElementKernel.Quadrature.PointCount

/-!
Quadrature rules on the unit reference cells.

Tensor cells use products of Gauss rules.  Simplices use as many points, from collapsing the unit
square or cube onto the simplex; the Jacobian of the collapse is absorbed into Gauss-Jacobi weights.
-/

namespace ElementKernel.Quadrature

/-- A rule on a cell: pairs of a weight and the coordinates of a point. -/
abbrev CellRule (α : Type) := List (α × List α)

variable {α : Type} [Add α] [Sub α] [Mul α] [Div α] [NatCast α]

def one : α := ((1 : Nat) : α)

def half : α := one / ((2 : Nat) : α)

/-- The product of `product` and a power by repeated squaring, low powers first. -/
def timesPower (product x : α) (n : Nat) : α :=
  if _h : n = 0 then product
  else timesPower (if n % 2 = 1 then product * x else product) (x * x) (n / 2)
termination_by n

def power (x : α) (n : Nat) : α := timesPower one x n

/-- Moves a rule for the weight `(1 - x) ^ alpha` from the interval from -1 to 1 to the unit
interval. -/
def toUnitInterval (alpha : Nat) (rule : LineRule α) : LineRule α :=
  let scale := power half (alpha + 1)
  rule.map fun (w, x) => (scale * w, half * (one + x))

def intervalRule (x : LineRule α) : CellRule α :=
  x.map fun (w, x) => (w, [x])

def squareRule (rule : LineRule α) : CellRule α :=
  rule.flatMap fun (wx, x) =>
    rule.map fun (wy, y) => (wx * wy, [x, y])

def cubeRule (rule : LineRule α) : CellRule α :=
  rule.flatMap fun (wx, x) =>
    rule.flatMap fun (wy, y) =>
      rule.map fun (wz, z) => (wx * wy * wz, [x, y, z])

/-- Collapses the unit square onto the triangle. -/
def triangleRule (u v : LineRule α) : CellRule α :=
  u.flatMap fun (wu, u) =>
    v.map fun (wv, v) => (wu * wv, [u * (one - v), v])

/-- Collapses the unit cube onto the tetrahedron. -/
def tetrahedronRule (u v w : LineRule α) : CellRule α :=
  u.flatMap fun (wu, u) =>
    v.flatMap fun (wv, v) =>
      w.map fun (ww, w) =>
        (wu * wv * ww, [u * (one - v) * (one - w), v * (one - w), w])

/-- The rules in one dimension that cell rules are made of: with `m` points on the interval from -1
to 1, and the same for the weight `(1 - x) ^ alpha`. -/
structure LineRules (α : Type) where
  gauss (m : Nat) : Checked (LineRule α)
  gaussJacobi (m alpha : Nat) : Checked (LineRule α)

namespace LineRules

/-- The rule with `m` points for the weight `(1 - x) ^ alpha` on the interval from -1 to 1. -/
def weighted (lines : LineRules α) (m alpha : Nat) : Checked (LineRule α) :=
  if alpha = 0 then lines.gauss m else lines.gaussJacobi m alpha

/-- The rule with `m` points for the weight `(1 - x) ^ alpha` on the unit interval. -/
def unitRule (lines : LineRules α) (m alpha : Nat) : Checked (LineRule α) := do
  return toUnitInterval alpha (← lines.weighted m alpha)

/-- A rule on a cell that is exact for polynomials of total degree `degree`.  On a vertex it is the
one point with unit weight. -/
def cellRule (lines : LineRules α) (cell : CellShape) (degree : Nat) : Checked (CellRule α) := do
  match cell with
  | .vertex => return [(one, [])]
  | .interval => return intervalRule (← lines.unitRule (← pointsPerDirection degree) 0)
  | .quadrilateral => return squareRule (← lines.unitRule (← pointsPerDirection degree) 0)
  | .hexahedron => return cubeRule (← lines.unitRule (← pointsPerDirection degree) 0)
  | .triangle =>
      let m ← pointsPerDirection degree
      return triangleRule (← lines.unitRule m 0) (← lines.unitRule m 1)
  | .tetrahedron =>
      let m ← pointsPerDirection degree
      return tetrahedronRule (← lines.unitRule m 0) (← lines.unitRule m 1) (← lines.unitRule m 2)

/-- Gauss rules in floating point, by the eigenvalues that a solver finds. -/
def ofSolver (solver : EigenSolver) : LineRules Float := ⟨Quadrature.gauss, gaussJacobiWith solver⟩

end LineRules

def cellRule : CellShape → Nat → Checked (CellRule Float) :=
  (LineRules.ofSolver Tridiagonal.eigenpairs).cellRule

/-- The sum of the values of a function at the points of a rule, times their weights. -/
def integrate (rule : CellRule α) (f : List α → α) : α :=
  rule.foldl (fun total (w, x) => total + w * f x) ((0 : Nat) : α)

def integerPower (x : α) : Int → α
  | .ofNat n => power x n
  | .negSucc n => one / power x (n + 1)

/-- The product of powers of coordinates; a coordinate without exponent is not used. -/
def monomialAt (exponents : List Int) (point : List α) : α :=
  (point.zip exponents).foldl (fun product (x, e) => product * integerPower x e) one

end ElementKernel.Quadrature
