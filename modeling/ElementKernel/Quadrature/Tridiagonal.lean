/-!
Eigenvalues of symmetric tridiagonal matrices.

The number of eigenvalues below a point is the number of negative pivots of the matrix shifted by
that point.  Halving an interval that holds all eigenvalues therefore finds each of them by its
position.
-/

namespace ElementKernel.Quadrature

/-- A symmetric tridiagonal matrix.  The entry `offDiagonal k` stands next to the diagonal in row
`k`, from row one on. -/
structure Tridiagonal where
  size : Nat
  diagonal : Nat → Float
  offDiagonal : Nat → Float

namespace Tridiagonal

/-- A pivot of zero stands for a tiny positive one. -/
def pivot (q : Float) : Float := if q == 0 then 1e-300 else q

/-- The number of negative pivots among the first `k` rows, and the last pivot. -/
def pivots (m : Tridiagonal) (x : Float) : Nat → Nat × Float
  | 0 => (0, 1)
  | k + 1 =>
      let (negative, last) := m.pivots x k
      let b := if k = 0 then 0 else m.offDiagonal k
      let q := pivot (m.diagonal k - x - b * b / last)
      (if q < 0 then negative + 1 else negative, q)

/-- The number of eigenvalues below a point. -/
def countBelow (m : Tridiagonal) (x : Float) : Nat := (m.pivots x m.size).1

/-- Halves an interval that contains the eigenvalue number `i` from below. -/
def bisectEigenvalue (m : Tridiagonal) (i : Nat) : Nat → Float → Float → Float
  | 0, low, high => 0.5 * (low + high)
  | fuel + 1, low, high =>
      let middle := 0.5 * (low + high)
      if i < m.countBelow middle then m.bisectEigenvalue i fuel low middle
      else m.bisectEigenvalue i fuel middle high

/-- The components of an eigenvector whose first component is one: the component number `k`, the one
before it, and the sum of the squares of those before it. -/
def eigenvector (m : Tridiagonal) (x : Float) : Nat → Float × Float × Float
  | 0 => (1, 0, 0)
  | k + 1 =>
      let (current, previous, squares) := m.eigenvector x k
      let before := if k = 0 then 0 else m.offDiagonal k * previous
      (((x - m.diagonal k) * current - before) / m.offDiagonal (k + 1), current,
        squares + current * current)

/-- The square of the first component of the unit eigenvector for an eigenvalue. -/
def leadingSquare (m : Tridiagonal) (x : Float) : Float := 1 / (m.eigenvector x m.size).2.2

/-- The steps that take an interval of length two below the spacing of numbers. -/
def bisectionSteps : Nat := 64

/-- The eigenvalues of a matrix that has all of them between -1 and 1, each with the square of the
first component of its unit eigenvector. -/
def eigenpairs (m : Tridiagonal) : List (Float × Float) :=
  (List.range m.size).map fun i =>
    let x := m.bisectEigenvalue i bisectionSteps (-1) 1
    (x, m.leadingSquare x)

@[simp] theorem length_eigenpairs (m : Tridiagonal) : m.eigenpairs.length = m.size := by
  simp [eigenpairs]

end Tridiagonal

/-- Finds the eigenvalues of a matrix, each with the square of the first component of its unit
eigenvector. -/
abbrev EigenSolver := Tridiagonal → List (Float × Float)

end ElementKernel.Quadrature
