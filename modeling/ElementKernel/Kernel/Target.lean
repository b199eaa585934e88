import ElementKernel.Integrand.Contribution
import ElementKernel.Kernel.Error

/-!
The kernel that is generated: its language, its integral and the names it uses.

A kernel receives the element tensor `A`, the coefficient values `w`, the vertex coordinates of the
cell, the number of the local entity, facet normals and cell volumes.
-/

namespace ElementKernel

structure TargetOptions where
  geometricDimension : Nat := 3
  topologicalDimension : Nat := 3
  /-- The significant digits of float literals. -/
  floatDigits : Nat := 16
  deriving DecidableEq, Repr

structure Target where
  dialect : Dialect
  integralType : IntegralType
  options : TargetOptions := {}
  deriving DecidableEq, Repr

def Target.renderer (target : Target) : Renderer :=
  ⟨target.dialect, target.options.floatDigits⟩

namespace Kernel

def tensorName : String := "A"

def tensor : Expr := .symbol tensorName

def weightsName (pointCount : Nat) : String := s!"weights{pointCount}"

def pointsName (pointCount : Nat) : String := s!"points{pointCount}"

/-- The counter of the quadrature loop.  A single point needs no loop and is point zero. -/
def pointIndex (pointCount : Nat) : Expr :=
  if pointCount = 1 then .int 0 else .symbol "iq"

/-- The counter of the loop over the degrees of freedom of a tensor axis. -/
def axisIndex (axis : Nat) : Expr := .symbol s!"ia{axis}"

/-- The array that holds the computed values of a partition. -/
def slotsName (partition : Partition) (pointCount : Nat) : String :=
  match partition with
  | .piecewise => s!"sp{pointCount}"
  | .varying => s!"sv{pointCount}"

/-- Folds further axes, from the innermost one outwards, into a flat index. -/
def flattenOuter : List (Expr × Nat) → Expr → Nat → Checked Expr
  | [], flat, _ => .ok flat
  | (index, size) :: outer, flat, stride => do
      let scaled := if stride = 1 then index else .product [.int (Word.signed stride), index]
      flattenOuter outer (.sum [scaled, flat]) (← Word.mul stride size)

/-- The row-major position of a multi-index in an array of the given shape. -/
def flatIndex (indices : List Expr) (shape : List Nat) : Checked Expr := do
  Checked.sameLength .indexRank indices.length shape.length
  match (indices.zip shape).reverse with
  | [] => return .int 0
  | (last, size) :: outer => flattenOuter outer last size

end Kernel

end ElementKernel
