import ElementKernel.Element.Cell

/-!
Symbolic descriptions of finite elements, as a variational form mentions them.
-/

namespace ElementKernel

inductive ElementDescriptor where
  | lagrange (cell : CellShape) (degree : Nat)
  | discontinuousLagrange (cell : CellShape) (degree : Nat)
  | raviartThomas (cell : CellShape) (degree : Nat)
  | brezziDouglasMarini (cell : CellShape) (degree : Nat)
  /-- Edge elements of the first kind. -/
  | nedelec (cell : CellShape) (degree : Nat)
  /-- Global constants. -/
  | real (cell : CellShape)
  /-- Values at the points of a quadrature rule of the given degree. -/
  | quadrature (cell : CellShape) (degree : Nat)
  /-- Copies of a scalar element, one per component.  Without a number of copies there are as many
  as the cell has dimensions. -/
  | vector (base : ElementDescriptor) (copies : Option Nat)
  | mixed (elements : List ElementDescriptor)
  deriving Repr

namespace ElementDescriptor

def family : ElementDescriptor → String
  | .lagrange .. => "Lagrange"
  | .discontinuousLagrange .. => "Discontinuous Lagrange"
  | .raviartThomas .. => "Raviart-Thomas"
  | .brezziDouglasMarini .. => "Brezzi-Douglas-Marini"
  | .nedelec .. => "Nedelec 1st kind H(curl)"
  | .real .. => "Real"
  | .quadrature .. => "Quadrature"
  | .vector .. => "Vector"
  | .mixed .. => "Mixed"

/-- The cell of the element.  A mixed element lies on the cell of its first part. -/
def cell? : ElementDescriptor → Option CellShape
  | .lagrange cell _
  | .discontinuousLagrange cell _
  | .raviartThomas cell _
  | .brezziDouglasMarini cell _
  | .nedelec cell _
  | .real cell
  | .quadrature cell _ => some cell
  | .vector base _ => base.cell?
  | .mixed [] => none
  | .mixed (first :: _) => first.cell?

end ElementDescriptor

end ElementKernel
