import ElementKernel.Element.Descriptor
import ElementKernel.Fault

/-!
What the transformation of monomials needs to know about an element.

Basis functions are never evaluated.  Only the dimensions of the element count, and for each value
component how it is mapped from the reference cell and where its sub-element starts.
-/

namespace ElementKernel

inductive Mapping where
  | affine
  /-- Values are mapped by the Jacobian over its determinant. -/
  | contravariantPiola
  /-- Values are mapped by the transposed inverse of the Jacobian. -/
  | covariantPiola
  deriving DecidableEq, Repr

/-- The mapping of a value component and the first component of its sub-element. -/
structure ComponentElement where
  mapping : Mapping
  offset : Nat
  deriving DecidableEq, Repr

inductive ElementError where
  | invalidDegree (family : String) (degree : Nat)
  | unsupportedCell (family : String) (cell : CellShape)
  | nonScalarVectorBase
  | emptyMixedElement
  | cellMismatch (expected found : CellShape)
  deriving DecidableEq, Repr

/-- The name of the kind of error. -/
def ElementError.name : ElementError → String
  | .invalidDegree .. => "InvalidDegree"
  | .unsupportedCell .. => "UnsupportedCell"
  | .nonScalarVectorBase => "NonScalarVectorBase"
  | .emptyMixedElement => "EmptyMixedElement"
  | .cellMismatch .. => "CellMismatch"

def ElementError.message : ElementError → String
  | .invalidDegree family degree => s!"{family} elements are not defined for degree {degree}"
  | .unsupportedCell family cell => s!"{family} elements are not available on a {cell.name}"
  | .nonScalarVectorBase => "Vector elements must be built from scalar elements"
  | .emptyMixedElement => "Mixed elements must have at least one sub-element"
  | .cellMismatch expected found =>
      "All sub-elements of a mixed element must be defined on the same cell " ++
        s!"(expected {expected.name}, found {found.name})"

/-- An element on a reference cell, with one entry per value component. -/
structure ElementInfo where
  cell : CellShape
  spaceDimension : Nat
  subElementCount : Nat
  components : List ComponentElement
  deriving DecidableEq, Repr

namespace ElementInfo

def valueDimension (info : ElementInfo) : Nat := info.components.length

def topologicalDimension (info : ElementInfo) : Nat := info.cell.dimension

def geometricDimension (info : ElementInfo) : Nat := info.cell.dimension

def component? (info : ElementInfo) (c : Nat) : Option ComponentElement := info.components[c]?

end ElementInfo

/-- An element as the transformation of monomials sees it. -/
structure FiniteElement where
  cell : CellShape
  valueDimension : Nat
  spaceDimension : Nat
  topologicalDimension : Nat
  geometricDimension : Nat
  subElementCount : Nat
  /-- The mapping of a value component, or nothing if the element has no such component. -/
  component : Nat → Checked (Option ComponentElement)

def ElementInfo.toFiniteElement (info : ElementInfo) : FiniteElement where
  cell := info.cell
  valueDimension := info.valueDimension
  spaceDimension := info.spaceDimension
  topologicalDimension := info.topologicalDimension
  geometricDimension := info.geometricDimension
  subElementCount := info.subElementCount
  component c := .ok (info.component? c)

/-- Turns descriptions into elements. -/
abbrev ElementProvider := ElementDescriptor → Attempt ElementError FiniteElement

end ElementKernel
