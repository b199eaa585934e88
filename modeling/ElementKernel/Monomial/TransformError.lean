import ElementKernel.Element.Info

/-!
Why a monomial cannot be transformed.
-/

namespace ElementKernel

inductive TransformError where
  /-- Only scalar and vector valued factors are supported. -/
  | rank (componentCount : Nat)
  /-- The component spans sub-elements with different mappings. -/
  | mappingConflict (componentRange : List Nat)
  /-- A summation index does not appear exactly twice. -/
  | contraction (range : List Nat) (internalCount externalCount : Nat)
  | invalidComponent (component valueDimension : Nat)
  /-- A fixed component lies before the first component of its sub-element. -/
  | invalidOffset (component offset : Nat)
  | element (error : ElementError)
  deriving DecidableEq, Repr

namespace TransformError

/-- The name of the kind of error. -/
def name : TransformError → String
  | .rank _ => "Rank"
  | .mappingConflict _ => "MappingConflict"
  | .contraction .. => "Contraction"
  | .invalidComponent .. => "InvalidComponent"
  | .invalidOffset .. => "InvalidOffset"
  | .element _ => "Element"

def message : TransformError → String
  | .rank count =>
      s!"Can only handle rank 0 or rank 1 tensors, but factor has {count} components"
  | .mappingConflict range =>
      "Unable to handle different mappings for component range " ++ bracketed range
  | .contraction range internalCount externalCount =>
      "Summation index with range " ++ bracketed range ++ " does not appear exactly twice " ++
        s!"({internalCount} internal, {externalCount} external occurrence(s))"
  | .invalidComponent component dimension =>
      s!"Component {component} is out of bounds for element with value dimension {dimension}"
  | .invalidOffset component offset =>
      s!"Component {component} precedes the sub-element offset {offset} reported by the element"
  | .element error => "Failed to create element: " ++ error.message

/-- The messages from the error itself down to its cause. -/
def chain : TransformError → List String
  | .element error => [(TransformError.element error).message, error.message]
  | error => [error.message]

end TransformError

end ElementKernel
