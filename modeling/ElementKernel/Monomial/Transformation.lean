import ElementKernel.Monomial.Classification
import ElementKernel.Monomial.Transformed

/-!
Transformation of a monomial to the reference cell.

Each factor in turn becomes a reference basis function.  Component and derivative keys are resolved
to indices, a component that is mapped by a Piola map is replaced by a reference component and an
entry of the Jacobian, and each derivative becomes a reference derivative and an entry of the
inverse.  When all factors are done, every index that has no role yet receives one.
-/

namespace ElementKernel

/-- A monomial under transformation. -/
structure Transformation where
  arena : IndexArena := {}
  /-- The indices of the free keys met so far. -/
  resolved : List (Nat × IndexHandle) := []
  determinant : Determinant := {}
  coefficients : List CoefficientValue := []
  transforms : List JacobianEntry := []
  basisFunctions : List BasisFunction := []

namespace Transformation

def insert (state : Transformation) (index : MonomialIndex) : IndexHandle × Transformation :=
  (state.arena.next, { state with arena := state.arena.insert index })

/-- A free key is resolved once, to an index over the dimension it is first met with. -/
def resolveFree (state : Transformation) (number dimension : Nat) : IndexHandle × Transformation :=
  match state.resolved.lookup number with
  | some handle => (handle, state)
  | none =>
      let (handle, state) := state.insert (.unclassified (List.range dimension))
      (handle, { state with resolved := (number, handle) :: state.resolved })

/-- The index of a component.  A fixed component always gets an index of its own. -/
def resolveComponent (state : Transformation) (dimension : Nat) :
    ComponentKey → IndexHandle × Transformation
  | .fixed value => state.insert (.fixed value)
  | .free number => state.resolveFree number dimension

def resolveDirection (state : Transformation) (dimension : Nat) :
    ComponentKey → IndexHandle × Transformation
  | .fixed value => state.insert (.fixedDirection value)
  | .free number => state.resolveFree number dimension

def resolveComponents (state : Transformation) (dimension : Nat) :
    List ComponentKey → List IndexHandle × Transformation
  | [] => ([], state)
  | key :: keys =>
      let (handle, state) := state.resolveComponent dimension key
      let (handles, state) := state.resolveComponents dimension keys
      (handle :: handles, state)

/-- The index of the basis function itself.  A coefficient function is also recorded with the
index of its values. -/
def resolveOrigin (state : Transformation) (spaceDimension : Nat) :
    FactorOrigin → IndexHandle × Transformation
  | .argument number => state.insert (.primary number (List.range spaceDimension))
  | .coefficient number =>
      let (handle, state) := state.insert (.unclassified (List.range spaceDimension))
      (handle, { state with coefficients := state.coefficients ++ [⟨handle, number⟩] })

/-- Adds an entry of the Jacobian or its inverse. -/
def link (state : Transformation) (row column : IndexHandle) (kind : JacobianKind)
    (restriction : Option Restriction) (offset : Nat) : Attempt TransformError Transformation :=
  match JacobianEntry.link state.arena row column kind restriction offset with
  | (arena, .ok entry) => .ok { state with arena, transforms := state.transforms ++ [entry] }
  | (_, .error failure) => .error failure

/-- The one mapping of the components in a range and the start of the sub-element of the first. -/
def commonMapping (element : FiniteElement) (range : List Nat) :
    Attempt TransformError ComponentElement := do
  let found ← range.mapM fun c => do
    Attempt.ofOption (.invalidComponent c element.valueDimension) (← element.component c)
  match found with
  | [] => return ⟨.affine, 0⟩
  | first :: rest =>
      if rest.any (·.mapping ≠ first.mapping) then Attempt.reject (.mappingConflict range)
      else return first

/-- Replaces a physical component by the reference component it is mapped from. -/
def mapComponent (state : Transformation) (element : FiniteElement)
    (restriction : Option Restriction) (component : IndexHandle) :
    Attempt TransformError (IndexHandle × Transformation) := do
  let range := (← state.arena.get component).range
  let ⟨mapping, offset⟩ ← commonMapping element range
  match mapping with
  | .affine => return (component, state)
  | .contravariantPiola =>
      let image ← (MonomialIndex.unclassified (List.range element.geometricDimension)).raise offset
      let (reference, state) := state.insert image
      let state ← state.link component reference .jacobian restriction offset
      let determinant := { state.determinant with power := state.determinant.power - 1 }
      return (reference, { state with determinant })
  | .covariantPiola =>
      let image ← (MonomialIndex.unclassified (List.range element.geometricDimension)).raise offset
      let (reference, state) := state.insert image
      let state ← state.link reference component .inverse restriction offset
      return (reference, state)

/-- Resolves derivative directions; each becomes a reference direction and an inverse entry. -/
def addDerivatives (state : Transformation) (dimension : Nat) (restriction : Option Restriction) :
    List ComponentKey → Attempt TransformError (List IndexHandle × Transformation)
  | [] => .ok ([], state)
  | key :: keys => do
      let (gradient, state) := state.insert (.unclassified (List.range dimension))
      let (direction, state) := state.resolveDirection dimension key
      let state ← state.link gradient direction .inverse restriction 0
      let (gradients, state) ← state.addDerivatives dimension restriction keys
      return (gradient :: gradients, state)

def addFactor (provider : ElementProvider) (state : Transformation) (factor : MonomialFactor) :
    Attempt TransformError Transformation := do
  let element ← (provider factor.element).mapError .element
  let (index, state) := state.resolveOrigin element.spaceDimension factor.origin
  let (components, state) := state.resolveComponents element.valueDimension factor.components
  let (components, state) ←
    match components with
    | [] => pure ([], state)
    | [component] => do
        let (reference, state) ← state.mapComponent element factor.restriction component
        pure ([reference], state)
    | many => Attempt.reject (.rank many.length)
  let (derivatives, state) ←
    state.addDerivatives element.geometricDimension factor.restriction factor.derivatives
  let basisFunction := ⟨element, index, components, derivatives, factor.restriction⟩
  return { state with basisFunctions := state.basisFunctions ++ [basisFunction] }

/-- Assigns the roles of all indices that occur in the monomial. -/
def finish (state : Transformation) (coefficient : Float) :
    Attempt TransformError TransformedMonomial := do
  let internal := internalOccurrences state.basisFunctions
  let external := externalOccurrences state.coefficients state.transforms
  let (classified, outcome) := Classification.run ⟨state.arena, {}⟩ internal external
  outcome
  return {
    coefficient
    determinant := state.determinant
    coefficients := state.coefficients
    transforms := state.transforms
    basisFunctions := state.basisFunctions
    arena := classified.arena }

end Transformation

/-- Transforms a monomial with the elements of a provider. -/
def RawMonomial.transform (monomial : RawMonomial) (provider : ElementProvider) :
    Attempt TransformError TransformedMonomial := do
  let state ← monomial.factors.foldlM (Transformation.addFactor provider) {}
  state.finish monomial.coefficient

end ElementKernel
