import ElementKernel.Monomial.Transformation
import ElementKernel.Proofs.Pullback.Assignment
import ElementKernel.Proofs.Pullback.Placement

/-!
# Values of monomials

Before the transformation a factor is a physical function: a derivative is a combination of
reference derivatives with the inverse Jacobian, and a component under a Piola map is a combination
of reference components with the Jacobian or its inverse.  After the transformation a monomial is a
sum over its classified indices.  Both values are taken at one point of one cell, for arbitrary
values of everything that depends on the cell and the functions.
-/

namespace ElementKernel

/-- The data of a point of a cell. -/
structure PointData (F : Type*) [Field F] where
  literal : Float → F
  /-- The derivative of a physical by a reference coordinate.  Entries are selected by integers, so
  that the difference of a component and the start of its sub-element is exact. -/
  jacobian : Int → Int → F
  /-- The derivative of a reference by a physical coordinate. -/
  inverse : Int → Int → F
  determinant : F
  determinant_ne_zero : determinant ≠ 0
  /-- The value of a coefficient function at one of its degrees of freedom. -/
  dof : Nat → Nat → F
  /-- The basis function that is chosen for an argument. -/
  argument : Nat → Nat
  /-- The reference basis function of a factor for a degree of freedom, a list of components and a
  list of directions of derivatives. -/
  basis : Nat → Nat → List Nat → List Nat → F

variable {F : Type*} [Field F]

def ComponentKey.value (assignment : Nat → Nat) : ComponentKey → Nat
  | .fixed value => value
  | .free number => assignment number

namespace PointData

variable (P : PointData F)

/-! ## Physical values -/

/-- The physical derivative in some directions of a function of reference directions. -/
def derivative (dimension : Nat) : List Nat → (List Nat → F) → F
  | [], f => f []
  | direction :: directions, f =>
      ((List.range dimension).map fun γ : Nat =>
        P.inverse γ direction * derivative dimension directions fun γs => f (γ :: γs)).sum

/-- A physical component of a function of reference components. -/
def component (element : ElementDescriptor) (dimension : Nat) : List Nat → (List Nat → F) → F
  | [], f => f []
  | [c], f =>
      match element.placement c with
      | some ⟨.affine, _⟩ => f [c]
      | some ⟨.contravariantPiola, offset⟩ =>
          P.determinant⁻¹ * ((List.range dimension).map fun j : Nat =>
            P.jacobian ((c : Int) - offset) j * f [offset + j]).sum
      | some ⟨.covariantPiola, offset⟩ =>
          ((List.range dimension).map fun j : Nat =>
            P.inverse j ((c : Int) - offset) * f [offset + j]).sum
      | none => 0
  | _, _ => 0

/-- A basis function of an argument, or the expansion of a coefficient function. -/
def expansion (spaceDimension : Nat) : FactorOrigin → (Nat → F) → F
  | .argument number, f => f (P.argument number)
  | .coefficient number, f =>
      ((List.range spaceDimension).map fun a => P.dof number a * f a).sum

/-- The value of the factor at a position, when the free keys have values. -/
def factor (position : Nat) (factor : MonomialFactor) (element : FiniteElement)
    (assignment : Nat → Nat) : F :=
  P.expansion element.spaceDimension factor.origin fun dof =>
    P.component factor.element element.geometricDimension
      (factor.components.map (·.value assignment)) fun components =>
        P.derivative element.geometricDimension (factor.derivatives.map (·.value assignment))
          fun directions => P.basis position dof components directions

end PointData

/-- The free keys of a list with the dimension that they are used with. -/
def freeUses (dimension : Nat) (keys : List ComponentKey) : List (Nat × Nat) :=
  keys.filterMap fun
    | .fixed _ => none
    | .free number => some (number, dimension)

def factorUses (use : MonomialFactor × FiniteElement) : List (Nat × Nat) :=
  freeUses use.2.valueDimension use.1.components ++
    freeUses use.2.geometricDimension use.1.derivatives

def addUse (seen : List (Nat × Nat)) (use : Nat × Nat) : List (Nat × Nat) :=
  if use.1 ∈ seen.map Prod.fst then seen else seen ++ [use]

/-- Each key with the dimension of its first use. -/
def firstUses (uses : List (Nat × Nat)) : List (Nat × Nat) := uses.foldl addUse []

def freeSummation (uses : List (Nat × Nat)) : Summation Nat :=
  (firstUses uses).map fun use => (use.1, List.range use.2)

/-- The product of physical factors, the first of them at a position. -/
def PointData.factors (P : PointData F) (factors : List (MonomialFactor × FiniteElement))
    (assignment : Nat → Nat) : F :=
  (factors.zipIdx.map fun entry => P.factor entry.2 entry.1.1 entry.1.2 assignment).prod

/-- The value of a monomial whose factors have the given elements. -/
def RawMonomial.value (P : PointData F) (m : RawMonomial) (elements : List FiniteElement) : F :=
  P.literal m.coefficient *
    sumOver (freeSummation ((m.factors.zip elements).flatMap factorUses))
      (P.factors (m.factors.zip elements)) fun _ => 0

/-! ## Reference values -/

namespace PointData

variable (P : PointData F)

/-- An endpoint of an entry: a fixed index is local to the sub-element already. -/
def endpoint (fixed : IndexHandle → Bool) (value : IndexHandle → Nat) (offset : Nat)
    (handle : IndexHandle) : Int :=
  if fixed handle then value handle else (value handle : Int) - offset

def matrix : JacobianKind → Int → Int → F
  | .jacobian => P.jacobian
  | .inverse => P.inverse

def entry (fixed : IndexHandle → Bool) (value : IndexHandle → Nat) (t : JacobianEntry) : F :=
  P.matrix t.kind (endpoint fixed value t.offset t.row) (endpoint fixed value t.offset t.column)

def coefficient (value : IndexHandle → Nat) (c : CoefficientValue) : F :=
  P.dof c.number (value c.index)

def basisFunction (value : IndexHandle → Nat) (position : Nat) (v : BasisFunction) : F :=
  P.basis position (value v.index) (v.components.map value) (v.derivatives.map value)

def basisProduct (basisFunctions : List BasisFunction) (value : IndexHandle → Nat) : F :=
  (basisFunctions.zipIdx.map fun entry => P.basisFunction value entry.2 entry.1).prod

/-- The product under the sum, when the indices have values. -/
def product (fixed : IndexHandle → Bool) (coefficients : List CoefficientValue)
    (transforms : List JacobianEntry) (basisFunctions : List BasisFunction)
    (value : IndexHandle → Nat) : F :=
  (coefficients.map (P.coefficient value)).prod * (transforms.map (P.entry fixed value)).prod *
    P.basisProduct basisFunctions value

end PointData

/-- The values of indices, when those of the summation roles are assigned by role and id. -/
def IndexArena.values (P : PointData F) (arena : IndexArena) (assignment : IndexRole × Nat → Nat)
    (handle : IndexHandle) : Nat :=
  match arena.get? handle with
  | some ⟨some .fixed, range, _⟩ => range.headD 0
  | some ⟨some .primary, _, some number⟩ => P.argument number
  | some ⟨some role, _, some id⟩ => assignment (role, id)
  | _ => 0

def IndexArena.isFixed (arena : IndexArena) (handle : IndexHandle) : Bool :=
  (arena.get? handle).any MonomialIndex.isFixed

namespace TransformedMonomial

/-- The index behind a handle as a variable of the sum. -/
def slot? (m : TransformedMonomial) (handle : IndexHandle) :
    Option ((IndexRole × Nat) × List Nat) :=
  match m.arena.get? handle with
  | some ⟨some role, range, some id⟩ => some ((role, id), range)
  | _ => none

/-- The secondary, internal and external indices with their values. -/
def summation (m : TransformedMonomial) : Summation (IndexRole × Nat) :=
  ([IndexRole.secondary, .internal, .external].flatMap m.uniqueIndices).filterMap m.slot?

def value (P : PointData F) (m : TransformedMonomial) : F :=
  P.literal m.coefficient * P.determinant ^ m.determinant.power *
    sumOver m.summation (fun assignment =>
      P.product m.arena.isFixed m.coefficients m.transforms m.basisFunctions
        (m.arena.values P assignment)) fun _ => 0

end TransformedMonomial

end ElementKernel
