import ElementKernel.Decimal.Layout
import ElementKernel.Element.Info
import ElementKernel.Monomial.JacobianEntry

/-!
Monomials on the reference cell.

A transformed monomial is a scalar times a power of the Jacobian determinant, coefficient values,
entries of the Jacobian and its inverse, and reference basis functions.  What depends on the point
stands inside the integral, everything else outside of it.
-/

namespace ElementKernel

/-- The absolute value of the Jacobian determinant times a power of the determinant. -/
structure Determinant where
  power : Int := 0
  restriction : Option Restriction := none
  deriving DecidableEq, Repr

def Determinant.text (determinant : Determinant) : String :=
  if determinant.power = 0 then "|det F'|"
  else if determinant.power = 1 then "|det F'| (det F')"
  else s!"|det F'| (det F')^{determinant.power}"

/-- The values of a coefficient function, selected by an index. -/
structure CoefficientValue where
  index : IndexHandle
  number : Nat
  deriving DecidableEq, Repr

/-- A reference basis function, possibly of one component and differentiated. -/
structure BasisFunction where
  element : FiniteElement
  index : IndexHandle
  components : List IndexHandle
  derivatives : List IndexHandle
  restriction : Option Restriction

structure TransformedMonomial where
  coefficient : Float
  determinant : Determinant
  coefficients : List CoefficientValue
  transforms : List JacobianEntry
  basisFunctions : List BasisFunction
  arena : IndexArena

def BasisFunction.handles (v : BasisFunction) : List IndexHandle :=
  v.index :: (v.components ++ v.derivatives)

/-- The occurrences of indices inside the integral. -/
def internalOccurrences (basisFunctions : List BasisFunction) : List IndexHandle :=
  basisFunctions.flatMap BasisFunction.handles

/-- The occurrences of indices outside of the integral. -/
def externalOccurrences (coefficients : List CoefficientValue) (transforms : List JacobianEntry) :
    List IndexHandle :=
  coefficients.map (·.index) ++ transforms.map (·.row) ++ transforms.map (·.column)

namespace BasisFunction

def text (arena : IndexArena) (v : BasisFunction) : Checked String := do
  let components ←
    if v.components.isEmpty then pure ""
    else do pure ("[" ++ (← arena.listText v.components) ++ "]")
  let directions ← v.derivatives.mapM fun d => do return "d/dX_" ++ (← arena.textAt d)
  let index ← arena.textAt v.index
  let value := "V_" ++ index ++ Restriction.tag v.restriction ++ components
  if v.derivatives.isEmpty then return value
  else return "(" ++ " ".intercalate directions ++ " " ++ value ++ ")"

end BasisFunction

namespace TransformedMonomial

def internalHandles (m : TransformedMonomial) : List IndexHandle :=
  internalOccurrences m.basisFunctions

def externalHandles (m : TransformedMonomial) : List IndexHandle :=
  externalOccurrences m.coefficients m.transforms

/-- The handles whose index has the given role. -/
def ofRole (m : TransformedMonomial) (role : IndexRole) (handles : List IndexHandle) :
    List IndexHandle :=
  handles.filter fun h => m.arena.role? h = some role

def internalIndices (m : TransformedMonomial) (role : IndexRole) : List IndexHandle :=
  m.ofRole role m.internalHandles

def externalIndices (m : TransformedMonomial) (role : IndexRole) : List IndexHandle :=
  m.ofRole role m.externalHandles

/-- All occurrences of indices of a role, inner ones first. -/
def indices (m : TransformedMonomial) (role : IndexRole) : List IndexHandle :=
  m.internalIndices role ++ m.externalIndices role

/-- Whether two handles count as the same index: they are equal, or their indices agree in role and
id and are not fixed. -/
def sameIndex (arena : IndexArena) (a b : IndexHandle) : Bool :=
  a = b ||
    match arena.get? a, arena.get? b with
    | some x, some y => !y.isFixed && x.role = y.role && x.id = y.id
    | _, _ => false

/-- The indices of a role in the order of their first occurrence, each once. -/
def uniqueIndices (m : TransformedMonomial) (role : IndexRole) : List IndexHandle :=
  (m.indices role).foldl
    (fun seen h => if seen.any (sameIndex m.arena · h) then seen else seen ++ [h]) []

/-- The scalar factors, a bar, and the basis functions. -/
def text (m : TransformedMonomial) : Checked String := do
  let scalar := if m.coefficient == 1 then [] else [Decimal.shortestText m.coefficient]
  let coefficients ← m.coefficients.mapM fun c => do return "c_" ++ (← m.arena.textAt c.index)
  let transforms ← m.transforms.mapM (JacobianEntry.text m.arena)
  let basisFunctions ← m.basisFunctions.mapM (BasisFunction.text m.arena)
  let outside := scalar ++ [m.determinant.text] ++ coefficients ++ transforms
  return " * ".intercalate outside ++ " | " ++ " * ".intercalate basisFunctions

end TransformedMonomial

end ElementKernel
