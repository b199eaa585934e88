import ElementKernel.Monomial.Raw

/-!
Domains of integration, and forms as sums of monomials over them.
-/

namespace ElementKernel

inductive IntegralType where
  | cell
  | exteriorFacet
  | interiorFacet
  /-- Point evaluation at a vertex. -/
  | vertex
  | custom
  | cutcell
  | interface
  | overlap
  /-- Pointwise evaluation of an expression, which is not an integral. -/
  | expression
  deriving DecidableEq, Repr

namespace IntegralType

def all : List IntegralType :=
  [.cell, .exteriorFacet, .interiorFacet, .vertex, .custom, .cutcell, .interface, .overlap,
    .expression]

def name : IntegralType → String
  | .cell => "cell"
  | .exteriorFacet => "exterior_facet"
  | .interiorFacet => "interior_facet"
  | .vertex => "vertex"
  | .custom => "custom"
  | .cutcell => "cutcell"
  | .interface => "interface"
  | .overlap => "overlap"
  | .expression => "expression"

/-- Whether the quadrature rule is known when the kernel is generated.  Vertex integrals are point
evaluations and the others receive their points and weights as arguments. -/
def hasStaticQuadrature : IntegralType → Bool
  | .vertex | .custom | .cutcell | .interface | .overlap => false
  | .cell | .exteriorFacet | .interiorFacet | .expression => true

theorem mem_all (type : IntegralType) : type ∈ all := by
  cases type <;> decide

end IntegralType

structure Measure where
  integralType : IntegralType
  subdomain : Option Nat
  deriving DecidableEq, Repr

def Measure.text (measure : Measure) : String :=
  match measure.subdomain with
  | some id => s!"{measure.integralType.name}({id})"
  | none => measure.integralType.name

/-- A sum of monomials over one measure. -/
structure MonomialIntegral where
  measure : Measure
  monomials : List RawMonomial
  deriving Repr

structure MonomialForm where
  integrals : List MonomialIntegral := []
  deriving Repr

end ElementKernel
