import ElementKernel.Code.Render
import ElementKernel.Integrand.Inconsistency

/-!
Why no kernel can be generated.
-/

namespace ElementKernel

inductive KernelError where
  /-- The integral type does not describe an integration. -/
  | unsupportedIntegral (type : IntegralType)
  | missingRule (pointCount : Nat)
  | malformed (reason : Inconsistency)
  | unsupportedOperator (op : Operator) (dialect : Dialect)
  deriving DecidableEq, Repr

namespace KernelError

/-- The name of the kind of error. -/
def name : KernelError → String
  | .unsupportedIntegral _ => "UnsupportedIntegralKind"
  | .missingRule _ => "MissingQuadratureRule"
  | .malformed _ => "MalformedIr"
  | .unsupportedOperator .. => "UnsupportedOperator"

def message : KernelError → String
  | .unsupportedIntegral type =>
      s!"Code generation for {type.name} integrals is not supported"
  | .missingRule pointCount => s!"No quadrature rule with {pointCount} point(s) available"
  | .malformed reason => "Malformed integral IR: " ++ reason.message
  | .unsupportedOperator op dialect =>
      s!"Operator {op.name} is not supported by the {dialect.name} backend"

/-- Stops because the description of the integral contradicts itself. -/
def inconsistent {α : Type} (reason : Inconsistency) : Attempt KernelError α :=
  Attempt.reject (.malformed reason)

end KernelError

end ElementKernel
