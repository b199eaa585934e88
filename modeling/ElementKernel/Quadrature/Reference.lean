import ElementKernel.Quadrature.CellRule
import ElementKernel.Quadrature.Rule

/-!
The rules on reference cells that kernels tabulate.
-/

namespace ElementKernel

inductive RuleError where
  | noRuleAvailable
  deriving DecidableEq, Repr

/-- The name of the kind of error. -/
def RuleError.name : RuleError → String
  | .noRuleAvailable => "NoRuleAvailable"

def RuleError.message : RuleError → String
  | .noRuleAvailable =>
      "There is no quadrature rule satisfying the requirements available"

namespace QuadratureRule

/-- The rule with the given pairs of weight and point in `columns` dimensions. -/
def ofCellRule (columns : Nat) (rule : Quadrature.CellRule Float) : Checked QuadratureRule :=
  make (PointMatrix.ofRows columns (rule.map (·.2))) (rule.map (·.1))

end QuadratureRule

/-- Supplies Gauss rules up to a degree. -/
structure ReferenceQuadrature where
  maxDegree : Nat := 30
  deriving DecidableEq, Repr

namespace ReferenceQuadrature

/-- A rule that is exact for polynomials of total degree `degree` on a reference cell, made of the
given rules in one dimension. -/
def ruleFrom (provider : ReferenceQuadrature) (lines : Quadrature.LineRules Float)
    (cell : CellShape) (degree : Nat) : Attempt RuleError QuadratureRule := do
  if provider.maxDegree < degree then
    Attempt.reject .noRuleAvailable
  else
    let points ← lines.cellRule cell degree
    QuadratureRule.ofCellRule cell.dimension points

def rule (provider : ReferenceQuadrature) :
    CellShape → Nat → Attempt RuleError QuadratureRule :=
  provider.ruleFrom (.ofSolver Quadrature.Tridiagonal.eigenpairs)

end ReferenceQuadrature

end ElementKernel
