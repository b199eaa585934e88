import ElementKernel.Integrand.Block
import ElementKernel.Integrand.Operator
import ElementKernel.Integrand.Table
import ElementKernel.Monomial.Measure

/-!
The ways in which the description of an integral can contradict itself.
-/

namespace ElementKernel

abbrev NodeId := Nat

inductive Inconsistency where
  | operandCount (op : Operator) (found : Nat)
  | unknownOperand (operand : NodeId) (op : Operator)
  | nodeData (nodes partitions ranges : Nat)
  | tableSize (table : String) (shape : TableShape) (values : Nat)
  | ruleSize (registered found : Nat)
  | operandOrder (node operand : NodeId)
  | operandNotComputed (operand node : NodeId)
  | factorNotComputed (factor : NodeId)
  | blockRank (block : DofBlock) (rank : Nat)
  | axisRange (axis : Nat) (block : DofBlock) (range : TableRange)
  | zeroTable (block : DofBlock) (table : String)
  | unknownArgument (position : Nat)
  | argumentTable (number : Nat)
  | coordinateTable
  | jacobianTable
  | facetNormalOutsideFacets (type : IntegralType)
  deriving DecidableEq, Repr

def Inconsistency.message : Inconsistency → String
  | .operandCount op found =>
      s!"operator {op.name} expects {op.arity} operand(s), got {found}"
  | .unknownOperand operand op => s!"operand {operand} of operator {op.name} is not in the graph"
  | .nodeData nodes partitions ranges =>
      s!"graph has {nodes} node(s), but {partitions} partition marker(s) and " ++
        s!"{ranges} table range(s)"
  | .tableSize table shape values =>
      s!"table {table} has shape " ++ bracketed shape.toList ++ s!" but {values} value(s)"
  | .ruleSize registered found =>
      s!"quadrature rule registered for {registered} point(s) has {found} point(s)"
  | .operandOrder node operand =>
      s!"node {node} uses operand {operand}, which does not precede it"
  | .operandNotComputed operand node =>
      s!"operand {operand} of node {node} is not computed before it is used"
  | .factorNotComputed factor => s!"factor {factor} is not computed before it is used"
  | .blockRank block rank =>
      s!"contribution to block {block.text} does not match the rank {rank} of the element tensor"
  | .axisRange axis block range =>
      s!"axis {axis} of block {block.text} does not match the range {range.first}..{range.past} " ++
        s!"of table {range.table}"
  | .zeroTable block table => s!"contribution to block {block.text} uses the zero table {table}"
  | .unknownArgument position => s!"no modified argument with index {position}"
  | .argumentTable number => s!"argument {number} has no table"
  | .coordinateTable => "spatial coordinate has no table"
  | .jacobianTable => "Jacobian has no table"
  | .facetNormalOutsideFacets type => s!"facet normal in {type.name} integral"

end ElementKernel
