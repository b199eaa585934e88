import ElementKernel.Integrand.Contribution
import ElementKernel.Integrand.Graph
import ElementKernel.OrderedMap
import ElementKernel.Quadrature.Rule

/-!
Factorized integrals.

For each number of quadrature points an integral has an integrand: an expression graph whose nodes
are marked with the partition they are computed in, and contributions that scale products of table
entries by a factor of the graph.
-/

namespace ElementKernel

structure Integrand where
  graph : ExpressionGraph := {}
  /-- The partition of each node, or nothing for a node that is not computed. -/
  partitions : List (Option Partition) := []
  /-- The table range of each node that is evaluated through a table. -/
  tableRanges : List (Option TableRange) := []
  arguments : List ModifiedTerminal := []
  contributions : BlockContributions := {}
  tables : OrderedMap String ElementTable := {}
  needWeights : Bool := false
  needPoints : Bool := false

namespace Integrand

/-- Adds a terminal, whose id is the number of nodes before it. -/
def pushTerminal (integrand : Integrand) (terminal : ModifiedTerminal)
    (partition : Option Partition) (range : Option TableRange) : Integrand :=
  { integrand with
    graph := integrand.graph.push (.terminal terminal)
    partitions := integrand.partitions ++ [partition]
    tableRanges := integrand.tableRanges ++ [range] }

/-- Adds an operator applied to nodes that are already in the graph. -/
def pushOperator (integrand : Integrand) (op : Operator) (operands : List NodeId)
    (partition : Option Partition) : Except Inconsistency Integrand := do
  integrand.graph.checkOperands op operands
  return { integrand with
    graph := integrand.graph.push (.operator op operands)
    partitions := integrand.partitions ++ [partition]
    tableRanges := integrand.tableRanges ++ [none] }

def pushArgument (integrand : Integrand) (argument : ModifiedTerminal) : Integrand :=
  { integrand with arguments := integrand.arguments ++ [argument] }

def insertTable (integrand : Integrand) (name : String) (table : ElementTable) : Integrand :=
  { integrand with tables := integrand.tables.insert name table }

def addContribution (integrand : Integrand) (partition : Partition) (block : DofBlock)
    (contribution : BlockContribution) : Integrand :=
  { integrand with contributions := integrand.contributions.insert partition block contribution }

/-- The nodes marked with a partition, in topological order. -/
def partitionNodes (integrand : Integrand) (partition : Partition) : List (NodeId × GraphNode) :=
  integrand.graph.entries.filter fun entry =>
    integrand.partitions[entry.1]? = some (some partition)

/-- The table range of a node, if it has one. -/
def rangeOf (integrand : Integrand) (id : NodeId) : Option TableRange :=
  (integrand.tableRanges[id]?).join

def checkTable (name : String) (table : ElementTable) : Attempt Inconsistency Unit := do
  if (← Word.product table.shape.toList) ≠ table.values.length then
    Attempt.reject (.tableSize name table.shape table.values.length)

/-- Checks that there is one marker and one table range per node, and that every table has as many
values as its shape asks for. -/
def validate (integrand : Integrand) : Attempt Inconsistency Unit := do
  let nodes := integrand.graph.size
  if integrand.partitions.length ≠ nodes ∨ integrand.tableRanges.length ≠ nodes then
    Attempt.reject
      (.nodeData nodes integrand.partitions.length integrand.tableRanges.length)
  else
    integrand.tables.entries.forM fun (name, table) => checkTable name table

end Integrand

structure Integral where
  type : IntegralType
  /-- The shape of the element tensor, one dimension per argument. -/
  tensorShape : List Nat
  /-- Quadrature rules by number of points. -/
  rules : OrderedMap Nat QuadratureRule := {}
  /-- Integrands by number of quadrature points. -/
  integrands : OrderedMap Nat Integrand := {}

namespace Integral

def withRule (integral : Integral) (rule : QuadratureRule) : Integral :=
  { integral with rules := integral.rules.insert rule.pointCount rule }

def withIntegrand (integral : Integral) (pointCount : Nat) (integrand : Integrand) : Integral :=
  { integral with integrands := integral.integrands.insert pointCount integrand }

/-- The number of entries of the element tensor. -/
def tensorSize (integral : Integral) : Checked Nat := Word.product integral.tensorShape

end Integral

end ElementKernel
