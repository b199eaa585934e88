import ElementKernel.Kernel.Generation
import ElementKernel.Proofs.Outcome

/-!
# Integrals that have a kernel

`Integral.Acceptable` is the consistency that a kernel needs of its integral, said node by node and
axis by axis and without reference to the generation.  `Integral.SizesFit` says that no size which
the generation computes leaves the machine word.
-/

namespace ElementKernel

/-! ## Nodes of the expression graph -/

namespace ModifiedTerminal

/-- A kernel for integrals of a type can read the terminal.  A zero table needs no reading. -/
def Readable (t : ModifiedTerminal) (type : IntegralType) (range? : Option TableRange) : Prop :=
  (∃ range, range? = some range ∧ range.type = .zeros) ∨
    match t.terminal with
    | .argument _ | .jacobian => range?.isSome
    | .spatialCoordinate => range?.isSome ∨ type = .vertex
    | .facetNormal => type = .exteriorFacet ∨ type = .interiorFacet
    | _ => True

/-- The number of degrees of freedom is computed where the terminal is expanded in a table. -/
def ExpansionFits (t : ModifiedTerminal) (range? : Option TableRange) : Prop :=
  ∀ range, range? = some range → range.type ≠ .zeros →
    match t.terminal with
    | .coefficient _ => range.type = .quadrature ∨ range.first ≤ range.past
    | .spatialCoordinate | .jacobian => range.first ≤ range.past
    | _ => True

end ModifiedTerminal

/-- Rust has no modified Bessel functions. -/
def Operator.Supported (op : Operator) : Dialect → Prop
  | .c => True
  | .rust => op ≠ .besselI ∧ op ≠ .besselK

namespace Integrand

def Marked (integrand : Integrand) (partition : Partition) (id : NodeId) : Prop :=
  integrand.partitions[id]? = some (some partition)

/-- The nodes whose values are at hand in the code of a partition. -/
def Computed (integrand : Integrand) : Partition → NodeId → Prop
  | .piecewise, id => integrand.Marked .piecewise id
  | .varying, id => integrand.Marked .piecewise id ∨ integrand.Marked .varying id

def NodeAcceptable (integrand : Integrand) (type : IntegralType) (partition : Partition) :
    NodeId × GraphNode → Prop
  | (id, .terminal t) => t.Readable type (integrand.rangeOf id)
  | (id, .operator op operands) =>
      operands.length = op.arity ∧ ∀ o ∈ operands, o < id ∧ integrand.Computed partition o

def NodeFits (integrand : Integrand) : NodeId × GraphNode → Prop
  | (id, .terminal t) => t.ExpansionFits (integrand.rangeOf id)
  | (_, .operator ..) => True

/-- The operator of the node, if it is one, can be written in the language. -/
def NodeSupported (dialect : Dialect) : NodeId × GraphNode → Prop
  | (_, .terminal _) => True
  | (_, .operator op _) => op.Supported dialect

/-- There is one marker and one table range for each node, and each table has its values. -/
structure DataComplete (integrand : Integrand) : Prop where
  partitions : integrand.partitions.length = integrand.graph.size
  ranges : integrand.tableRanges.length = integrand.graph.size
  tables : ∀ entry ∈ integrand.tables.entries,
    entry.2.values.length =
      entry.2.shape.entities * entry.2.shape.points * entry.2.shape.dofs

end Integrand

/-! ## Contributions -/

/-- One axis of a contribution: a table that is read covers exactly the block, is not zero, and
belongs to an argument that can be read from it. -/
def Kernel.Axis.Acceptable (axis : Kernel.Axis) (type : IntegralType) (integrand : Integrand) :
    Prop :=
  axis.range.type = .quadrature ∨ axis.range.type = .ones ∨
    axis.range.type ≠ .zeros ∧ (axis.range.first, axis.range.past) = axis.bounds ∧
      ∃ t, integrand.arguments[axis.argument]? = some t ∧ t.Readable type (some axis.range)

structure BlockContribution.Acceptable (contribution : BlockContribution) (type : IntegralType)
    (rank : Nat) (integrand : Integrand) (partition : Partition) (block : DofBlock) : Prop where
  blockRank : block.length = rank
  argumentRank : contribution.arguments.length = rank
  rangeRank : contribution.ranges.length = rank
  factor : integrand.graph.isLiteralOne contribution.factor ∨
    integrand.Computed partition contribution.factor
  axes : ∀ axis ∈ Kernel.axes block contribution, axis.Acceptable type integrand

namespace Integrand

/-- The nodes of a partition and the contributions to its blocks are acceptable. -/
structure PartitionAcceptable (integrand : Integrand) (type : IntegralType) (rank : Nat)
    (partition : Partition) : Prop where
  nodes : ∀ node ∈ integrand.partitionNodes partition,
    integrand.NodeAcceptable type partition node
  contributions : ∀ entry ∈ integrand.contributions.get partition,
    ∀ contribution ∈ entry.2, contribution.Acceptable type rank integrand partition entry.1

end Integrand

/-! ## Integrals -/

/-- Every number of points has a rule, and every rule has as many points as it is registered for. -/
structure Integral.RulesComplete (integral : Integral) : Prop where
  registered : ∀ entry ∈ integral.integrands.entries,
    ∃ rule, integral.rules.get? entry.1 = some rule
  size : ∀ entry ∈ integral.rules.entries, entry.2.pointCount = entry.1

/-- The consistency that a kernel for integrals of the given type needs. -/
structure Integral.Acceptable (integral : Integral) (type : IntegralType) : Prop where
  integrates : integral.type ≠ .expression
  data : ∀ entry ∈ integral.integrands.entries, entry.2.DataComplete
  rules : integral.type.hasStaticQuadrature → integral.RulesComplete
  partitions : ∀ entry ∈ integral.integrands.entries, ∀ partition,
    entry.2.PartitionAcceptable type integral.tensorShape.length partition

/-- The language has the operators of all nodes that are computed. -/
def Integral.Supported (integral : Integral) (dialect : Dialect) : Prop :=
  ∀ entry ∈ integral.integrands.entries, ∀ partition, ∀ node ∈ entry.2.partitionNodes partition,
    Integrand.NodeSupported dialect node

/-- The strides of the tensor, from the last axis outwards. -/
def Kernel.StridesFit (shape : List Nat) : Prop :=
  match shape.reverse with
  | [] => True
  | size :: outer => Word.ProductFits size outer

structure Integrand.PartitionFits (integrand : Integrand) (shape : List Nat)
    (partition : Partition) : Prop where
  nodes : ∀ node ∈ integrand.partitionNodes partition, integrand.NodeFits node
  strides : ∀ entry ∈ integrand.contributions.get partition, ∀ _ ∈ entry.2,
    Kernel.StridesFit shape

/-- No size that the generation computes leaves the machine word. -/
structure Integral.SizesFit (integral : Integral) : Prop where
  tables : ∀ entry ∈ integral.integrands.entries, ∀ table ∈ entry.2.tables.entries,
    Word.ProductFits 1 table.2.shape.toList
  points : integral.type.hasStaticQuadrature → ∀ entry ∈ integral.rules.entries,
    ∀ integrand, integral.integrands.get? entry.1 = some integrand →
      0 < entry.2.dimension → integrand.needPoints → entry.1 * entry.2.dimension < Word.limit
  tensor : Word.ProductFits 1 integral.tensorShape
  partitions : ∀ entry ∈ integral.integrands.entries, ∀ partition,
    entry.2.PartitionFits integral.tensorShape partition

end ElementKernel
