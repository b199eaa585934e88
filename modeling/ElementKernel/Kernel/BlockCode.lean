import ElementKernel.Kernel.PartitionCode

/-!
Code that adds contributions to the element tensor.

A contribution is one update inside a loop per axis of its block.  An axis with a quadrature table
is indexed by the quadrature point and has no loop of its own.
-/

namespace ElementKernel

namespace Kernel

/-- One axis of a contribution. -/
structure Axis where
  position : Nat
  /-- The first degree of freedom of the block and the one past its last. -/
  bounds : Nat × Nat
  range : TableRange
  argument : Nat
  deriving DecidableEq, Repr

def Axis.index (axis : Axis) (pointCount : Nat) : Expr :=
  if axis.range.type = .quadrature then pointIndex pointCount else axisIndex axis.position

/-- The loop over an axis around a statement. -/
def Axis.loop (axis : Axis) (pointCount : Nat) (body : Stmt) : Stmt :=
  if axis.range.type = .quadrature then body
  else .forRange (axis.index pointCount) axis.bounds.1 axis.bounds.2 [body]

/-- The axes of a contribution. -/
def axes (block : DofBlock) (contribution : BlockContribution) : List Axis :=
  (block.zip (contribution.ranges.zip contribution.arguments)).zipIdx.map
    fun ((bounds, range, argument), position) => ⟨position, bounds, range, argument⟩

/-- The factor that a contribution takes from the graph, none if it is one. -/
def scalarFactors (integrand : Integrand) (accesses : Accesses) (factor : NodeId) :
    Except Inconsistency (List Expr) :=
  if integrand.graph.isLiteralOne factor then .ok []
  else
    match accesses.lookup factor with
    | some e => .ok [e]
    | none => .error (.factorNotComputed factor)

/-- The table entry that an axis contributes.  Arguments are read relative to the start of their
range, so a table that is read has to cover exactly the block. -/
def axisFactors (target : Target) (pointCount : Nat) (integrand : Integrand) (block : DofBlock)
    (axis : Axis) : Attempt KernelError (List Expr) := do
  let range := axis.range
  if range.type = .quadrature ∨ range.type = .ones then
    return []
  else if (range.first, range.past) ≠ axis.bounds then
    KernelError.inconsistent (.axisRange axis.position block range)
  else if range.type = .zeros then
    KernelError.inconsistent (.zeroTable block range.table)
  else
    match integrand.arguments[axis.argument]? with
    | none => KernelError.inconsistent (.unknownArgument axis.argument)
    | some argument => return [← target.access argument (some range) pointCount]

/-- The update of the element tensor by a contribution, inside its loops. -/
def contributionCode (target : Target) (integral : Integral) (pointCount : Nat)
    (integrand : Integrand) (accesses : Accesses) (block : DofBlock)
    (contribution : BlockContribution) : Attempt KernelError Stmt := do
  let rank := integral.tensorShape.length
  if block.length ≠ contribution.ranges.length ∨
      contribution.arguments.length ≠ contribution.ranges.length ∨
      rank ≠ contribution.ranges.length then
    KernelError.inconsistent (.blockRank block rank)
  else
    match scalarFactors integrand accesses contribution.factor with
    | .error reason => KernelError.inconsistent reason
    | .ok scalar =>
        let axes := axes block contribution
        let tables ← axes.mapM (axisFactors target pointCount integrand block)
        let factors := scalar ++ tables.flatten
        let term := if factors.isEmpty then .float 1 else .product factors
        let position ← flatIndex (axes.map (·.index pointCount)) integral.tensorShape
        let update := Stmt.assignAdd (Expr.entry tensor position) term
        return axes.foldr (fun axis body => axis.loop pointCount body) update

/-- The updates by all contributions of a partition, block by block in ascending order. -/
def blockCode (target : Target) (integral : Integral) (pointCount : Nat) (integrand : Integrand)
    (partition : Partition) (accesses : Accesses) : Attempt KernelError (List Stmt) := do
  let blocks := (integrand.contributions.get partition).mergeSort
    fun a b => (a.1.order b.1).isLE
  let updates ← blocks.mapM fun (block, contributions) =>
    contributions.mapM (contributionCode target integral pointCount integrand accesses block)
  return updates.flatten

end Kernel

end ElementKernel
