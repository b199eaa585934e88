import ElementKernel.Integrand.Integral
import ElementKernel.Kernel.OperatorCall
import ElementKernel.Kernel.TerminalAccess

/-!
Code for one partition of an expression graph.

Terminals are read in place.  Every operator is stored in a slot of the array of the partition,
except conditions, which are written into the expressions that use them.
-/

namespace ElementKernel

/-- The expressions that read the nodes computed so far, the latest node first. -/
abbrev Accesses := List (NodeId × Expr)

namespace Kernel

structure PartitionState where
  accesses : Accesses
  operators : List Operator := []
  definitions : List Stmt := []
  assignments : List Stmt := []
  deriving Repr

/-- The expression that reads an operand of a node. -/
def operandAccess (accesses : Accesses) (node operand : NodeId) : Except Inconsistency Expr :=
  if node ≤ operand then .error (.operandOrder node operand)
  else
    match accesses.lookup operand with
    | some e => .ok e
    | none => .error (.operandNotComputed operand node)

/-- Computes a terminal. -/
def visitTerminal (target : Target) (pointCount : Nat) (range? : Option TableRange)
    (state : PartitionState) (id : NodeId) (t : ModifiedTerminal) :
    Attempt KernelError PartitionState := do
  let access ← target.access t range? pointCount
  let definitions ← target.definitions t range? pointCount access
  return { state with
    accesses := (id, access) :: state.accesses
    definitions := state.definitions ++ definitions }

/-- Computes an operator, whose operands have to be computed before. -/
def visitOperator (target : Target) (slots : String) (state : PartitionState) (id : NodeId)
    (op : Operator) (operands : List NodeId) : Attempt KernelError PartitionState := do
  match operands.mapM (operandAccess state.accesses id) with
  | .error reason => KernelError.inconsistent reason
  | .ok arguments =>
      match op.expression arguments target.dialect with
      | .error e => Attempt.reject e
      | .ok value =>
          let operators := op :: state.operators
          if op.isCondition then
            return { state with accesses := (id, value) :: state.accesses, operators }
          else
            let slot := Expr.entry (.symbol slots) (.int state.assignments.length)
            return { state with
              accesses := (id, slot) :: state.accesses
              operators
              assignments := state.assignments ++ [.assign slot value] }

def visit (target : Target) (pointCount : Nat) (slots : String) (integrand : Integrand)
    (state : PartitionState) : NodeId × GraphNode → Attempt KernelError PartitionState
  | (id, .terminal t) => visitTerminal target pointCount (integrand.rangeOf id) state id t
  | (id, .operator op operands) => visitOperator target slots state id op operands

/-- The statements of a partition: definitions, the array of slots, and the assignments to them. -/
def PartitionState.statements (state : PartitionState) (partition : Partition) (slots : String)
    (alignment : Option Nat) : List Stmt :=
  let computed :=
    if state.assignments.isEmpty then []
    else
      .array { name := slots, sizes := [state.assignments.length], alignment } :: state.assignments
  Stmt.commented [s!"Unstructured {partition.name} computations"] (state.definitions ++ computed)

/-- Computes the nodes of a partition, after the nodes that are computed already. -/
def partitionState (target : Target) (pointCount : Nat) (integrand : Integrand)
    (partition : Partition) (accesses : Accesses) : Attempt KernelError PartitionState :=
  (integrand.partitionNodes partition).foldlM
    (visit target pointCount (slotsName partition pointCount) integrand) { accesses }

end Kernel

end ElementKernel
