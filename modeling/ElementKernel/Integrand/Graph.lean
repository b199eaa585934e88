import ElementKernel.Integrand.Inconsistency
import ElementKernel.Integrand.Terminal

/-!
Expression graphs in topological order.

A node can only be added after its operands, so that going through the nodes in order meets every
operand before the nodes that use it.
-/

namespace ElementKernel

inductive GraphNode where
  | terminal (terminal : ModifiedTerminal)
  | operator (op : Operator) (operands : List NodeId)
  deriving Repr

structure ExpressionGraph where
  nodes : List GraphNode := []
  deriving Repr

namespace ExpressionGraph

def size (graph : ExpressionGraph) : Nat := graph.nodes.length

def get? (graph : ExpressionGraph) (id : NodeId) : Option GraphNode := graph.nodes[id]?

/-- Adds a node, whose id is the number of nodes before it. -/
def push (graph : ExpressionGraph) (node : GraphNode) : ExpressionGraph :=
  ⟨graph.nodes ++ [node]⟩

/-- Whether an operator may be applied to the nodes with the given ids. -/
def checkOperands (graph : ExpressionGraph) (op : Operator) (operands : List NodeId) :
    Except Inconsistency Unit :=
  if operands.length ≠ op.arity then
    .error (.operandCount op operands.length)
  else
    match operands.find? (graph.size ≤ ·) with
    | some missing => .error (.unknownOperand missing op)
    | none => .ok ()

/-- The nodes with their ids. -/
def entries (graph : ExpressionGraph) : List (NodeId × GraphNode) :=
  graph.nodes.zipIdx.map fun (node, id) => (id, node)

def isLiteralOne (graph : ExpressionGraph) (id : NodeId) : Bool :=
  match graph.get? id with
  | some (.terminal t) => t.isLiteralOne
  | _ => false

@[simp] theorem size_push (graph : ExpressionGraph) (node : GraphNode) :
    (graph.push node).size = graph.size + 1 := by
  simp [push, size]

end ExpressionGraph

end ElementKernel
