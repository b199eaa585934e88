/-!
Expressions of generated code.

One tree serves both target languages.  It has no node for grouping, since parentheses follow from
how tightly the operators bind.
-/

namespace ElementKernel

/-- Operators on truth values and comparisons. -/
inductive LogicOp where
  | eq
  | ne
  | lt
  | le
  | gt
  | ge
  | and
  | or
  deriving DecidableEq, Repr

namespace LogicOp

def all : List LogicOp := [.eq, .ne, .lt, .le, .gt, .ge, .and, .or]

def symbol : LogicOp → String
  | .eq => "=="
  | .ne => "!="
  | .lt => "<"
  | .le => "<="
  | .gt => ">"
  | .ge => ">="
  | .and => "&&"
  | .or => "||"

/-- Whether chains of the operator need no parentheses. -/
def isAssociative : LogicOp → Bool
  | .and | .or => true
  | .eq | .ne | .lt | .le | .gt | .ge => false

end LogicOp

inductive Expr where
  | symbol (name : String)
  | float (value : Float)
  | int (value : Int)
  | bool (value : Bool)
  | access (array : Expr) (indices : List Expr)
  | sum (terms : List Expr)
  | product (factors : List Expr)
  | difference (left right : Expr)
  | quotient (left right : Expr)
  | logic (op : LogicOp) (left right : Expr)
  | not (operand : Expr)
  | conditional (condition whenTrue whenFalse : Expr)
  | call (function : String) (arguments : List Expr)
  | method (receiver : Expr) (name : String) (arguments : List Expr)
  | cast (operand : Expr) (type : String)
  deriving Repr

namespace Expr

/-- An array at one index. -/
def entry (array index : Expr) : Expr := .access array [index]

/-- A sum of two, where a literal zero on either side is left out. -/
def add : Expr → Expr → Expr
  | .int 0, right => right
  | left, .int 0 => left
  | left, right => .sum [left, right]

/-- A difference, where a literal zero on the right is left out. -/
def sub : Expr → Expr → Expr
  | left, .int 0 => left
  | left, right => .difference left right

/-- A product of two, where a literal one on either side is left out. -/
def mul : Expr → Expr → Expr
  | .int 1, right => right
  | left, .int 1 => left
  | left, right => .product [left, right]

end Expr

end ElementKernel
