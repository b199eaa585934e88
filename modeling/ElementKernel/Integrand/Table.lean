import ElementKernel.Word

/-!
Tables of element basis function values.

A table has one value per entity, quadrature point and degree of freedom, the last of them running
fastest.  A range names a table and the degrees of freedom of it that are used.
-/

namespace ElementKernel

inductive TableType where
  | zeros
  | ones
  /-- The identity between quadrature points and degrees of freedom. -/
  | quadrature
  /-- Constant over quadrature points. -/
  | piecewise
  /-- Constant over entities. -/
  | uniform
  /-- Constant over quadrature points and over entities. -/
  | fixed
  | varying
  deriving DecidableEq, Repr

namespace TableType

def all : List TableType :=
  [.zeros, .ones, .quadrature, .piecewise, .uniform, .fixed, .varying]

/-- Whether the values vary between quadrature points. -/
def isVarying : TableType → Bool
  | .uniform | .varying | .quadrature => true
  | .zeros | .ones | .piecewise | .fixed => false

theorem mem_all (type : TableType) : type ∈ all := by
  cases type <;> decide

end TableType

/-- The degrees of freedom `first, …, past - 1` of a table. -/
structure TableRange where
  table : String
  first : Nat
  past : Nat
  type : TableType
  deriving DecidableEq, Repr

namespace TableRange

def length (range : TableRange) : Checked Nat := Word.sub range.past range.first

def isEmpty (range : TableRange) : Bool := range.past = range.first

end TableRange

structure TableShape where
  entities : Nat
  points : Nat
  dofs : Nat
  deriving DecidableEq, Repr

def TableShape.toList (shape : TableShape) : List Nat :=
  [shape.entities, shape.points, shape.dofs]

structure ElementTable where
  shape : TableShape
  values : List Float
  deriving Repr

namespace ElementTable

/-- A table of given values, as many as the shape asks for. -/
def make (shape : TableShape) (values : List Float) : Checked ElementTable := do
  Checked.sameLength .tableValues (← Word.product shape.toList) values.length
  return ⟨shape, values⟩

/-- The table with the values `f entity point dof`.  An empty table may have any number of
entities. -/
def ofFunction (shape : TableShape) (f : Nat → Nat → Nat → Float) : Checked ElementTable := do
  let size ← Word.product shape.toList
  if size = 0 then return ⟨shape, []⟩
  else
    return ⟨shape,
      (List.range shape.entities).flatMap fun entity =>
        (List.range shape.points).flatMap fun point =>
          (List.range shape.dofs).map fun dof => f entity point dof⟩

/-- The value at an entity, a point and a degree of freedom, if the table has it. -/
def get (table : ElementTable) (entity point dof : Nat) : Checked (Option Float) := do
  let shape := table.shape
  if entity < shape.entities ∧ point < shape.points ∧ dof < shape.dofs then
    let row ← Word.add (← Word.mul entity shape.points) point
    return table.values[← Word.add (← Word.mul row shape.dofs) dof]?
  else
    return none

end ElementTable

end ElementKernel
