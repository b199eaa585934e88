import ElementKernel.Code.Expr
import ElementKernel.Word

/-!
Statements of generated code.
-/

namespace ElementKernel

/-- The declaration of an array of floats, possibly with values in row-major order. -/
structure ArrayDecl where
  name : String
  sizes : List Nat
  values : Option (List Float) := none
  /-- Whether the array is a table that is never written. -/
  constant : Bool := false
  alignment : Option Nat := none
  deriving Repr

namespace ArrayDecl

/-- A table of given values. -/
def table (name : String) (sizes : List Nat) (values : List Float) : ArrayDecl :=
  { name, sizes, values := some values, constant := true }

/-- The number of entries. -/
def size (decl : ArrayDecl) : Checked Nat := Word.product decl.sizes

def isEmpty (decl : ArrayDecl) : Checked Bool := do return (← decl.size) = 0

/-- Faults when the entries of one outermost slice cannot be counted, as writing the values of the
array requires. -/
def checkValues (decl : ArrayDecl) : Checked Unit :=
  match decl.values, decl.sizes with
  | some _, _ :: second :: inner => do
      let _ ← Word.product (second :: inner)
  | _, _ => .ok ()

end ArrayDecl

inductive Stmt where
  | comment (text : String)
  | array (decl : ArrayDecl)
  /-- The declaration of a float variable. -/
  | declare (name : String) (value : Expr)
  | assign (target value : Expr)
  | assignAdd (target value : Expr)
  /-- Sets the first entries of an array to zero. -/
  | zeroFill (array : Expr) (size : Nat)
  /-- A loop whose index runs over `first, …, past - 1`. -/
  | forRange (index : Expr) (first past : Nat) (body : List Stmt)
  | scope (body : List Stmt)
  | list (body : List Stmt)
  deriving Repr

namespace Stmt

mutual

/-- Checks the values of every array that the statement declares. -/
def checkValues : Stmt → Checked Unit
  | .array decl => decl.checkValues
  | .forRange _ _ _ body | .scope body | .list body => checkAll body
  | _ => .ok ()

def checkAll : List Stmt → Checked Unit
  | [] => .ok ()
  | s :: rest => do
      s.checkValues
      checkAll rest

end

/-- Comments in front of statements.  Without statements there is nothing to comment. -/
def commented (comments : List String) (statements : List Stmt) : List Stmt :=
  if statements.isEmpty then [] else comments.map Stmt.comment ++ statements

end Stmt

end ElementKernel
