import ElementKernel.Index.Arena
import ElementKernel.Monomial.Raw
import ElementKernel.Monomial.TransformError

/-!
Entries of the Jacobian of the reference map and of its inverse.
-/

namespace ElementKernel

inductive JacobianKind where
  /-- A derivative of physical by reference coordinates. -/
  | jacobian
  /-- A derivative of reference by physical coordinates. -/
  | inverse
  deriving DecidableEq, Repr

/-- The entry in the row and the column that two indices select. -/
structure JacobianEntry where
  row : IndexHandle
  column : IndexHandle
  kind : JacobianKind
  restriction : Option Restriction
  offset : Nat
  deriving DecidableEq, Repr

namespace JacobianEntry

/-- Makes a fixed index local to the sub-element that starts at `offset`.  The local index is a new
one and the given index stays as it is. -/
def localize (arena : IndexArena) (handle : IndexHandle) (offset : Nat) :
    Attempt TransformError (IndexHandle × IndexArena) := do
  let index ← arena.get handle
  if index.isFixed then
    let component ← index.value
    if component < offset then
      Attempt.reject (.invalidOffset component offset)
    else
      return (arena.next, arena.insert (← index.lower offset))
  else
    return (handle, arena)

/-- Links two indices by an entry, with fixed indices made local.  If only the row can be made local
its new index stays in the arena. -/
def link (arena : IndexArena) (row column : IndexHandle) (kind : JacobianKind)
    (restriction : Option Restriction) (offset : Nat) :
    IndexArena × Attempt TransformError JacobianEntry :=
  match localize arena row offset with
  | .error failure => (arena, .error failure)
  | .ok (row, arena) =>
      match localize arena column offset with
      | .error failure => (arena, .error failure)
      | .ok (column, arena) => (arena, .ok ⟨row, column, kind, restriction, offset⟩)

def text (arena : IndexArena) (entry : JacobianEntry) : Checked String := do
  let row ← arena.textAt entry.row
  let column ← arena.textAt entry.column
  let tag := Restriction.tag entry.restriction
  match entry.kind with
  | .jacobian => return s!"dx_{row}/dX_{column}{tag}"
  | .inverse => return s!"dX_{row}/dx_{column}{tag}"

end JacobianEntry

end ElementKernel
