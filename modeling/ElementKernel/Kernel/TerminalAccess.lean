import ElementKernel.Code.Stmt
import ElementKernel.Integrand.Terminal
import ElementKernel.Kernel.Target

/-!
How a kernel reads terminals.

Arguments are read from their tables and most geometric quantities from the inputs of the kernel.  A
coefficient, a coordinate or a Jacobian that is expanded in a table becomes a variable, which is
summed up in front of its use.
-/

namespace ElementKernel

namespace Target

/-- The local number of the entity that is integrated over. -/
def entity (target : Target) (restriction : Option Restriction) : Expr :=
  match target.integralType with
  | .exteriorFacet => .symbol "facet"
  | .interiorFacet => .symbol s!"facet_{(restriction.getD .plus).side}"
  | .vertex => .symbol "vertex"
  | _ => .int 0

/-- A quantity of the cell, or of one of the two cells at an interior facet. -/
def cellSymbol (target : Target) (name : String) (restriction : Option Restriction) : Expr :=
  match target.integralType with
  | .interiorFacet => .symbol s!"{name}_{(restriction.getD .plus).side}"
  | _ => .symbol name

/-- The value of a table at the current entity and point, each of which is zero for a table that is
constant over it. -/
def tableValue (target : Target) (range : TableRange) (restriction : Option Restriction)
    (pointCount : Nat) (dof : Expr) : Expr :=
  let entity :=
    match range.type with
    | .uniform | .fixed => .int 0
    | _ => target.entity restriction
  let point :=
    match range.type with
    | .piecewise | .fixed => .int 0
    | _ => Kernel.pointIndex pointCount
  .access (.symbol range.table) [entity, point, dof]

/-- A coordinate of a vertex of the cell. -/
def coordinate (target : Target) (vertex : Expr) (component : Nat) : Expr :=
  let first := Expr.mul (.int (Word.signed target.options.geometricDimension)) vertex
  Expr.entry (.symbol "coordinate_dofs") (Expr.add first (.int (Word.signed component)))

end Target

namespace ModifiedTerminal

/-- The variable that holds an expanded terminal.  Its name lists the component, the derivatives if
there are any, and the side. -/
def variableName (t : ModifiedTerminal) (base : String) : String :=
  let derivatives :=
    if t.localDerivatives.any (0 < ·) then "_d" ++ String.join (t.localDerivatives.map toString)
    else ""
  let side := (t.restriction.map fun r => s!"_r{r.side}").getD ""
  s!"{base}_c{t.component}" ++ derivatives ++ side

end ModifiedTerminal

namespace Target

/-- The entry of a coefficient function in the coefficient values. -/
def coefficientValue (number : Nat) (dof : Expr) : Expr :=
  Expr.entry (Expr.entry (.symbol "w") (.int (Word.signed number))) dof

/-- A coefficient function is read directly where its table selects one value. -/
def coefficientAccess (t : ModifiedTerminal) (number : Nat) (range? : Option TableRange)
    (pointCount : Nat) : Checked Expr := do
  match range? with
  | none => return coefficientValue number (.int (Word.signed t.component))
  | some range =>
      let expanded := .symbol (t.variableName s!"w{number}")
      match range.type with
      | .ones =>
          if (← range.length) = 1 then
            return coefficientValue number (.int (Word.signed range.first))
          else return expanded
      | .quadrature =>
          let dof := Expr.add (Kernel.pointIndex pointCount) (.int (Word.signed range.first))
          return coefficientValue number dof
      | _ => return expanded

def argumentAccess (target : Target) (t : ModifiedTerminal) (number : Nat)
    (range? : Option TableRange) (pointCount : Nat) : Except Inconsistency Expr :=
  match range? with
  | none => .error (.argumentTable number)
  | some range =>
      if range.type = .quadrature ∨ range.type = .ones then .ok (.float 1)
      else
        let dof := Expr.sub (Kernel.axisIndex number) (.int (Word.signed range.first))
        .ok (target.tableValue range t.restriction pointCount dof)

/-- The expression that reads the value of a terminal. -/
def access (target : Target) (t : ModifiedTerminal) (range? : Option TableRange)
    (pointCount : Nat) : Attempt KernelError Expr := do
  if range?.any (·.type = .zeros) then
    return .float 0
  else
    match t.terminal with
    | .argument number =>
        match target.argumentAccess t number range? pointCount with
        | .ok e => return e
        | .error reason => KernelError.inconsistent reason
    | .coefficient number => coefficientAccess t number range? pointCount
    | .spatialCoordinate =>
        match range?, target.integralType with
        | some _, _ => return .symbol (t.variableName "x")
        | none, .vertex => return target.coordinate (.symbol "vertex") t.component
        | none, _ => KernelError.inconsistent .coordinateTable
    | .jacobian =>
        match range? with
        | some _ => return .symbol (t.variableName "J")
        | none => KernelError.inconsistent .jacobianTable
    | .facetNormal =>
        match target.integralType with
        | .exteriorFacet | .interiorFacet =>
            return Expr.entry (target.cellSymbol "n" t.restriction)
              (.int (Word.signed t.component))
        | other => KernelError.inconsistent (.facetNormalOutsideFacets other)
    | .cellVolume => return target.cellSymbol "volume" t.restriction
    | .quadratureWeight =>
        return Expr.entry (.symbol (Kernel.weightsName pointCount)) (Kernel.pointIndex pointCount)
    | .float value => return .float value
    | .int value =>
        match target.dialect with
        | .c => return .int value.toInt
        | .rust => return .float (Float.ofInt value.toInt)
    | .zero => return .float 0

/-- The counter of the loops that sum up expanded terminals. -/
def expansionIndex : Expr := .symbol "ic"

/-- Declares a variable and adds up, over the range of a table, the table values times `dofs`. -/
def expansion (target : Target) (name : String) (t : ModifiedTerminal) (range : TableRange)
    (pointCount : Nat) (dofs : Expr → Expr) : Checked (List Stmt) := do
  let dof := Expr.add expansionIndex (.int (Word.signed range.first))
  let value := target.tableValue range t.restriction pointCount expansionIndex
  let update := Stmt.assignAdd (.symbol name) (.product [dofs dof, value])
  return [.declare name (.float 0), .forRange expansionIndex 0 (← range.length) [update]]

/-- The statements that have to run before a terminal is read by the given expression. -/
def definitions (target : Target) (t : ModifiedTerminal) (range? : Option TableRange)
    (pointCount : Nat) (access : Expr) : Checked (List Stmt) :=
  match access, range?, t.terminal with
  | .symbol name, some range, .coefficient number =>
      target.expansion name t range pointCount (coefficientValue number)
  | .symbol name, some range, .spatialCoordinate =>
      target.expansion name t range pointCount (target.coordinate · t.component)
  | .symbol name, some range, .jacobian =>
      let component := t.component / max target.options.topologicalDimension 1
      target.expansion name t range pointCount (target.coordinate · component)
  | _, _, _ => .ok []

end Target

end ElementKernel
