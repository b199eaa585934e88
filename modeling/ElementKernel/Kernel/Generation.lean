import ElementKernel.Kernel.BlockCode

/-!
Generation of element tensor kernels.

A kernel starts with the static tables and the reset of the element tensor.  For each number of
quadrature points follow the piecewise computations with their contributions, and the quadrature
loop with the varying ones.
-/

namespace ElementKernel

structure KernelOptions where
  /-- The byte alignment of generated arrays. -/
  alignment : Option Nat := none
  deriving DecidableEq, Repr

/-- The body of a kernel and the names of the operators it uses. -/
structure GeneratedKernel where
  body : Stmt
  operators : List String
  deriving Repr

namespace Kernel

def tableDecl (options : KernelOptions) (name : String) (sizes : List Nat)
    (values : List Float) : Stmt :=
  .array { ArrayDecl.table name sizes values with alignment := options.alignment }

/-- The weights and points of a rule, as far as its integrand reads them. -/
def ruleTables (options : KernelOptions) (pointCount : Nat) (rule : QuadratureRule)
    (integrand : Integrand) : Checked (List Stmt) := do
  let weights :=
    if integrand.needWeights then
      [tableDecl options (weightsName pointCount) [pointCount] rule.weights]
    else []
  if 0 < rule.dimension ∧ integrand.needPoints then
    let size ← Word.mul pointCount rule.dimension
    return weights ++ [tableDecl options (pointsName pointCount) [size] rule.flattenedPoints]
  else
    return weights

/-- The tables of one registered rule.  A rule without integrand has none. -/
def registeredTables (options : KernelOptions) (integral : Integral) :
    Nat × QuadratureRule → Attempt KernelError (List Stmt)
  | (pointCount, rule) => do
      if rule.pointCount ≠ pointCount then
        KernelError.inconsistent (.ruleSize pointCount rule.pointCount)
      else
        match integral.integrands.get? pointCount with
        | none => return []
        | some integrand => ruleTables options pointCount rule integrand

/-- The tables of quadrature weights and points, if the rules are known beforehand. -/
def quadratureTables (options : KernelOptions) (integral : Integral) :
    Attempt KernelError (List Stmt) := do
  if integral.type.hasStaticQuadrature then
    match integral.integrands.keys.find? fun n => !integral.rules.contains n with
    | some missing => Attempt.reject (.missingRule missing)
    | none =>
        let tables ← integral.rules.entries.mapM (registeredTables options integral)
        return Stmt.commented ["Section for quadrature weights and points"] tables.flatten
  else
    return []

/-- The element tables of one integrand. -/
def integrandTables (options : KernelOptions) (pointCount : Nat) (integrand : Integrand) :
    List Stmt :=
  let tables := integrand.tables.entries
  Stmt.commented [s!"Definitions of {tables.length} tables for {pointCount} quadrature points"]
    (tables.map fun (name, table) =>
      tableDecl options name table.shape.toList table.values)

def elementTables (options : KernelOptions) (integral : Integral) : List Stmt :=
  Stmt.commented
    ["Section for precomputed element basis function values",
      "Table dimensions: num_entities, num_points, num_dofs"]
    (integral.integrands.entries.flatMap fun (pointCount, integrand) =>
      integrandTables options pointCount integrand)

/-- Sets the element tensor to zero. -/
def tensorReset (integral : Integral) : Checked (List Stmt) := do
  let size ← integral.tensorSize
  let reset :=
    if size = 1 then Stmt.assign (Expr.entry tensor (.int 0)) (.float 0)
    else .zeroFill tensor size
  return [.comment "Reset element tensor", reset]

/-- The loop over the quadrature points.  Nothing is emitted for an empty body, and a single point
needs no loop. -/
def quadratureLoop (pointCount : Nat) (body : List Stmt) : List Stmt :=
  if body.isEmpty then []
  else if pointCount = 1 then [.comment "Only 1 quadrature point, no loop", .scope body]
  else [.forRange (pointIndex pointCount) 0 pointCount body]

/-- The code for one number of quadrature points, and the operators it uses. -/
def integrandCode (target : Target) (options : KernelOptions) (integral : Integral)
    (pointCount : Nat) (integrand : Integrand) :
    Attempt KernelError (List Stmt × List Operator) := do
  let statements (state : PartitionState) (partition : Partition) :=
    state.statements partition (slotsName partition pointCount) options.alignment
  let piecewise ← partitionState target pointCount integrand .piecewise []
  let piecewiseUpdates ←
    blockCode target integral pointCount integrand .piecewise piecewise.accesses
  let varying ← partitionState target pointCount integrand .varying piecewise.accesses
  let setup := Stmt.commented [s!"Quadrature loop body setup (num_points={pointCount})"]
    (statements varying .varying)
  let updates ← blockCode target integral pointCount integrand .varying varying.accesses
  return (statements piecewise .piecewise ++ piecewiseUpdates ++
    quadratureLoop pointCount (setup ++ updates), varying.operators ++ piecewise.operators)

/-- The codes of all integrands one after the other, each in a scope of its own if there are
several. -/
def joinCodes (codes : List (List Stmt)) : List Stmt :=
  if 1 < codes.length then codes.map Stmt.scope else codes.flatten

/-- The names of operators in ascending order, each once. -/
def operatorNames (operators : List Operator) : List String :=
  (OrderedMap.ofList (operators.map fun op => (op.name, ()))).keys

end Kernel

namespace Integral

/-- Checks the data of one integrand. -/
def checkIntegrand (integrand : Integrand) : Attempt KernelError Unit :=
  integrand.validate.mapError .malformed

/-- The body of the kernel that computes the element tensor of an integral.  Expressions are
evaluated at points and have no kernel. -/
def generate (integral : Integral) (target : Target) (options : KernelOptions) :
    Attempt KernelError GeneratedKernel := do
  if integral.type = .expression then
    Attempt.reject (.unsupportedIntegral integral.type)
  else
    integral.integrands.entries.forM fun (_, integrand) => checkIntegrand integrand
    let rules ← Kernel.quadratureTables options integral
    let elements := Kernel.elementTables options integral
    let reset ← Kernel.tensorReset integral
    let codes ← integral.integrands.entries.mapM fun (pointCount, integrand) =>
      Kernel.integrandCode target options integral pointCount integrand
    return {
      body := .list (rules ++ elements ++ reset ++ Kernel.joinCodes (codes.map (·.1)))
      operators := Kernel.operatorNames (codes.flatMap (·.2)) }

/-- The log of a successful generation: the rules that no integrand uses, then the numbers of
points. -/
def generationLog (integral : Integral) : List String :=
  let unused :=
    if integral.type.hasStaticQuadrature then
      integral.rules.keys.filter fun n => !integral.integrands.contains n
    else []
  unused.map (fun n => s!"WARN: Quadrature rule with {n} point(s) is not used by any integrand") ++
    integral.integrands.keys.map fun n =>
      s!"DEBUG: Generating {integral.type.name} integral code for {n} quadrature point(s)"

end Integral

end ElementKernel
