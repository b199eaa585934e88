import ElementKernel.Proofs.Execution.Meaning
import ElementKernel.Word

/-!
# Consistent integrals

The conditions under which an integral describes an element tensor: nodes and blocks that are
computed once do not depend on the point, every axis reads its own argument, every table that is
read has the values, blocks lie inside of the element tensor, and the names that the kernel declares
are distinct.

A consistent integral may still have a terminal that its kernel reads too early
(`Setting.ReadsEarly`).  The generated code looks up a table of ones at the current point, which
does not exist yet in front of the quadrature loop.
-/

namespace ElementKernel

open Kernel (Axis)

namespace ModifiedTerminal

/-- The variable that a terminal is summed up in, if it is expanded in a table. -/
def expansionName? (t : ModifiedTerminal) (range? : Option TableRange) : Option String :=
  match t.terminal, range? with
  | .coefficient number, some range =>
      if range.type = .zeros ∨ range.type = .quadrature ∨
          range.type = .ones ∧ range.past - range.first = 1 then none
      else some (t.variableName s!"w{number}")
  | .spatialCoordinate, some range =>
      if range.type = .zeros then none else some (t.variableName "x")
  | .jacobian, some range => if range.type = .zeros then none else some (t.variableName "J")
  | _, _ => none

end ModifiedTerminal

/-! ## Names -/

/-- The variables that the code of a node declares. -/
def Integrand.variablesOf (integrand : Integrand) : NodeId × GraphNode → List String
  | (id, .terminal t) => (t.expansionName? (integrand.rangeOf id)).toList
  | (_, .operator ..) => []

def Integrand.variables (integrand : Integrand) (partition : Partition) : List String :=
  (integrand.partitionNodes partition).flatMap integrand.variablesOf

/-- The names of the geometry that a kernel is called with. -/
def Target.geometryNames (target : Target) : List String :=
  match target.integralType with
  | .interiorFacet => ["facet_0", "facet_1", "n_0", "n_1", "volume_0", "volume_1"]
  | .exteriorFacet => ["facet", "n", "volume"]
  | .vertex => ["vertex", "volume"]
  | _ => ["volume"]

namespace Integral

def counterNames (integral : Integral) : List String :=
  "iq" :: "ic" :: (List.range integral.tensorShape.length).map fun axis => s!"ia{axis}"

def tableNames (integral : Integral) : List String :=
  integral.integrands.entries.flatMap fun (pointCount, integrand) =>
    Kernel.weightsName pointCount :: Kernel.pointsName pointCount :: integrand.tables.keys

end Integral

namespace Setting

variable {K : Type} [Field K] (S : Setting K)

/-- The names that the code of an integrand declares. -/
def ownNames : List String :=
  Kernel.slotsName .piecewise S.pointCount :: Kernel.slotsName .varying S.pointCount ::
    (S.integrand.variables .piecewise ++ S.integrand.variables .varying)

/-- All names that may be visible in the code of an integrand. -/
def names : List String :=
  Kernel.tensorName :: "w" :: "coordinate_dofs" ::
    (S.target.geometryNames ++ S.integral.counterNames ++ S.integral.tableNames ++ S.ownNames)

/-! ## Consistency -/

/-- The number of points at which the code of a partition runs. -/
def rounds : Partition → Nat
  | .piecewise => 1
  | .varying => S.pointCount

/-- A table has all values that are read over a range at a point.  Those of a table of ones are
one. -/
def Covers (range : TableRange) (restriction : Option Restriction) (point : Nat) : Prop :=
  ∀ dof < range.past - range.first,
    ∃ table, S.integrand.tables.get? range.table = some table ∧
      range.entityAt (S.data.entity S.target restriction).toNat < table.shape.entities ∧
      range.pointAt point < table.shape.points ∧ dof < table.shape.dofs ∧
      (range.type = .ones → ∀ value ∈ table.values, value = 1)

/-- An axis lies inside of the element tensor, and what is read along it belongs to it. -/
structure AxisConsistent (partition : Partition) (axis : Axis) : Prop where
  inside : ∀ size, S.integral.tensorShape[axis.position]? = some size → axis.bounds.2 ≤ size
  quadrature : axis.range.type = .quadrature → axis.bounds = (0, S.pointCount)
  reads : axis.range.type ≠ .quadrature → axis.range.type ≠ .ones →
    ∀ t, S.integrand.arguments[axis.argument]? = some t →
      t.terminal = .argument axis.position ∧
        ∀ point < S.rounds partition, S.Covers axis.range t.restriction point

structure Consistent : Prop where
  /-- Sizes are machine words. -/
  pointCount : S.pointCount ≤ Word.limit
  nodeCount : S.integrand.graph.size ≤ Word.limit
  names : S.names.Nodup
  noArgument : ∀ partition id t, (id, .terminal t) ∈ S.integrand.partitionNodes partition →
    ∀ number, t.terminal ≠ .argument number
  noWeight : ∀ id t, (id, .terminal t) ∈ S.integrand.partitionNodes .piecewise →
    t.terminal ≠ .quadratureWeight
  constantRanges : ∀ id t, (id, .terminal t) ∈ S.integrand.partitionNodes .piecewise →
    ∀ range, S.integrand.rangeOf id = some range → range.type.isVarying = false
  constantBlocks : ∀ entry ∈ S.integrand.contributions.get .piecewise,
    ∀ contribution ∈ entry.2, ∀ range ∈ contribution.ranges, range.type.isVarying = false
  tables : ∀ partition id t, (id, .terminal t) ∈ S.integrand.partitionNodes partition →
    ∀ range, S.integrand.rangeOf id = some range → (t.expansionName? (some range)).isSome →
      ∀ point < S.rounds partition, S.Covers range t.restriction point
  axes : ∀ partition, ∀ entry ∈ S.integrand.contributions.get partition,
    ∀ contribution ∈ entry.2, ∀ axis ∈ Kernel.axes entry.1 contribution,
      S.AxisConsistent partition axis

/-- A terminal that is computed in front of the quadrature loop is summed up over a table of ones,
whose entries are looked up at the point of the loop. -/
def ReadsEarly : Prop :=
  S.pointCount ≠ 1 ∧
    ∃ id t range, (id, .terminal t) ∈ S.integrand.partitionNodes .piecewise ∧
      S.integrand.rangeOf id = some range ∧ range.type = .ones ∧ range.first < range.past ∧
      (t.expansionName? (some range)).isSome

end Setting

end ElementKernel
