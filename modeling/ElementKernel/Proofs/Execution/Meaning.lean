import ElementKernel.Kernel.Generation
import ElementKernel.Proofs.Execution.Statements
import Mathlib.Algebra.BigOperators.Group.Finset.Defs

/-!
# What a kernel is to compute

The element tensor of an integral, from the values of its coefficients and of the geometry.  Nothing
here refers to generated code.  Each number of quadrature points contributes its piecewise blocks
once and its varying blocks at every point.
-/

namespace ElementKernel

open Execution (Index Interpretation word)

/-- What a kernel is called with, and what its operators mean.  Geometry is given per side of an
interior facet, and without a side elsewhere. -/
structure KernelData (K : Type) [Field K] extends Interpretation K where
  coefficient : Index → Index → K
  coordinate : Index → K
  normal : Option Restriction → Index → K
  volume : Option Restriction → K
  facet : Option Restriction → Index
  vertex : Index
  /-- Weights of rules that are not known before the kernel is called. -/
  weight : Nat → Index → K

/-- The side that a quantity is evaluated on. -/
def Target.sideOf (target : Target) (restriction : Option Restriction) : Option Restriction :=
  if target.integralType = .interiorFacet then some (restriction.getD .plus) else none

namespace KernelData

variable {K : Type} [Field K] (D : KernelData K)

/-- The local number of the entity that is integrated over. -/
def entity (target : Target) (restriction : Option Restriction) : Index :=
  match target.integralType with
  | .exteriorFacet | .interiorFacet => D.facet (target.sideOf restriction)
  | .vertex => D.vertex
  | _ => 0

end KernelData

namespace TableRange

/-- The entity to look up, which is the first where the values are the same for all of them. -/
def entityAt (range : TableRange) (entity : Nat) : Nat :=
  match range.type with
  | .uniform | .fixed => 0
  | _ => entity

/-- The point to look up, which is the first where the values are the same for all of them. -/
def pointAt (range : TableRange) (point : Nat) : Nat :=
  match range.type with
  | .piecewise | .fixed => 0
  | _ => point

end TableRange

/-! ## Terminals -/

/-- The value of a table at an entity, a point and a degree of freedom. -/
def ElementTable.value? (table : ElementTable) (entity point dof : Nat) : Option Float :=
  (Execution.position table.shape.toList [entity, point, dof]).bind (table.values[·]?)

/-- An integrand of an integral and the call of the kernel that it is evaluated in. -/
structure Setting (K : Type) [Field K] where
  data : KernelData K
  target : Target
  integral : Integral
  pointCount : Nat
  integrand : Integrand

namespace Setting

variable {K : Type} [Field K] (S : Setting K)

def tableEntry (range : TableRange) (restriction : Option Restriction) (point dof : Nat) : K :=
  if range.type = .ones then 1
  else
    let entity := range.entityAt (S.data.entity S.target restriction).toNat
    match S.integrand.tables.get? range.table with
    | some table =>
        ((table.value? entity (range.pointAt point) dof).map S.data.literal).getD 0
    | none => 0

def weight (point : Nat) : K :=
  if S.integral.type.hasStaticQuadrature ∧ S.integrand.needWeights then
    match S.integral.rules.get? S.pointCount with
    | some rule => (rule.weights[point]?.map S.data.literal).getD 0
    | none => 0
  else S.data.weight S.pointCount (word point)

/-- The number of a coordinate of a vertex. -/
def coordinateIndex (vertex : Index) (component : Nat) : Index :=
  word S.target.options.geometricDimension * vertex + word component

/-- The sum over a table of table values times the values `f` of the degrees of freedom. -/
def expanded (t : ModifiedTerminal) (range : TableRange) (point : Nat) (f : Index → K) : K :=
  ∑ dof ∈ Finset.range (range.past - range.first),
    f (word (range.first + dof)) * S.tableEntry range t.restriction point dof

/-- The value of a terminal at a point. -/
def terminalValue (t : ModifiedTerminal) (range? : Option TableRange) (point : Nat) : K :=
  if range?.any (·.type = .zeros) then 0
  else
    match t.terminal, range? with
    | .coefficient number, none => S.data.coefficient (word number) (word t.component)
    | .coefficient number, some range =>
        if range.type = .quadrature then
          S.data.coefficient (word number) (word (range.first + point))
        else S.expanded t range point (S.data.coefficient (word number))
    | .spatialCoordinate, none =>
        S.data.coordinate (S.coordinateIndex S.data.vertex t.component)
    | .spatialCoordinate, some range =>
        S.expanded t range point fun vertex =>
          S.data.coordinate (S.coordinateIndex vertex t.component)
    | .jacobian, some range =>
        -- Components of the Jacobian are numbered row by row.
        let row := t.component / max S.target.options.topologicalDimension 1
        S.expanded t range point fun vertex => S.data.coordinate (S.coordinateIndex vertex row)
    | .facetNormal, _ => S.data.normal (S.target.sideOf t.restriction) (word t.component)
    | .cellVolume, _ => S.data.volume (S.target.sideOf t.restriction)
    | .quadratureWeight, _ => S.weight point
    | .float value, _ => S.data.literal value
    | .int value, _ =>
        match S.target.dialect with
        | .c => ((value.toInt : Int) : K)
        | .rust => S.data.literal (Float.ofInt value.toInt)
    | _, _ => 0

/-! ## Expression graphs -/

/-- The value of a node of the expression graph at a point. -/
def nodeValue (point : Nat) (id : NodeId) : K :=
  match S.integrand.graph.get? id with
  | some (.terminal t) => S.terminalValue t (S.integrand.rangeOf id) point
  | some (.operator op operands) =>
      S.data.operate op
        (operands.map fun operand => if operand < id then nodeValue point operand else 0)
  | none => 0
termination_by id

/-! ## Contributions -/

/-- What an axis of a contribution contributes at a degree of freedom, which is nothing outside of
the block. -/
def axisValue (axis : Kernel.Axis) (point dof : Nat) : K :=
  if axis.bounds.1 ≤ dof ∧ dof < axis.bounds.2 then
    match axis.range.type, S.integrand.arguments[axis.argument]? with
    | .quadrature, _ => if dof = point then 1 else 0
    | .ones, _ => 1
    | _, some t => S.tableEntry axis.range t.restriction point (dof - axis.range.first)
    | _, none => 0
  else 0

def factorValue (point : Nat) (factor : NodeId) : K :=
  if S.integrand.graph.isLiteralOne factor then 1 else S.nodeValue point factor

/-- What a contribution adds to the entry of the element tensor with a multi-index. -/
def contributionValue (block : DofBlock) (point : Nat) (contribution : BlockContribution)
    (multiIndex : List Nat) : K :=
  S.factorValue point contribution.factor *
    (List.zipWith (fun axis dof => S.axisValue axis point dof) (Kernel.axes block contribution)
      multiIndex).prod

/-- What the blocks of a partition add at a point. -/
def partitionValue (partition : Partition) (point : Nat) (multiIndex : List Nat) : K :=
  ((S.integrand.contributions.get partition).map fun (block, contributions) =>
    (contributions.map fun contribution =>
      S.contributionValue block point contribution multiIndex).sum).sum

def integrandValue (multiIndex : List Nat) : K :=
  S.partitionValue .piecewise 0 multiIndex +
    ∑ point ∈ Finset.range S.pointCount, S.partitionValue .varying point multiIndex

end Setting

/-- The entry of the element tensor with a multi-index. -/
def KernelData.tensorEntry {K : Type} [Field K] (D : KernelData K) (target : Target)
    (integral : Integral) (multiIndex : List Nat) : K :=
  (integral.integrands.entries.map fun (pointCount, integrand) =>
    Setting.integrandValue ⟨D, target, integral, pointCount, integrand⟩ multiIndex).sum

end ElementKernel
