import ElementKernel.Proofs.Acceptable
import ElementKernel.Proofs.Execution.Consistency
import ElementKernel.Proofs.Execution.Positions
import ElementKernel.Proofs.Execution.Runs

/-!
# What the code of an integrand reads

The code of an integrand runs where the inputs of the kernel and the tables are visible.  `Provides`
collects what is known about these names; it survives the declaration of further names, and the
lemmas below evaluate the expressions that read an input or a table.
-/

namespace ElementKernel

open Execution

/-- An array of numbers that the caller passes. -/
def Execution.Cell.vector {K : Type} [Zero K] (f : Index → K) : Cell K :=
  .input fun indices =>
    match indices with
    | [i] => f i
    | _ => 0

/-- An array of arrays that the caller passes. -/
def Execution.Cell.matrix {K : Type} [Zero K] (f : Index → Index → K) : Cell K :=
  .input fun indices =>
    match indices with
    | [i, j] => f i j
    | _ => 0

/-- A table that is declared with its values. -/
def Execution.Cell.table {K : Type} [Field K] (D : Interpretation K) (sizes : List Nat)
    (values : List Float) : Cell K :=
  .array true sizes fun k => values[k]?.map D.literal

theorem TableShape.lt_limit {shape : TableShape} (h : Word.ProductFits 1 shape.toList)
    (hentities : 0 < shape.entities) (hpoints : 0 < shape.points) :
    shape.points < Word.limit ∧ shape.dofs < Word.limit := by
  obtain ⟨-, hrows, hall, -⟩ := h
  rw [Nat.one_mul] at hrows hall
  exact ⟨(Nat.le_mul_of_pos_left _ hentities).trans_lt hrows,
    (Nat.le_mul_of_pos_left _ (Nat.mul_pos hentities hpoints)).trans_lt hall⟩

/-- Tables have as many values as their shapes ask for, and the shapes are machine words. -/
def Integrand.TablesFit (integrand : Integrand) : Prop :=
  ∀ name table, integrand.tables.get? name = some table →
    table.values.length = table.shape.entities * table.shape.points * table.shape.dofs ∧
      Word.ProductFits 1 table.shape.toList

namespace Setting

variable {K : Type} [Field K] {S : Setting K} {L L' : Locals K}

/-- The names of the inputs and tables that the code of an integrand may read. -/
structure Provides (S : Setting K) (L : Locals K) : Prop where
  coefficients : L "w" = some (.matrix S.data.coefficient)
  coordinates : L "coordinate_dofs" = some (.vector S.data.coordinate)
  normal : S.target.integralType = .exteriorFacet ∨ S.target.integralType = .interiorFacet →
    ∀ restriction name, S.target.cellSymbol "n" restriction = .symbol name →
      L name = some (.vector (S.data.normal (S.target.sideOf restriction)))
  volume : ∀ restriction name, S.target.cellSymbol "volume" restriction = .symbol name →
    L name = some (.scalar (S.data.volume (S.target.sideOf restriction)))
  entity : ∀ restriction name, S.target.entity restriction = .symbol name →
    L name = some (.number (S.data.entity S.target restriction))
  weights : ∃ cell, L (Kernel.weightsName S.pointCount) = some cell ∧
    ∀ point < S.pointCount, cell.read [word point] = some (S.weight point)
  tables : ∀ name table, S.integrand.tables.get? name = some table →
    L name = some (.table S.data.toInterpretation table.shape.toList table.values)

theorem Provides.extend (h : S.Provides L) (hextends : L.Extends L') : S.Provides L' where
  coefficients := hextends _ _ h.coefficients
  coordinates := hextends _ _ h.coordinates
  normal htype restriction name hname := hextends _ _ (h.normal htype restriction name hname)
  volume restriction name hname := hextends _ _ (h.volume restriction name hname)
  entity restriction name hname := hextends _ _ (h.entity restriction name hname)
  weights :=
    let ⟨cell, hcell, hread⟩ := h.weights
    ⟨cell, hextends _ _ hcell, hread⟩
  tables name table htable := hextends _ _ (h.tables name table htable)

/-- The counter of the quadrature loop stands at a point. -/
def AtPoint (S : Setting K) (L : Locals K) (point : Nat) : Prop :=
  index L (Kernel.pointIndex S.pointCount) = some (word point)

/-! ## Inputs -/

namespace Provides

variable (h : S.Provides L)

include h

theorem value_coefficient (number : Nat) {dof : Expr} {i : Index} (hdof : index L dof = some i) :
    value S.data.toInterpretation L (Target.coefficientValue number dof) =
      some (S.data.coefficient (word number) i) := by
  have hplace : place L (Target.coefficientValue number dof) = some ("w", [word number, i]) := by
    rw [Target.coefficientValue, Expr.entry, place, place_entry "w" (index_signed number),
      indices_one hdof]
    rfl
  rw [Target.coefficientValue, Expr.entry] at hplace ⊢
  rw [value_access hplace h.coefficients]
  rfl

theorem value_coordinate (component : Nat) {vertex : Expr} {i : Index}
    (hvertex : index L vertex = some i) :
    value S.data.toInterpretation L (S.target.coordinate vertex component) =
      some (S.data.coordinate (S.coordinateIndex i component)) := by
  have hindex := index_add (index_mul (index_signed S.target.options.geometricDimension) hvertex)
    (index_signed (L := L) component)
  have hplace := place_entry "coordinate_dofs" hindex
  rw [Target.coordinate, Expr.entry] at *
  rw [value_access hplace h.coordinates]
  rfl

theorem value_normal (t : ModifiedTerminal)
    (htype : S.target.integralType = .exteriorFacet ∨ S.target.integralType = .interiorFacet) :
    value S.data.toInterpretation L
      (.entry (S.target.cellSymbol "n" t.restriction) (.int (Word.signed t.component))) =
      some (S.data.normal (S.target.sideOf t.restriction) (word t.component)) := by
  obtain ⟨name, hname⟩ : ∃ name, S.target.cellSymbol "n" t.restriction = .symbol name := by
    unfold Target.cellSymbol
    split <;> exact ⟨_, rfl⟩
  have hplace := place_entry name (index_signed (L := L) t.component)
  rw [hname]
  rw [Expr.entry] at hplace ⊢
  rw [value_access hplace (h.normal htype _ _ hname)]
  rfl

theorem value_volume (restriction : Option Restriction) :
    value S.data.toInterpretation L (S.target.cellSymbol "volume" restriction) =
      some (S.data.volume (S.target.sideOf restriction)) := by
  obtain ⟨name, hname⟩ : ∃ name, S.target.cellSymbol "volume" restriction = .symbol name := by
    unfold Target.cellSymbol
    split <;> exact ⟨_, rfl⟩
  rw [hname, value_symbol (h.volume _ _ hname)]

theorem index_entity (restriction : Option Restriction) :
    index L (S.target.entity restriction) = some (S.data.entity S.target restriction) := by
  have hsymbol := h.entity restriction
  unfold Target.entity at hsymbol ⊢
  unfold KernelData.entity at hsymbol ⊢
  cases htype : S.target.integralType <;> simp only [htype] at hsymbol ⊢
  case exteriorFacet | interiorFacet | vertex => exact index_symbol (hsymbol _ rfl)
  all_goals exact index_signed 0

theorem value_weight {point : Nat} (hpoint : point < S.pointCount) (hat : S.AtPoint L point) :
    value S.data.toInterpretation L
      (.entry (.symbol (Kernel.weightsName S.pointCount)) (Kernel.pointIndex S.pointCount)) =
      some (S.weight point) := by
  obtain ⟨cell, hcell, hread⟩ := h.weights
  have hplace := place_entry (Kernel.weightsName S.pointCount) hat
  rw [Expr.entry] at hplace ⊢
  rw [value_access hplace hcell, hread point hpoint]

/-! ## Tables -/

theorem exists_indices {range : TableRange} (restriction : Option Restriction) {point : Nat}
    (hat : range.type ≠ .piecewise → range.type ≠ .fixed → S.AtPoint L point) (e : Expr) :
    ∃ a b i, S.target.tableValue range restriction S.pointCount e =
        .access (.symbol range.table) [a, b, e] ∧
      index L a = some i ∧
      i.toNat = range.entityAt (S.data.entity S.target restriction).toNat ∧
      index L b = some (word (range.pointAt point)) := by
  have hentity := h.index_entity restriction
  unfold Target.tableValue TableRange.entityAt TableRange.pointAt
  cases htype : range.type with
  | uniform => exact ⟨_, _, _, rfl, index_signed 0, rfl, hat (by simp [htype]) (by simp [htype])⟩
  | fixed => exact ⟨_, _, _, rfl, index_signed 0, rfl, index_signed 0⟩
  | piecewise => exact ⟨_, _, _, rfl, hentity, rfl, index_signed 0⟩
  | _ => exact ⟨_, _, _, rfl, hentity, rfl, hat (by simp [htype]) (by simp [htype])⟩

theorem value_tableValue {range : TableRange} {restriction : Option Restriction} {point dof : Nat}
    (hfit : S.integrand.TablesFit) (hcovers : S.Covers range restriction point)
    (hdof : dof < range.past - range.first) {e : Expr} (he : index L e = some (word dof))
    (hat : range.type ≠ .piecewise → range.type ≠ .fixed → S.AtPoint L point) :
    value S.data.toInterpretation L
      (S.target.tableValue range restriction S.pointCount e) =
      some (S.tableEntry range restriction point dof) := by
  obtain ⟨table, htable, hentity, hpoint, hlt, hones⟩ := hcovers dof hdof
  obtain ⟨hlength, hfits⟩ := hfit range.table table htable
  obtain ⟨hpoints, hdofs⟩ :=
    TableShape.lt_limit hfits (Nat.zero_lt_of_lt hentity) (Nat.zero_lt_of_lt hpoint)
  obtain ⟨a, b, i, hread, hi, hi', hj⟩ := h.exists_indices restriction hat e
  have hplace := place_entries range.table (indices_cons hi (indices_pair hj he))
  have hinside : List.Forall₂ (· < ·) _ table.shape.toList :=
    .cons hentity (.cons hpoint (.cons hlt .nil))
  obtain ⟨p, hp⟩ := exists_position hinside
  have hvalue : p < table.values.length := by
    have := position_lt hp
    simpa [TableShape.toList, hlength, Nat.mul_assoc] using this
  rw [hread, value_access hplace (h.tables _ _ htable), Cell.table, Cell.read, List.map_cons,
    List.map_cons, List.map_cons, List.map_nil, hi', toNat_word (hpoint.trans hpoints),
    toNat_word (hlt.trans hdofs), hp]
  unfold tableEntry
  split
  next htype =>
    have hone := hones htype _ (List.getElem_mem hvalue)
    simp [hvalue, hone, S.data.literal_one]
  next => simp [htable, ElementTable.value?, hp, hvalue]

end Provides

end Setting

end ElementKernel
