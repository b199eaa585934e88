import ElementKernel.Fault

/-!
Quadrature rules as points and weights.

The points are the rows of a matrix, which is stored column by column.
-/

namespace ElementKernel

structure PointMatrix where
  rows : Nat
  columns : Nat
  entries : List Float
  length_entries : entries.length = rows * columns

namespace PointMatrix

/-- The matrix with the entries `f row column`.  Without rows there are no columns to go through. -/
def ofFunction (rows columns : Nat) (f : Nat → Nat → Float) : PointMatrix where
  rows
  columns
  entries :=
    if rows = 0 then []
    else (List.range columns).flatMap fun j => (List.range rows).map fun i => f i j
  length_entries := by
    split
    next h => simp [h]
    next =>
      induction columns with
      | zero => simp
      | succ n ih => simp [List.range_succ, List.flatMap_append, ih, Nat.mul_succ]

/-- The matrix with the given rows, where an entry that a row lacks is zero. -/
def ofRows (columns : Nat) (points : List (List Float)) : PointMatrix :=
  ofFunction points.length columns fun i j => ((points[i]?).bind (·[j]?)).getD 0

def row (m : PointMatrix) (i : Nat) : List Float :=
  (List.range m.columns).filterMap fun j => m.entries[j * m.rows + i]?

theorem length_row (m : PointMatrix) {i : Nat} (hi : i < m.rows) :
    (m.row i).length = m.columns := by
  have hentry : ∀ j ∈ List.range m.columns, (m.entries[j * m.rows + i]?).isSome := by
    intro j hj
    have hlt : j * m.rows + i < m.entries.length := calc
      j * m.rows + i < (j + 1) * m.rows := by rw [Nat.succ_mul]; omega
      _ ≤ m.columns * m.rows := Nat.mul_le_mul_right _ (List.mem_range.1 hj)
      _ = m.entries.length := by rw [m.length_entries, Nat.mul_comm]
    simp [hlt]
  exact (List.filterMap_length_eq_length.2 hentry).trans List.length_range

end PointMatrix

structure QuadratureRule where
  points : PointMatrix
  weights : List Float

namespace QuadratureRule

/-- A rule of given parts; there is one weight per point. -/
def make (points : PointMatrix) (weights : List Float) : Checked QuadratureRule := do
  Checked.sameLength .rulePoints points.rows weights.length
  return ⟨points, weights⟩

def pointCount (rule : QuadratureRule) : Nat := rule.weights.length

def dimension (rule : QuadratureRule) : Nat := rule.points.columns

def pointAt (rule : QuadratureRule) (i : Nat) : Checked (List Float) :=
  if i < rule.points.rows then .ok (rule.points.row i) else .error .rowOutOfBounds

/-- All coordinates of the first point, then all of the second, and so on.  Without entries there
may be any number of rows, all of them empty. -/
def flattenedPoints (rule : QuadratureRule) : List Float :=
  if rule.points.entries.isEmpty then []
  else (List.range rule.points.rows).flatMap rule.points.row

/-- Rows without entries do not show in the flattened points. -/
theorem flattenedPoints_eq (rule : QuadratureRule) :
    rule.flattenedPoints = ((List.range rule.points.rows).map rule.points.row).flatten := by
  unfold flattenedPoints
  rw [← List.flatMap_def]
  split
  next hempty =>
    have hrow : ∀ i, rule.points.row i = [] := by
      intro i
      simp [PointMatrix.row, List.isEmpty_iff.1 hempty]
    simp [hrow]
  next => rfl

theorem length_flattenedPoints (rule : QuadratureRule) :
    rule.flattenedPoints.length = rule.points.rows * rule.dimension := by
  have hrow : ∀ i ∈ List.range rule.points.rows, (rule.points.row i).length = rule.dimension :=
    fun i hi => rule.points.length_row (List.mem_range.1 hi)
  rw [flattenedPoints_eq, ← List.flatMap_def, List.length_flatMap, List.map_congr_left hrow,
    List.map_const', List.length_range, List.sum_replicate_nat]

end QuadratureRule

end ElementKernel
