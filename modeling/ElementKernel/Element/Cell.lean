/-!
Reference cells.
-/

namespace ElementKernel

inductive CellShape where
  | vertex
  | interval
  | triangle
  | quadrilateral
  | tetrahedron
  | hexahedron
  deriving DecidableEq, Repr

namespace CellShape

def all : List CellShape :=
  [.vertex, .interval, .triangle, .quadrilateral, .tetrahedron, .hexahedron]

def name : CellShape → String
  | .vertex => "vertex"
  | .interval => "interval"
  | .triangle => "triangle"
  | .quadrilateral => "quadrilateral"
  | .tetrahedron => "tetrahedron"
  | .hexahedron => "hexahedron"

/-- The topological dimension, which is also the geometric dimension of the cell. -/
def dimension : CellShape → Nat
  | .vertex => 0
  | .interval => 1
  | .triangle | .quadrilateral => 2
  | .tetrahedron | .hexahedron => 3

def vertexCount : CellShape → Nat
  | .vertex => 1
  | .interval => 2
  | .triangle => 3
  | .quadrilateral | .tetrahedron => 4
  | .hexahedron => 8

def facetCount : CellShape → Nat
  | .vertex => 0
  | .interval => 2
  | .triangle => 3
  | .quadrilateral | .tetrahedron => 4
  | .hexahedron => 6

def isSimplex : CellShape → Bool
  | .vertex | .interval | .triangle | .tetrahedron => true
  | .quadrilateral | .hexahedron => false

theorem mem_all (cell : CellShape) : cell ∈ all := by
  cases cell <;> decide

theorem vertexCount_of_isSimplex {cell : CellShape} (h : cell.isSimplex) :
    cell.vertexCount = cell.dimension + 1 := by
  cases cell <;> simp_all [isSimplex, vertexCount, dimension]

end CellShape

end ElementKernel
