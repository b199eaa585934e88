import ElementKernel.Interchange.Json
import ElementKernel.Quadrature.Reference

/-!
The JSON form of quadrature rules.

The matrix of points is an array of its entries column by column, its rows and its columns.  Reading
one multiplies rows and columns, which may leave the machine word.
-/

namespace ElementKernel

open JsonFormat (required mismatch)

instance : JsonFormat PointMatrix where
  encode m := encode (m.entries, m.rows, m.columns)
  decode json := do
    let (entries, rows, columns) : List Float × Nat × Nat ← decode json
    let _ ← Word.mul rows columns
    if h : entries.length = rows * columns then return ⟨rows, columns, entries, h⟩ else mismatch

/-- The number of weights is not checked against the points. -/
instance : JsonFormat QuadratureRule where
  encode rule := .object [("points", encode rule.points), ("weights", encode rule.weights)]
  decode := JsonValue.record ["points", "weights"] fun
    | [points, weights] => return ⟨← required points, ← required weights⟩
    | _ => mismatch

instance : JsonFormat ReferenceQuadrature where
  encode provider := .object [("max_degree", encode provider.maxDegree)]
  decode := JsonValue.record ["max_degree"] fun
    | [maxDegree] => return ⟨← required maxDegree⟩
    | _ => mismatch

end ElementKernel
