import ElementKernel.Element.Info
import ElementKernel.Quadrature.PointCount

/-!
Element metadata from the dimension counts of the families on their reference cells.
-/

namespace ElementKernel

/-- The binomial coefficient of `base + k` over `k`, by multiplying and then dividing in turn. -/
def risingBinomial (base : Nat) : Nat → Checked Nat
  | 0 => .ok 1
  | k + 1 => do
      let previous ← risingBinomial base k
      return (← Word.mul previous (base + (k + 1))) / (k + 1)

/-- The binomial coefficient of `n` over `k`, for `k ≤ n`. -/
def binomial (n k : Nat) : Checked Nat := risingBinomial (n - k) k

/-- The dimension of the polynomials of a degree: of total degree on a simplex and of that degree in
each coordinate on any other cell. -/
def polynomialDimension (cell : CellShape) (degree : Nat) : Checked Nat := do
  if cell.isSimplex then
    binomial (← Word.add degree cell.dimension) cell.dimension
  else
    Word.pow (← Word.add degree 1) cell.dimension

namespace ElementInfo

/-- An element without sub-elements. -/
def simple (cell : CellShape) (spaceDimension valueDimension : Nat) (mapping : Mapping) :
    ElementInfo :=
  ⟨cell, spaceDimension, 1, List.replicate valueDimension ⟨mapping, 0⟩⟩

/-- A vector valued element, whose dimension is known on triangles and tetrahedra only. -/
def vectorValued (family : String) (cell : CellShape) (degree : Nat) (mapping : Mapping)
    (onTriangle onTetrahedron : Checked Nat) : Attempt ElementError ElementInfo := do
  if degree = 0 then
    Attempt.reject (.invalidDegree family degree)
  else
    match cell with
    | .triangle => return simple cell (← onTriangle) cell.dimension mapping
    | .tetrahedron => return simple cell (← onTetrahedron) cell.dimension mapping
    | _ => Attempt.reject (.unsupportedCell family cell)

/-- The components of elements side by side, the first of them starting at `start`. -/
def sideBySide : Nat → List ElementInfo → List ComponentElement
  | _, [] => []
  | start, info :: rest =>
      info.components.map (fun c => { c with offset := start + c.offset }) ++
        sideBySide (start + info.valueDimension) rest

/-- Copies of a scalar element, one per component. -/
def copies (base : ElementInfo) (count : Option Nat) : Attempt ElementError ElementInfo :=
  match base.components with
  | [only] => do
      let dimension := count.getD base.geometricDimension
      let spaceDimension ← Word.mul dimension base.spaceDimension
      return ⟨base.cell, spaceDimension, dimension,
        (List.range dimension).map fun offset => ⟨only.mapping, offset⟩⟩
  | _ => Attempt.reject .nonScalarVectorBase

/-- Elements on one cell side by side. -/
def combine (parts : List ElementInfo) : Attempt ElementError ElementInfo :=
  match parts with
  | [] => Attempt.reject .emptyMixedElement
  | first :: _ =>
      match parts.find? (·.cell ≠ first.cell) with
      | some other => Attempt.reject (.cellMismatch first.cell other.cell)
      | none => do
          let spaceDimension ← Word.sum (parts.map (·.spaceDimension))
          return ⟨first.cell, spaceDimension, parts.length, sideBySide 0 parts⟩

end ElementInfo

namespace ElementDescriptor

mutual

/-- The metadata of the element on its reference cell. -/
def info : ElementDescriptor → Attempt ElementError ElementInfo
  | .lagrange cell degree =>
      if degree = 0 then Attempt.reject (.invalidDegree (lagrange cell degree).family degree)
      else do return .simple cell (← polynomialDimension cell degree) 1 .affine
  | .discontinuousLagrange cell degree => do
      return .simple cell (← polynomialDimension cell degree) 1 .affine
  | .raviartThomas cell degree =>
      ElementInfo.vectorValued (raviartThomas cell degree).family cell degree
        .contravariantPiola
        (Word.product [degree, degree + 2])
        ((· / 2) <$> Word.product [degree, degree + 1, degree + 3])
  | .brezziDouglasMarini cell degree =>
      ElementInfo.vectorValued (brezziDouglasMarini cell degree).family cell degree
        .contravariantPiola
        (Word.product [degree + 1, degree + 2])
        ((· / 2) <$> Word.product [degree + 1, degree + 2, degree + 3])
  | .nedelec cell degree =>
      ElementInfo.vectorValued (nedelec cell degree).family cell degree
        .covariantPiola
        (Word.product [degree, degree + 2])
        ((· / 2) <$> Word.product [degree, degree + 2, degree + 3])
  | .real cell => .ok (.simple cell 1 1 .affine)
  | .quadrature cell degree => do
      let perDirection ← Quadrature.pointsPerDirection degree
      return .simple cell (← Word.pow perDirection cell.dimension) 1 .affine
  | .vector base count => do (← base.info).copies count
  | .mixed elements => do ElementInfo.combine (← infos elements)

def infos : List ElementDescriptor → Attempt ElementError (List ElementInfo)
  | [] => .ok []
  | element :: rest => do
      let first ← element.info
      return first :: (← infos rest)

end

/-- The provider of the metadata above. -/
def reference : ElementProvider := fun descriptor => do
  return (← descriptor.info).toFiniteElement

end ElementDescriptor

end ElementKernel
