import ElementKernel.Element.Info
import ElementKernel.Interchange.Json

/-!
The JSON form of elements.
-/

namespace ElementKernel

open JsonFormat (required ifPresent mismatch)

def CellShape.jsonName : CellShape → String
  | .vertex => "Vertex"
  | .interval => "Interval"
  | .triangle => "Triangle"
  | .quadrilateral => "Quadrilateral"
  | .tetrahedron => "Tetrahedron"
  | .hexahedron => "Hexahedron"

instance : JsonFormat CellShape where
  encode cell := .string cell.jsonName
  decode := JsonValue.named CellShape.all CellShape.jsonName

def Mapping.jsonName : Mapping → String
  | .affine => "Affine"
  | .contravariantPiola => "ContravariantPiola"
  | .covariantPiola => "CovariantPiola"

instance : JsonFormat Mapping where
  encode mapping := .string mapping.jsonName
  decode :=
    JsonValue.named [.affine, .contravariantPiola, .covariantPiola] Mapping.jsonName

instance : JsonFormat ComponentElement where
  encode c := .object [("mapping", encode c.mapping), ("offset", encode c.offset)]
  decode := JsonValue.record ["mapping", "offset"] fun
    | [mapping, offset] => return ⟨← required mapping, ← required offset⟩
    | _ => mismatch

instance : JsonFormat ElementInfo where
  encode info := .object
    [("cell", encode info.cell),
      ("space_dimension", encode info.spaceDimension),
      ("num_sub_elements", encode info.subElementCount),
      ("components", encode info.components)]
  decode := JsonValue.record ["cell", "space_dimension", "num_sub_elements", "components"] fun
    | [cell, space, subElements, components] =>
        return ⟨← required cell, ← required space, ← required subElements, ← required components⟩
    | _ => mismatch

namespace ElementDescriptor

/-- The cell and the degree of an element of a family. -/
def encodeFamily (name : String) (cell : CellShape) (degree : Nat) : JsonValue :=
  .tagged name (.object [("cell", encode cell), ("degree", encode degree)])

def decodeFamily (make : CellShape → Nat → ElementDescriptor) (content : JsonValue) :
    Decoded ElementDescriptor := do
  match ← content.members? ["cell", "degree"] with
  | [cell, degree] => return make (← required cell) (← required degree)
  | _ => mismatch

def decodeReal (content : JsonValue) : Decoded ElementDescriptor := do
  match ← content.members? ["cell"] with
  | [cell] => return .real (← required cell)
  | _ => mismatch

/-- An element of a family, by the name of the family. -/
def decodeSimple (name : String) (content : JsonValue) : Decoded ElementDescriptor :=
  match name with
  | "Lagrange" => decodeFamily .lagrange content
  | "DiscontinuousLagrange" => decodeFamily .discontinuousLagrange content
  | "RaviartThomas" => decodeFamily .raviartThomas content
  | "BrezziDouglasMarini" => decodeFamily .brezziDouglasMarini content
  | "Nedelec" => decodeFamily .nedelec content
  | "Quadrature" => decodeFamily .quadrature content
  | "Real" => decodeReal content
  | _ => mismatch

mutual

def toJson : ElementDescriptor → JsonValue
  | .lagrange cell degree => encodeFamily "Lagrange" cell degree
  | .discontinuousLagrange cell degree => encodeFamily "DiscontinuousLagrange" cell degree
  | .raviartThomas cell degree => encodeFamily "RaviartThomas" cell degree
  | .brezziDouglasMarini cell degree => encodeFamily "BrezziDouglasMarini" cell degree
  | .nedelec cell degree => encodeFamily "Nedelec" cell degree
  | .real cell => .tagged "Real" (.object [("cell", encode cell)])
  | .quadrature cell degree => encodeFamily "Quadrature" cell degree
  | .vector base copies =>
      .tagged "Vector" (.object [("base", base.toJson), ("dim", encode copies)])
  | .mixed elements => .tagged "Mixed" (.array (toJsonAll elements))

def toJsonAll : List ElementDescriptor → List JsonValue
  | [] => []
  | element :: rest => element.toJson :: toJsonAll rest

end

mutual

def ofJson : JsonValue → Decoded ElementDescriptor
  | .object [("Vector", .object members)] => do
      return .vector (← ofMember "base" members) (← ifPresent (members.lookup "dim"))
  | .object [("Mixed", .array items)] => .mixed <$> ofJsonAll items
  | .object [(name, content)] => decodeSimple name content
  | _ => mismatch

/-- The element in the first member of the given name. -/
def ofMember (name : String) : List (String × JsonValue) → Decoded ElementDescriptor
  | [] => mismatch
  | (key, json) :: rest => if name = key then ofJson json else ofMember name rest

def ofJsonAll : List JsonValue → Decoded (List ElementDescriptor)
  | [] => .ok []
  | json :: rest => do return (← ofJson json) :: (← ofJsonAll rest)

end

instance : JsonFormat ElementDescriptor where
  encode := toJson
  decode := ofJson

end ElementDescriptor

end ElementKernel
