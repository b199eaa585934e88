import ElementKernel.Integrand.Integral
import ElementKernel.Interchange.Monomial
import ElementKernel.Interchange.Quadrature
import ElementKernel.Kernel.Generation

/-!
The JSON form of integrals and of the options of their kernels.

Reading checks nothing beyond types, so an integral that is read may contradict itself.
-/

namespace ElementKernel

open JsonFormat (required ifPresent mismatch)

def Operator.jsonName : Operator → String
  | .sum => "Sum"
  | .product => "Product"
  | .division => "Division"
  | .power => "Power"
  | .abs => "Abs"
  | .sqrt => "Sqrt"
  | .exp => "Exp"
  | .ln => "Ln"
  | .cos => "Cos"
  | .sin => "Sin"
  | .tan => "Tan"
  | .acos => "Acos"
  | .asin => "Asin"
  | .atan => "Atan"
  | .atan2 => "Atan2"
  | .cosh => "Cosh"
  | .sinh => "Sinh"
  | .tanh => "Tanh"
  | .erf => "Erf"
  | .besselJ => "BesselJ"
  | .besselY => "BesselY"
  | .besselI => "BesselI"
  | .besselK => "BesselK"
  | .minValue => "MinValue"
  | .maxValue => "MaxValue"
  | .eq => "Eq"
  | .ne => "Ne"
  | .lt => "Lt"
  | .le => "Le"
  | .gt => "Gt"
  | .ge => "Ge"
  | .andCondition => "AndCondition"
  | .orCondition => "OrCondition"
  | .notCondition => "NotCondition"
  | .conditional => "Conditional"

instance : JsonFormat Operator where
  encode op := .string op.jsonName
  decode := JsonValue.named Operator.all Operator.jsonName

/-- A terminal that a number belongs to, under the name of the number. -/
def Terminal.decodeNumbered (make : Nat → Terminal) (field : String) (content : JsonValue) :
    Decoded Terminal := do
  match ← content.members? [field] with
  | [number] => return make (← required number)
  | _ => mismatch

instance : JsonFormat Terminal where
  encode
    | .argument number => .tagged "Argument" (.object [("number", encode number)])
    | .coefficient number => .tagged "Coefficient" (.object [("count", encode number)])
    | .spatialCoordinate => .string "SpatialCoordinate"
    | .jacobian => .string "Jacobian"
    | .facetNormal => .string "FacetNormal"
    | .cellVolume => .string "CellVolume"
    | .quadratureWeight => .string "QuadratureWeight"
    | .float value => .tagged "FloatValue" (encode value)
    | .int value => .tagged "IntValue" (encode value)
    | .zero => .string "Zero"
  decode json := do
    match ← json.alternative? with
    | ("Argument", content) => Terminal.decodeNumbered .argument "number" content
    | ("Coefficient", content) => Terminal.decodeNumbered .coefficient "count" content
    | ("SpatialCoordinate", .null) => return .spatialCoordinate
    | ("Jacobian", .null) => return .jacobian
    | ("FacetNormal", .null) => return .facetNormal
    | ("CellVolume", .null) => return .cellVolume
    | ("QuadratureWeight", .null) => return .quadratureWeight
    | ("FloatValue", content) => .float <$> decode content
    | ("IntValue", content) => .int <$> decode content
    | ("Zero", .null) => return .zero
    | _ => mismatch

instance : JsonFormat ModifiedTerminal where
  encode t := .object
    [("terminal", encode t.terminal),
      ("component", encode t.component),
      ("local_derivatives", encode t.localDerivatives),
      ("restriction", encode t.restriction)]
  decode := JsonValue.record ["terminal", "component", "local_derivatives", "restriction"] fun
    | [terminal, component, localDerivatives, restriction] =>
        return ⟨← required terminal, ← required component, ← required localDerivatives,
          ← ifPresent restriction⟩
    | _ => mismatch

instance : JsonFormat GraphNode where
  encode
    | .terminal t => .tagged "Terminal" (encode t)
    | .operator op operands =>
        .tagged "Operator" (.object [("op", encode op), ("operands", encode operands)])
  decode json := do
    match ← json.alternative? with
    | ("Terminal", content) => .terminal <$> decode content
    | ("Operator", content) =>
        match ← content.members? ["op", "operands"] with
        | [op, operands] => return .operator (← required op) (← required operands)
        | _ => mismatch
    | _ => mismatch

instance : JsonFormat ExpressionGraph where
  encode graph := .object [("nodes", encode graph.nodes)]
  decode := JsonValue.record ["nodes"] fun
    | [nodes] => return ⟨← required nodes⟩
    | _ => mismatch

def TableType.jsonName : TableType → String
  | .zeros => "Zeros"
  | .ones => "Ones"
  | .quadrature => "Quadrature"
  | .piecewise => "Piecewise"
  | .uniform => "Uniform"
  | .fixed => "Fixed"
  | .varying => "Varying"

instance : JsonFormat TableType where
  encode type := .string type.jsonName
  decode := JsonValue.named TableType.all TableType.jsonName

instance : JsonFormat TableRange where
  encode range := .object
    [("table", encode range.table),
      ("begin", encode range.first),
      ("end", encode range.past),
      ("table_type", encode range.type)]
  decode := JsonValue.record ["table", "begin", "end", "table_type"] fun
    | [table, first, past, type] =>
        return ⟨← required table, ← required first, ← required past, ← required type⟩
    | _ => mismatch

instance : JsonFormat TableShape where
  encode shape := encode (shape.entities, shape.points, shape.dofs)
  decode json := do
    let (entities, points, dofs) ← decode json
    return ⟨entities, points, dofs⟩

instance : JsonFormat ElementTable where
  encode table := .object [("shape", encode table.shape), ("values", encode table.values)]
  decode := JsonValue.record ["shape", "values"] fun
    | [shape, values] => return ⟨← required shape, ← required values⟩
    | _ => mismatch

def Partition.jsonName : Partition → String
  | .piecewise => "Piecewise"
  | .varying => "Varying"

instance : JsonFormat Partition where
  encode partition := .string partition.jsonName
  decode := JsonValue.named Partition.all Partition.jsonName

instance : JsonFormat BlockContribution where
  encode c := .object
    [("argument_indices", encode c.arguments),
      ("factor", encode c.factor),
      ("table_ranges", encode c.ranges)]
  decode := JsonValue.record ["argument_indices", "factor", "table_ranges"] fun
    | [arguments, factor, ranges] =>
        return ⟨← required arguments, ← required factor, ← required ranges⟩
    | _ => mismatch

instance : JsonFormat BlockContributions where
  encode c := .object [("piecewise", encode c.piecewise), ("varying", encode c.varying)]
  decode := JsonValue.record ["piecewise", "varying"] fun
    | [piecewise, varying] => return ⟨← required piecewise, ← required varying⟩
    | _ => mismatch

instance : JsonFormat Integrand where
  encode integrand := .object
    [("graph", encode integrand.graph),
      ("partitions", encode integrand.partitions),
      ("table_ranges", encode integrand.tableRanges),
      ("modified_arguments", encode integrand.arguments),
      ("block_contributions", encode integrand.contributions),
      ("unique_tables", encode integrand.tables),
      ("need_weights", encode integrand.needWeights),
      ("need_points", encode integrand.needPoints)]
  decode := JsonValue.record ["graph", "partitions", "table_ranges", "modified_arguments",
      "block_contributions", "unique_tables", "need_weights", "need_points"] fun
    | [graph, partitions, ranges, arguments, contributions, tables, weights, points] =>
        return {
          graph := ← required graph
          partitions := ← required partitions
          tableRanges := ← required ranges
          arguments := ← required arguments
          contributions := ← required contributions
          tables := ← required tables
          needWeights := ← required weights
          needPoints := ← required points }
    | _ => mismatch

/-- An integral from the items of an array. -/
def Integral.ofItems : List (Option JsonValue) → Decoded Integral
  | [type, shape, rules, integrands] =>
      return ⟨← required type, ← required shape, ← required rules, ← required integrands⟩
  | _ => mismatch

/-- An integral from the members of an object, which are read in the order of their names.  A member
that is missing shows after the others are read. -/
def Integral.ofMembers : List (Option JsonValue) → Decoded Integral
  | [integrands, type, rules, shape] => do
      let integrands ← integrands.mapM decode
      let type ← type.mapM decode
      let rules ← rules.mapM decode
      let shape ← shape.mapM decode
      return ⟨← type, ← shape, ← rules, ← integrands⟩
  | _ => mismatch

instance : JsonFormat Integral where
  encode integral := .object
    [("integral_type", encode integral.type),
      ("tensor_shape", encode integral.tensorShape),
      ("quadrature_rules", encode integral.rules),
      ("expr_irs", encode integral.integrands)]
  decode
    | .object members =>
        JsonValue.record ["expr_irs", "integral_type", "quadrature_rules", "tensor_shape"]
          Integral.ofMembers (.object members)
    | json =>
        JsonValue.record ["integral_type", "tensor_shape", "quadrature_rules", "expr_irs"]
          Integral.ofItems json

instance : JsonFormat TargetOptions where
  encode options := .object
    [("geometric_dimension", encode options.geometricDimension),
      ("topological_dimension", encode options.topologicalDimension),
      ("float_precision", encode options.floatDigits)]
  decode := JsonValue.record ["geometric_dimension", "topological_dimension", "float_precision"] fun
    | [geometric, topological, digits] =>
        return ⟨← required geometric, ← required topological, ← required digits⟩
    | _ => mismatch

instance : JsonFormat KernelOptions where
  encode options := .object [("alignas", encode options.alignment)]
  decode := JsonValue.record ["alignas"] fun
    | [alignment] => return ⟨← ifPresent alignment⟩
    | _ => mismatch

end ElementKernel
