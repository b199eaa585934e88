import ElementKernel.Interchange.Element
import ElementKernel.Monomial.Measure

/-!
The JSON form of monomials and forms.
-/

namespace ElementKernel

open JsonFormat (required ifPresent mismatch)

instance : JsonFormat ComponentKey where
  encode
    | .fixed value => .tagged "Fixed" (encode value)
    | .free number => .tagged "Free" (encode number)
  decode json := do
    match ← json.alternative? with
    | ("Fixed", content) => .fixed <$> decode content
    | ("Free", content) => .free <$> decode content
    | _ => mismatch

instance : JsonFormat FactorOrigin where
  encode
    | .argument number => .tagged "Argument" (encode number)
    | .coefficient number => .tagged "Coefficient" (encode number)
  decode json := do
    match ← json.alternative? with
    | ("Argument", content) => .argument <$> decode content
    | ("Coefficient", content) => .coefficient <$> decode content
    | _ => mismatch

def Restriction.jsonName : Restriction → String
  | .plus => "Plus"
  | .minus => "Minus"

instance : JsonFormat Restriction where
  encode restriction := .string restriction.jsonName
  decode := JsonValue.named [.plus, .minus] Restriction.jsonName

instance : JsonFormat MonomialFactor where
  encode factor := .object
    [("element", encode factor.element),
      ("origin", encode factor.origin),
      ("components", encode factor.components),
      ("derivatives", encode factor.derivatives),
      ("restriction", encode factor.restriction)]
  decode := JsonValue.record ["element", "origin", "components", "derivatives", "restriction"] fun
    | [element, origin, components, derivatives, restriction] =>
        return ⟨← required element, ← required origin, ← required components,
          ← required derivatives, ← ifPresent restriction⟩
    | _ => mismatch

instance : JsonFormat RawMonomial where
  encode monomial := .object
    [("coefficient", encode monomial.coefficient), ("factors", encode monomial.factors)]
  decode := JsonValue.record ["coefficient", "factors"] fun
    | [coefficient, factors] => return ⟨← required coefficient, ← required factors⟩
    | _ => mismatch

def IntegralType.jsonName : IntegralType → String
  | .cell => "Cell"
  | .exteriorFacet => "ExteriorFacet"
  | .interiorFacet => "InteriorFacet"
  | .vertex => "Vertex"
  | .custom => "Custom"
  | .cutcell => "Cutcell"
  | .interface => "Interface"
  | .overlap => "Overlap"
  | .expression => "Expression"

instance : JsonFormat IntegralType where
  encode type := .string type.jsonName
  decode := JsonValue.named IntegralType.all IntegralType.jsonName

instance : JsonFormat Measure where
  encode measure := .object
    [("integral_type", encode measure.integralType), ("subdomain_id", encode measure.subdomain)]
  decode := JsonValue.record ["integral_type", "subdomain_id"] fun
    | [type, subdomain] => return ⟨← required type, ← ifPresent subdomain⟩
    | _ => mismatch

instance : JsonFormat MonomialIntegral where
  encode integral := .object
    [("measure", encode integral.measure), ("monomials", encode integral.monomials)]
  decode := JsonValue.record ["measure", "monomials"] fun
    | [measure, monomials] => return ⟨← required measure, ← required monomials⟩
    | _ => mismatch

instance : JsonFormat MonomialForm where
  encode form := .object [("integrals", encode form.integrals)]
  decode := JsonValue.record ["integrals"] fun
    | [integrals] => return ⟨← required integrals⟩
    | _ => mismatch

end ElementKernel
