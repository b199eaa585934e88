import ElementKernel.Index.Arena
import ElementKernel.Interchange.Json

/-!
The JSON form of indices.
-/

namespace ElementKernel

open JsonFormat (required ifPresent mismatch)

def IndexRole.jsonName : IndexRole → String
  | .fixed => "Fixed"
  | .primary => "Primary"
  | .secondary => "Secondary"
  | .internal => "Internal"
  | .external => "External"

instance : JsonFormat IndexRole where
  encode role := .string role.jsonName
  decode := JsonValue.named IndexRole.all IndexRole.jsonName

/-- What is read is not checked, so a fixed index may come with any range. -/
instance : JsonFormat MonomialIndex where
  encode index := .object
    [("role", encode index.role), ("range", encode index.range), ("id", encode index.id)]
  decode := JsonValue.record ["role", "range", "id"] fun
    | [role, range, id] => return ⟨← ifPresent role, ← required range, ← ifPresent id⟩
    | _ => mismatch

instance : JsonFormat IndexArena where
  encode arena := .object [("indices", encode arena.indices)]
  decode := JsonValue.record ["indices"] fun
    | [indices] => return ⟨← required indices⟩
    | _ => mismatch

end ElementKernel
