import ElementKernel.OrderedMap
import ElementKernel.Word

/-!
JSON values and how data is written as JSON.

A record is an object with one member per field; a record may also be read from the array of its
fields.  Of the fields of an object those that are optional may be missing, and members that are no
fields are ignored.  A value of a type with alternatives is the name of the alternative or an object
whose only member has that name.  What belongs to an alternative by name is always an object.

Reading stops at the first thing that is wrong.  Items are read in order, and whether their number
is right shows at the end.
-/

namespace ElementKernel

inductive JsonValue where
  | null
  | bool (value : Bool)
  | integer (value : Int)
  | float (value : Float)
  | string (value : String)
  | array (items : List JsonValue)
  | object (members : List (String × JsonValue))
  deriving Repr

/-- The error of a value that does not have the form of the type it is read as. -/
structure Mismatch where
  deriving DecidableEq, Repr

/-- What comes out of reading a value of type `α`.  Reading faults where a size it computes leaves
the machine word. -/
abbrev Decoded := Attempt Mismatch

instance : MonadLift Option Decoded := ⟨Attempt.ofOption ⟨⟩⟩

/-- Types with a JSON form. -/
class JsonFormat (α : Type) where
  encode : α → JsonValue
  decode : JsonValue → Decoded α

export JsonFormat (encode decode)

namespace JsonValue

/-- The members of an object by name, nothing for a member that is missing. -/
def members? (names : List String) : JsonValue → Option (List (Option JsonValue))
  | .object members => some (names.map fun name => members.lookup name)
  | _ => none

/-- Reads a record from its fields in the given order, nothing for a field that is missing. -/
def record {α : Type} (names : List String) (read : List (Option JsonValue) → Decoded α) :
    JsonValue → Decoded α
  | .array items => do
      let found ← read ((List.range names.length).map (items[·]?))
      if items.length = names.length then return found else Attempt.reject ⟨⟩
  | json => do read (← json.members? names)

/-- An alternative as its name and what belongs to it. -/
def alternative? : JsonValue → Option (String × JsonValue)
  | .string name => some (name, .null)
  | .object [(name, content)] => some (name, content)
  | _ => none

/-- An alternative that nothing belongs to. -/
def plainName? (json : JsonValue) : Option String :=
  match json.alternative? with
  | some (name, .null) => some name
  | _ => none

/-- The alternative of the given name with what belongs to it. -/
def tagged (name : String) (content : JsonValue) : JsonValue := .object [(name, content)]

/-- The value of a type whose alternatives are told apart by name alone. -/
def named {α : Type} (all : List α) (name : α → String) (json : JsonValue) : Decoded α := do
  let found ← json.plainName?
  all.find? fun a => name a = found

end JsonValue

namespace JsonFormat

/-- The outcome of reading a value of the wrong form. -/
def mismatch {α : Type} : Decoded α := Attempt.reject ⟨⟩

/-- A field that has to be present. -/
def required {α : Type} [JsonFormat α] : Option JsonValue → Decoded α
  | some json => decode json
  | none => mismatch

instance : JsonFormat Bool where
  encode := .bool
  decode
    | .bool b => .ok b
    | _ => mismatch

instance : JsonFormat Nat where
  encode n := .integer n
  decode
    | .integer n => Attempt.ofOption ⟨⟩ n.toNat?
    | _ => mismatch

instance : JsonFormat Int64 where
  encode n := .integer n.toInt
  decode
    | .integer n => if (Int64.ofInt n).toInt = n then .ok (Int64.ofInt n) else mismatch
    | _ => mismatch

/-- A number that is not finite has no JSON form and is written as null. -/
instance : JsonFormat Float where
  encode x := if x.isFinite then .float x else .null
  decode
    | .float x => .ok x
    | .integer n => .ok (Float.ofInt n)
    | _ => mismatch

instance : JsonFormat String where
  encode := .string
  decode
    | .string s => .ok s
    | _ => mismatch

instance {α : Type} [JsonFormat α] : JsonFormat (List α) where
  encode xs := .array (xs.map encode)
  decode
    | .array items => items.mapM decode
    | _ => mismatch

instance {α : Type} [JsonFormat α] : JsonFormat (Option α) where
  encode x := (x.map encode).getD .null
  decode
    | .null => .ok none
    | json => some <$> decode json

instance {α β : Type} [JsonFormat α] [JsonFormat β] : JsonFormat (α × β) where
  encode x := .array [encode x.1, encode x.2]
  decode
    | .array [a, b] => return (← decode a, ← decode b)
    | _ => mismatch

instance {α β γ : Type} [JsonFormat α] [JsonFormat β] [JsonFormat γ] :
    JsonFormat (α × β × γ) where
  encode x := .array [encode x.1, encode x.2.1, encode x.2.2]
  decode
    | .array [a, b, c] => return (← decode a, ← decode b, ← decode c)
    | _ => mismatch

/-- A field that may be missing. -/
def ifPresent {α : Type} [JsonFormat α] : Option JsonValue → Decoded (Option α)
  | none => .ok none
  | some json => decode json

/-- A number as the key of a member: its digits, without a zero in front. -/
def numberKey? (key : String) : Option Nat := do
  let n ← key.toNat?
  if toString n = key ∧ n < Word.limit then some n else none

/-- A member of an object whose keys are numbers. -/
def numberedEntry {α : Type} [JsonFormat α] (member : String × JsonValue) :
    Decoded (Nat × α) := do
  return (← numberKey? member.1, ← decode member.2)

instance {α : Type} [JsonFormat α] : JsonFormat (OrderedMap Nat α) where
  encode map := .object (map.entries.map fun (key, value) => (toString key, encode value))
  decode
    | .object members => OrderedMap.ofList <$> members.mapM numberedEntry
    | _ => mismatch

instance {α : Type} [JsonFormat α] : JsonFormat (OrderedMap String α) where
  encode map := .object (map.entries.map fun (key, value) => (key, encode value))
  decode
    | .object members =>
        OrderedMap.ofList <$> members.mapM fun member => (member.1, ·) <$> decode member.2
    | _ => mismatch

end JsonFormat

end ElementKernel
