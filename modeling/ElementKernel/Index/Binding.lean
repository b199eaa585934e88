import ElementKernel.Index.MonomialIndex

/-!
Evaluation of an index.

A binding gives, for each role, the values of the indices of that role in the order of their ids.
-/

namespace ElementKernel

inductive BindingError where
  | missingBinding (role : IndexRole)
  | unclassified
  | outOfBounds (role : IndexRole) (id bound : Nat)
  deriving DecidableEq, Repr

/-- The name of the kind of error. -/
def BindingError.name : BindingError → String
  | .missingBinding _ => "MissingBinding"
  | .unclassified => "Unclassified"
  | .outOfBounds .. => "OutOfBounds"

def BindingError.message : BindingError → String
  | .missingBinding role => s!"Missing index values for {role.name} indices"
  | .unclassified => "Cannot evaluate an index that has not been classified"
  | .outOfBounds role id bound =>
      s!"No value bound for {role.name} index {id} ({bound} value(s) bound)"

structure IndexBinding where
  primary : Option (List Nat) := none
  secondary : Option (List Nat) := none
  internal : Option (List Nat) := none
  external : Option (List Nat) := none
  deriving DecidableEq, Repr

def IndexBinding.values (binding : IndexBinding) : IndexRole → Option (List Nat)
  | .fixed => none
  | .primary => binding.primary
  | .secondary => binding.secondary
  | .internal => binding.internal
  | .external => binding.external

/-- A fixed index has its own value; any other reads the slot of its id under its role. -/
def MonomialIndex.evaluate (index : MonomialIndex) (binding : IndexBinding) :
    Attempt BindingError Nat := do
  let role ← Attempt.ofOption .unclassified index.role
  if role = .fixed then
    index.value
  else
    let values ← Attempt.ofOption (.missingBinding role) (binding.values role)
    let id ← Attempt.ofOption .unclassified index.id
    Attempt.ofOption (.outOfBounds role id values.length) values[id]?

end ElementKernel
