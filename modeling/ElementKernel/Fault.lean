import ElementKernel.Index.Role

/-!
What can stop a computation.

A `Fault` is a broken precondition: a sum that leaves the machine word, an index past the end of a
list, an assertion of a constructor.  A `Failure` is either a fault or an error that the operation
reports on purpose.
-/

namespace ElementKernel

/-- The pairs of lengths that are required to agree. -/
inductive LengthPair where
  | indexRank
  | tableValues
  | rulePoints
  | gaussPoints
  deriving DecidableEq, Repr

def LengthPair.requirement : LengthPair → String
  | .indexRank => "Index rank must match shape rank"
  | .tableValues => "Number of table values must match table shape"
  | .rulePoints => "Number of points and weights must be the same"
  | .gaussPoints => "Internal error: incorrect number of points produced"

inductive Fault where
  | overflow
  | indexOutOfBounds (length index : Nat)
  | rowOutOfBounds
  | fixedIndexRange (range : List Nat)
  | offsetExceedsRange (offset : Nat) (range : List Nat)
  | uncountedRole (role : IndexRole)
  | lengthMismatch (pair : LengthPair) (left right : Nat)
  | noQuadraturePoints
  deriving DecidableEq, Repr

/-- A list of numbers in brackets, as in `[1, 2]`. -/
def bracketed (values : List Nat) : String :=
  "[" ++ ", ".intercalate (values.map toString) ++ "]"

def Fault.message : Fault → String
  | .overflow => "arithmetic overflow"
  | .indexOutOfBounds length index =>
      s!"index out of bounds: the len is {length} but the index is {index}"
  | .rowOutOfBounds => "Matrix slicing out of bounds."
  | .fixedIndexRange range =>
      "A fixed index holds exactly one value, but got range " ++ bracketed range
  | .offsetExceedsRange offset range =>
      s!"Index offset {offset} exceeds the values of index range " ++ bracketed range
  | .uncountedRole role => role.name ++ " indices are not numbered by counters"
  | .lengthMismatch pair left right =>
      "assertion `left == right` failed: " ++ pair.requirement ++
        s!"\n  left: {left}\n right: {right}"
  | .noQuadraturePoints => "number of points must be positive"

/-- A computation that only a fault can stop. -/
abbrev Checked := Except Fault

inductive Failure (ε : Type) where
  | fault (fault : Fault)
  | error (error : ε)
  deriving DecidableEq, Repr

/-- A computation that may be stopped by a fault or by an error of type `ε`. -/
abbrev Attempt (ε : Type) := Except (Failure ε)

namespace Checked

/-- Requires two lengths to agree. -/
def sameLength (pair : LengthPair) (left right : Nat) : Checked Unit :=
  if left = right then .ok () else .error (.lengthMismatch pair left right)

/-- The element at a position, or the fault of reading past the end. -/
def get {α : Type} (xs : List α) (i : Nat) : Checked α :=
  match xs[i]? with
  | some x => .ok x
  | none => .error (.indexOutOfBounds xs.length i)

def toAttempt {ε α : Type} : Checked α → Attempt ε α
  | .ok x => .ok x
  | .error f => .error (.fault f)

instance {ε : Type} : MonadLift Checked (Attempt ε) := ⟨toAttempt⟩

theorem get_eq_ok_iff {α : Type} {xs : List α} {i : Nat} {x : α} :
    get xs i = .ok x ↔ xs[i]? = some x := by
  unfold get
  cases xs[i]? <;> simp

theorem sameLength_eq_ok_iff {pair : LengthPair} {left right : Nat} :
    sameLength pair left right = .ok () ↔ left = right := by
  unfold sameLength
  split <;> simp [*]

end Checked

namespace Attempt

/-- Stops with an error of the operation. -/
def reject {ε α : Type} (e : ε) : Attempt ε α := .error (.error e)

/-- Presents the errors of an operation as errors of the operation that called it. -/
def mapError {ε δ α : Type} (f : ε → δ) : Attempt ε α → Attempt δ α
  | .ok x => .ok x
  | .error (.fault g) => .error (.fault g)
  | .error (.error e) => .error (.error (f e))

/-- The outcome unless it is an error of the operation. -/
def toChecked? {ε α : Type} : Attempt ε α → Option (Checked α)
  | .ok x => some (.ok x)
  | .error (.fault f) => some (.error f)
  | .error (.error _) => none

def ofOption {ε α : Type} (e : ε) : Option α → Attempt ε α
  | some x => .ok x
  | none => reject e

end Attempt

end ElementKernel
