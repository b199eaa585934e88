import ElementKernel.Word

/-!
Counters for the ids of the summation roles.

Fixed and primary indices are never numbered from a counter.
-/

namespace ElementKernel

structure IndexCounters where
  secondary : Nat := 0
  internal : Nat := 0
  external : Nat := 0
  deriving DecidableEq, Repr

namespace IndexCounters

def count (counters : IndexCounters) : IndexRole → Nat
  | .secondary => counters.secondary
  | .internal => counters.internal
  | .external => counters.external
  | .fixed | .primary => 0

/-- The next id of a role and the counters after it is handed out. -/
def next (counters : IndexCounters) : IndexRole → Checked (Nat × IndexCounters)
  | .secondary => do
      let advanced ← Word.add counters.secondary 1
      return (counters.secondary, { counters with secondary := advanced })
  | .internal => do
      let advanced ← Word.add counters.internal 1
      return (counters.internal, { counters with internal := advanced })
  | .external => do
      let advanced ← Word.add counters.external 1
      return (counters.external, { counters with external := advanced })
  | role => .error (.uncountedRole role)

end IndexCounters

end ElementKernel
