import ElementKernel.Index.Arena
import ElementKernel.Index.Counter
import ElementKernel.Monomial.TransformError

/-!
Roles of summation indices.

The role of an index follows from how often it occurs inside and outside of the integral.
Occurrences are counted by handle, so different indices of equal range are never unified.
-/

namespace ElementKernel

/-- The role of an index by its occurrences inside and outside of the integral. -/
def IndexRole.ofOccurrences : Nat → Nat → Option IndexRole
  | 1, 1 => some .secondary
  | 2, 0 => some .internal
  | 0, 2 => some .external
  | _, _ => none

theorem IndexRole.ofOccurrences_sum {m n : Nat} {role : IndexRole}
    (h : ofOccurrences m n = some role) : m + n = 2 := by
  unfold ofOccurrences at h
  split at h <;> simp_all

/-- The indices of a monomial and the ids handed out so far. -/
structure Classification where
  arena : IndexArena
  counters : IndexCounters
  deriving DecidableEq, Repr

namespace Classification

/-- Classifies the index behind one handle, unless it has a role already. -/
def visit (internal external : List IndexHandle) (state : Classification)
    (handle : IndexHandle) : Attempt TransformError Classification := do
  let index ← state.arena.get handle
  if index.isClassified then
    return state
  else
    let internalCount := internal.count handle
    let externalCount := external.count handle
    let role ← Attempt.ofOption (.contraction index.range internalCount externalCount)
      (IndexRole.ofOccurrences internalCount externalCount)
    let (id, counters) ← state.counters.next role
    return ⟨state.arena.set handle (index.classifyAs role id), counters⟩

/-- Visits handles in order.  What is classified before a failure stays classified. -/
def visitAll (internal external : List IndexHandle) :
    List IndexHandle → Classification → Classification × Attempt TransformError Unit
  | [], state => (state, .ok ())
  | handle :: rest, state =>
      match visit internal external state handle with
      | .ok next => visitAll internal external rest next
      | .error failure => (state, .error failure)

/-- Classifies every index that occurs inside or outside of the integral, inner ones first. -/
def run (state : Classification) (internal external : List IndexHandle) :
    Classification × Attempt TransformError Unit :=
  visitAll internal external (internal ++ external) state

end Classification

end ElementKernel
