/-!
The five roles an index of a transformed monomial can play.

A fixed index is a literal value.  A primary index runs over the basis functions of an argument of
the form.  The three remaining roles are summed over, inside the integral, outside of it, or both.
-/

namespace ElementKernel

inductive IndexRole where
  | fixed
  | primary
  /-- Appears both inside and outside of the integral. -/
  | secondary
  /-- Appears only inside the integral. -/
  | internal
  /-- Appears only outside the integral. -/
  | external
  deriving DecidableEq, Repr

namespace IndexRole

def all : List IndexRole := [.fixed, .primary, .secondary, .internal, .external]

def name : IndexRole → String
  | .fixed => "fixed"
  | .primary => "primary"
  | .secondary => "secondary"
  | .internal => "internal"
  | .external => "external"

/-- The letter in front of the id when an index is written, such as `a` in `a_0`. -/
def letter : IndexRole → String
  | .fixed => ""
  | .primary => "i"
  | .secondary => "a"
  | .internal => "g"
  | .external => "b"

/-- The place of the role in the order of roles. -/
def rank : IndexRole → Nat
  | .fixed => 0
  | .primary => 1
  | .secondary => 2
  | .internal => 3
  | .external => 4

instance : Ord IndexRole := ⟨fun a b => compare a.rank b.rank⟩

theorem mem_all (role : IndexRole) : role ∈ all := by
  cases role <;> decide

theorem rank_injective {a b : IndexRole} (h : a.rank = b.rank) : a = b := by
  cases a <;> cases b <;> simp_all [rank]

end IndexRole

end ElementKernel
