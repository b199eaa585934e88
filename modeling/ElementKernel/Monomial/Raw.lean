import ElementKernel.Element.Descriptor

/-!
Monomials before they are transformed.

A monomial is a scalar times a product of factors.  A factor is a basis function of an argument or a
coefficient function, possibly with a component and differentiated in some directions.  Equal free
keys within one monomial denote the same summation index.
-/

namespace ElementKernel

/-- A component or a direction before it is resolved to an index. -/
inductive ComponentKey where
  | fixed (value : Nat)
  | free (number : Nat)
  deriving DecidableEq, Repr

inductive FactorOrigin where
  /-- A basis function of the argument with the given number, zero for the test function. -/
  | argument (number : Nat)
  | coefficient (number : Nat)
  deriving DecidableEq, Repr

/-- The side of an interior facet that a quantity is evaluated on. -/
inductive Restriction where
  | plus
  | minus
  deriving DecidableEq, Repr

namespace Restriction

/-- The position of the side in the pair of cells that share the facet. -/
def side : Restriction → Nat
  | .plus => 0
  | .minus => 1

def sign : Restriction → String
  | .plus => "+"
  | .minus => "-"

/-- The sign in parentheses, or nothing without a restriction. -/
def tag : Option Restriction → String
  | some restriction => "(" ++ restriction.sign ++ ")"
  | none => ""

end Restriction

structure MonomialFactor where
  element : ElementDescriptor
  origin : FactorOrigin
  components : List ComponentKey := []
  derivatives : List ComponentKey := []
  restriction : Option Restriction := none
  deriving Repr

structure RawMonomial where
  coefficient : Float
  factors : List MonomialFactor := []
  deriving Repr

end ElementKernel
