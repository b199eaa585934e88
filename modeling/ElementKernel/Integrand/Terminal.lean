import ElementKernel.Monomial.Raw

/-!
Leaves of expression graphs.

A modified terminal is a terminal with a flattened value component, the number of derivatives in
each reference direction and possibly a side of an interior facet.
-/

namespace ElementKernel

inductive Terminal where
  /-- A basis function of the argument with the given number. -/
  | argument (number : Nat)
  | coefficient (number : Nat)
  | spatialCoordinate
  | jacobian
  | facetNormal
  | cellVolume
  | quadratureWeight
  | float (value : Float)
  | int (value : Int64)
  | zero
  deriving Repr

structure ModifiedTerminal where
  terminal : Terminal
  component : Nat := 0
  localDerivatives : List Nat := []
  restriction : Option Restriction := none
  deriving Repr

/-- Whether the terminal is the number one, without derivatives. -/
def ModifiedTerminal.isLiteralOne (t : ModifiedTerminal) : Bool :=
  let isOne :=
    match t.terminal with
    | .float value => value == 1
    | .int value => value == 1
    | _ => false
  isOne && t.localDerivatives.all (· = 0)

end ElementKernel
