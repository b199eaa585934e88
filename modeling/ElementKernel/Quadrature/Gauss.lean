import ElementKernel.Decimal.Binary
import ElementKernel.Fault
import ElementKernel.Quadrature.Legendre

/-!
Gauss rules on the interval from -1 to 1.

The points are the roots of a Legendre polynomial.  Those in the upper half are found by Newton
iteration and the others by symmetry.
-/

namespace ElementKernel.Quadrature

/-- A rule in one dimension: pairs of a weight and a point. -/
abbrev LineRule (α : Type) := List (α × α)

/-- The place of a number in the total order of floats, in which minus zero stands before zero. -/
def totalPlace (x : Float) : Int :=
  let magnitude : Nat := x.toBits.toNat % Nat.pow 2 63
  if signBit x then -magnitude - 1 else magnitude

/-- The rule with its points in ascending order. -/
def ascending (rule : LineRule Float) : LineRule Float :=
  rule.mergeSort fun a b => totalPlace a.2 ≤ totalPlace b.2

@[simp] theorem length_ascending (rule : LineRule Float) :
    (ascending rule).length = rule.length :=
  List.length_mergeSort rule

/-- Newton iteration for a root of the Legendre polynomial of degree `n`.  The fuel bounds the
number of steps. -/
def newton (n : Nat) : Nat → Float → Float
  | 0, x => x
  | fuel + 1, x =>
      let step := -(legendre n x) / legendreDerivative n x
      let next := x + step
      if step.abs ≤ 1e-15 then next else newton n fuel next

def pi : Float := 3.141592653589793

/-- The root number `i` from above, with its weight. -/
def gaussNode (n i : Nat) : Float × Float :=
  let start := (pi * (i.toFloat + 0.75) / (n.toFloat + 0.5)).cos
  let x := newton n 100 start
  let slope := legendreDerivative n x
  (2 / ((1 - x * x) * slope * slope), x)

/-- The roots that are not below zero. -/
def upperHalf (n : Nat) : LineRule Float :=
  (List.range ((n + 1) / 2)).map (gaussNode n)

/-- The mirror images of the roots above zero.  The middle root of an odd rule is its own one. -/
def mirrored (n : Nat) : LineRule Float :=
  ((upperHalf n).take (n / 2)).map fun (w, x) => (w, -x)

/-- The Gauss rule with `n` points, in ascending order. -/
def gauss (n : Nat) : Checked (LineRule Float) := do
  if n = 0 then
    .error .noQuadraturePoints
  else
    let rule := ascending (upperHalf n ++ mirrored n)
    Checked.sameLength .gaussPoints rule.length n
    return rule

end ElementKernel.Quadrature
