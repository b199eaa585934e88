/-!
Operators of expression graphs.
-/

namespace ElementKernel

inductive Operator where
  | sum
  | product
  | division
  | power
  | abs
  | sqrt
  | exp
  | ln
  | cos
  | sin
  | tan
  | acos
  | asin
  | atan
  | atan2
  | cosh
  | sinh
  | tanh
  | erf
  /-- Bessel functions take their order first. -/
  | besselJ
  | besselY
  | besselI
  | besselK
  | minValue
  | maxValue
  | eq
  | ne
  | lt
  | le
  | gt
  | ge
  | andCondition
  | orCondition
  | notCondition
  /-- A condition, the value if it holds and the value if it does not. -/
  | conditional
  deriving DecidableEq, Repr

namespace Operator

def all : List Operator :=
  [.sum, .product, .division, .power, .abs, .sqrt, .exp, .ln, .cos, .sin, .tan, .acos, .asin,
    .atan, .atan2, .cosh, .sinh, .tanh, .erf, .besselJ, .besselY, .besselI, .besselK, .minValue,
    .maxValue, .eq, .ne, .lt, .le, .gt, .ge, .andCondition, .orCondition, .notCondition,
    .conditional]

def name : Operator → String
  | .sum => "sum"
  | .product => "product"
  | .division => "division"
  | .power => "power"
  | .abs => "abs"
  | .sqrt => "sqrt"
  | .exp => "exp"
  | .ln => "ln"
  | .cos => "cos"
  | .sin => "sin"
  | .tan => "tan"
  | .acos => "acos"
  | .asin => "asin"
  | .atan => "atan"
  | .atan2 => "atan_2"
  | .cosh => "cosh"
  | .sinh => "sinh"
  | .tanh => "tanh"
  | .erf => "erf"
  | .besselJ => "bessel_j"
  | .besselY => "bessel_y"
  | .besselI => "bessel_i"
  | .besselK => "bessel_k"
  | .minValue => "min_value"
  | .maxValue => "max_value"
  | .eq => "eq"
  | .ne => "ne"
  | .lt => "lt"
  | .le => "le"
  | .gt => "gt"
  | .ge => "ge"
  | .andCondition => "and_condition"
  | .orCondition => "or_condition"
  | .notCondition => "not_condition"
  | .conditional => "conditional"

/-- The number of operands. -/
def arity : Operator → Nat
  | .abs | .sqrt | .exp | .ln | .cos | .sin | .tan | .acos | .asin | .atan | .cosh | .sinh | .tanh
  | .erf | .notCondition => 1
  | .conditional => 3
  | _ => 2

/-- Whether the operator produces a boolean. -/
def isCondition : Operator → Bool
  | .eq | .ne | .lt | .le | .gt | .ge | .andCondition | .orCondition | .notCondition => true
  | _ => false

theorem mem_all (op : Operator) : op ∈ all := by
  cases op <;> decide

end Operator

end ElementKernel
