import ElementKernel.Kernel.Target

/-!
Operators in the target languages, and what code that uses them depends on.
-/

namespace ElementKernel

namespace Operator

/-- The comparison or connective that both languages have for an operator. -/
def logicOp? : Operator → Option LogicOp
  | .eq => some .eq
  | .ne => some .ne
  | .lt => some .lt
  | .le => some .le
  | .gt => some .gt
  | .ge => some .ge
  | .andCondition => some .and
  | .orCondition => some .or
  | _ => none

/-- The function that computes an operator in C++. -/
def function? : Operator → Option String
  | .power => some "std::pow"
  | .abs => some "std::abs"
  | .sqrt => some "std::sqrt"
  | .exp => some "std::exp"
  | .ln => some "std::log"
  | .cos => some "std::cos"
  | .sin => some "std::sin"
  | .tan => some "std::tan"
  | .acos => some "std::acos"
  | .asin => some "std::asin"
  | .atan => some "std::atan"
  | .atan2 => some "std::atan2"
  | .cosh => some "std::cosh"
  | .sinh => some "std::sinh"
  | .tanh => some "std::tanh"
  | .erf => some "std::erf"
  | .besselJ => some "boost::math::cyl_bessel_j"
  | .besselY => some "boost::math::cyl_neumann"
  | .besselI => some "boost::math::cyl_bessel_i"
  | .besselK => some "boost::math::cyl_bessel_k"
  | .minValue => some "std::fmin"
  | .maxValue => some "std::fmax"
  | _ => none

/-- The method of floats that computes an operator in Rust. -/
def method? : Operator → Option String
  | .power => some "powf"
  | .abs => some "abs"
  | .sqrt => some "sqrt"
  | .exp => some "exp"
  | .ln => some "ln"
  | .cos => some "cos"
  | .sin => some "sin"
  | .tan => some "tan"
  | .acos => some "acos"
  | .asin => some "asin"
  | .atan => some "atan"
  | .atan2 => some "atan2"
  | .cosh => some "cosh"
  | .sinh => some "sinh"
  | .tanh => some "tanh"
  | .minValue => some "min"
  | .maxValue => some "max"
  | _ => none

/-- The expressions that both languages share. -/
def shared? (op : Operator) (operands : List Expr) : Option Expr :=
  match op, operands with
  | .sum, terms => some (.sum terms)
  | .product, factors => some (.product factors)
  | .division, [a, b] => some (.quotient a b)
  | .notCondition, [a] => some (.not a)
  | .conditional, [c, t, f] => some (.conditional c t f)
  | op, [a, b] => op.logicOp?.map (.logic · a b)
  | _, _ => none

/-- An operator applied to as many operands as it takes. -/
def call? (op : Operator) (operands : List Expr) : Dialect → Option Expr
  | .c =>
      match op.function? with
      | some function => some (.call function operands)
      | none => op.shared? operands
  | .rust =>
      match op, op.method?, operands with
      | _, some method, receiver :: rest => some (.method receiver method rest)
      | .erf, _, _ => some (.call "libm::erf" operands)
      | .besselJ, _, [order, x] => some (.call "libm::jn" [.cast order "i32", x])
      | .besselY, _, [order, x] => some (.call "libm::yn" [.cast order "i32", x])
      | _, _, _ => op.shared? operands

/-- The expression of an operator in a language, from the expressions of its operands. -/
def expression (op : Operator) (operands : List Expr) (dialect : Dialect) :
    Except KernelError Expr :=
  if operands.length ≠ op.arity then
    .error (.malformed (.operandCount op operands.length))
  else
    match op.call? operands dialect with
    | some e => .ok e
    | none => .error (.unsupportedOperator op dialect)

end Operator

namespace Kernel

/-- The operators whose C++ functions stand in the header for mathematics. -/
def mathOperators : List String :=
  ["abs", "power", "sqrt", "exp", "ln", "cos", "sin", "tan", "acos", "asin", "atan", "atan_2",
    "cosh", "sinh", "tanh", "erf", "min_value", "max_value"]

/-- The operators that are special functions of a library in C++. -/
def specialOperators : List String := ["bessel_j", "bessel_y", "bessel_i", "bessel_k"]

/-- The operators that are functions of a library in Rust. -/
def libraryOperators : List String := ["erf", "bessel_j", "bessel_y"]

/-- The include directives of C++ code that uses the named operators. -/
def includes (operators : List String) : List String :=
  let special :=
    if specialOperators.any (operators.contains ·) then
      ["#include <boost/math/special_functions.hpp>"]
    else []
  let math := if mathOperators.any (operators.contains ·) then ["#include <cmath>"] else []
  special ++ math ++ ["#include <cstring>"]

/-- The libraries that Rust code which uses the named operators depends on. -/
def libraries (operators : List String) : List String :=
  if libraryOperators.any (operators.contains ·) then ["libm"] else []

def requirements : Dialect → List String → List String
  | .c => includes
  | .rust => libraries

end Kernel

end ElementKernel
