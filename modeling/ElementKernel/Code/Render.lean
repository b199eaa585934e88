import ElementKernel.Code.Expr
import ElementKernel.Code.FloatLiteral

/-!
Expressions as source text.

Operands are put in parentheses when they bind less tightly than their place requires.
-/

namespace ElementKernel

/-- The language of the generated code. -/
inductive Dialect where
  | c
  | rust
  deriving DecidableEq, Repr

def Dialect.name : Dialect → String
  | .c => "C"
  | .rust => "Rust"

/-- How code is written: its language and the significant digits of float literals. -/
structure Renderer where
  dialect : Dialect
  digits : Nat
  deriving DecidableEq, Repr

/-! How tightly expressions bind. -/
namespace Level

def atom : Nat := 100
def unary : Nat := 90
def cast : Nat := 85
def product : Nat := 80
def sum : Nat := 70
def relational : Nat := 60
def equality : Nat := 55
def conjunction : Nat := 40
def disjunction : Nat := 30
def conditional : Nat := 20

end Level

def LogicOp.level : LogicOp → Nat
  | .lt | .le | .gt | .ge => Level.relational
  | .eq | .ne => Level.equality
  | .and => Level.conjunction
  | .or => Level.disjunction

/-- The least level of the operands. -/
def LogicOp.operandLevel (op : LogicOp) : Nat :=
  if op.isAssociative then op.level else op.level + 1

namespace Renderer

def float (r : Renderer) (x : Float) : String :=
  if x.isNaN then
    match r.dialect with
    | .c => "NAN"
    | .rust => "f64::NAN"
  else if x.isInf then
    let sign := if x < 0 then "-" else ""
    match r.dialect with
    | .c => sign ++ "INFINITY"
    | .rust => sign ++ "f64::INFINITY"
  else FloatLiteral.text x r.digits

/-- How tightly an expression binds.  A sum or product of one operand binds as that operand. -/
def level (r : Renderer) : Expr → Nat
  | .float x => if signBit x && x != 0 then Level.unary else Level.atom
  | .int n => if n < 0 then Level.unary else Level.atom
  | .symbol _ | .bool _ | .access .. | .call .. | .method .. => Level.atom
  | .sum [] | .product [] => Level.atom
  | .sum [term] => r.level term
  | .product [factor] => r.level factor
  | .sum _ | .difference .. => Level.sum
  | .product _ | .quotient .. => Level.product
  | .logic op .. => op.level
  | .not _ => Level.unary
  | .conditional .. => Level.conditional
  | .cast .. =>
      match r.dialect with
      | .c => Level.unary
      | .rust => Level.cast

/-- Puts the text of an expression in parentheses if it binds less tightly than required. -/
def group (r : Renderer) (required : Nat) (e : Expr) (text : String) : String :=
  if r.level e < required then "(" ++ text ++ ")" else text

/-- The receiver of a method.  An unsigned float literal carries its type, since its methods would
be ambiguous otherwise. -/
def receiver (r : Renderer) (e : Expr) (text : String) : String :=
  match r.dialect, e with
  | .rust, .float _ => if r.level e = Level.atom then text ++ "_f64" else "(" ++ text ++ ")"
  | _, _ => r.group Level.atom e text

mutual

def expr (r : Renderer) : Expr → String
  | .symbol name => name
  | .float x => r.float x
  | .int n => toString n
  | .bool b => toString b
  | .access array indices =>
      r.group Level.atom array (r.expr array) ++
        String.join ((r.operands 0 indices).map fun index => "[" ++ index ++ "]")
  | .sum [] => "0"
  | .product [] => "1"
  | .sum terms => " + ".intercalate (r.operands Level.sum terms)
  | .product factors => " * ".intercalate (r.operands Level.product factors)
  | .difference left right =>
      r.group Level.sum left (r.expr left) ++ " - " ++
        r.group (Level.sum + 1) right (r.expr right)
  | .quotient left right =>
      r.group Level.product left (r.expr left) ++ " / " ++
        r.group (Level.product + 1) right (r.expr right)
  | .logic op left right =>
      r.group op.operandLevel left (r.expr left) ++ " " ++ op.symbol ++ " " ++
        r.group op.operandLevel right (r.expr right)
  | .not operand => "!" ++ r.group Level.unary operand (r.expr operand)
  | .conditional condition whenTrue whenFalse =>
      match r.dialect with
      | .c =>
          r.group (Level.conditional + 1) condition (r.expr condition) ++ " ? " ++
            r.group (Level.conditional + 1) whenTrue (r.expr whenTrue) ++ " : " ++
            r.group (Level.conditional + 1) whenFalse (r.expr whenFalse)
      | .rust =>
          "if " ++ r.expr condition ++ " \x7b " ++ r.expr whenTrue ++ " \x7d else \x7b " ++
            r.expr whenFalse ++ " \x7d"
  | .call function arguments =>
      function ++ "(" ++ ", ".intercalate (r.operands 0 arguments) ++ ")"
  | .method target name arguments =>
      r.receiver target (r.expr target) ++ "." ++ name ++ "(" ++
        ", ".intercalate (r.operands 0 arguments) ++ ")"
  | .cast operand type =>
      match r.dialect with
      | .c => "(" ++ type ++ ")" ++ r.group Level.unary operand (r.expr operand)
      | .rust => r.group Level.cast operand (r.expr operand) ++ " as " ++ type

/-- The texts of operands that all have to bind at least as tightly as required. -/
def operands (r : Renderer) (required : Nat) : List Expr → List String
  | [] => []
  | e :: rest => r.group required e (r.expr e) :: r.operands required rest

end

@[simp] theorem expr_symbol (r : Renderer) (name : String) : r.expr (.symbol name) = name := by
  rw [expr]

@[simp] theorem level_symbol (r : Renderer) (name : String) :
    r.level (.symbol name) = Level.atom := by
  rw [level]

end Renderer

end ElementKernel
