import ElementKernel.Proofs.Execution.Statements
import Mathlib.Algebra.Order.Floor.Ring

/-!
# Execution by the rules of a language

C and Rust disagree on what some expressions mean.  In C the literals of integers are integers, and
the quotient of two integers is cut off at the point.  In Rust all literals are reals, conditions
are no numbers, and the order of a Bessel function becomes a 32-bit integer.

Code is executed by the rules of C, by those of Rust, or by those of C as far as Rust agrees with
them.  The last reading stops where the languages disagree.  What is read from arrays and variables
is an element of an ordered field, and the functions of both languages stand for the same operators.
-/

namespace ElementKernel.Portability

open Execution
open Kernel (tensorName)

/-- Why an execution ends early. -/
inductive Stop where
  /-- A name, an entry or a value is not defined, or the code is not well-typed. -/
  | undefined
  /-- The languages disagree. -/
  | unportable
  deriving DecidableEq

abbrev Outcome := Except Stop

def defined {α : Type} : Option α → Outcome α
  | some a => .ok a
  | none => .error .undefined

/-- The rules that code is executed by. -/
inductive Reading where
  | c
  | rust
  /-- The rules of C where those of Rust agree with them. -/
  | portable
  deriving DecidableEq

/-! ## Types -/

mutual

/-- Whether the type of an expression in C is that of integers.  All functions but the absolute value
have floats as their values. -/
def isInteger : Expr → Bool
  | .int _ | .bool _ | .logic .. | .not _ => true
  | .sum terms => allIntegers terms
  | .product factors => allIntegers factors
  | .difference left right => isInteger left && isInteger right
  | .quotient left right => isInteger left && isInteger right
  | .conditional _ whenTrue whenFalse => isInteger whenTrue && isInteger whenFalse
  | .call function arguments => function = "std::abs" && allIntegers arguments
  | .symbol _ | .float _ | .access .. | .method .. | .cast .. => false

def allIntegers : List Expr → Bool
  | [] => true
  | e :: rest => isInteger e && allIntegers rest

end

inductive Kind where
  | number
  | truth
  deriving DecidableEq

mutual

/-- Whether an expression is well-typed in Rust and of the given kind. -/
def hasKind (kind : Kind) : Expr → Bool
  | .symbol _ | .float _ | .int _ | .access .. => kind = .number
  | .bool _ => kind = .truth
  | .sum terms => kind = .number && allNumbers terms
  | .product factors => kind = .number && allNumbers factors
  | .difference left right => kind = .number && hasKind .number left && hasKind .number right
  | .quotient left right => kind = .number && hasKind .number left && hasKind .number right
  | .logic op left right =>
      kind = .truth && (hasKind .truth left && hasKind .truth right ||
        !op.isAssociative && hasKind .number left && hasKind .number right)
  | .not operand => kind = .truth && hasKind .truth operand
  | .conditional condition whenTrue whenFalse =>
      hasKind .truth condition && hasKind kind whenTrue && hasKind kind whenFalse
  | .call _ arguments => kind = .number && allNumbers arguments
  | .method receiver _ arguments =>
      kind = .number && hasKind .number receiver && allNumbers arguments
  | .cast operand _ => kind = .number && hasKind .number operand

def allNumbers : List Expr → Bool
  | [] => true
  | e :: rest => hasKind .number e && allNumbers rest

end

section

variable (kind : Kind) (a b c : Expr) (es : List Expr)

theorem hasKind_sum : hasKind kind (.sum es) = (decide (kind = .number) && allNumbers es) :=
  rfl

theorem hasKind_product : hasKind kind (.product es) = (decide (kind = .number) && allNumbers es) :=
  rfl

theorem hasKind_quotient :
    hasKind kind (.quotient a b) =
      (decide (kind = .number) && hasKind .number a && hasKind .number b) :=
  rfl

theorem hasKind_logic (op : LogicOp) :
    hasKind kind (.logic op a b) =
      (decide (kind = .truth) && (hasKind .truth a && hasKind .truth b ||
        !op.isAssociative && hasKind .number a && hasKind .number b)) :=
  rfl

theorem hasKind_not : hasKind kind (.not a) = (decide (kind = .truth) && hasKind .truth a) :=
  rfl

theorem hasKind_conditional :
    hasKind kind (.conditional c a b) = (hasKind .truth c && hasKind kind a && hasKind kind b) :=
  rfl

theorem hasKind_call (function : String) :
    hasKind kind (.call function es) = (decide (kind = .number) && allNumbers es) :=
  rfl

theorem hasKind_method (name : String) :
    hasKind kind (.method a name es) =
      (decide (kind = .number) && hasKind .number a && allNumbers es) :=
  rfl

theorem hasKind_cast (type : String) :
    hasKind kind (.cast a type) = (decide (kind = .number) && hasKind .number a) :=
  rfl

theorem allNumbers_nil : allNumbers [] = true :=
  rfl

theorem allNumbers_cons : allNumbers (a :: es) = (hasKind .number a && allNumbers es) :=
  rfl

end

/-! ## Expressions -/

section

variable {K : Type} [Field K] [LinearOrder K] [FloorRing K]

/-- The integer that is left when the fraction is cut off. -/
def truncated (x : K) : ℤ := if 0 ≤ x then ⌊x⌋ else ⌈x⌉

/-- A real as a 32-bit integer.  What is too large becomes the largest one. -/
def toInt32 (x : K) : ℤ := max (-2 ^ 31) (min (2 ^ 31 - 1) (truncated x))

/-- Truth values are one and zero. -/
def truth (b : Bool) : K := if b then 1 else 0

def compare : LogicOp → K → K → Bool
  | .eq, x, y => x = y
  | .ne, x, y => x ≠ y
  | .lt, x, y => x < y
  | .le, x, y => x ≤ y
  | .gt, x, y => y < x
  | .ge, x, y => y ≤ x
  | .and, x, y => x ≠ 0 ∧ y ≠ 0
  | .or, x, y => x ≠ 0 ∨ y ≠ 0

/-- The operators whose first operand is a 32-bit integer in Rust. -/
def takesOrder (op : Operator) : Bool := op = .besselJ || op = .besselY

namespace Reading

variable (D : Interpretation K)

/-- The literal of an integer, which Rust writes as a float. -/
def integer : Reading → ℤ → Outcome K
  | .c, n => .ok n
  | .rust, _ => .error .undefined
  | .portable, n =>
      if D.literal (Float.ofInt n) = n then .ok n else .error .unportable

/-- A quotient, which may be one of integers. -/
def quotient : Reading → Bool → K → K → Outcome K
  | .c, true, x, y => if y = 0 then .error .undefined else .ok (truncated (x / y))
  | .portable, true, x, y =>
      if y ≠ 0 ∧ (truncated (x / y) : K) = x / y then .ok (x / y) else .error .unportable
  | _, _, x, y => .ok (x / y)

def call : Reading → Operator → List K → Outcome K
  | .portable, op, operands =>
      if takesOrder op ∧ ∃ order ∈ operands.head?, (toInt32 order : K) ≠ order then
        .error .unportable
      else .ok (D.operator op operands)
  | _, op, operands => .ok (D.operator op operands)

/-- Only Rust code contains casts. -/
def cast : Reading → String → K → Outcome K
  | .rust, type, x => if type = "i32" then .ok (toInt32 x) else .error .undefined
  | _, _, _ => .error .undefined

/-- What follows when an expression is well-typed in Rust or not. -/
def typed : Reading → Bool → Outcome Unit
  | .c, _ | _, true => .ok ()
  | .rust, false => .error .undefined
  | .portable, false => .error .unportable

end Reading

variable (D : Interpretation K) (r : Reading) (L : Locals K)

mutual

def eval : Expr → Outcome K
  | .symbol name => defined ((L name).bind Cell.scalar?)
  | .float x => .ok (D.literal x)
  | .int n => r.integer D n
  | .bool b => .ok (truth b)
  | .access array inner =>
      defined ((place L (.access array inner)).bind fun read =>
        (L read.1).bind fun cell => cell.read read.2)
  | .sum terms => do return (← evalAll terms).sum
  | .product factors => do return (← evalAll factors).prod
  | .difference left right => do return (← eval left) - (← eval right)
  | .quotient left right => do
      r.quotient (isInteger left && isInteger right) (← eval left) (← eval right)
  | .logic .and left right => do
      if (← eval left) = 0 then return 0 else return truth (decide ((← eval right) ≠ 0))
  | .logic .or left right => do
      if (← eval left) ≠ 0 then return 1 else return truth (decide ((← eval right) ≠ 0))
  | .logic op left right => do return truth (compare op (← eval left) (← eval right))
  | .not operand => do return truth (decide ((← eval operand) = 0))
  | .conditional condition whenTrue whenFalse => do
      if (← eval condition) = 0 then eval whenFalse else eval whenTrue
  | .call function arguments => do
      r.call D (← defined (functions.lookup function)) (← evalAll arguments)
  | .method receiver name arguments => do
      r.call D (← defined (methods.lookup name)) ((← eval receiver) :: (← evalAll arguments))
  | .cast operand type => do r.cast type (← eval operand)

def evalAll : List Expr → Outcome (List K)
  | [] => .ok []
  | e :: rest => do return (← eval e) :: (← evalAll rest)

end

/-- The value of an expression that is to be a number. -/
def evalNumber (e : Expr) : Outcome K := do
  r.typed (hasKind .number e)
  eval D r L e

variable (a b c : Expr) (es : List Expr)

theorem eval_symbol (name : String) :
    eval D r L (.symbol name) = defined ((L name).bind Cell.scalar?) :=
  rfl

theorem eval_float (x : Float) : eval D r L (.float x) = .ok (D.literal x) :=
  rfl

theorem eval_int (n : ℤ) : eval D r L (.int n) = r.integer D n :=
  rfl

theorem eval_access :
    eval D r L (.access a es) =
      defined ((place L (.access a es)).bind fun read =>
        (L read.1).bind fun cell => cell.read read.2) :=
  rfl

theorem eval_sum :
    eval D r L (.sum es) = (evalAll D r L es >>= fun vs => .ok vs.sum) :=
  rfl

theorem eval_product :
    eval D r L (.product es) = (evalAll D r L es >>= fun vs => .ok vs.prod) :=
  rfl

theorem eval_quotient :
    eval D r L (.quotient a b) = (eval D r L a >>= fun x => eval D r L b >>= fun y =>
      r.quotient (isInteger a && isInteger b) x y) :=
  rfl

theorem eval_and :
    eval D r L (.logic .and a b) = (eval D r L a >>= fun x =>
      if x = 0 then .ok 0 else eval D r L b >>= fun y => .ok (truth (decide (y ≠ 0)))) :=
  rfl

theorem eval_or :
    eval D r L (.logic .or a b) = (eval D r L a >>= fun x =>
      if x ≠ 0 then .ok 1 else eval D r L b >>= fun y => .ok (truth (decide (y ≠ 0)))) :=
  rfl

theorem eval_comparison {op : LogicOp} (hop : op.isAssociative = false) :
    eval D r L (.logic op a b) = (eval D r L a >>= fun x => eval D r L b >>= fun y =>
      .ok (truth (compare op x y))) := by
  cases op with
  | and | or => cases hop
  | _ => rfl

theorem eval_not :
    eval D r L (.not a) = (eval D r L a >>= fun x => .ok (truth (decide (x = 0)))) :=
  rfl

theorem eval_conditional :
    eval D r L (.conditional c a b) = (eval D r L c >>= fun x =>
      if x = 0 then eval D r L b else eval D r L a) :=
  rfl

theorem eval_call {function : String} {op : Operator}
    (hfunction : functions.lookup function = some op) :
    eval D r L (.call function es) = (evalAll D r L es >>= fun vs => r.call D op vs) := by
  change (defined (functions.lookup function) >>= fun op => evalAll D r L es >>= r.call D op) = _
  rw [hfunction]
  rfl

theorem eval_method {name : String} {op : Operator} (hmethod : methods.lookup name = some op) :
    eval D r L (.method a name es) = (eval D r L a >>= fun x => evalAll D r L es >>= fun vs =>
      r.call D op (x :: vs)) := by
  change (defined (methods.lookup name) >>= fun op => eval D r L a >>= fun x =>
    evalAll D r L es >>= fun vs => r.call D op (x :: vs)) = _
  rw [hmethod]
  rfl

theorem eval_cast (type : String) :
    eval D r L (.cast a type) = (eval D r L a >>= fun x => r.cast type x) :=
  rfl

theorem evalAll_nil : evalAll D r L [] = .ok [] :=
  rfl

theorem evalAll_cons :
    evalAll D r L (a :: es) =
      (eval D r L a >>= fun x => evalAll D r L es >>= fun vs => .ok (x :: vs)) :=
  rfl

end

/-! ## Statements -/

section

variable {K : Type} [Field K] [LinearOrder K] [FloorRing K]
  (D : Interpretation K) (r : Reading) (size : Nat)

mutual

def exec : Stmt → State K → Outcome (State K)
  | .comment _, s => .ok s
  | .array decl, s => defined (s.declare decl.name (declared D decl))
  | .declare name e, s => do
      let v ← evalNumber D r s.locals e
      defined (s.declare name (.scalar v))
  | .assign target e, s => do
      let v ← evalNumber D r s.locals e
      return s.store v (← defined (destination? size s.locals target))
  | .assignAdd target e, s => do
      let v ← evalNumber D r s.locals e
      let t ← defined (destination? size s.locals target)
      return s.store ((← defined (s.load t)) + v) t
  | .zeroFill array count, s =>
      match array with
      | .symbol name =>
          if name = tensorName ∧ count ≤ size then
            .ok { s with tensor := fun k => if k < count then 0 else s.tensor k }
          else .error .undefined
      | _ => .error .undefined
  | .forRange counter first past body, s =>
      match counter with
      | .symbol name =>
          (List.range' first (past - first)).foldlM (fun s k => do
            let inner ← defined (s.declare name (.number (word k)))
            return (← execAll body inner).leave s) s
      | _ => .error .undefined
  | .scope body, s => do return (← execAll body s).leave s
  | .list body, s => execAll body s

def execAll : List Stmt → State K → Outcome (State K)
  | [], s => .ok s
  | first :: rest, s => do execAll rest (← exec first s)

end

variable (s : State K) (e target : Expr) (body : List Stmt)

theorem exec_comment (text : String) : exec D r size (.comment text) s = .ok s :=
  rfl

theorem exec_array (decl : ArrayDecl) :
    exec D r size (.array decl) s = defined (s.declare decl.name (declared D decl)) :=
  rfl

theorem exec_declare (name : String) :
    exec D r size (.declare name e) s = (evalNumber D r s.locals e >>= fun v =>
      defined (s.declare name (.scalar v))) :=
  rfl

theorem exec_assign :
    exec D r size (.assign target e) s = (evalNumber D r s.locals e >>= fun v =>
      defined (destination? size s.locals target) >>= fun t => .ok (s.store v t)) :=
  rfl

theorem exec_assignAdd :
    exec D r size (.assignAdd target e) s = (evalNumber D r s.locals e >>= fun v =>
      defined (destination? size s.locals target) >>= fun t =>
        defined (s.load t) >>= fun x => .ok (s.store (x + v) t)) :=
  rfl

theorem exec_zeroFill (name : String) (count : Nat) :
    exec D r size (.zeroFill (.symbol name) count) s =
      if name = tensorName ∧ count ≤ size then
        .ok { s with tensor := fun k => if k < count then 0 else s.tensor k }
      else .error .undefined :=
  rfl

theorem exec_forRange (name : String) (first past : Nat) :
    exec D r size (.forRange (.symbol name) first past body) s =
      (List.range' first (past - first)).foldlM (fun s k =>
        defined (s.declare name (.number (word k))) >>= fun inner =>
          execAll D r size body inner >>= fun final => .ok (final.leave s)) s :=
  rfl

theorem exec_scope :
    exec D r size (.scope body) s =
      (execAll D r size body s >>= fun final => .ok (final.leave s)) :=
  rfl

theorem exec_list : exec D r size (.list body) s = execAll D r size body s :=
  rfl

theorem execAll_nil : execAll D r size [] s = .ok s :=
  rfl

theorem execAll_cons (first : Stmt) :
    execAll D r size (first :: body) s =
      (exec D r size first s >>= fun t => execAll D r size body t) :=
  rfl

end

end ElementKernel.Portability
