import ElementKernel.Code.Stmt
import ElementKernel.Integrand.Operator
import Mathlib.Algebra.BigOperators.Group.List.Basic
import Mathlib.Algebra.Field.Basic
import Mathlib.Data.BitVec

/-!
# Values of expressions in generated code

Generated code computes with two kinds of values.  Array indices are machine words, and everything
else is an element of a field.  An expression has a value when all that it reads is declared, lies
inside of its array and has been computed.

The arithmetic operators are those of the field.  The meaning of the other operators is a parameter,
and the functions and methods of the target languages stand for them by name.
-/

namespace ElementKernel.Execution

/-- Indices are computed modulo the size of the machine word. -/
abbrev Index := BitVec 64

def word (n : Nat) : Index := BitVec.ofNat 64 n

theorem toNat_word {n : Nat} (h : n < Word.limit) : (word n).toNat = n :=
  Nat.mod_eq_of_lt h

theorem word_add (m n : Nat) : word (m + n) = word m + word n := BitVec.ofNat_add ..

theorem word_mul (m n : Nat) : word (m * n) = word m * word n := BitVec.ofNat_mul ..

theorem ofInt_signed (n : Nat) : BitVec.ofInt 64 (Word.signed n) = word n := by
  refine BitVec.eq_of_toInt_eq ?_
  rw [BitVec.toInt_ofInt, Word.signed, word, BitVec.toInt_ofNat']
  rw [show (2 ^ 64 : Nat) = Word.limit from rfl, Int.bmod_bmod]

/-! ## Arrays -/

/-- The row-major position of a multi-index in an array, if it lies inside. -/
def position : List Nat → List Nat → Option Nat
  | [], [] => some 0
  | size :: sizes, i :: indices =>
      if i < size then (position sizes indices).map (i * sizes.prod + ·) else none
  | _, _ => none

/-- What a name stands for. -/
inductive Cell (K : Type) where
  | number (value : Index)
  | scalar (value : K)
  /-- An array that the caller passes, as large as the code needs it. -/
  | input (read : List Index → K)
  /-- An array with the entries that have been computed. -/
  | array (constant : Bool) (sizes : List Nat) (entry : Nat → Option K)

namespace Cell

variable {K : Type}

def number? : Cell K → Option Index
  | .number value => some value
  | _ => none

def scalar? : Cell K → Option K
  | .scalar value => some value
  | _ => none

def read : Cell K → List Index → Option K
  | .input read, indices => some (read indices)
  | .array _ sizes entry, indices => (position sizes (indices.map BitVec.toNat)).bind entry
  | _, _ => none

end Cell

/-- The names that are visible at a place of the code. -/
abbrev Locals (K : Type) := String → Option (Cell K)

/-! ## Operators -/

/-- What literals and operators mean. -/
structure Interpretation (K : Type) [Field K] where
  literal : Float → K
  literal_zero : literal 0 = 0
  literal_one : literal 1 = 1
  /-- The operators other than those of the field. -/
  operator : Operator → List K → K

def Interpretation.operate {K : Type} [Field K] (D : Interpretation K) (op : Operator)
    (operands : List K) : K :=
  match op, operands with
  | .sum, terms => terms.sum
  | .product, factors => factors.prod
  | .division, [a, b] => a / b
  | op, operands => D.operator op operands

def comparison : LogicOp → Operator
  | .eq => .eq
  | .ne => .ne
  | .lt => .lt
  | .le => .le
  | .gt => .gt
  | .ge => .ge
  | .and => .andCondition
  | .or => .orCondition

/-- The functions that generated code calls. -/
def functions : List (String × Operator) :=
  [("std::pow", .power), ("std::abs", .abs), ("std::sqrt", .sqrt), ("std::exp", .exp),
    ("std::log", .ln), ("std::cos", .cos), ("std::sin", .sin), ("std::tan", .tan),
    ("std::acos", .acos), ("std::asin", .asin), ("std::atan", .atan), ("std::atan2", .atan2),
    ("std::cosh", .cosh), ("std::sinh", .sinh), ("std::tanh", .tanh), ("std::erf", .erf),
    ("boost::math::cyl_bessel_j", .besselJ), ("boost::math::cyl_neumann", .besselY),
    ("boost::math::cyl_bessel_i", .besselI), ("boost::math::cyl_bessel_k", .besselK),
    ("std::fmin", .minValue), ("std::fmax", .maxValue), ("libm::erf", .erf),
    ("libm::jn", .besselJ), ("libm::yn", .besselY)]

/-- The methods of floats that generated code calls. -/
def methods : List (String × Operator) :=
  [("powf", .power), ("abs", .abs), ("sqrt", .sqrt), ("exp", .exp), ("ln", .ln), ("cos", .cos),
    ("sin", .sin), ("tan", .tan), ("acos", .acos), ("asin", .asin), ("atan", .atan),
    ("atan2", .atan2), ("cosh", .cosh), ("sinh", .sinh), ("tanh", .tanh), ("min", .minValue),
    ("max", .maxValue)]

/-! ## Expressions -/

section

variable {K : Type}

mutual

def index (L : Locals K) : Expr → Option Index
  | .symbol name => (L name).bind Cell.number?
  | .int n => some (BitVec.ofInt 64 n)
  | .sum terms => (indices L terms).map List.sum
  | .product factors => (indices L factors).map List.prod
  | .difference left right => do return (← index L left) - (← index L right)
  | _ => none

def indices (L : Locals K) : List Expr → Option (List Index)
  | [] => some []
  | e :: rest => do return (← index L e) :: (← indices L rest)

end

/-- The name of an array and all indices it is read or written with. -/
def place (L : Locals K) : Expr → Option (String × List Index)
  | .symbol name => some (name, [])
  | .access array inner => do
      let (name, outer) ← place L array
      return (name, outer ++ (← indices L inner))
  | _ => none

end

section

variable {K : Type} [Field K] (D : Interpretation K) (L : Locals K)

mutual

def value : Expr → Option K
  | .symbol name => (L name).bind Cell.scalar?
  | .float x => some (D.literal x)
  | .int n => some n
  | .bool _ => none
  | .access array inner => do
      let (name, all) ← place L (.access array inner)
      (← L name).read all
  | .sum terms => (values terms).map List.sum
  | .product factors => (values factors).map List.prod
  | .difference left right => do return (← value left) - (← value right)
  | .quotient left right => do return (← value left) / (← value right)
  | .logic op left right => do
      return D.operator (comparison op) [← value left, ← value right]
  | .not operand => do return D.operator .notCondition [← value operand]
  | .conditional condition whenTrue whenFalse => do
      return D.operator .conditional [← value condition, ← value whenTrue, ← value whenFalse]
  | .call function arguments => do
      return D.operator (← functions.lookup function) (← values arguments)
  | .method receiver name arguments => do
      return D.operator (← methods.lookup name) ((← value receiver) :: (← values arguments))
  | .cast operand _ => value operand

def values : List Expr → Option (List K)
  | [] => some []
  | e :: rest => do return (← value e) :: (← values rest)

end

end

/-! ## Index arithmetic -/

section

variable {K : Type} {L : Locals K} {a b : Expr} {i j : Index}

@[simp] theorem index_int (n : Int) : index L (.int n) = some (BitVec.ofInt 64 n) :=
  rfl

theorem index_signed (n : Nat) : index L (.int (Word.signed n)) = some (word n) := by
  rw [index_int, ofInt_signed]

theorem index_natCast (n : Nat) : index L (.int n) = some (word n) := by
  rw [index_int]
  exact congrArg some (BitVec.ofInt_natCast ..)

theorem index_symbol {name : String} (h : L name = some (.number i)) :
    index L (.symbol name) = some i := by
  show (L name).bind Cell.number? = some i
  rw [h]
  rfl

theorem indices_cons (ha : index L a = some i) {rest : List Expr} {js : List Index}
    (hrest : indices L rest = some js) : indices L (a :: rest) = some (i :: js) := by
  show (do return (← index L a) :: (← indices L rest)) = some (i :: js)
  rw [ha, hrest]
  rfl

@[simp] theorem indices_nil : indices L [] = some [] :=
  rfl

theorem indices_one (ha : index L a = some i) : indices L [a] = some [i] :=
  indices_cons ha indices_nil

theorem indices_pair (ha : index L a = some i) (hb : index L b = some j) :
    indices L [a, b] = some [i, j] :=
  indices_cons ha (indices_one hb)

theorem index_sum (ha : index L a = some i) (hb : index L b = some j) :
    index L (.sum [a, b]) = some (i + j) := by
  show (indices L [a, b]).map List.sum = some (i + j)
  rw [indices_pair ha hb]
  simp

theorem index_product (ha : index L a = some i) (hb : index L b = some j) :
    index L (.product [a, b]) = some (i * j) := by
  show (indices L [a, b]).map List.prod = some (i * j)
  rw [indices_pair ha hb]
  simp

theorem index_add (ha : index L a = some i) (hb : index L b = some j) :
    index L (.add a b) = some (i + j) := by
  unfold Expr.add
  split
  · rw [index_int] at ha
    cases ha
    simpa using hb
  · rw [index_int] at hb
    cases hb
    simpa using ha
  · exact index_sum ha hb

theorem index_sub (ha : index L a = some i) (hb : index L b = some j) :
    index L (.sub a b) = some (i - j) := by
  unfold Expr.sub
  split
  · rw [index_int] at hb
    cases hb
    simpa using ha
  · show (do return (← index L a) - (← index L b)) = some (i - j)
    rw [ha, hb]
    rfl

theorem index_mul (ha : index L a = some i) (hb : index L b = some j) :
    index L (.mul a b) = some (i * j) := by
  unfold Expr.mul
  split
  · rw [index_int] at ha
    cases ha
    simpa using hb
  · rw [index_int] at hb
    cases hb
    simpa using ha
  · exact index_product ha hb

theorem place_entries (name : String) {inner : List Expr} {is : List Index}
    (h : indices L inner = some is) : place L (.access (.symbol name) inner) = some (name, is) := by
  rw [place, place, h]
  rfl

theorem place_entry (name : String) {e : Expr} {i : Index} (h : index L e = some i) :
    place L (.entry (.symbol name) e) = some (name, [i]) :=
  place_entries name (indices_one h)

end

/-! ## Reading -/

section

variable {K : Type} [Field K] {D : Interpretation K} {L : Locals K}

@[simp] theorem value_float (x : Float) : value D L (.float x) = some (D.literal x) :=
  rfl

@[simp] theorem value_int (n : Int) : value D L (.int n) = some (n : K) :=
  rfl

theorem value_symbol {name : String} {v : K} (h : L name = some (.scalar v)) :
    value D L (.symbol name) = some v := by
  show (L name).bind Cell.scalar? = some v
  rw [h]
  rfl

theorem value_access {array : Expr} {inner : List Expr} {name : String} {all : List Index}
    {cell : Cell K} (hplace : place L (.access array inner) = some (name, all))
    (hcell : L name = some cell) : value D L (.access array inner) = cell.read all := by
  rw [value, hplace]
  simp [hcell]

theorem values_cons {e : Expr} {v : K} (he : value D L e = some v) {rest : List Expr}
    {vs : List K} (hrest : values D L rest = some vs) :
    values D L (e :: rest) = some (v :: vs) := by
  show (do return (← value D L e) :: (← values D L rest)) = some (v :: vs)
  rw [he, hrest]
  rfl

@[simp] theorem values_nil : values D L [] = some [] :=
  rfl

theorem value_product {factors : List Expr} {vs : List K} (h : values D L factors = some vs) :
    value D L (.product factors) = some vs.prod := by
  show (values D L factors).map List.prod = some vs.prod
  rw [h]
  rfl

end

end ElementKernel.Execution
