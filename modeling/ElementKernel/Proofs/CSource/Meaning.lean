import ElementKernel.Code.Render
import ElementKernel.Proofs.CSource.Grammar

/-!
# Values of C expressions

An interpretation gives the trees of the grammar and the expressions of generated code a value in a
field.  Only the arithmetic operators are those of the field.  Regrouping a chain of operators that
bind equally tightly does not change a value (`Derives.join`).
-/

namespace ElementKernel.CSource

/-- Operators whose operands are put in parentheses only when they bind less tightly. -/
def BinaryOp.Chains (op : BinaryOp) : Prop :=
  op = .plus ∨ op = .times ∨ ∃ logic : LogicOp, op = .logic logic ∧ logic.isAssociative

/-- The meaning of everything but arithmetic. -/
structure Interpretation (K : Type*) where
  symbol : String → K
  constant : Constant → K
  index : K → K → K
  call : String → List K → K
  /-- Calls of something other than a name. -/
  apply : K → List K → K
  not : K → K
  cast : String → K → K
  logic : LogicOp → K → K → K
  conditional : K → K → K → K
  logic_assoc : ∀ op : LogicOp, op.isAssociative → ∀ x y z,
    logic op (logic op x y) z = logic op x (logic op y z)

instance {K : Type*} [Zero K] : Inhabited (Interpretation K) where
  default :=
    { symbol := fun _ => 0
      constant := fun _ => 0
      index := fun _ _ => 0
      call := fun _ _ => 0
      apply := fun _ _ => 0
      not := fun _ => 0
      cast := fun _ x => x
      logic := fun _ _ _ => 0
      conditional := fun _ x _ => x
      logic_assoc := fun _ _ _ _ _ => rfl }

/-- The text of a type name. -/
def typeText (words : List (List Char)) : String := " ".intercalate (words.map String.ofList)

variable {K : Type*} [Field K]

def Numeral.value (n : Numeral) : K := (n.significand : K) * (10 : K) ^ n.exponent

namespace Interpretation

variable (I : Interpretation K)

def binary : BinaryOp → K → K → K
  | .plus => fun x y => x + y
  | .minus => fun x y => x - y
  | .times => fun x y => x * y
  | .divide => fun x y => x / y
  | .logic op => I.logic op

/-- The value of the text of a number or of a constant. -/
def unsigned (text : List Char) : K :=
  match numeral? text, constant? text with
  | some n, _ => n.value
  | none, some c => I.constant c
  | none, none => 0

/-- What the text of a literal denotes. -/
def literal : List Char → K
  | '-' :: text => -I.unsigned text
  | text => I.unsigned text

mutual

def tree : Tree → K
  | .constant c => I.constant c
  | .name word => I.symbol (String.ofList word)
  | .number n => n.value
  | .index array i => I.index (tree array) (tree i)
  | .call (.name word) arguments => I.call (String.ofList word) (trees arguments)
  | .call function arguments => I.apply (tree function) (trees arguments)
  | .negative operand => -tree operand
  | .not operand => I.not (tree operand)
  | .cast type operand => I.cast (typeText type) (tree operand)
  | .binary op left right => I.binary op (tree left) (tree right)
  | .conditional condition whenTrue whenFalse =>
      I.conditional (tree condition) (tree whenTrue) (tree whenFalse)

def trees : List Tree → List K
  | [] => []
  | t :: rest => tree t :: trees rest

end

mutual

/-- The value of an expression whose float literals have so many digits. -/
def expr (digits : Nat) : Expr → K
  | .symbol name => I.symbol name
  | .float x => I.literal (Renderer.float ⟨.c, digits⟩ x).toList
  | .int n => n
  | .bool b => I.constant (if b then .true else .false)
  | .access array indices => (exprs digits indices).foldl I.index (expr digits array)
  | .sum terms => (exprs digits terms).sum
  | .product factors => (exprs digits factors).prod
  | .difference left right => expr digits left - expr digits right
  | .quotient left right => expr digits left / expr digits right
  | .logic op left right => I.logic op (expr digits left) (expr digits right)
  | .not operand => I.not (expr digits operand)
  | .conditional condition whenTrue whenFalse =>
      I.conditional (expr digits condition) (expr digits whenTrue) (expr digits whenFalse)
  | .call function arguments => I.call function (exprs digits arguments)
  | .method target name arguments => I.call name (expr digits target :: exprs digits arguments)
  | .cast operand type => I.cast type (expr digits operand)

def exprs (digits : Nat) : List Expr → List K
  | [] => []
  | e :: rest => expr digits e :: exprs digits rest

end

@[simp] theorem expr_symbol (digits : Nat) (name : String) :
    I.expr digits (.symbol name) = I.symbol name := by
  rw [expr]

/-- The value of a chain of two operators of one rank does not depend on the grouping. -/
theorem binary_regroup {op other : BinaryOp} (hrank : other.rank = op.rank)
    (hop : op.Chains) (x y z : K) :
    I.binary other (I.binary op x y) z = I.binary op x (I.binary other y z) := by
  obtain rfl | rfl | ⟨logic, rfl, hlogic⟩ := hop
  · cases other with
    | plus => exact add_assoc x y z
    | minus => exact add_sub_assoc x y z
    | times | divide => cases hrank
    | logic other => cases other <;> cases hrank
  · cases other with
    | plus | minus => cases hrank
    | times => exact mul_assoc x y z
    | divide => exact mul_div_assoc x y z
    | logic other => cases other <;> cases hrank
  · have hsame : other = .logic logic := by
      cases logic with
      | and | or =>
          cases other with
          | logic other => cases other <;> first | rfl | cases hrank
          | _ => cases hrank
      | _ => cases hlogic
    subst hsame
    exact I.logic_assoc logic hlogic x y z

end Interpretation

/-! ## Chains -/

variable {types : List Char → Prop}

/-- A phrase of the rank of an operator binds more tightly or ends with such an operator and its
right operand. -/
theorem Derives.tighten {rank : Nat} {tokens : List Token} {t : Tree}
    (h : Derives types rank tokens t) (hpos : 0 < rank) (hle : rank ≤ 6) :
    Derives types (rank + 1) tokens t ∨
      ∃ op left right l r, op.rank = rank ∧ tokens = left ++ .operator op :: right ∧
        t = .binary op l r ∧ Derives types rank left l ∧ Derives types (rank + 1) right r := by
  cases h with
  | constant h => exact Or.inl (.constant h)
  | name h htype => exact Or.inl (.name h htype)
  | number h => exact Or.inl (.number h)
  | group h => exact Or.inl (.group h)
  | index hrank harray hindex => exact Or.inl (.index (by omega) harray hindex)
  | call arguments hrank hfunction harguments =>
      exact Or.inl (.call arguments (by omega) hfunction harguments)
  | construct arguments h htype harguments =>
      exact Or.inl (.construct arguments h htype harguments)
  | negative hrank h => exact Or.inl (.negative (by omega) h)
  | not hrank h => exact Or.inl (.not (by omega) h)
  | cast hrank htype h => exact Or.inl (.cast (by omega) htype h)
  | binary op hrank hleft hright =>
      obtain hlt | heq := Nat.lt_or_eq_of_le hrank
      · exact Or.inl (.binary op hlt hleft hright)
      · subst heq
        exact Or.inr ⟨op, _, _, _, _, rfl, rfl, rfl, hleft, hright⟩
  | conditional => exact absurd hpos (Nat.lt_irrefl 0)

/-- An operator in front of a phrase of its own rank takes the first operand of the phrase, which
does not change the value. -/
theorem Derives.join (I : Interpretation K) {op : BinaryOp} (hop : op.Chains)
    {left right : List Token} {l r : Tree} (hleft : Derives types op.rank left l)
    (hright : Derives types op.rank right r) :
    ∃ t, Derives types op.rank (left ++ .operator op :: right) t ∧
      I.tree t = I.binary op (I.tree l) (I.tree r) := by
  induction hlength : right.length using Nat.strongRecOn generalizing right r with
  | ind length ih =>
      obtain htight | ⟨other, first, last, f, s, hrank, rfl, rfl, hfirst, hlast⟩ :=
        hright.tighten op.rank_pos op.rank_le
      · exact ⟨_, .binary op le_rfl hleft htight, rfl⟩
      · have hshorter : first.length < length := by
          rw [← hlength, List.length_append, List.length_cons]
          omega
        obtain ⟨t, ht, hvalue⟩ := ih first.length hshorter hfirst rfl
        rw [← hrank] at ht hlast
        refine ⟨.binary other t s, ?_, ?_⟩
        · rw [← hrank, ← List.cons_append, ← List.append_assoc]
          exact .binary other le_rfl ht hlast
        · rw [Interpretation.tree, Interpretation.tree, hvalue]
          exact I.binary_regroup hrank hop _ _ _

end ElementKernel.CSource
