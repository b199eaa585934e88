import ElementKernel.Proofs.CSource.Meaning
import ElementKernel.Proofs.RustSource.Grammar

/-!
# Values of Rust expressions

An interpretation gives the trees of the grammar and the expressions of generated code a value in a
field.  Only the arithmetic operators are those of the field, and only two paths stand for special
numbers.  Regrouping a chain of operators that bind equally tightly does not change a value
(`Derives.join`).
-/

namespace ElementKernel.RustSource

open CSource (BinaryOp Numeral numeral?)

def nanName : String := "f64::NAN"

def infinityName : String := "f64::INFINITY"

/-- The meaning of everything but arithmetic. -/
structure Interpretation (K : Type*) where
  symbol : String → K
  nan : K
  infinity : K
  truth : Bool → K
  index : K → K → K
  call : String → List K → K
  /-- Calls of something other than a path. -/
  apply : K → List K → K
  method : K → String → List K → K
  not : K → K
  cast : K → String → K
  logic : LogicOp → K → K → K
  conditional : K → K → K → K
  logic_assoc : ∀ op : LogicOp, op.isAssociative → ∀ x y z,
    logic op (logic op x y) z = logic op x (logic op y z)

instance {K : Type*} [Zero K] : Inhabited (Interpretation K) where
  default :=
    { symbol := fun _ => 0
      nan := 0
      infinity := 0
      truth := fun _ => 0
      index := fun _ _ => 0
      call := fun _ _ => 0
      apply := fun _ _ => 0
      method := fun x _ _ => x
      not := fun _ => 0
      cast := fun x _ => x
      logic := fun _ x _ => x
      conditional := fun _ x _ => x
      logic_assoc := fun _ _ _ _ _ => rfl }

/-- The name that a path spells. -/
def pathName (parts : List (List Char)) : String := String.ofList (pathText parts)

variable {K : Type*} [Field K]

namespace Interpretation

variable (I : Interpretation K)

def named (name : String) : K :=
  if name = nanName then I.nan
  else if name = infinityName then I.infinity
  else I.symbol name

def binary : BinaryOp → K → K → K
  | .plus => fun x y => x + y
  | .minus => fun x y => x - y
  | .times => fun x y => x * y
  | .divide => fun x y => x / y
  | .logic op => I.logic op

mutual

def tree : Tree → K
  | .truth value => I.truth value
  | .path parts => I.named (pathName parts)
  | .number n => n.value
  | .index array i => I.index (tree array) (tree i)
  | .call (.path parts) arguments => I.call (pathName parts) (trees arguments)
  | .call function arguments => I.apply (tree function) (trees arguments)
  | .method receiver name arguments =>
      I.method (tree receiver) (String.ofList name) (trees arguments)
  | .negative operand => -tree operand
  | .not operand => I.not (tree operand)
  | .cast operand type => I.cast (tree operand) (pathName type)
  | .binary op left right => I.binary op (tree left) (tree right)
  | .conditional condition whenTrue whenFalse =>
      I.conditional (tree condition) (tree whenTrue) (tree whenFalse)

def trees : List Tree → List K
  | [] => []
  | t :: rest => tree t :: trees rest

end

/-- The number that the text of a finite literal denotes. -/
def decimal : List Char → K
  | '-' :: text => -((numeral? text).map Numeral.value).getD 0
  | text => ((numeral? text).map Numeral.value).getD 0

def float (digits : Nat) (x : Float) : K :=
  if x.isNaN then I.nan
  else if x.isInf then if x < 0 then -I.infinity else I.infinity
  else decimal (FloatLiteral.text x digits).toList

mutual

/-- The value of an expression whose float literals have so many digits. -/
def expr (digits : Nat) : Expr → K
  | .symbol name => I.symbol name
  | .float x => I.float digits x
  | .int n => n
  | .bool b => I.truth b
  | .access array indices => (exprs digits indices).foldl I.index (expr digits array)
  | .sum terms => (exprs digits terms).sum
  | .product factors => (exprs digits factors).prod
  | .difference left right => expr digits left - expr digits right
  | .quotient left right => expr digits left / expr digits right
  | .logic op left right => I.logic op (expr digits left) (expr digits right)
  | .not operand => I.not (expr digits operand)
  | .conditional condition whenTrue whenFalse =>
      I.conditional (expr digits condition) (expr digits whenTrue) (expr digits whenFalse)
  | .call function arguments => I.call function (exprs digits arguments)
  | .method receiver name arguments =>
      I.method (expr digits receiver) name (exprs digits arguments)
  | .cast operand type => I.cast (expr digits operand) type

def exprs (digits : Nat) : List Expr → List K
  | [] => []
  | e :: rest => expr digits e :: exprs digits rest

end

@[simp] theorem expr_symbol (digits : Nat) (name : String) :
    I.expr digits (.symbol name) = I.symbol name := by
  rw [expr]

/-- The value of a chain of two operators of one rank does not depend on the grouping. -/
theorem binary_regroup {op other : BinaryOp} (hrank : operatorRank other = operatorRank op)
    (hop : op.Chains) (x y z : K) :
    I.binary other (I.binary op x y) z = I.binary op x (I.binary other y z) := by
  obtain rfl | rfl | ⟨logic, rfl, hlogic⟩ := hop
  · cases other with
    | plus => exact add_assoc x y z
    | minus => exact add_sub_assoc x y z
    | times | divide => cases hrank
    | logic other => cases other <;> cases hrank
  · cases other with
    | plus | minus => cases hrank
    | times => exact mul_assoc x y z
    | divide => exact mul_div_assoc x y z
    | logic other => cases other <;> cases hrank
  · have hsame : other = .logic logic := by
      cases logic with
      | and | or =>
          cases other with
          | logic other => cases other <;> first | rfl | cases hrank
          | _ => cases hrank
      | _ => cases hlogic
    subst hsame
    exact I.logic_assoc logic hlogic x y z

end Interpretation

/-! ## Chains -/

/-- The operators of the rank of one that chains associate to the left, and comparisons are not
among them. -/
theorem leftRank_of_chains {op other : BinaryOp} (hop : op.Chains)
    (hrank : operatorRank other = operatorRank op) :
    leftRank other = operatorRank op ∧ other ≠ .logic .lt := by
  obtain rfl | rfl | ⟨logic, rfl, hlogic⟩ := hop
  · cases other with
    | logic other => cases other <;> cases hrank
    | _ => exact ⟨hrank, by simp⟩
  · cases other with
    | logic other => cases other <;> cases hrank
    | _ => exact ⟨hrank, by simp⟩
  · cases logic with
    | and | or =>
        cases other with
        | logic other => cases other <;> first | exact ⟨rfl, by simp⟩ | cases hrank
        | _ => cases hrank
    | _ => cases hlogic

/-- A phrase of the rank of an operator binds more tightly or ends with such an operator and its
right operand. -/
theorem Derives.tighten {rank : Nat} {tokens : List Token} {t : Tree}
    (h : Derives rank tokens t) (hle : rank ≤ 4) :
    Derives (rank + 1) tokens t ∨
      ∃ op left right l r, operatorRank op = rank ∧ tokens = left ++ .operator op :: right ∧
        t = .binary op l r ∧ Derives (leftRank op) left l ∧ Derives (rank + 1) right r := by
  cases h with
  | truth value => exact Or.inl (.truth value)
  | path part parts => exact Or.inl (.path part parts)
  | number h => exact Or.inl (.number h)
  | group h => exact Or.inl (.group h)
  | index hrank harray hindex => exact Or.inl (.index (by omega) harray hindex)
  | call arguments hrank hfunction harguments =>
      exact Or.inl (.call arguments (by omega) hfunction harguments)
  | method name arguments hrank hreceiver harguments =>
      exact Or.inl (.method name arguments (by omega) hreceiver harguments)
  | negative hrank h => exact Or.inl (.negative (by omega) h)
  | not hrank h => exact Or.inl (.not (by omega) h)
  | cast part parts hrank h => exact Or.inl (.cast part parts (by omega) h)
  | binary op hrank hleft hright hgeneric =>
      obtain hlt | heq := Nat.lt_or_eq_of_le hrank
      · exact Or.inl (.binary op hlt hleft hright hgeneric)
      · subst heq
        exact Or.inr ⟨op, _, _, _, _, rfl, rfl, rfl, hleft, hright⟩
  | conditional hcondition htrue hfalse => exact Or.inl (.conditional hcondition htrue hfalse)

/-- An operator in front of a phrase of its own rank takes the first operand of the phrase, which
does not change the value. -/
theorem Derives.join (I : Interpretation K) {op : BinaryOp} (hop : op.Chains)
    {left right : List Token} {l r : Tree} (hleft : Derives (operatorRank op) left l)
    (hright : Derives (operatorRank op) right r) :
    ∃ t, Derives (operatorRank op) (left ++ .operator op :: right) t ∧
      I.tree t = I.binary op (I.tree l) (I.tree r) := by
  induction hlength : right.length using Nat.strongRecOn generalizing right r with
  | ind length ih =>
      obtain ⟨hassociates, hplain⟩ := leftRank_of_chains hop rfl
      obtain htight | ⟨other, first, last, f, s, hrank, rfl, rfl, hfirst, hlast⟩ :=
        hright.tighten (operatorRank_le op)
      · rw [← hassociates] at hleft
        exact ⟨_, .binary op le_rfl hleft htight fun hlt => absurd hlt hplain, rfl⟩
      · obtain ⟨hother, hotherPlain⟩ := leftRank_of_chains hop hrank
        have hshorter : first.length < length := by
          rw [← hlength, List.length_append, List.length_cons]
          omega
        rw [hother] at hfirst
        obtain ⟨t, ht, hvalue⟩ := ih first.length hshorter hfirst rfl
        refine ⟨.binary other t s, ?_, ?_⟩
        · rw [← hother] at ht
          rw [← List.cons_append, ← List.append_assoc]
          rw [← hrank] at hlast ⊢
          exact .binary other le_rfl ht hlast fun hlt => absurd hlt hotherPlain
        · rw [Interpretation.tree, Interpretation.tree, hvalue]
          exact I.binary_regroup hrank hop _ _ _

end ElementKernel.RustSource
