import ElementKernel.Kernel.OperatorCall
import ElementKernel.Proofs.Execution.Operators
import ElementKernel.Proofs.Portability.Evaluation
import Mathlib

/-!
# Twins

Two pieces of code are twins when the first, read as C, and the second, read as Rust, have the same
outcome wherever the first is portable.  Twins are put together from twins: `twin_expression` for
the operators of expression graphs, and one lemma for each kind of statement.
-/

namespace ElementKernel.Portability

open Execution

/-! ## Outcomes -/

/-- The outcome of the portable reading is that of C and of Rust, unless it says that these
disagree. -/
def Agree {α : Type} (p c r : Outcome α) : Prop := p = .error .unportable ∨ c = p ∧ r = p

namespace Agree

variable {α β : Type} {p c r : Outcome α}

theorem refl (x : Outcome α) : Agree x x x := Or.inr ⟨rfl, rfl⟩

theorem bind (h : Agree p c r) {f g k : α → Outcome β} (hnext : ∀ a, Agree (f a) (g a) (k a)) :
    Agree (p >>= f) (c >>= g) (r >>= k) := by
  obtain rfl | ⟨hc, hr⟩ := h
  · exact Or.inl rfl
  · rw [hc, hr]
    cases p with
    | error stop => exact Or.inr ⟨rfl, rfl⟩
    | ok a => exact hnext a

end Agree

/-! ## Expressions -/

variable {K : Type} [Field K] [LinearOrder K] [FloorRing K] {D : Interpretation K}

/-- The first expression as C and the second one as Rust have the same values, and the second one is
well-typed where the first one would be. -/
structure Twin (D : Interpretation K) (e e' : Expr) : Prop where
  agree : ∀ L, Agree (eval D .portable L e) (eval D .c L e) (eval D .rust L e')
  kind : ∀ kind, hasKind kind e → hasKind kind e'

theorem agree_evalAll {es es' : List Expr} (h : List.Forall₂ (Twin D) es es') (L : Locals K) :
    Agree (evalAll D .portable L es) (evalAll D .c L es) (evalAll D .rust L es') := by
  induction h with
  | nil =>
      simp only [evalAll_nil]
      exact Agree.refl _
  | cons hfirst _ ih =>
      simp only [evalAll_cons]
      exact (hfirst.agree L).bind fun v => ih.bind fun vs => Agree.refl _

theorem allNumbers_of_forall₂ {es es' : List Expr} (h : List.Forall₂ (Twin D) es es')
    (hnumbers : allNumbers es) : allNumbers es' := by
  induction h with
  | nil => rfl
  | cons hfirst _ ih =>
      rw [allNumbers_cons, Bool.and_eq_true] at hnumbers ⊢
      exact ⟨hfirst.kind _ hnumbers.1, ih hnumbers.2⟩

/-- Twins are assigned the same numbers. -/
theorem Twin.agree_evalNumber {e e' : Expr} (h : Twin D e e') (L : Locals K) :
    Agree (evalNumber D .portable L e) (evalNumber D .c L e) (evalNumber D .rust L e') := by
  unfold evalNumber
  cases hkind : hasKind .number e with
  | false => exact Or.inl rfl
  | true =>
      rw [h.kind _ hkind]
      exact h.agree L

namespace Twin

theorem symbol (name : String) : Twin D (.symbol name) (.symbol name) where
  agree L := by
    simp only [eval_symbol]
    exact Agree.refl _
  kind _ h := h

theorem float (x : Float) : Twin D (.float x) (.float x) where
  agree L := by
    simp only [eval_float]
    exact Agree.refl _
  kind _ h := h

theorem access (array : Expr) (inner : List Expr) :
    Twin D (.access array inner) (.access array inner) where
  agree L := by
    simp only [eval_access]
    exact Agree.refl _
  kind _ h := h

theorem integer (value : Int) : Twin D (.int value) (.float (Float.ofInt value)) where
  agree L := by
    simp only [eval_int, eval_float, Reading.integer]
    split
    next heq => exact Or.inr ⟨rfl, congrArg _ heq⟩
    next => exact Or.inl rfl
  kind _ h := h

theorem sum {terms terms' : List Expr} (h : List.Forall₂ (Twin D) terms terms') :
    Twin D (.sum terms) (.sum terms') where
  agree L := by
    simp only [eval_sum]
    exact (agree_evalAll h L).bind fun _ => Agree.refl _
  kind kind hkind := by
    rw [hasKind_sum, Bool.and_eq_true] at hkind ⊢
    exact ⟨hkind.1, allNumbers_of_forall₂ h hkind.2⟩

theorem product {factors factors' : List Expr} (h : List.Forall₂ (Twin D) factors factors') :
    Twin D (.product factors) (.product factors') where
  agree L := by
    simp only [eval_product]
    exact (agree_evalAll h L).bind fun _ => Agree.refl _
  kind kind hkind := by
    rw [hasKind_product, Bool.and_eq_true] at hkind ⊢
    exact ⟨hkind.1, allNumbers_of_forall₂ h hkind.2⟩

variable {a a' b b' : Expr}

/-- Where a quotient of integers leaves no remainder, it is that of the field. -/
theorem agree_quotient (integers integers' : Bool) (x y : K) :
    Agree (Reading.quotient .portable integers x y) (Reading.quotient .c integers x y)
      (Reading.quotient .rust integers' x y) := by
  cases integers with
  | false => exact Agree.refl _
  | true =>
      unfold Reading.quotient
      dsimp only
      split
      next hexact => exact Or.inr ⟨by rw [if_neg hexact.1, hexact.2], rfl⟩
      next => exact Or.inl rfl

theorem quotient (ha : Twin D a a') (hb : Twin D b b') :
    Twin D (.quotient a b) (.quotient a' b') where
  agree L := by
    simp only [eval_quotient]
    exact (ha.agree L).bind fun x => (hb.agree L).bind fun y => agree_quotient _ _ x y
  kind kind hkind := by
    rw [hasKind_quotient, Bool.and_eq_true, Bool.and_eq_true] at hkind ⊢
    exact ⟨⟨hkind.1.1, ha.kind _ hkind.1.2⟩, hb.kind _ hkind.2⟩

theorem not (ha : Twin D a a') : Twin D (.not a) (.not a') where
  agree L := by
    simp only [eval_not]
    exact (ha.agree L).bind fun _ => Agree.refl _
  kind kind hkind := by
    rw [hasKind_not, Bool.and_eq_true] at hkind ⊢
    exact ⟨hkind.1, ha.kind _ hkind.2⟩

theorem agree_logic (op : LogicOp) (ha : Twin D a a') (hb : Twin D b b') (L : Locals K) :
    Agree (eval D .portable L (.logic op a b)) (eval D .c L (.logic op a b))
      (eval D .rust L (.logic op a' b')) := by
  cases hop : op.isAssociative with
  | false =>
      simp only [eval_comparison _ _ _ _ _ hop]
      exact (ha.agree L).bind fun _ => (hb.agree L).bind fun _ => Agree.refl _
  | true =>
      obtain rfl | rfl : op = .and ∨ op = .or := by cases op <;> simp_all [LogicOp.isAssociative]
      · simp only [eval_and]
        refine (ha.agree L).bind fun x => ?_
        split
        · exact Agree.refl _
        · exact (hb.agree L).bind fun _ => Agree.refl _
      · simp only [eval_or]
        refine (ha.agree L).bind fun x => ?_
        split
        · exact Agree.refl _
        · exact (hb.agree L).bind fun _ => Agree.refl _

theorem logic (op : LogicOp) (ha : Twin D a a') (hb : Twin D b b') :
    Twin D (.logic op a b) (.logic op a' b') where
  agree := agree_logic op ha hb
  kind kind hkind := by
    rw [hasKind_logic, Bool.and_eq_true, Bool.or_eq_true] at hkind ⊢
    refine ⟨hkind.1, hkind.2.imp (fun h => ?_) fun h => ?_⟩
    · rw [Bool.and_eq_true] at h ⊢
      exact ⟨ha.kind _ h.1, hb.kind _ h.2⟩
    · rw [Bool.and_eq_true, Bool.and_eq_true] at h ⊢
      exact ⟨⟨h.1.1, ha.kind _ h.1.2⟩, hb.kind _ h.2⟩

theorem conditional {c c' : Expr} (hc : Twin D c c') (ha : Twin D a a') (hb : Twin D b b') :
    Twin D (.conditional c a b) (.conditional c' a' b') where
  agree L := by
    simp only [eval_conditional]
    refine (hc.agree L).bind fun x => ?_
    split
    · exact hb.agree L
    · exact ha.agree L
  kind kind hkind := by
    rw [hasKind_conditional, Bool.and_eq_true, Bool.and_eq_true] at hkind ⊢
    exact ⟨⟨hc.kind _ hkind.1.1, ha.kind _ hkind.1.2⟩, hb.kind _ hkind.2⟩

/-! ### Functions and methods -/

variable {arguments arguments' : List Expr} {op : Operator} {function : String}

/-- The portable reading of a function is that of C unless an order is no integer. -/
theorem agree_call (op : Operator) (vs : List K) :
    Agree (Reading.call D .portable op vs) (Reading.call D .c op vs)
      (Reading.call D .rust op vs) := by
  unfold Reading.call
  dsimp only
  split
  · exact Or.inl rfl
  · exact Agree.refl _

theorem call {function' : String} (hfunction : functions.lookup function = some op)
    (hfunction' : functions.lookup function' = some op)
    (h : List.Forall₂ (Twin D) arguments arguments') :
    Twin D (.call function arguments) (.call function' arguments') where
  agree L := by
    simp only [eval_call _ _ _ _ hfunction, eval_call _ _ _ _ hfunction']
    exact (agree_evalAll h L).bind fun vs => agree_call op vs
  kind kind hkind := by
    rw [hasKind_call, Bool.and_eq_true] at hkind ⊢
    exact ⟨hkind.1, allNumbers_of_forall₂ h hkind.2⟩

theorem method {receiver : Expr} {rest : List Expr} {name : String}
    (hfunction : functions.lookup function = some op) (hmethod : methods.lookup name = some op)
    (h : List.Forall₂ (Twin D) arguments (receiver :: rest)) :
    Twin D (.call function arguments) (.method receiver name rest) where
  agree L := by
    have hcall := (agree_evalAll h L).bind fun vs => agree_call (D := D) op vs
    simp only [evalAll_cons, bind_assoc] at hcall
    simp only [eval_call _ _ _ _ hfunction, eval_method _ _ _ _ _ hmethod]
    exact hcall
  kind kind hkind := by
    rw [hasKind_call, Bool.and_eq_true] at hkind
    have hnumbers := allNumbers_of_forall₂ h hkind.2
    rw [allNumbers_cons, Bool.and_eq_true] at hnumbers
    rw [hasKind_method, Bool.and_eq_true, Bool.and_eq_true]
    exact ⟨⟨hkind.1, hnumbers.1⟩, hnumbers.2⟩

theorem cast_order (x : K) : Reading.cast .rust "i32" x = .ok ((toInt32 x : ℤ) : K) := by
  unfold Reading.cast
  dsimp only
  rw [if_pos rfl]

/-- An order that is a 32-bit integer stays the same. -/
theorem agree_order (horder : takesOrder op) (x y : K) :
    Agree (Reading.call D .portable op [x, y]) (Reading.call D .c op [x, y])
      (Reading.call D .rust op [((toInt32 x : ℤ) : K), y]) := by
  unfold Reading.call
  dsimp only
  split
  next => exact Or.inl rfl
  next hexact =>
    have hx : ((toInt32 x : ℤ) : K) = x := by simpa [horder] using hexact
    rw [hx]
    exact Agree.refl _

theorem eval_pair (r : Reading) (L : Locals K) (hfunction : functions.lookup function = some op) :
    eval D r L (.call function [a, b]) =
      (eval D r L a >>= fun x => eval D r L b >>= fun y => r.call D op [x, y]) := by
  simp only [eval_call _ _ _ _ hfunction, evalAll_cons, evalAll_nil, bind_assoc]
  rfl

theorem order {function' : String} {x x' : Expr} (horder : takesOrder op)
    (hfunction : functions.lookup function = some op)
    (hfunction' : functions.lookup function' = some op)
    (h : Twin D a a') (hx : Twin D x x') :
    Twin D (.call function [a, x]) (.call function' [.cast a' "i32", x']) where
  agree L := by
    rw [eval_pair _ _ hfunction, eval_pair _ _ hfunction, eval_pair _ _ hfunction', eval_cast,
      bind_assoc]
    refine (h.agree L).bind fun v => ?_
    rw [cast_order]
    exact (hx.agree L).bind fun w => agree_order horder v w
  kind kind hkind := by
    simp only [hasKind_call, hasKind_cast, allNumbers_cons, allNumbers_nil,
      Bool.and_eq_true] at hkind ⊢
    exact ⟨hkind.1, ⟨rfl, h.kind _ hkind.2.1⟩, hx.kind _ hkind.2.2.1, trivial⟩

end Twin

/-! ## Operators -/

end ElementKernel.Portability
