import ElementKernel.Kernel.OperatorCall
import ElementKernel.Proofs.Execution.Values
import ElementKernel.Proofs.Outcome

/-!
# Operators in the target languages

The expression of an operator has the value of the operator at the values of its operands, in both
languages.
-/

namespace ElementKernel.Execution

variable {K : Type} [Field K] {D : Interpretation K} {L : Locals K}

theorem values_eq_some {es : List Expr} {vs : List K} :
    values D L es = some vs ↔ List.Forall₂ (fun e v => value D L e = some v) es vs := by
  induction es generalizing vs with
  | nil => cases vs <;> simp
  | cons e es ih =>
      rw [values]
      cases vs with
      | nil => cases value D L e <;> cases values D L es <;> simp
      | cons v vs =>
          rw [List.forall₂_cons, ← ih]
          cases value D L e <;> cases values D L es <;> simp

theorem lookup_function {op : Operator} {function : String} (h : op.function? = some function) :
    functions.lookup function = some op := by
  cases op <;> cases h <;> rfl

theorem lookup_method {op : Operator} {method : String} (h : op.method? = some method) :
    methods.lookup method = some op := by
  cases op <;> cases h <;> rfl

theorem value_call {function : String} {arguments : List Expr} {op : Operator} {vs : List K}
    (hfunction : functions.lookup function = some op) (h : values D L arguments = some vs) :
    value D L (.call function arguments) = some (D.operator op vs) := by
  rw [value, hfunction, h]
  rfl

theorem value_method {method : String} {receiver : Expr} {arguments : List Expr} {op : Operator}
    {vs : List K} (hmethod : methods.lookup method = some op)
    (h : values D L (receiver :: arguments) = some vs) :
    value D L (.method receiver method arguments) = some (D.operator op vs) := by
  rw [values] at h
  rw [value, hmethod]
  cases hreceiver : value D L receiver with
  | none => simp [hreceiver] at h
  | some v =>
      cases harguments : values D L arguments with
      | none => simp [hreceiver, harguments] at h
      | some ws =>
          simp [hreceiver, harguments] at h
          simp [h]

theorem value_cast {e : Expr} {type : String} : value D L (.cast e type) = value D L e := by
  rw [value]

/-- A function or method is never one of the operators of the field. -/
theorem operate_of_function {op : Operator} {function : String} (vs : List K)
    (h : op.function? = some function) : D.operate op vs = D.operator op vs := by
  cases op <;> cases h <;> rfl

theorem operate_of_method {op : Operator} {method : String} (vs : List K)
    (h : op.method? = some method) : D.operate op vs = D.operator op vs := by
  cases op <;> cases h <;> rfl

theorem comparison_of_logicOp {op : Operator} {logic : LogicOp} (h : op.logicOp? = some logic) :
    comparison logic = op := by
  cases op <;> cases h <;> rfl

theorem operate_of_logicOp {op : Operator} {logic : LogicOp} (vs : List K)
    (h : op.logicOp? = some logic) : D.operate op vs = D.operator op vs := by
  cases op <;> cases h <;> rfl

theorem value_shared {op : Operator} {arguments : List Expr} {e : Expr} {vs : List K}
    (h : op.shared? arguments = some e) (hvs : values D L arguments = some vs) :
    value D L e = some (D.operate op vs) := by
  have hforall := values_eq_some.1 hvs
  unfold Operator.shared? at h
  split at h
  next =>
    cases h
    rw [value, hvs]
    rfl
  next =>
    cases h
    rw [value, hvs]
    rfl
  next a b =>
    cases h
    obtain _ | ⟨ha, _ | ⟨hb, _ | _⟩⟩ := hforall
    rw [value, ha, hb]
    rfl
  next a =>
    cases h
    obtain _ | ⟨ha, _ | _⟩ := hforall
    rw [value, ha]
    rfl
  next c t f =>
    cases h
    obtain _ | ⟨hc, _ | ⟨ht, _ | ⟨hf, _ | _⟩⟩⟩ := hforall
    rw [value, hc, ht, hf]
    rfl
  next a b _ _ _ =>
    obtain ⟨logic, hlogic, rfl⟩ := Option.map_eq_some_iff.1 h
    obtain _ | ⟨ha, _ | ⟨hb, _ | _⟩⟩ := hforall
    rw [value, ha, hb, operate_of_logicOp _ hlogic, comparison_of_logicOp hlogic]
    rfl
  next => cases h

theorem value_call_cast {function type : String} {order x : Expr} {op : Operator} {vs : List K}
    (hfunction : functions.lookup function = some op) (h : values D L [order, x] = some vs) :
    value D L (.call function [.cast order type, x]) = some (D.operator op vs) := by
  refine value_call hfunction (values_eq_some.2 ?_)
  obtain _ | ⟨horder, hrest⟩ := values_eq_some.1 h
  exact .cons (value_cast.trans horder) hrest

theorem value_expression {op : Operator} {arguments : List Expr} {dialect : Dialect} {e : Expr}
    {vs : List K} (h : op.expression arguments dialect = .ok e)
    (hvs : values D L arguments = some vs) : value D L e = some (D.operate op vs) := by
  unfold Operator.expression at h
  split at h
  · cases h
  · split at h
    next e' hcall =>
      cases h
      unfold Operator.call? at hcall
      split at hcall
      · split at hcall
        next function hfunction =>
          cases hcall
          rw [operate_of_function vs hfunction]
          exact value_call (lookup_function hfunction) hvs
        next => exact value_shared hcall hvs
      · split at hcall
        next method receiver rest hmethod _ =>
          cases hcall
          rw [operate_of_method vs hmethod]
          exact value_method (lookup_method hmethod) hvs
        next =>
          cases hcall
          exact value_call rfl hvs
        next =>
          cases hcall
          exact value_call_cast rfl hvs
        next =>
          cases hcall
          exact value_call_cast rfl hvs
        next => exact value_shared hcall hvs
    next => cases h

end ElementKernel.Execution
