import ElementKernel.Quadrature.Legendre
import Mathlib.Algebra.Polynomial.Derivative
import Mathlib.Tactic.LinearCombination

/-!
# Legendre polynomials

Over a field of characteristic zero the pair that the recurrence carries consists of two consecutive
Legendre polynomials at the point.  Their derivatives satisfy two identities of first order, proved
together by induction, from which the derivative at a point follows where `x * x` is not one:
`legendre_evaluates`.
-/

namespace ElementKernel.Quadrature

open Polynomial

variable (K : Type) [Field K]

/-- The Legendre polynomials, by Bonnet's recursion. -/
noncomputable def legendrePolynomial : ℕ → K[X]
  | 0 => 1
  | 1 => X
  | m + 2 =>
      C ((m + 2 : ℕ) : K)⁻¹ *
        (((2 * m + 3 : ℕ) : K[X]) * X * legendrePolynomial (m + 1) -
          ((m + 1 : ℕ) : K[X]) * legendrePolynomial m)

/-- The Legendre polynomial of the degree below, which is zero below the first. -/
noncomputable def precedingPolynomial : ℕ → K[X]
  | 0 => 0
  | m + 1 => legendrePolynomial K m

variable [CharZero K]

theorem bonnet (m : ℕ) :
    (m + 2 : K[X]) * legendrePolynomial K (m + 2) =
      (2 * (m + 2) - 1 : K[X]) * X * legendrePolynomial K (m + 1) -
        (m + 1 : K[X]) * legendrePolynomial K m := by
  have hne : ((m + 2 : ℕ) : K) ≠ 0 := Nat.cast_ne_zero.2 (Nat.succ_ne_zero _)
  have hcast : (m + 2 : K[X]) = C ((m + 2 : ℕ) : K) := by
    rw [C_eq_natCast]
    push_cast
    rfl
  rw [legendrePolynomial, hcast, ← mul_assoc, ← C_mul, mul_inv_cancel₀ hne, C_1, one_mul, ← hcast]
  push_cast
  ring

/-- One round of the recurrence, from the first polynomial on. -/
theorem bonnet_preceding (n : ℕ) :
    (n + 1 : K[X]) * legendrePolynomial K (n + 1) =
      (2 * (n + 1) - 1 : K[X]) * X * legendrePolynomial K n -
        (n : K[X]) * precedingPolynomial K n := by
  cases n with
  | zero => norm_num [legendrePolynomial, precedingPolynomial]
  | succ m =>
      have hround := bonnet K m
      rw [precedingPolynomial]
      push_cast
      linear_combination hround

variable {K}

/-- The recurrence carries two consecutive polynomials. -/
theorem evaluate_eq (x : K) (n : ℕ) :
    LegendrePair.evaluate x n =
      ⟨(legendrePolynomial K n).eval x, (precedingPolynomial K n).eval x⟩ := by
  induction n with
  | zero => simp [LegendrePair.evaluate, legendrePolynomial, precedingPolynomial]
  | succ n ih =>
      have hne : ((n + 1 : ℕ) : K) ≠ 0 := Nat.cast_ne_zero.2 (Nat.succ_ne_zero _)
      have hround := congrArg (eval x) (bonnet_preceding K n)
      simp only [eval_mul, eval_sub, eval_add, eval_natCast, eval_one, eval_ofNat, eval_X]
        at hround
      rw [LegendrePair.evaluate, ih, precedingPolynomial]
      dsimp only
      congr 1
      rw [div_eq_iff hne]
      push_cast
      linear_combination -hround

/-! ## Derivatives -/

/-- The derivative of a polynomial from the one below, and the derivative of the one below from it.
Each of the two identities needs the other one a degree lower. -/
theorem derivative_legendrePolynomial (n : ℕ) :
    derivative (legendrePolynomial K n) =
        X * derivative (precedingPolynomial K n) + (n : K[X]) * precedingPolynomial K n ∧
      derivative (precedingPolynomial K n) =
        X * derivative (legendrePolynomial K n) - (n : K[X]) * legendrePolynomial K n := by
  induction n with
  | zero => simp [legendrePolynomial, precedingPolynomial]
  | succ n ih =>
      obtain ⟨hupper, hlower⟩ := ih
      have hround := bonnet_preceding K n
      have hderivative := congrArg derivative hround
      simp only [derivative_mul, derivative_sub, derivative_add, derivative_natCast,
        derivative_one, derivative_ofNat, derivative_X] at hderivative
      have hne : (n + 1 : K[X]) ≠ 0 := by exact_mod_cast Nat.succ_ne_zero n
      have hnext : derivative (legendrePolynomial K (n + 1)) =
          X * derivative (legendrePolynomial K n) +
            (n + 1 : K[X]) * legendrePolynomial K n := by
        refine mul_left_cancel₀ hne ?_
        linear_combination hderivative - (n : K[X]) * hlower
      rw [precedingPolynomial]
      push_cast
      refine ⟨hnext, ?_⟩
      rw [hnext]
      linear_combination hround + X * hlower + hupper

theorem derivative_mul_sub_one (n : ℕ) :
    derivative (legendrePolynomial K n) * (X * X - 1) =
      (n : K[X]) * (X * legendrePolynomial K n - precedingPolynomial K n) := by
  obtain ⟨hupper, hlower⟩ := derivative_legendrePolynomial (K := K) n
  linear_combination -X * hlower - hupper

/-- The recurrence gives the value of the Legendre polynomial of every degree, and the value of its
derivative where the square of the point is not one. -/
theorem legendre_evaluates (n : ℕ) (x : K) :
    legendre n x = (legendrePolynomial K n).eval x ∧
      (x * x ≠ 1 → legendreDerivative n x = (derivative (legendrePolynomial K n)).eval x) := by
  refine ⟨by rw [legendre, evaluate_eq], fun hx => ?_⟩
  have hne : x * x - 1 ≠ 0 := sub_ne_zero.2 hx
  have hderivative := congrArg (eval x) (derivative_mul_sub_one (K := K) n)
  simp only [eval_mul, eval_sub, eval_natCast, eval_one, eval_X] at hderivative
  rw [legendreDerivative, evaluate_eq]
  dsimp only
  rw [Nat.cast_one, div_eq_iff hne, hderivative]

/-- At two the polynomial of degree three has the value 17, with slope 57 / 2. -/
theorem legendre_evaluates_cubic :
    (2 : ℚ) * 2 ≠ 1 ∧ (legendrePolynomial ℚ 3).eval 2 = 17 ∧
      (derivative (legendrePolynomial ℚ 3)).eval 2 = 57 / 2 := by
  have hpoint : (2 : ℚ) * 2 ≠ 1 := by norm_num
  obtain ⟨hvalue, hslope⟩ := legendre_evaluates 3 (2 : ℚ)
  refine ⟨hpoint, hvalue.symm.trans ?_, (hslope hpoint).symm.trans ?_⟩
  · norm_num [legendre, LegendrePair.evaluate]
  · norm_num [legendreDerivative, LegendrePair.evaluate]

end ElementKernel.Quadrature
