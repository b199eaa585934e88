import Mathlib.Algebra.Polynomial.Derivative
import Mathlib.Data.Nat.Factorial.Basic
import Mathlib.Tactic.FieldSimp
import Mathlib.Tactic.LinearCombination

/-!
# Integrals of polynomials

In a field of characteristic zero the integral of a polynomial is what its monomials give.  The
facts below are those that rules with the weights `(1 - x) ^ alpha` need: integration by
substitution of an affine function, and the beta integrals on the unit interval.
-/

namespace ElementKernel.Quadrature

open Polynomial

variable {K : Type} [Field K]

/-- The integral of a polynomial from `a` to `b`. -/
noncomputable def integral (a b : K) : K[X] →ₗ[K] K :=
  Polynomial.lsum fun n => LinearMap.mulRight K ((b ^ (n + 1) - a ^ (n + 1)) / ((n : K) + 1))

theorem integral_monomial (a b c : K) (n : ℕ) :
    integral a b (monomial n c) = c * ((b ^ (n + 1) - a ^ (n + 1)) / ((n : K) + 1)) := by
  simp [integral, Polynomial.lsum]

section

variable [CharZero K]

theorem integral_derivative (a b : K) (p : K[X]) :
    integral a b (derivative p) = p.eval b - p.eval a := by
  induction p using Polynomial.induction_on' with
  | add p q hp hq => rw [derivative_add, map_add, hp, hq, eval_add, eval_add]; ring
  | monomial n c =>
      rw [derivative_monomial, integral_monomial, eval_monomial, eval_monomial]
      cases n with
      | zero => simp
      | succ n =>
          have hn : (n : K) + 1 ≠ 0 := n.cast_add_one_ne_zero
          rw [Nat.add_sub_cancel, Nat.cast_succ]
          field_simp

theorem exists_derivative_eq (p : K[X]) : ∃ q : K[X], derivative q = p := by
  induction p using Polynomial.induction_on' with
  | add p q hp hq =>
      obtain ⟨P, rfl⟩ := hp
      obtain ⟨Q, rfl⟩ := hq
      exact ⟨P + Q, derivative_add⟩
  | monomial n c =>
      have hn : (n : K) + 1 ≠ 0 := n.cast_add_one_ne_zero
      refine ⟨monomial (n + 1) (c / (n + 1)), ?_⟩
      rw [derivative_monomial, Nat.add_sub_cancel, Nat.cast_succ, div_mul_cancel₀ _ hn]

/-- Integration by substitution of a function with constant derivative. -/
theorem integral_comp {line : K[X]} {slope : K} (hline : derivative line = C slope) (a b : K)
    (p : K[X]) :
    slope * integral a b (p.comp line) = integral (line.eval a) (line.eval b) p := by
  obtain ⟨q, rfl⟩ := exists_derivative_eq p
  have hcomp : derivative (q.comp line) = slope • (derivative q).comp line := by
    rw [derivative_comp, hline, smul_eq_C_mul]
  rw [integral_derivative, ← smul_eq_mul, ← map_smul, ← hcomp, integral_derivative, eval_comp,
    eval_comp]

theorem integral_beta (a b : ℕ) :
    integral (0 : K) 1 (X ^ a * (1 - X) ^ b) =
      a.factorial * b.factorial / (a + b + 1).factorial := by
  induction b generalizing a with
  | zero =>
      have ha : (a : K) + 1 ≠ 0 := a.cast_add_one_ne_zero
      have hfactorial : (a.factorial : K) ≠ 0 := mod_cast a.factorial_ne_zero
      rw [pow_zero, mul_one, X_pow_eq_monomial, integral_monomial, Nat.add_zero, Nat.factorial_succ]
      push_cast
      field_simp
      simp
  | succ b ih =>
      -- by parts: the derivative of `X ^ (a + 1) * (1 - X) ^ (b + 1)` has the integral zero
      have hparts : derivative ((X : K[X]) ^ (a + 1) * (1 - X) ^ (b + 1)) =
          ((a : K) + 1) • (X ^ a * (1 - X) ^ (b + 1)) -
            ((b : K) + 1) • (X ^ (a + 1) * (1 - X) ^ b) := by
        rw [derivative_mul, derivative_X_pow_succ, derivative_pow_succ, derivative_sub,
          derivative_one, derivative_X]
        simp only [smul_eq_C_mul, map_add, map_natCast, map_one]
        ring
      have hzero := integral_derivative (0 : K) 1 (X ^ (a + 1) * (1 - X) ^ (b + 1))
      rw [hparts, map_sub, map_smul, map_smul, ih (a + 1)] at hzero
      have ha : (a : K) + 1 ≠ 0 := a.cast_add_one_ne_zero
      have hsum : a + 1 + b + 1 = a + (b + 1) + 1 := by ring
      rw [hsum, Nat.factorial_succ a] at hzero
      rw [Nat.factorial_succ b]
      refine mul_left_cancel₀ ha ?_
      simp only [smul_eq_mul, eval_mul, eval_pow, eval_X, eval_sub, eval_one] at hzero
      push_cast at hzero ⊢
      linear_combination hzero
end

end ElementKernel.Quadrature
