import ElementKernel.Proofs.CellRules.Moments
import ElementKernel.Quadrature.CellRule
import Mathlib.Algebra.Polynomial.Degree.Lemmas
import Mathlib.Tactic.NormNum

/-!
# Exact rules in one dimension

A rule with the weight `(1 - x) ^ alpha` is exact for polynomials up to a degree.  The map to the
unit interval with its power of one half keeps it exact, for the same weight and degree.
-/

namespace ElementKernel.Quadrature

open Polynomial

variable {K : Type} [Field K]

@[simp] theorem one_eq : (one : K) = 1 := Nat.cast_one

@[simp] theorem half_eq : (half : K) = 1 / 2 := by
  rw [half, one_eq, Nat.cast_ofNat]

theorem timesPower_eq (product x : K) (n : ℕ) : timesPower product x n = product * x ^ n := by
  induction n using Nat.strongRecOn generalizing product x with
  | ind n ih =>
      rw [timesPower]
      split
      next hn => rw [hn, pow_zero, mul_one]
      next hn =>
        have hpow : x ^ n = (x * x) ^ (n / 2) * x ^ (n % 2) := by
          rw [← pow_two, ← pow_mul, ← pow_add, Nat.div_add_mod]
        rw [ih _ (Nat.div_lt_self (Nat.pos_of_ne_zero hn) Nat.one_lt_two), hpow]
        obtain hmod | hmod := Nat.mod_two_eq_zero_or_one n
        · simp [hmod]
        · rw [if_pos hmod, hmod, pow_one]
          ring

@[simp] theorem power_eq (x : K) (n : ℕ) : power x n = x ^ n := by
  rw [power, timesPower_eq, one_eq, one_mul]

theorem toUnitInterval_eq (alpha : ℕ) (rule : LineRule K) :
    toUnitInterval alpha rule =
      rule.map fun entry => ((1 / 2) ^ (alpha + 1) * entry.1, 1 / 2 * (1 + entry.2)) := by
  simp only [toUnitInterval, power_eq, half_eq, one_eq]

/-! ## Sums over the points of a rule -/

def weightedSum {β : Type} (rule : List (K × β)) (f : β → K) : K :=
  (rule.map fun entry => entry.1 * f entry.2).sum

theorem weightedSum_toUnitInterval (alpha : ℕ) (rule : LineRule K) (f : K → K) :
    weightedSum (toUnitInterval alpha rule) f =
      (1 / 2) ^ (alpha + 1) * weightedSum rule fun x => f (1 / 2 * (1 + x)) := by
  simp only [toUnitInterval_eq, weightedSum, List.map_map, ← List.sum_map_mul_left,
    Function.comp_def, mul_assoc]

theorem integrate_eq (rule : CellRule K) (f : List K → K) :
    integrate rule f = weightedSum rule f := by
  have hfold : ∀ total, rule.foldl (fun total entry => total + entry.1 * f entry.2) total =
      total + weightedSum rule f := by
    induction rule with
    | nil => simp [weightedSum]
    | cons entry rule ih =>
        intro total
        rw [List.foldl_cons, ih]
        simp only [weightedSum, List.map_cons, List.sum_cons, add_assoc]
  refine (hfold _).trans ?_
  rw [Nat.cast_zero, zero_add]

/-! ## Exactness -/

/-- The rule integrates polynomials up to a degree exactly from `a` to `b`, with the weight
`(1 - x) ^ alpha`. -/
def ExactFor (rule : LineRule K) (a b : K) (alpha degree : ℕ) : Prop :=
  ∀ p : K[X], p.natDegree ≤ degree →
    (weightedSum rule fun x => p.eval x) = integral a b (p * (1 - X) ^ alpha)

theorem ExactFor.mono {rule : LineRule K} {a b : K} {alpha degree degree' : ℕ}
    (h : ExactFor rule a b alpha degree) (hdegree : degree' ≤ degree) :
    ExactFor rule a b alpha degree' :=
  fun p hp => h p (hp.trans hdegree)

variable [CharZero K]

theorem ExactFor.toUnitInterval {rule : LineRule K} {alpha degree : ℕ}
    (h : ExactFor rule (-1) 1 alpha degree) :
    ExactFor (toUnitInterval alpha rule) 0 1 alpha degree := by
  intro p hp
  let line : K[X] := C (1 / 2) * (1 + X)
  have hline : derivative line = C (1 / 2) := by simp [line]
  have hleft : line.eval (-1) = 0 := by simp [line]
  have hright : line.eval 1 = 1 := by norm_num [line]
  have hdegree : (p.comp line).natDegree ≤ degree := by
    have hlinear : line.natDegree ≤ 1 := by
      refine (natDegree_C_mul_le _ _).trans ((natDegree_add_le _ _).trans ?_)
      simp
    calc (p.comp line).natDegree ≤ p.natDegree * line.natDegree := natDegree_comp_le
      _ ≤ p.natDegree * 1 := Nat.mul_le_mul_left _ hlinear
      _ ≤ degree := by omega
  have hcomplement : (1 - X : K[X]).comp line = C (1 / 2) * (1 - X) := by
    have htwo : (C (1 / 2) : K[X]) * 2 = 1 := by
      rw [← C_ofNat, ← C_mul]
      norm_num
    rw [sub_comp, one_comp, X_comp]
    linear_combination -htwo
  have hweight : (p * (1 - X) ^ alpha).comp line =
      ((1 / 2) ^ alpha : K) • (p.comp line * (1 - X) ^ alpha) := by
    rw [mul_comp, pow_comp, hcomplement, mul_pow, smul_eq_C_mul, C_pow]
    ring
  calc (weightedSum (Quadrature.toUnitInterval alpha rule) fun x => p.eval x)
      = (1 / 2) ^ (alpha + 1) * weightedSum rule fun x => (p.comp line).eval x := by
        rw [weightedSum_toUnitInterval]
        simp [line]
    _ = 1 / 2 * integral (-1) 1 ((p * (1 - X) ^ alpha).comp line) := by
        rw [h _ hdegree, hweight, map_smul, smul_eq_mul, pow_succ]
        ring
    _ = integral 0 1 (p * (1 - X) ^ alpha) := by rw [integral_comp hline, hleft, hright]

theorem ExactFor.weightedSum_beta {rule : LineRule K} {alpha degree a b : ℕ}
    (h : ExactFor rule 0 1 alpha degree) (hab : a + b ≤ degree) :
    (weightedSum rule fun x => x ^ a * (1 - x) ^ b) =
      a.factorial * (b + alpha).factorial / (a + (b + alpha) + 1).factorial := by
  have hdegree : (X ^ a * (1 - X) ^ b : K[X]).natDegree ≤ degree := by
    have hlinear : (1 - X : K[X]).natDegree ≤ 1 := by
      refine (natDegree_sub_le _ _).trans ?_
      simp
    calc (X ^ a * (1 - X) ^ b : K[X]).natDegree
        ≤ (X ^ a : K[X]).natDegree + ((1 - X) ^ b : K[X]).natDegree := natDegree_mul_le
      _ ≤ a + b * 1 :=
        Nat.add_le_add (natDegree_X_pow_le a)
          (natDegree_pow_le.trans (Nat.mul_le_mul_left b hlinear))
      _ ≤ degree := by omega
  have hexact := h _ hdegree
  rw [mul_assoc, ← pow_add, integral_beta] at hexact
  simpa using hexact

end ElementKernel.Quadrature
