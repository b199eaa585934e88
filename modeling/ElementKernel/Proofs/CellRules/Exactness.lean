import ElementKernel.Proofs.CellRules.Assembly
import ElementKernel.Proofs.CellRules.LineExactness
import Mathlib.Algebra.Order.Field.Basic
import Mathlib.Tactic.Linarith
import Mathlib.Tactic.NormNum.NatFactorial
import Mathlib.Tactic.Positivity

/-!
# Exactness of cell rules

A cell rule that is made of exact rules in one dimension integrates the monomials of its degree
exactly.  On a simplex the collapse turns a monomial into a product of powers of the coordinates of
the cube and of their complements; the complements are what the weights of the rules in one
dimension absorb.  Nodes inside the interval and positive weights carry over to the cell.
-/

namespace ElementKernel

namespace CellShape

/-- The exponents of the monomials that a rule of a degree integrates: a bound for their sum on
collapsed cells, for each of them on the others. -/
def Admits (cell : CellShape) (degree : Nat) (exponents : List Nat) : Prop :=
  exponents.length = cell.dimension ∧
    match cell with
    | .triangle | .tetrahedron => exponents.sum ≤ degree
    | .vertex | .interval | .quadrilateral | .hexahedron => ∀ e ∈ exponents, e ≤ degree

/-- The integral over the cell of the monomial with some exponents. -/
def monomialIntegral {K : Type} [Field K] (cell : CellShape) (exponents : List Nat) : K :=
  match cell with
  | .triangle | .tetrahedron =>
      (exponents.map fun e => (e.factorial : K)).prod /
        (exponents.sum + cell.dimension).factorial
  | .vertex | .interval | .quadrilateral | .hexahedron =>
      (exponents.map fun e => 1 / ((e : K) + 1)).prod

def Inside {K : Type} [Field K] [LinearOrder K] (cell : CellShape) (point : List K) : Prop :=
  point.length = cell.dimension ∧ (∀ x ∈ point, 0 < x) ∧
    match cell with
    | .triangle | .tetrahedron => point.sum < 1
    | .vertex | .interval | .quadrilateral | .hexahedron => ∀ x ∈ point, x < 1

end CellShape

namespace Quadrature

variable {K : Type} [Field K]

/-! ## Products of sums -/

theorem weightedSum_productRule {β γ δ : Type} {point : β → γ → δ} {f : δ → K} {g : β → K}
    {h : γ → K} (hsplit : ∀ x y, f (point x y) = g x * h y) (r : List (K × β))
    (s : List (K × γ)) :
    weightedSum (productRule point r s) f = weightedSum r g * weightedSum s h := by
  have hrow : ∀ x : K × β, weightedSum (s.map fun y => (x.1 * y.1, point x.2 y.2)) f =
      x.1 * g x.2 * weightedSum s h := by
    intro x
    rw [weightedSum, weightedSum, List.map_map, ← List.sum_map_mul_left]
    refine congrArg List.sum (List.map_congr_left fun y _ => ?_)
    simp only [Function.comp_apply, hsplit]
    ring
  induction r with
  | nil => simp [productRule, weightedSum]
  | cons x r ih =>
      have hcons : weightedSum (productRule point (x :: r) s) f =
          weightedSum (s.map fun y => (x.1 * y.1, point x.2 y.2)) f +
            weightedSum (productRule point r s) f := by
        simp only [productRule, List.flatMap_cons, weightedSum, List.map_append, List.sum_append]
      rw [hcons, hrow, ih]
      simp only [weightedSum, List.map_cons, List.sum_cons]
      ring

theorem weightedSum_productRule_pair {β γ δ ε : Type} {point : β × γ → δ → ε} {f : ε → K}
    {g : β → K} {h : γ → K} {k : δ → K}
    (hsplit : ∀ x y z, f (point (x, y) z) = g x * h y * k z) (r : List (K × β))
    (s : List (K × γ)) (t : List (K × δ)) :
    weightedSum (productRule point (productRule Prod.mk r s) t) f =
      weightedSum r g * weightedSum s h * weightedSum t k := by
  have hfactor : ∀ x y, (fun p : β × γ => g p.1 * h p.2) (x, y) = g x * h y := fun _ _ => rfl
  have hpair : weightedSum (productRule Prod.mk r s) (fun p => g p.1 * h p.2) =
      weightedSum r g * weightedSum s h :=
    weightedSum_productRule hfactor r s
  rw [← hpair]
  exact weightedSum_productRule (fun p z => hsplit p.1 p.2 z) _ t

/-! ## Monomials -/

section

variable (a b c : ℕ) (x y z : K)

theorem monomialAt_one : monomialAt [(a : Int)] [x] = x ^ a := by
  simp [monomialAt, integerPower]

theorem monomialAt_two : monomialAt [(a : Int), (b : Int)] [x, y] = x ^ a * y ^ b := by
  simp [monomialAt, integerPower]

theorem monomialAt_three :
    monomialAt [(a : Int), (b : Int), (c : Int)] [x, y, z] = x ^ a * y ^ b * z ^ c := by
  simp [monomialAt, integerPower]

end

variable [CharZero K] {degree : ℕ} {u v w : LineRule K}

theorem ExactFor.weightedSum_pow (h : ExactFor u 0 1 0 degree) {a : ℕ} (ha : a ≤ degree) :
    (weightedSum u fun x => x ^ a) = 1 / ((a : K) + 1) := by
  have hbeta := h.weightedSum_beta (b := 0) ha
  have ha : (a : K) + 1 ≠ 0 := a.cast_add_one_ne_zero
  have hfactorial : (a.factorial : K) ≠ 0 := mod_cast a.factorial_ne_zero
  simp only [pow_zero, mul_one, Nat.add_zero, Nat.factorial_zero, Nat.factorial_succ] at hbeta
  rw [hbeta]
  push_cast
  field_simp

section

variable (hu : ExactFor u 0 1 0 degree) (hv : ExactFor v 0 1 1 degree)
  (hw : ExactFor w 0 1 2 degree) {a b c : ℕ}

include hu

theorem weightedSum_intervalRule (ha : a ≤ degree) :
    weightedSum (intervalRule u) (monomialAt [(a : Int)]) = 1 / ((a : K) + 1) := by
  rw [← hu.weightedSum_pow ha]
  simp [intervalRule, weightedSum, Function.comp_def, monomialAt_one]

theorem weightedSum_squareRule (ha : a ≤ degree) (hb : b ≤ degree) :
    weightedSum (squareRule u) (monomialAt [(a : Int), (b : Int)]) =
      1 / ((a : K) + 1) * (1 / ((b : K) + 1)) := by
  rw [squareRule_eq, ← hu.weightedSum_pow ha, ← hu.weightedSum_pow hb]
  exact weightedSum_productRule (monomialAt_two a b) u u

theorem weightedSum_cubeRule (ha : a ≤ degree) (hb : b ≤ degree) (hc : c ≤ degree) :
    weightedSum (cubeRule u) (monomialAt [(a : Int), (b : Int), (c : Int)]) =
      1 / ((a : K) + 1) * (1 / ((b : K) + 1)) * (1 / ((c : K) + 1)) := by
  rw [cubeRule_eq, ← hu.weightedSum_pow ha, ← hu.weightedSum_pow hb, ← hu.weightedSum_pow hc]
  exact weightedSum_productRule_pair (monomialAt_three a b c) u u u

include hv

theorem weightedSum_collapsed (hab : a + b ≤ degree) :
    ((weightedSum u fun x => x ^ a) * weightedSum v fun y => y ^ b * (1 - y) ^ a) =
      a.factorial * b.factorial / ((a + b + 2).factorial : K) := by
  have ha : (a : K) + 1 ≠ 0 := a.cast_add_one_ne_zero
  have hdegree : b + (a + 1) + 1 = a + b + 2 := by ring
  rw [hu.weightedSum_pow (by omega), hv.weightedSum_beta (by omega), hdegree, Nat.factorial_succ]
  push_cast
  field_simp

theorem weightedSum_triangleRule (hab : a + b ≤ degree) :
    weightedSum (triangleRule u v) (monomialAt [(a : Int), (b : Int)]) =
      a.factorial * b.factorial / ((a + b + 2).factorial : K) := by
  have hsplit : ∀ x y : K, monomialAt [(a : Int), (b : Int)] [x * (one - y), y] =
      x ^ a * (y ^ b * (1 - y) ^ a) := by
    intro x y
    rw [monomialAt_two, one_eq, mul_pow]
    ring
  rw [triangleRule_eq, weightedSum_productRule hsplit, weightedSum_collapsed hu hv hab]

include hw

theorem weightedSum_tetrahedronRule (habc : a + b + c ≤ degree) :
    weightedSum (tetrahedronRule u v w) (monomialAt [(a : Int), (b : Int), (c : Int)]) =
      a.factorial * b.factorial * c.factorial / ((a + b + c + 3).factorial : K) := by
  have hsplit : ∀ x y z : K, monomialAt [(a : Int), (b : Int), (c : Int)]
      [x * (one - y) * (one - z), y * (one - z), z] =
        x ^ a * (y ^ b * (1 - y) ^ a) * (z ^ c * (1 - z) ^ (a + b)) := by
    intro x y z
    rw [monomialAt_three, one_eq, mul_pow, mul_pow, mul_pow]
    ring
  have hfactorial : ((a + b + 2).factorial : K) ≠ 0 := mod_cast (a + b + 2).factorial_ne_zero
  have hdegree : c + (a + b + 2) + 1 = a + b + c + 3 := by ring
  rw [tetrahedronRule_eq, weightedSum_productRule_pair hsplit,
    weightedSum_collapsed hu hv (by omega), hw.weightedSum_beta (by omega), hdegree]
  field_simp

theorem integrate_assemble {cell : CellShape} {exponents : List ℕ}
    (hexponents : cell.Admits degree exponents) :
    integrate (assemble u v w cell) (monomialAt (exponents.map Int.ofNat)) =
      cell.monomialIntegral exponents := by
  obtain ⟨hlength, hbound⟩ := hexponents
  rw [integrate_eq]
  cases cell with
  | vertex =>
      obtain rfl := List.length_eq_zero_iff.1 hlength
      simp [assemble, weightedSum, monomialAt, CellShape.monomialIntegral]
  | interval =>
      obtain ⟨a, rfl⟩ := List.length_eq_one_iff.1 hlength
      obtain ha : a ≤ degree := by simpa using hbound
      simpa [assemble, CellShape.monomialIntegral] using weightedSum_intervalRule hu ha
  | quadrilateral =>
      obtain ⟨a, b, rfl⟩ := List.length_eq_two.1 hlength
      obtain ⟨ha, hb⟩ : a ≤ degree ∧ b ≤ degree := by simpa using hbound
      simpa [assemble, CellShape.monomialIntegral] using weightedSum_squareRule hu ha hb
  | hexahedron =>
      obtain ⟨a, b, c, rfl⟩ := List.length_eq_three.1 hlength
      obtain ⟨ha, hb, hc⟩ : a ≤ degree ∧ b ≤ degree ∧ c ≤ degree := by simpa using hbound
      simpa [assemble, CellShape.monomialIntegral, mul_assoc] using weightedSum_cubeRule hu ha hb hc
  | triangle =>
      obtain ⟨a, b, rfl⟩ := List.length_eq_two.1 hlength
      have hab : a + b ≤ degree := by simpa using hbound
      simpa [assemble, CellShape.monomialIntegral, CellShape.dimension] using
        weightedSum_triangleRule hu hv hab
  | tetrahedron =>
      obtain ⟨a, b, c, rfl⟩ := List.length_eq_three.1 hlength
      have habc : a + b + c ≤ degree := by simpa [add_assoc] using hbound
      simpa [assemble, CellShape.monomialIntegral, CellShape.dimension, mul_assoc, add_assoc] using
        weightedSum_tetrahedronRule hu hv hw habc

end

end Quadrature

/-! ## Interior points -/

namespace Quadrature

variable {K : Type} [Field K] [LinearOrder K]

def InteriorNodes (rule : LineRule K) (a b : K) : Prop :=
  ∀ entry ∈ rule, 0 < entry.1 ∧ a < entry.2 ∧ entry.2 < b

variable [IsStrictOrderedRing K] {u v w : LineRule K}

theorem InteriorNodes.toUnitInterval {rule : LineRule K} (h : InteriorNodes rule (-1) 1)
    (alpha : ℕ) : InteriorNodes (toUnitInterval alpha rule) 0 1 := by
  intro entry hentry
  rw [toUnitInterval_eq] at hentry
  obtain ⟨source, hsource, rfl⟩ := List.mem_map.1 hentry
  obtain ⟨hweight, hleft, hright⟩ := h source hsource
  refine ⟨by positivity, ?_, ?_⟩
  · linarith
  · linarith

theorem inside_triangle {x y : K} (hx : 0 < x ∧ x < 1) (hy : 0 < y ∧ y < 1) :
    0 < x * (1 - y) ∧ x * (1 - y) < 1 - y := by
  have hcomplement : 0 < 1 - y := by linarith
  exact ⟨mul_pos hx.1 hcomplement, mul_lt_of_lt_one_left hcomplement hx.2⟩

theorem inside_of_mem_assemble (hu : InteriorNodes u 0 1) (hv : InteriorNodes v 0 1)
    (hw : InteriorNodes w 0 1) {cell : CellShape} {entry : K × List K}
    (h : entry ∈ assemble u v w cell) : 0 < entry.1 ∧ cell.Inside entry.2 := by
  cases cell with
  | vertex =>
      obtain rfl := List.mem_singleton.1 h
      simp [CellShape.Inside, CellShape.dimension]
  | interval =>
      obtain ⟨x, hx, rfl⟩ := List.mem_map.1 h
      obtain ⟨hweight, hx⟩ := hu x hx
      simp [CellShape.Inside, CellShape.dimension, hweight, hx]
  | quadrilateral =>
      rw [assemble, squareRule_eq] at h
      obtain ⟨x, hx, y, hy, rfl⟩ := mem_productRule.1 h
      obtain ⟨hwx, hx⟩ := hu x hx
      obtain ⟨hwy, hy⟩ := hu y hy
      refine ⟨mul_pos hwx hwy, ?_⟩
      simp [CellShape.Inside, CellShape.dimension, hx, hy]
  | hexahedron =>
      rw [assemble, cubeRule_eq] at h
      obtain ⟨_, hp, z, hz, rfl⟩ := mem_productRule.1 h
      obtain ⟨x, hx, y, hy, rfl⟩ := mem_productRule.1 hp
      obtain ⟨hwx, hx⟩ := hu x hx
      obtain ⟨hwy, hy⟩ := hu y hy
      obtain ⟨hwz, hz⟩ := hu z hz
      refine ⟨mul_pos (mul_pos hwx hwy) hwz, ?_⟩
      simp [CellShape.Inside, CellShape.dimension, hx, hy, hz]
  | triangle =>
      rw [assemble, triangleRule_eq] at h
      obtain ⟨x, hx, y, hy, rfl⟩ := mem_productRule.1 h
      obtain ⟨hwx, hx⟩ := hu x hx
      obtain ⟨hwy, hy⟩ := hv y hy
      obtain ⟨hpositive, hbound⟩ := inside_triangle hx hy
      refine ⟨mul_pos hwx hwy, rfl, ?_, ?_⟩
      · simp [hpositive, hy]
      · simp only [List.sum_cons, List.sum_nil, one_eq]
        linarith
  | tetrahedron =>
      rw [assemble, tetrahedronRule_eq] at h
      obtain ⟨_, hp, z, hz, rfl⟩ := mem_productRule.1 h
      obtain ⟨x, hx, y, hy, rfl⟩ := mem_productRule.1 hp
      obtain ⟨hwx, hx⟩ := hu x hx
      obtain ⟨hwy, hy⟩ := hv y hy
      obtain ⟨hwz, hz⟩ := hw z hz
      -- the triangle of the first two directions shrinks towards the last vertex
      obtain ⟨hpositive, hbound⟩ := inside_triangle hx hy
      obtain ⟨hxpositive, -⟩ := inside_triangle ⟨hpositive, hbound.trans (by linarith)⟩ hz
      obtain ⟨hypositive, -⟩ := inside_triangle hy hz
      obtain ⟨-, hsum⟩ := inside_triangle (x := x.2 * (1 - y.2) + y.2)
        ⟨by linarith, by linarith⟩ hz
      refine ⟨mul_pos (mul_pos hwx hwy) hwz, rfl, ?_, ?_⟩
      · simp [hxpositive, hypositive, hz]
      · simp only [List.sum_cons, List.sum_nil, one_eq]
        linarith

end Quadrature

/-! ## Rules of a degree -/

namespace Quadrature.LineRules

open Polynomial

section

variable {K : Type} [Field K]

/-- There are rules with `m` points, and they have a property that may depend on the exponent of the
weight. -/
def Provides (lines : LineRules K) (m : ℕ) (property : ℕ → LineRule K → Prop) : Prop :=
  (∃ rule, lines.gauss m = .ok rule ∧ property 0 rule) ∧
    ∀ alpha, ∃ rule, lines.gaussJacobi m alpha = .ok rule ∧ property alpha rule

def ExactWith (lines : LineRules K) (m : ℕ) : Prop :=
  lines.Provides m fun alpha rule => ExactFor rule (-1) 1 alpha (2 * m - 1)

def InteriorWith [LinearOrder K] (lines : LineRules K) (m : ℕ) : Prop :=
  lines.Provides m fun _ rule => InteriorNodes rule (-1) 1

variable {lines : LineRules K} {m degree : ℕ} {property : ℕ → LineRule K → Prop}

theorem Provides.exists_unitRule (h : lines.Provides m property) (alpha : ℕ) :
    ∃ rule, lines.unitRule m alpha = .ok (toUnitInterval alpha rule) ∧ property alpha rule := by
  have hweighted : ∃ rule, lines.weighted m alpha = .ok rule ∧ property alpha rule := by
    unfold weighted
    split
    next halpha => simpa [halpha] using h.1
    next => exact h.2 alpha
  obtain ⟨rule, hrule, hproperty⟩ := hweighted
  exact ⟨rule, unitRule_eq_ok hrule, hproperty⟩

theorem Provides.exists_cellRule (h : lines.Provides ((degree + 2) / 2) property)
    (hdegree : degree + 2 < Word.limit) :
    ∃ u v w, property 0 u ∧ property 1 v ∧ property 2 w ∧
      ∀ cell, lines.cellRule cell degree =
        .ok (assemble (toUnitInterval 0 u) (toUnitInterval 1 v) (toUnitInterval 2 w) cell) := by
  obtain ⟨u, hu, hproperty0⟩ := h.exists_unitRule 0
  obtain ⟨v, hv, hproperty1⟩ := h.exists_unitRule 1
  obtain ⟨w, hw, hproperty2⟩ := h.exists_unitRule 2
  exact ⟨u, v, w, hproperty0, hproperty1, hproperty2,
    cellRule_eq_ok (pointsPerDirection_eq_ok hdegree) hu hv hw⟩

end

/-- Cell rules are exact: over a field of characteristic zero, if the rules in one dimension with
the number of points that the degree asks for are exact, then the rule on a cell integrates the
monomials of its degree exactly.  Over an ordered field, if their nodes are inside and their weights
positive, then so they are on the cell. -/
theorem cellRule_exact :
    (∀ (K : Type) [Field K] [CharZero K] (lines : LineRules K) (degree : ℕ),
      degree + 2 < Word.limit → lines.ExactWith ((degree + 2) / 2) →
      ∀ cell, ∃ rule, lines.cellRule cell degree = .ok rule ∧
        ∀ exponents, cell.Admits degree exponents →
          integrate rule (monomialAt (exponents.map Int.ofNat)) =
            cell.monomialIntegral exponents) ∧
      ∀ (K : Type) [Field K] [LinearOrder K] [IsStrictOrderedRing K] (lines : LineRules K)
        (degree : ℕ), degree + 2 < Word.limit → lines.InteriorWith ((degree + 2) / 2) →
        ∀ cell, ∃ rule, lines.cellRule cell degree = .ok rule ∧
          ∀ entry ∈ rule, 0 < entry.1 ∧ cell.Inside entry.2 := by
  constructor
  · intro K _ _ lines degree hdegree hexact cell
    obtain ⟨u, v, w, hu, hv, hw, hrule⟩ := hexact.exists_cellRule hdegree
    have henough : degree ≤ 2 * ((degree + 2) / 2) - 1 := by omega
    exact ⟨_, hrule cell, fun exponents hexponents =>
      integrate_assemble (hu.mono henough).toUnitInterval (hv.mono henough).toUnitInterval
        (hw.mono henough).toUnitInterval hexponents⟩
  · intro K _ _ _ lines degree hdegree hinterior cell
    obtain ⟨u, v, w, hu, hv, hw, hrule⟩ := hinterior.exists_cellRule hdegree
    exact ⟨_, hrule cell, fun entry hentry =>
      inside_of_mem_assemble (hu.toUnitInterval 0) (hv.toUnitInterval 1) (hw.toUnitInterval 2)
        hentry⟩

/-- The rules with one point: the integral of the weight, at its centre. -/
def centre (K : Type) [Field K] : LineRules K where
  gauss _ := .ok [(2, 0)]
  gaussJacobi _ alpha :=
    .ok [(2 ^ (alpha + 1) / ((alpha : K) + 1), -(alpha : K) / ((alpha : K) + 2))]

theorem integral_one_sub_pow (n : ℕ) :
    integral (-1 : ℚ) 1 ((1 - X) ^ n) = 2 ^ (n + 1) / ((n : ℚ) + 1) := by
  have hn : (n : ℚ) + 1 ≠ 0 := n.cast_add_one_ne_zero
  have hderivative : derivative ((1 - X : ℚ[X]) ^ (n + 1)) = (-((n : ℚ) + 1)) • (1 - X) ^ n := by
    rw [derivative_pow_succ, derivative_sub, derivative_one, derivative_X, smul_eq_C_mul]
    simp only [map_neg, map_add, map_natCast, map_one]
    ring
  have hends := integral_derivative (-1 : ℚ) 1 ((1 - X) ^ (n + 1))
  rw [hderivative, map_smul, smul_eq_mul] at hends
  norm_num at hends
  rw [eq_div_iff hn]
  linarith

theorem exactFor_centre (alpha : ℕ) :
    ExactFor [((2 : ℚ) ^ (alpha + 1) / ((alpha : ℚ) + 1), -(alpha : ℚ) / ((alpha : ℚ) + 2))] (-1) 1
      alpha 1 := by
  intro p hp
  obtain ⟨a, b, rfl⟩ := exists_eq_X_add_C_of_natDegree_le_one hp
  have hsplit : (C a * X + C b) * (1 - X) ^ alpha =
      (a + b) • (1 - X) ^ alpha - a • (1 - X) ^ (alpha + 1) := by
    simp only [smul_eq_C_mul, C_add]
    ring
  have halpha : (alpha : ℚ) + 1 ≠ 0 := alpha.cast_add_one_ne_zero
  have halpha' : (alpha : ℚ) + 2 ≠ 0 := by positivity
  rw [hsplit, map_sub, map_smul, map_smul, integral_one_sub_pow, integral_one_sub_pow]
  simp only [weightedSum, List.map_cons, List.map_nil, List.sum_cons, List.sum_nil, eval_add,
    eval_mul, eval_C, eval_X, smul_eq_mul]
  push_cast
  field_simp
  ring

/-- On the tetrahedron the rules with one point integrate the first coordinate to one twenty-fourth,
at an inner point. -/
theorem cellRule_exact_centre :
    (centre ℚ).ExactWith 1 ∧ (centre ℚ).InteriorWith 1 ∧
      ∃ rule, (centre ℚ).cellRule .tetrahedron 1 = .ok rule ∧
        integrate rule (monomialAt [1, 0, 0]) = 1 / 24 ∧
        ∀ entry ∈ rule, 0 < entry.1 ∧ CellShape.tetrahedron.Inside entry.2 := by
  have hexact : (centre ℚ).ExactWith 1 := by
    refine ⟨⟨_, rfl, ?_⟩, fun alpha => ⟨_, rfl, exactFor_centre alpha⟩⟩
    simpa using exactFor_centre 0
  have hinterior : (centre ℚ).InteriorWith 1 := by
    refine ⟨⟨_, rfl, ?_⟩, fun alpha => ⟨_, rfl, ?_⟩⟩
    · simp [InteriorNodes]
    · have hpositive : (0 : ℚ) < (alpha : ℚ) + 2 := by positivity
      simp only [InteriorNodes, List.forall_mem_singleton, lt_div_iff₀ hpositive,
        div_lt_iff₀ hpositive]
      refine ⟨by positivity, ?_, ?_⟩ <;> linarith
  obtain ⟨rule, hrule, hintegral⟩ :=
    cellRule_exact.1 ℚ (centre ℚ) 1 (by decide) hexact .tetrahedron
  obtain ⟨rule', hrule', hinside⟩ :=
    cellRule_exact.2 ℚ (centre ℚ) 1 (by decide) hinterior .tetrahedron
  obtain rfl : rule = rule' := Except.ok.inj (hrule.symm.trans hrule')
  refine ⟨hexact, hinterior, rule, hrule, ?_, hinside⟩
  refine (hintegral [1, 0, 0] ⟨rfl, by decide⟩).trans ?_
  norm_num [CellShape.monomialIntegral, CellShape.dimension]

end Quadrature.LineRules

end ElementKernel
