import ElementKernel.Proofs.Execution.Correctness
import ElementKernel.Proofs.FaultFree
import Mathlib.Algebra.BigOperators.Fin

/-!
# Flat indices

A flat index is built from the last axis outwards, with a running stride that is left out where it
is one.  In every ring it has the value of the sum of the indices, each times the sizes of the axes
behind it.  On the multi-indices of a shape this sum numbers the entries from zero, every entry
once, and the reset of the element tensor clears exactly the entries with these numbers.
-/

namespace ElementKernel

/-! ## Values in a ring -/

namespace Expr

variable {R : Type} [CommRing R]

mutual

/-- The value of an expression in a ring.  Sums, products and differences are those of the ring, and
every other part has the value that `ρ` gives it. -/
def valueIn (ρ : Expr → R) : Expr → R
  | .int n => n
  | .sum terms => (valuesIn ρ terms).sum
  | .product factors => (valuesIn ρ factors).prod
  | .difference left right => valueIn ρ left - valueIn ρ right
  | e => ρ e

def valuesIn (ρ : Expr → R) : List Expr → List R
  | [] => []
  | e :: rest => valueIn ρ e :: valuesIn ρ rest

end

@[simp] theorem valueIn_int (ρ : Expr → R) (n : Int) : valueIn ρ (.int n) = n := by
  simp [valueIn]

@[simp] theorem valueIn_sum_pair (ρ : Expr → R) (a b : Expr) :
    valueIn ρ (.sum [a, b]) = valueIn ρ a + valueIn ρ b := by
  simp [valueIn, valuesIn]

@[simp] theorem valueIn_product_pair (ρ : Expr → R) (a b : Expr) :
    valueIn ρ (.product [a, b]) = valueIn ρ a * valueIn ρ b := by
  simp [valueIn, valuesIn]

end Expr

theorem ProductsBounded.tail {size : Nat} {sizes : List Nat}
    (h : ProductsBounded (size :: sizes)) : ProductsBounded sizes :=
  fun part hpart => h part (hpart.cons size)

namespace Kernel

/-- An index of an axis times the number of entries behind the axis. -/
def scaled (stride : Nat) (index : Expr) : Expr :=
  if stride = 1 then index else .product [.int (Word.signed stride), index]

/-- The sum of the indices of a multi-index, each times the sizes of the axes behind it. -/
def rowMajorSum {R : Type} [CommSemiring R] {rank : Nat} (shape : Fin rank → Nat)
    (multiIndex : Fin rank → R) : R :=
  ∑ k, multiIndex k * ∏ l ∈ Finset.Ioi k, (shape l : R)

@[simp] theorem rowMajorSum_zero {R : Type} [CommSemiring R] (shape : Fin 0 → Nat)
    (multiIndex : Fin 0 → R) : rowMajorSum shape multiIndex = 0 := by
  simp [rowMajorSum]

theorem rowMajorSum_succ {R : Type} [CommSemiring R] {rank : Nat} (shape : Fin (rank + 1) → Nat)
    (multiIndex : Fin (rank + 1) → R) :
    rowMajorSum shape multiIndex = multiIndex 0 * ∏ l : Fin rank, (shape l.succ : R) +
      rowMajorSum (fun k => shape k.succ) fun k => multiIndex k.succ := by
  simp [rowMajorSum, Fin.sum_univ_succ, Fin.prod_Ioi_succ]

/-! ## Structure of a flat index -/

theorem flattenOuter_concat {outer : List (Expr × Nat)} {index flat e : Expr} {size stride : Nat}
    (h : flattenOuter (outer ++ [(index, size)]) flat stride = .ok e) :
    ∃ inner, flattenOuter outer flat stride = .ok inner ∧
      e = .sum [scaled (stride * (outer.map Prod.snd).prod) index, inner] := by
  induction outer generalizing flat stride with
  | nil =>
      obtain ⟨next, -, h⟩ := bind_eq_ok.1 h
      cases h
      exact ⟨flat, rfl, by simp [scaled]⟩
  | cons entry outer ih =>
      obtain ⟨counter, count⟩ := entry
      obtain ⟨next, hnext, h⟩ := bind_eq_ok.1 h
      obtain ⟨inner, hinner, rfl⟩ := ih h
      refine ⟨inner, bind_eq_ok.2 ⟨next, hnext, hinner⟩, ?_⟩
      rw [Word.mul_eq_ok hnext, List.map_cons, List.prod_cons, Nat.mul_assoc]

/-- A further axis in front adds its index, scaled by the size of the array behind it. -/
theorem flatIndex_cons {index e : Expr} {size : Nat} {indices : List Expr} {shape : List Nat}
    (hlength : indices.length = shape.length) (hnil : shape ≠ [])
    (h : flatIndex (index :: indices) (size :: shape) = .ok e) :
    ∃ inner, flatIndex indices shape = .ok inner ∧
      e = .sum [scaled shape.prod index, inner] := by
  have hsizes : ((indices.zip shape).reverse.map Prod.snd).prod = shape.prod := by
    rw [List.map_reverse, List.map_snd_zip (by omega), List.prod_reverse]
  obtain ⟨-, -, h⟩ := bind_eq_ok.1 h
  rw [List.zip_cons_cons, List.reverse_cons] at h
  cases hzip : (indices.zip shape).reverse with
  | nil =>
      rw [List.reverse_eq_nil_iff, List.zip_eq_nil_iff] at hzip
      rcases hzip with rfl | rfl
      · exact absurd (List.length_eq_zero_iff.1 hlength.symm) hnil
      · exact absurd rfl hnil
  | cons entry outer =>
      obtain ⟨last, count⟩ := entry
      rw [hzip] at h hsizes
      obtain ⟨inner, hinner, rfl⟩ := flattenOuter_concat h
      refine ⟨inner, ?_, ?_⟩
      · simp only [flatIndex, Checked.sameLength, hlength, hzip]
        exact hinner
      · rw [← hsizes, List.map_cons, List.prod_cons]

theorem valueIn_scaled {R : Type} [CommRing R] (ρ : Expr → R) (index : Expr) {stride : Nat}
    (h : stride < 2 ^ 63) : (scaled stride index).valueIn ρ = index.valueIn ρ * stride := by
  unfold scaled
  split
  next hone => simp [hone]
  next => simp [Word.signed_of_lt h, mul_comm]

/-- The flat index of any index expressions has the value of the sum. -/
theorem valueIn_flatIndex {R : Type} [CommRing R] (ρ : Expr → R) {rank : Nat}
    {counters : Fin rank → Expr} {shape : Fin rank → Nat} {e : Expr}
    (hshape : ProductsBounded (List.ofFn shape))
    (h : flatIndex (List.ofFn counters) (List.ofFn shape) = .ok e) :
    e.valueIn ρ = rowMajorSum shape fun k => (counters k).valueIn ρ := by
  induction rank generalizing e with
  | zero =>
      obtain ⟨-, -, h⟩ := bind_eq_ok.1 h
      cases h
      simp
  | succ rank ih =>
      rw [rowMajorSum_succ]
      rw [List.ofFn_succ] at h hshape
      rw [List.ofFn_succ] at h
      by_cases hrank : rank = 0
      · subst hrank
        obtain ⟨-, -, h⟩ := bind_eq_ok.1 h
        cases h
        simp
      · have hnil : List.ofFn (fun k : Fin rank => shape k.succ) ≠ [] := by
          simpa using hrank
        obtain ⟨inner, hinner, rfl⟩ := flatIndex_cons (by simp) hnil h
        have hstride : (List.ofFn fun k : Fin rank => shape k.succ).prod < 2 ^ 63 :=
          hshape _ (List.sublist_cons_self _ _)
        rw [Expr.valueIn_sum_pair, valueIn_scaled ρ _ hstride, ih hshape.tail hinner,
          List.prod_ofFn, Nat.cast_prod]

/-! ## Numbering of the entries -/

theorem position_ofFn {rank : Nat} {shape multiIndex : Fin rank → Nat}
    (h : ∀ k, multiIndex k < shape k) :
    Execution.position (List.ofFn shape) (List.ofFn multiIndex) =
      some (rowMajorSum shape multiIndex) := by
  induction rank with
  | zero => simp [Execution.position]
  | succ rank ih =>
      rw [List.ofFn_succ, List.ofFn_succ, Execution.position_cons]
      refine ⟨h 0, _, ih fun k => h k.succ, ?_⟩
      rw [rowMajorSum_succ, List.prod_ofFn]
      simp

theorem rowMajorSum_surjective {rank : Nat} (shape : Fin rank → Nat) {p : Nat}
    (hp : p < ∏ k, shape k) :
    ∃ multiIndex : Fin rank → Nat, (∀ k, multiIndex k < shape k) ∧
      rowMajorSum shape multiIndex = p := by
  induction rank generalizing p with
  | zero =>
      refine ⟨Fin.elim0, fun k => k.elim0, ?_⟩
      simp_all
  | succ rank ih =>
      rw [Fin.prod_univ_succ] at hp
      have hpos : 0 < ∏ k : Fin rank, shape k.succ := by
        rcases Nat.eq_zero_or_pos (∏ k : Fin rank, shape k.succ) with hzero | hpos
        · simp [hzero] at hp
        · exact hpos
      -- The first index is a quotient, and the remainder is a position in one slice.
      obtain ⟨rest, hrest, hsum⟩ := ih (fun k => shape k.succ) (Nat.mod_lt p hpos)
      refine ⟨Fin.cons (p / ∏ k : Fin rank, shape k.succ) rest, ?_, ?_⟩
      · intro k
        cases k using Fin.cases with
        | zero => simpa using Nat.div_lt_of_lt_mul (by rwa [Nat.mul_comm] at hp)
        | succ k => simpa using hrest k
      · simp [rowMajorSum_succ, hsum, Nat.div_add_mod']

/-- Every number below the size of an array belongs to exactly one multi-index of its shape. -/
theorem bijOn_rowMajorSum {rank : Nat} (shape : Fin rank → Nat) :
    Set.BijOn (rowMajorSum shape) {multiIndex | ∀ k, multiIndex k < shape k}
      (Set.Iio (∏ k, shape k)) := by
  refine ⟨fun i hi => ?_, fun i hi j hj hij => ?_, fun p hp => ?_⟩
  · have hlt := Execution.position_lt (position_ofFn hi)
    rwa [List.prod_ofFn] at hlt
  · have hsame : Execution.position (List.ofFn shape) (List.ofFn j) =
        some (rowMajorSum shape i) := by
      rw [position_ofFn hj]
      exact congrArg some hij.symm
    exact List.ofFn_injective (Execution.position_inj (position_ofFn hi) hsame)
  · exact rowMajorSum_surjective shape hp

/-! ## Reset -/

theorem exists_tensorReset {integral : Integral} (h : ProductsBounded integral.tensorShape) :
    integral.tensorSize = .ok integral.tensorShape.prod ∧
      ∃ reset, tensorReset integral = .ok reset := by
  obtain ⟨size, hsize⟩ := (Word.product_decides integral.tensorShape).exists_ok h.productFits
  obtain ⟨rfl, -⟩ := integral.prod_tensorShape hsize
  exact ⟨hsize, _, bind_eq_ok.2 ⟨_, hsize, rfl⟩⟩

/-- In every ring the flat index is the row-major sum of the values of the indices.  The sum is a
bijection from the multi-indices of the shape to the entries, and these are what the reset
clears. -/
theorem flatIndex_bijective {rank : Nat} (shape : Fin rank → Nat)
    (hshape : ProductsBounded (List.ofFn shape)) :
    (∀ counters : Fin rank → Expr, ∃ e,
      flatIndex (List.ofFn counters) (List.ofFn shape) = .ok e ∧
        ∀ {R : Type} [CommRing R] (ρ : Expr → R),
          e.valueIn ρ = ∑ k, (counters k).valueIn ρ * ∏ l ∈ Finset.Ioi k, (shape l : R)) ∧
    Set.BijOn (fun multiIndex : Fin rank → Nat => ∑ k, multiIndex k * ∏ l ∈ Finset.Ioi k, shape l)
      {multiIndex | ∀ k, multiIndex k < shape k} (Set.Iio (∏ k, shape k)) ∧
    ∀ integral : Integral, integral.tensorShape = List.ofFn shape →
      integral.tensorSize = .ok (∏ k, shape k) ∧ ∃ reset, tensorReset integral = .ok reset ∧
        ∀ {K : Type} [Field K] (D : Execution.Interpretation K) (L : Execution.Locals K)
          (T : Nat → K), Execution.execAll D (∏ k, shape k) reset ⟨L, T⟩ =
            some ⟨L, fun p => if p < ∏ k, shape k then 0 else T p⟩ := by
  refine ⟨fun counters => ?_, ?_, fun integral hintegral => ?_⟩
  · have hdecides : (flatIndex (List.ofFn counters) (List.ofFn shape)).Decides
        (StridesFit (List.ofFn shape)) := flatIndex_decides (by simp)
    rcases h : flatIndex (List.ofFn counters) (List.ofFn shape) with f | e
    · exact absurd hshape.stridesFit (hdecides.fault f h).2
    · exact ⟨e, rfl, fun ρ => valueIn_flatIndex ρ hshape h⟩
  · exact bijOn_rowMajorSum shape
  · rw [← hintegral] at hshape
    have hprod : ∏ k, shape k = integral.tensorShape.prod := by
      rw [hintegral, List.prod_ofFn]
    obtain ⟨hsize, reset, hreset⟩ := exists_tensorReset hshape
    rw [hprod]
    exact ⟨hsize, reset, hreset, fun D L T => exec_tensorReset_eq D hreset L T⟩

/-- The last entry of a tensor with an axis of size one, whose stride is not written. -/
theorem flatIndex_bijective_thinTensor :
    ProductsBounded (List.ofFn ![2, 3, 1]) ∧ ∃ e,
      flatIndex [axisIndex 0, axisIndex 1, axisIndex 2] [2, 3, 1] = .ok e ∧
        ∀ ρ : Expr → ℤ, ρ (axisIndex 0) = 1 → ρ (axisIndex 1) = 2 → ρ (axisIndex 2) = 0 →
          e.valueIn ρ = 5 := by
  have hshape : ProductsBounded (List.ofFn ![2, 3, 1]) := by decide
  obtain ⟨e, he, hvalue⟩ := (flatIndex_bijective ![2, 3, 1] hshape).1
    fun k => axisIndex k
  refine ⟨hshape, e, he, fun ρ h₀ h₁ h₂ => ?_⟩
  have hsymbol (k : Nat) : (axisIndex k).valueIn ρ = ρ (axisIndex k) := by
    simp [axisIndex, Expr.valueIn]
  have h : e.valueIn ρ = rowMajorSum ![2, 3, 1] fun k : Fin 3 => (axisIndex k).valueIn ρ := hvalue ρ
  simp [h, rowMajorSum_succ, hsymbol, h₀, h₁, h₂]

end Kernel

end ElementKernel
