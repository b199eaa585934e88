import ElementKernel.Element.Reference
import Mathlib

/-!
# Dimensions of polynomial spaces

A binomial coefficient is computed by a loop that multiplies and then divides in turn.  While no
product leaves the word, each round ends with a binomial coefficient, so every division is exact.
The dimension that a simplex is given is then the number of the monomials up to the total degree, and
that of any other cell the number of the monomials up to the degree in each coordinate:
`polynomialDimension_counts`.
-/

namespace ElementKernel

/-! ## The loop of the binomial coefficient -/

/-- No product on the way to the binomial coefficient of `n` over `k` leaves the word. -/
def ProductsFit (n k : Nat) : Prop :=
  ∀ i < k, ∀ value, risingBinomial (n - k) i = .ok value → value * (n - k + (i + 1)) < Word.limit

theorem choose_mul_next (base i : Nat) :
    (base + i).choose i * (base + (i + 1)) = (base + (i + 1)).choose (i + 1) * (i + 1) := by
  rw [← Nat.add_assoc, Nat.mul_comm, Nat.add_one_mul_choose_eq]

theorem risingBinomial_next {base i value : Nat} (h : risingBinomial base i = .ok value) :
    risingBinomial base (i + 1) =
      if value * (base + (i + 1)) < Word.limit then .ok (value * (base + (i + 1)) / (i + 1))
      else .error .overflow := by
  rw [risingBinomial, h]
  show (Word.fit (value * (base + (i + 1))) >>= fun product => pure (product / (i + 1))) = _
  unfold Word.fit
  split
  next hfits => rfl
  next hleaves => rfl

/-- A loop that has stopped does not go on. -/
theorem risingBinomial_overflow {base i k : Nat} (h : risingBinomial base i = .error .overflow)
    (hi : i ≤ k) : risingBinomial base k = .error .overflow := by
  induction k, hi using Nat.le_induction with
  | base => exact h
  | succ k _ ih =>
      rw [risingBinomial, ih]
      rfl

/-- What the loop holds is a binomial coefficient. -/
theorem eq_choose_of_risingBinomial {base i value : Nat}
    (h : risingBinomial base i = .ok value) : value = (base + i).choose i := by
  induction i generalizing value with
  | zero => simpa [risingBinomial] using h.symm
  | succ i ih =>
      cases hlast : risingBinomial base i with
      | error fault =>
          rw [risingBinomial, hlast] at h
          cases h
      | ok last =>
          rw [risingBinomial_next hlast] at h
          split at h
          next =>
            rw [← Except.ok.inj h, ih hlast, choose_mul_next, Nat.mul_div_cancel _ i.succ_pos]
          next => cases h

theorem dvd_product {base i value : Nat} (h : risingBinomial base i = .ok value) :
    i + 1 ∣ value * (base + (i + 1)) := by
  rw [eq_choose_of_risingBinomial h, choose_mul_next]
  exact Nat.dvd_mul_left _ _

namespace ProductsFit

/-- While the products fit, no round stops the loop. -/
theorem risingBinomial_eq {n k i : Nat} (h : ProductsFit n k) (hi : i ≤ k) :
    risingBinomial (n - k) i = .ok ((n - k + i).choose i) := by
  induction i with
  | zero => simp [risingBinomial]
  | succ i ih =>
      have hvalue := ih (Nat.le_of_succ_le hi)
      rw [risingBinomial_next hvalue, if_pos (h i hi _ hvalue), choose_mul_next,
        Nat.mul_div_cancel _ i.succ_pos]

theorem of_choose {n k : Nat}
    (h : ∀ i < k, (n - k + i).choose i * (n - k + (i + 1)) < Word.limit) : ProductsFit n k := by
  intro i hi value hvalue
  rw [eq_choose_of_risingBinomial hvalue]
  exact h i hi

theorem binomial_eq {n k : Nat} (hk : k ≤ n) (h : ProductsFit n k) :
    binomial n k = .ok (n.choose k) := by
  rw [binomial, h.risingBinomial_eq le_rfl, Nat.sub_add_cancel hk]

/-- A product that leaves the word stops the loop. -/
theorem binomial_overflow {n k : Nat} (h : ¬ ProductsFit n k) :
    binomial n k = .error .overflow := by
  unfold ProductsFit at h
  push Not at h
  obtain ⟨i, hi, value, hvalue, hleaves⟩ := h
  have hstop := risingBinomial_next hvalue
  rw [if_neg (Nat.not_lt.2 hleaves)] at hstop
  exact risingBinomial_overflow hstop hi

/-- The last product is a multiple of `n`. -/
theorem lt_limit {n k : Nat} (hpos : 0 < k) (hk : k ≤ n) (h : ProductsFit n k) :
    n < Word.limit := by
  obtain ⟨last, rfl⟩ := Nat.exists_eq_add_of_lt hpos
  rw [Nat.zero_add] at h hk
  have hlast : last < last + 1 := Nat.lt_succ_self last
  have hproduct := h last hlast _ (h.risingBinomial_eq hlast.le)
  have hchoose : 0 < (n - (last + 1) + last).choose last := Nat.choose_pos (Nat.le_add_left _ _)
  rw [Nat.sub_add_cancel hk] at hproduct
  exact (Nat.le_mul_of_pos_left n hchoose).trans_lt hproduct

end ProductsFit

/-! ## Numbers of monomials -/

/-- The exponents of the monomials of a degree in the coordinates of a cell: those of that total
degree at most on a simplex, and on any other cell those of that degree at most in each
coordinate. -/
def CellShape.monomials (cell : CellShape) (degree : Nat) : Set (Fin cell.dimension →₀ Nat) :=
  {m | if cell.isSimplex then m.degree ≤ degree else ∀ i, m i ≤ degree}

/-- The exponents of the monomials of an exact total degree in one more coordinate. -/
noncomputable def homogeneousMonomials (dimension degree : Nat) :
    Finset (Fin (dimension + 1) →₀ Nat) :=
  Finset.univ.finsuppAntidiag degree

theorem mem_homogeneousMonomials {dimension degree : Nat} {m : Fin (dimension + 1) →₀ Nat} :
    m ∈ homogeneousMonomials dimension degree ↔ m 0 + m.tail.degree = degree := by
  simp [homogeneousMonomials, Fin.sum_univ_succ, Finsupp.degree_eq_sum, Finsupp.tail_apply]

/-- The additional coordinate takes what is missing of the degree. -/
theorem image_tail_homogeneous (dimension degree : Nat) :
    Finsupp.tail '' (homogeneousMonomials dimension degree) =
      {m : Fin dimension →₀ Nat | m.degree ≤ degree} := by
  ext m
  simp only [Set.mem_image, Finset.mem_coe, mem_homogeneousMonomials, Set.mem_ofPred_eq]
  constructor
  · rintro ⟨whole, hwhole, rfl⟩
    omega
  · intro hm
    refine ⟨m.cons (degree - m.degree), ?_, Finsupp.tail_cons _ _⟩
    rw [Finsupp.cons_zero, Finsupp.tail_cons]
    omega

theorem injOn_tail_homogeneous (dimension degree : Nat) :
    Set.InjOn Finsupp.tail
      (homogeneousMonomials dimension degree : Set (Fin (dimension + 1) →₀ Nat)) := by
  intro a ha b hb heq
  rw [Finset.mem_coe, mem_homogeneousMonomials] at ha hb
  have hfirst : a 0 = b 0 := by
    rw [heq] at ha
    omega
  rw [← Finsupp.cons_tail a, ← Finsupp.cons_tail b, hfirst, heq]

theorem ncard_degree_le (dimension degree : Nat) :
    {m : Fin dimension →₀ Nat | m.degree ≤ degree}.ncard =
      (degree + dimension).choose dimension := by
  rw [← image_tail_homogeneous, (injOn_tail_homogeneous _ _).ncard_image,
    Set.ncard_coe_finset, homogeneousMonomials, Finset.card_finsuppAntidiag_nat_eq_choose,
    Finset.card_univ, Fintype.card_fin, Nat.add_right_comm, Nat.add_sub_cancel, Nat.add_comm,
    Nat.choose_symm_add]

theorem ncard_each_le (dimension degree : Nat) :
    {m : Fin dimension →₀ Nat | ∀ i, m i ≤ degree}.ncard = (degree + 1) ^ dimension := by
  have himage : (fun (m : Fin dimension →₀ Nat) i => m i) '' {m | ∀ i, m i ≤ degree} =
      Fintype.piFinset fun _ : Fin dimension => Finset.range (degree + 1) := by
    ext f
    simp only [Set.mem_image, Set.mem_ofPred_eq, Finset.mem_coe, Fintype.mem_piFinset,
      Finset.mem_range, Nat.lt_succ_iff]
    constructor
    · rintro ⟨m, hm, rfl⟩
      exact hm
    · intro hf
      exact ⟨Finsupp.equivFunOnFinite.symm f, hf, rfl⟩
  rw [← Set.ncard_image_of_injective _ DFunLike.coe_injective, himage, Set.ncard_coe_finset,
    Fintype.card_piFinset_const, Finset.card_range]

theorem CellShape.ncard_monomials (cell : CellShape) (degree : Nat) :
    (cell.monomials degree).ncard =
      if cell.isSimplex then (degree + cell.dimension).choose cell.dimension
      else (degree + 1) ^ cell.dimension := by
  unfold monomials
  split
  next hsimplex => simpa [hsimplex] using ncard_degree_le cell.dimension degree
  next hother => simpa [hother] using ncard_each_le cell.dimension degree

/-! ## Dimensions -/

/-- No product on the way to the dimension of the polynomials of a degree leaves the word. -/
def DimensionFits (cell : CellShape) (degree : Nat) : Prop :=
  if cell.isSimplex then ProductsFit (degree + cell.dimension) cell.dimension
  else (degree + 1) ^ cell.dimension < Word.limit

theorem polynomialDimension_eq {cell : CellShape} {degree : Nat} (hdegree : degree < Word.limit)
    (h : DimensionFits cell degree) :
    polynomialDimension cell degree = .ok (cell.monomials degree).ncard := by
  unfold DimensionFits at h
  rw [CellShape.ncard_monomials]
  unfold polynomialDimension
  split
  next hsimplex =>
    rw [if_pos hsimplex] at h
    have hsum : degree + cell.dimension < Word.limit := by
      obtain hzero | hpos := Nat.eq_zero_or_pos cell.dimension
      · rwa [hzero]
      · exact h.lt_limit hpos (Nat.le_add_left _ _)
    rw [Word.add, Word.fit, if_pos hsum]
    exact h.binomial_eq (Nat.le_add_left _ _)
  next hother =>
    rw [if_neg hother] at h
    have hpos : cell.dimension ≠ 0 := by
      cases cell <;> simp_all [CellShape.isSimplex, CellShape.dimension]
    have hsum : degree + 1 < Word.limit := (Nat.le_self_pow hpos _).trans_lt h
    rw [Word.add, Word.fit, if_pos hsum]
    show Word.fit ((degree + 1) ^ cell.dimension) = _
    rw [Word.fit, if_pos h]

theorem polynomialDimension_overflow {cell : CellShape} {degree : Nat}
    (h : ¬ DimensionFits cell degree) : polynomialDimension cell degree = .error .overflow := by
  unfold DimensionFits at h
  unfold polynomialDimension
  split
  next hsimplex =>
    rw [if_pos hsimplex] at h
    unfold Word.add Word.fit
    split
    next => exact ProductsFit.binomial_overflow h
    next => rfl
  next hother =>
    rw [if_neg hother] at h
    unfold Word.add Word.fit
    split
    next =>
      show Word.fit ((degree + 1) ^ cell.dimension) = _
      rw [Word.fit, if_neg h]
    next => rfl

/-- While no product leaves the word, the loop of a binomial coefficient holds the coefficient of
`n - k + i` over `i` after `i` rounds and never loses a remainder, so its result is the coefficient
of `n` over `k`; the dimension of a cell is the number of its monomials.  Otherwise both overflow. -/
theorem polynomialDimension_counts :
    (∀ n k, k ≤ n →
      (ProductsFit n k →
        (∀ i ≤ k, risingBinomial (n - k) i = .ok ((n - k + i).choose i)) ∧
        (∀ i < k, ∀ value, risingBinomial (n - k) i = .ok value →
          i + 1 ∣ value * (n - k + (i + 1))) ∧
        binomial n k = .ok (n.choose k)) ∧
      (¬ ProductsFit n k → binomial n k = .error .overflow)) ∧
    ∀ cell degree, degree < Word.limit →
      (DimensionFits cell degree →
        polynomialDimension cell degree = .ok (cell.monomials degree).ncard) ∧
      (¬ DimensionFits cell degree → polynomialDimension cell degree = .error .overflow) := by
  refine ⟨fun n k hk => ⟨fun hfits => ⟨?_, ?_, hfits.binomial_eq hk⟩,
    ProductsFit.binomial_overflow⟩, fun cell degree hdegree =>
    ⟨polynomialDimension_eq hdegree, polynomialDimension_overflow⟩⟩
  · exact fun i hi => hfits.risingBinomial_eq hi
  · exact fun i _ value hvalue => dvd_product hvalue

theorem polynomialDimension_counts_tetrahedron :
    ProductsFit 5 3 ∧ binomial 5 3 = .ok (Nat.choose 5 3) ∧
      polynomialDimension .tetrahedron 2 = .ok (CellShape.tetrahedron.monomials 2).ncard ∧
      polynomialDimension .hexahedron 2 = .ok (CellShape.hexahedron.monomials 2).ncard := by
  have hfits : ProductsFit 5 3 := .of_choose (by decide)
  obtain ⟨hbinomial, hcells⟩ := polynomialDimension_counts
  refine ⟨hfits, ((hbinomial 5 3 (by decide)).1 hfits).2.2, ?_, ?_⟩
  · exact (hcells .tetrahedron 2 (by decide)).1 hfits
  · exact (hcells .hexahedron 2 (by decide)).1 (by show 3 ^ 3 < Word.limit; decide)

end ElementKernel
