import ElementKernel.Proofs.Records.Runs
import Mathlib.Algebra.BigOperators.Group.List.Basic
import Mathlib.Tactic.FieldSimp
import Mathlib.Tactic.NormNum

/-!
# The power of the determinant

Each contravariant Piola map divides by the determinant of the Jacobian.  The power counts these
maps whatever the sides of their factors are, while the restriction of the determinant is never set,
so the power stands for the product of the determinants if the factors are not restricted.
-/

namespace ElementKernel

variable {dims : Nat → Nat}

/-- Some value of the component is under a contravariant Piola map. -/
def MonomialFactor.isContravariant (dims : Nat → Nat) (factor : MonomialFactor) : Bool :=
  factor.components.any fun key => (key.values dims).any fun c =>
    (factor.element.placement c).any (·.mapping = .contravariantPiola)

namespace Transformation

variable {descriptor : ElementDescriptor} {element : FiniteElement} {range : List Nat}
  {p : ComponentElement}

theorem commonMapping_placement (helement : ElementDescriptor.reference descriptor = .ok element)
    (h : commonMapping element range = .ok p) {c : Nat} (hc : c ∈ range) :
    ∃ q, descriptor.placement c = some q ∧ q.mapping = p.mapping := by
  obtain ⟨q, hq, hmapping⟩ := (commonMapping_eq h hc).1
  rw [ElementDescriptor.reference_component helement] at hq
  exact ⟨q, Except.ok.inj hq, hmapping⟩

theorem any_placement_iff (helement : ElementDescriptor.reference descriptor = .ok element)
    (h : commonMapping element range = .ok p) {mapping : Mapping} (hmapping : mapping ≠ .affine) :
    (range.any fun c => (descriptor.placement c).any (·.mapping = mapping)) ↔
      p.mapping = mapping := by
  rw [List.any_eq_true]
  constructor
  · rintro ⟨c, hc, hany⟩
    obtain ⟨q, hq, hcommon⟩ := commonMapping_placement helement h hc
    rw [← hcommon]
    simpa [hq] using hany
  · rintro rfl
    obtain ⟨-, rfl⟩ | ⟨c, rest, rfl, hc⟩ := commonMapping_cases h
    · exact absurd rfl hmapping
    · rw [ElementDescriptor.reference_component helement] at hc
      exact ⟨c, List.mem_cons_self, by simp [Except.ok.inj hc]⟩

end Transformation

theorem ComponentElement.countP_links (p : ComponentElement) (key : ComponentKey) :
    (p.links key).countP (·.kind = .jacobian) =
      (decide (p.mapping = .contravariantPiola)).toNat := by
  obtain ⟨mapping, offset⟩ := p
  cases mapping <;> rfl

/-- An admissible factor takes an entry of the Jacobian itself exactly if it is contravariant. -/
theorem MonomialFactor.Admissible.countP_links {factor : MonomialFactor}
    (h : factor.Admissible dims) :
    (factor.links dims).countP (·.kind = .jacobian) = (factor.isContravariant dims).toNat := by
  obtain ⟨element, helement, hrank, hmaps⟩ := h
  have hgradients : (gradients factor.derivatives).countP (·.kind = .jacobian) = 0 := by
    simp [gradients, List.countP_map, Function.comp_def]
  rw [links, List.countP_append, hgradients, Nat.add_zero, isContravariant]
  cases hcomponents : factor.components with
  | nil => rfl
  | cons key rest =>
      obtain rfl : rest = [] := by simpa [hcomponents] using hrank
      obtain ⟨p, hp, -⟩ := hmaps key (by simp [hcomponents])
      rw [List.flatMap_singleton, ElementDescriptor.pullback_eq helement hp, p.countP_links,
        List.any_cons, List.any_nil, Bool.or_false]
      congr 1
      rw [Bool.eq_iff_iff, decide_eq_true_iff]
      exact (Transformation.any_placement_iff helement hp (by decide)).symm

theorem countP_links {factors : List MonomialFactor}
    (h : ∀ factor ∈ factors, factor.Admissible dims) :
    (factors.flatMap (·.links dims)).countP (·.kind = .jacobian) =
      factors.countP (·.isContravariant dims) := by
  induction factors with
  | nil => rfl
  | cons factor factors ih =>
      obtain ⟨hfirst, hrest⟩ := List.forall_mem_cons.1 h
      rw [List.flatMap_cons, List.countP_append, ih hrest, hfirst.countP_links, List.countP_cons]
      cases factor.isContravariant dims <;> simp [Nat.add_comm]

namespace RawMonomial

variable {monomial : RawMonomial} {m : TransformedMonomial}

/-- The power counts the contravariant factors, and the restriction is never set. -/
theorem determinant_eq (h : monomial.transform ElementDescriptor.reference = .ok m) :
    m.determinant =
      ⟨-(monomial.factors.countP (·.isContravariant monomial.dimensions) : Nat), none⟩ := by
  obtain ⟨records, state, classified, run⟩ := exists_run h
  rw [run.determinant_eq, countP_links run.admissible]

/-- The power of the determinant is the product of the determinants that the contravariant factors
divide by, if none of these factors is restricted to a side. -/
theorem transform_determinant {K : Type*} [Field K]
    (h : monomial.transform ElementDescriptor.reference = .ok m)
    (hsides : ∀ factor ∈ monomial.factors, factor.isContravariant monomial.dimensions →
      factor.restriction = none)
    (d : Option Restriction → K) :
    d m.determinant.restriction ^ m.determinant.power =
      ((monomial.factors.filter (·.isContravariant monomial.dimensions)).map
        fun factor => (d factor.restriction)⁻¹).prod := by
  have hconstant : ((monomial.factors.filter (·.isContravariant monomial.dimensions)).map
      fun factor => (d factor.restriction)⁻¹) =
        List.replicate (monomial.factors.countP (·.isContravariant monomial.dimensions))
          (d none)⁻¹ := by
    rw [List.countP_eq_length_filter, ← List.map_const']
    refine List.map_congr_left fun factor hfactor => ?_
    obtain ⟨hmem, hcontravariant⟩ := List.mem_filter.1 hfactor
    rw [hsides factor hmem hcontravariant]
  rw [determinant_eq h, hconstant, List.prod_replicate, zpow_neg, zpow_natCast, inv_pow]

/-- The product of two Raviart-Thomas functions. -/
def massOfFluxes : RawMonomial := ⟨1, [
  ⟨.raviartThomas .triangle 1, .argument 0, [.free 0], [], none⟩,
  ⟨.raviartThomas .triangle 1, .argument 1, [.free 0], [], none⟩]⟩

theorem transform_determinant_massOfFluxes : ∃ m,
    massOfFluxes.transform ElementDescriptor.reference = .ok m ∧
      ∀ d : Option Restriction → ℚ,
        d m.determinant.restriction ^ m.determinant.power = (d none)⁻¹ * (d none)⁻¹ := by
  have hok := eq_ok_get (x := massOfFluxes.transform ElementDescriptor.reference)
    (by decide +kernel)
  refine ⟨_, hok, fun d => ?_⟩
  have hsides : ∀ factor ∈ massOfFluxes.factors,
      factor.isContravariant massOfFluxes.dimensions → factor.restriction = none := by
    decide +kernel
  have hfilter : massOfFluxes.factors.filter (·.isContravariant massOfFluxes.dimensions) =
      massOfFluxes.factors := rfl
  rw [transform_determinant hok hsides d, hfilter]
  simp [massOfFluxes]

/-- A component of a Raviart-Thomas function on one side of a facet. -/
def fluxFromPlus : RawMonomial :=
  ⟨1, [⟨.raviartThomas .triangle 1, .argument 0, [.fixed 0], [], some .plus⟩]⟩

/-- The side of a restricted factor is lost. -/
theorem not_transform_determinant : ¬∀ (monomial : RawMonomial) (m : TransformedMonomial),
    monomial.transform ElementDescriptor.reference = .ok m →
      ∀ d : Option Restriction → ℚ, (∀ side, d side ≠ 0) →
        d m.determinant.restriction ^ m.determinant.power =
          ((monomial.factors.filter (·.isContravariant monomial.dimensions)).map
            fun factor => (d factor.restriction)⁻¹).prod := by
  intro h
  have hok := eq_ok_get (x := fluxFromPlus.transform ElementDescriptor.reference)
    (by decide +kernel)
  have hsides := h _ _ hok (fun side => if side = none then 1 else 2) fun side => by
    split <;> decide
  have hfilter : fluxFromPlus.factors.filter (·.isContravariant fluxFromPlus.dimensions) =
      fluxFromPlus.factors := rfl
  rw [determinant_eq hok, hfilter] at hsides
  simp [fluxFromPlus] at hsides

end RawMonomial

end ElementKernel
