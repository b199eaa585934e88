import ElementKernel.Proofs.Roles.Factors
import ElementKernel.Proofs.Roles.Visits

/-!
# Acceptance of the contraction

When all factors are done, the occurrences of the index of a free key are the uses of the key, and
every other index without role occurs twice.  Classification counts the occurrences inside and
outside of the integral apart, but whether it finds a role depends on their sum alone.
-/

namespace ElementKernel

theorem IndexRole.ofOccurrences_eq_none {m n : Nat} : ofOccurrences m n = none ↔ m + n ≠ 2 := by
  constructor
  · intro h hsum
    obtain ⟨rfl, rfl⟩ | ⟨rfl, rfl⟩ | ⟨rfl, rfl⟩ :
      (m = 0 ∧ n = 2) ∨ (m = 1 ∧ n = 1) ∨ (m = 2 ∧ n = 0) := by omega
    all_goals cases h
  · intro hsum
    cases hrole : ofOccurrences m n with
    | none => rfl
    | some role => exact absurd (ofOccurrences_sum hrole) hsum

namespace Transformation

/-- All occurrences have been visited, from counters that have numbered nothing. -/
abbrev VisitedAll (state : Transformation) (classified : Classification) : Prop :=
  Classification.Visited ⟨state.arena, {}⟩ (internalOccurrences state.basisFunctions)
    (externalOccurrences state.coefficients state.transforms) state.footprint classified

variable {state : Transformation} {coefficient : Float}

theorem finish_of_run {classified : Classification}
    (h : Classification.run ⟨state.arena, {}⟩ (internalOccurrences state.basisFunctions)
      (externalOccurrences state.coefficients state.transforms) = (classified, .ok ())) :
    state.finish coefficient = .ok ⟨coefficient, state.determinant, state.coefficients,
      state.transforms, state.basisFunctions, classified.arena⟩ := by
  rw [finish, h]
  rfl

theorem finish_of_stop {failure : Failure TransformError}
    (h : (Classification.run ⟨state.arena, {}⟩ (internalOccurrences state.basisFunctions)
      (externalOccurrences state.coefficients state.transforms)).2 = .error failure) :
    state.finish coefficient = .error failure := by
  show ((Classification.run _ _ _).2 >>= _) = _
  rw [h]
  rfl

end Transformation

/-- Every free key is used exactly twice. -/
def RawMonomial.IsContracted (monomial : RawMonomial) : Prop :=
  ∀ number, .free number ∈ monomial.keys → monomial.keys.count (.free number) = 2

/-- The factors can be looked at without a fault, and as many indices as they introduce are counted
by machine words. -/
structure RawMonomial.Fits (monomial : RawMonomial) (provider : ElementProvider) : Prop where
  factors : ∀ factor ∈ monomial.factors, factor.Fits provider
  size : 2 * monomial.factors.length + 3 * monomial.keys.length < Word.limit

namespace Balanced

variable {arguments : Nat → Prop} {keys : List ComponentKey} {size : Nat} {state : Transformation}

/-- The occurrences inside and outside of the integral are all there are. -/
theorem count_add_count (state : Transformation) (k : IndexHandle) :
    (internalOccurrences state.basisFunctions).count k +
        (externalOccurrences state.coefficients state.transforms).count k =
      (state.occurrences []).count k := by
  rw [Transformation.occurrences, List.append_nil, Transformation.footprint, List.count_append]

/-- The last step numbers the indices without role, or stops at the index of a free key that is not
used twice, or at the end of a counter. -/
theorem finish_cases (h : Balanced arguments keys size [] state) (coefficient : Float) :
    (∃ classified, state.VisitedAll classified ∧
      state.finish coefficient = .ok ⟨coefficient, state.determinant, state.coefficients,
        state.transforms, state.basisFunctions, classified.arena⟩) ∨
    (∃ r ∈ state.resolved, keys.count (.free r.1) ≠ 2 ∧ ∃ range i e,
      i + e = keys.count (.free r.1) ∧
      state.finish coefficient = .error (.error (.contraction range i e))) ∨
    Word.limit ≤ size ∧ state.finish coefficient = .error (.fault .overflow) := by
  have hinside : ∀ k ∈ state.footprint, ∃ index, state.arena.get? k = some index :=
    fun k hk => IndexArena.exists_get? (h.inside k (List.mem_append_left _ hk))
  obtain ⟨classified, hrun, hvisited⟩ |
      ⟨_, k, _, _, index, -, -, hget, hclassified, hrole, hrun⟩ | ⟨role, hfull, hrun⟩ :=
    (Classification.Visited.nil ⟨state.arena, {}⟩ (internalOccurrences state.basisFunctions)
      (externalOccurrences state.coefficients state.transforms)).visitAll_cases hinside
  · exact Or.inl ⟨classified, hvisited, Transformation.finish_of_run hrun⟩
  · have hnone : index.role = none := by
      cases hr : index.role <;> simp_all [MonomialIndex.isClassified]
    have hsum := count_add_count state k
    have hne := IndexRole.ofOccurrences_eq_none.1 hrole
    -- An index that a factor introduced itself occurs twice, so this is the index of a free key.
    have hresolved : k ∈ state.resolved.map Prod.snd := by
      by_contra hown
      exact hne (hsum.trans (h.own k index hget hnone hown))
    obtain ⟨r, hr, rfl⟩ := List.mem_map.1 hresolved
    rw [h.free r hr] at hsum
    exact Or.inr (Or.inl ⟨r, hr, hsum ▸ hne, index.range, _, _, hsum,
      Transformation.finish_of_stop (congrArg Prod.snd hrun)⟩)
  · refine Or.inr (Or.inr ⟨?_, Transformation.finish_of_stop hrun⟩)
    have hlength := h.size
    rw [Transformation.occurrences, List.append_nil] at hlength
    rw [IndexCounters.count_empty, Nat.zero_add, List.nil_append] at hfull
    exact Nat.le_trans hfull ((Classification.length_numbered_le _ _ _ _ _).trans hlength)

/-- A free key is used twice when all occurrences have been visited. -/
theorem count_of_visited (h : Balanced arguments keys size [] state) {classified : Classification}
    (hvisited : state.VisitedAll classified)
    {number : Nat} (hmem : .free number ∈ keys) : keys.count (.free number) = 2 := by
  obtain ⟨r, hr, rfl⟩ := List.mem_map.1 ((h.numbers number).1 hmem)
  obtain ⟨index, hget, hnone⟩ := h.resolved r hr
  have hfree := h.free r hr
  have hfootprint : r.2 ∈ state.footprint := by
    rw [Transformation.occurrences, List.append_nil] at hfree
    exact List.count_pos_iff.1 (hfree ▸ List.count_pos_iff.2 hmem)
  have hunclassified : index.isClassified = false := by simp [MonomialIndex.isClassified, hnone]
  obtain ⟨role, hrole⟩ :=
    Option.isSome_iff_exists.1 (hvisited.admissible r.2 hfootprint index hget hunclassified)
  rw [← hfree, ← count_add_count]
  exact IndexRole.ofOccurrences_sum ((Classification.newRole?_eq_some hget).1 hrole).2

end Balanced

/-- Without an error of a single factor a monomial is transformed exactly when every free key is
used twice.  Otherwise the error of the contraction counts the uses of a free key that is not. -/
theorem RawMonomial.transform_contraction {provider : ElementProvider} {monomial : RawMonomial}
    (hfits : monomial.Fits provider)
    (hfactors : ∀ e, monomial.transform provider = .error (.error e) → ¬e.OfFactor) :
    ((∃ m, monomial.transform provider = .ok m) ↔ monomial.IsContracted) ∧
      (¬monomial.IsContracted → ∃ number range internalCount externalCount,
        .free number ∈ monomial.keys ∧ monomial.keys.count (.free number) ≠ 2 ∧
        internalCount + externalCount = monomial.keys.count (.free number) ∧
        monomial.transform provider =
          .error (.error (.contraction range internalCount externalCount))) := by
  have hyields := factors_yield (monomial.Fits provider) (fun _ => True)
    (fun h => h.factors) fun factor (_ : factor ∈ monomial.factors) _ _ => trivial
  rw [transform] at hfactors ⊢
  cases hfold : monomial.factors.foldlM (Transformation.addFactor provider) {} with
  | error failure =>
      cases failure with
      | fault f => exact absurd hfits (hyields.fault f hfold)
      | error e =>
          refine absurd (hyields.error e hfold) (hfactors e ?_)
          rw [hfold]
          rfl
  | ok state =>
      have hbalanced := hyields.ok state hfold
      have hrest : (Except.ok state >>= fun state => state.finish monomial.coefficient) =
        state.finish monomial.coefficient := rfl
      rw [hrest]
      obtain ⟨classified, hvisited, hfinish⟩ | ⟨r, hr, hne, range, i, e, hsum, hfinish⟩ |
          ⟨hfull, -⟩ := hbalanced.finish_cases monomial.coefficient
      · have hcontracted : monomial.IsContracted := fun number hmem =>
          hbalanced.count_of_visited hvisited hmem
        exact ⟨⟨fun _ => hcontracted, fun _ => ⟨_, hfinish⟩⟩, fun h => absurd hcontracted h⟩
      · have hmem : .free r.1 ∈ monomial.keys :=
          (hbalanced.numbers r.1).2 (List.mem_map_of_mem hr)
        refine ⟨⟨fun ⟨m, hm⟩ => ?_, fun h => absurd (h r.1 hmem) hne⟩, fun _ =>
          ⟨r.1, range, i, e, hmem, hne, hsum, hfinish⟩⟩
        rw [hfinish] at hm
        cases hm
      · exact absurd hfits.size (Nat.not_lt.2 hfull)

theorem MonomialFactor.Fits.reference {factor : MonomialFactor} (info : ElementInfo)
    (hinfo : factor.element.info = .ok info)
    (hoffset : ∀ p ∈ info.components, p.offset + info.geometricDimension ≤ Word.limit) :
    factor.Fits ElementDescriptor.reference := by
  have hprovided : ElementDescriptor.reference factor.element = .ok info.toFiniteElement := by
    rw [ElementDescriptor.reference, hinfo]
    rfl
  refine ⟨fun f h => ?_, fun element h c f hf => ?_, fun element h c p hp => ?_⟩ <;>
    rw [hprovided] at h <;> cases h
  · cases hf
  · exact hoffset p (List.mem_of_getElem? (Except.ok.inj hp))

/-- A free key that is the component of a Piola mapped function and the direction of two derivatives
is used three times. -/
theorem RawMonomial.transform_contraction_thrice :
    let monomial : RawMonomial := ⟨2, [
      ⟨.raviartThomas .triangle 1, .argument 0, [.free 0], [.free 0], none⟩,
      ⟨.lagrange .triangle 1, .coefficient 0, [], [.free 0], none⟩]⟩
    monomial.Fits ElementDescriptor.reference ∧
      (∀ e, monomial.transform ElementDescriptor.reference = .error (.error e) → ¬e.OfFactor) ∧
      ∃ number range internalCount externalCount,
        .free number ∈ monomial.keys ∧ monomial.keys.count (.free number) ≠ 2 ∧
        internalCount + externalCount = monomial.keys.count (.free number) ∧
        monomial.transform ElementDescriptor.reference =
          .error (.error (.contraction range internalCount externalCount)) := by
  intro monomial
  have hfits : monomial.Fits ElementDescriptor.reference := by
    refine ⟨?_, by decide⟩
    rintro factor (_ | ⟨_, _ | ⟨_, hmem⟩⟩)
    · exact .reference (.simple .triangle 3 2 .contravariantPiola) rfl (by decide)
    · exact .reference (.simple .triangle 3 1 .affine) rfl (by decide)
    · cases hmem
  have herrors : ∀ e, monomial.transform ElementDescriptor.reference = .error (.error e) →
      ¬e.OfFactor := by
    cases htransform : monomial.transform ElementDescriptor.reference with
    | ok m => cases htransform
    | error failure =>
        cases htransform
        rintro e ⟨⟩
        exact id
  have hthrice : ¬monomial.IsContracted := fun h => absurd (h 0 (by decide)) (by decide)
  exact ⟨hfits, herrors, (transform_contraction hfits herrors).2 hthrice⟩

end ElementKernel
