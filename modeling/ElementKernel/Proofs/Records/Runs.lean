import ElementKernel.Proofs.Records.Factors
import ElementKernel.Proofs.Roles.Slots

/-!
# Records of a monomial

An accepted monomial consists of the records of its factors, and the classification of their indices
keeps the ranges and the fixed values.
-/

namespace ElementKernel

/-- The run of the transformation of a monomial. -/
structure RawMonomial.Run (monomial : RawMonomial) (m : TransformedMonomial)
    (records : List FactorRecord) (state : Transformation) (classified : Classification) :
    Prop where
  fold : monomial.factors.foldlM (Transformation.addFactor ElementDescriptor.reference) {} =
    .ok state
  admissible : ∀ factor ∈ monomial.factors, factor.Admissible monomial.dimensions
  factors : records.map (·.factor) = monomial.factors
  account : Account monomial.dimensions records state
  balanced : ∃ size, Balanced monomial.HasArgument monomial.keys size [] state
  visited : state.VisitedAll classified
  result : m = ⟨monomial.coefficient, state.determinant, state.coefficients, state.transforms,
    state.basisFunctions, classified.arena⟩

theorem RawMonomial.balanced_of_fold {monomial : RawMonomial} {state : Transformation}
    (h : monomial.factors.foldlM (Transformation.addFactor ElementDescriptor.reference) {} =
      .ok state) : ∃ size, Balanced monomial.HasArgument monomial.keys size [] state :=
  ⟨_, (factors_yield False monomial.HasArgument False.elim
    fun factor (hmem : factor ∈ monomial.factors) _ horigin => ⟨factor, hmem, horigin⟩).ok state h⟩

theorem RawMonomial.exists_run {monomial : RawMonomial} {m : TransformedMonomial}
    (h : monomial.transform ElementDescriptor.reference = .ok m) :
    ∃ records state classified, monomial.Run m records state classified := by
  obtain ⟨state, hfold, hfinish⟩ := bind_eq_ok.1 h
  obtain ⟨hadmissible, records, hrecords, haccount⟩ :=
    (addFactors_succeeds monomial.firstMet_dimensions).ok state hfold
  obtain ⟨size, hbalanced⟩ := balanced_of_fold hfold
  obtain ⟨classified, hvisited, hok⟩ | ⟨r, -, -, range, i, e, -, hstop⟩ | ⟨-, hstop⟩ :=
    hbalanced.finish_cases monomial.coefficient
  · exact ⟨records, state, classified, hfold, hadmissible, hrecords, haccount, ⟨_, hbalanced⟩,
      hvisited, Except.ok.inj (hfinish.symm.trans hok)⟩
  · rw [hstop] at hfinish
    cases hfinish
  · rw [hstop] at hfinish
    cases hfinish

/-- The power counts the links by the Jacobian itself, and the restriction is never set. -/
theorem RawMonomial.Run.determinant_eq {monomial : RawMonomial} {m : TransformedMonomial}
    {records : List FactorRecord} {state : Transformation} {classified : Classification}
    (run : monomial.Run m records state classified) : m.determinant =
    ⟨-((monomial.factors.flatMap (·.links monomial.dimensions)).countP (·.kind = .jacobian) : Nat),
      none⟩ := by
  rw [run.result, run.account.determinant, ← run.factors, List.flatMap_map]

/-- Classification gives an index a role and an id, and leaves its values. -/
theorem Classification.Visited.get?_of_get? {start state : Classification}
    {internal external visited : List IndexHandle}
    (h : Visited start internal external visited state) {handle : IndexHandle}
    {index : MonomialIndex} (hget : start.arena.get? handle = some index) :
    ∃ found, state.arena.get? handle = some found ∧ found.range = index.range ∧
      found.isFixed = index.isFixed := by
  obtain ⟨-, hsame⟩ | ⟨role, i, old, hi, hold, hstate⟩ := h.get?_cases handle
  · exact ⟨index, hsame.trans hget, rfl, rfl⟩
  · obtain rfl := Option.some.inj (hget.symm.trans hold)
    have hnew := (mem_numbered.1 (List.mem_of_getElem? hi)).2
    have hnone := role?_of_newRole? hnew
    rw [IndexArena.role?, hget, Option.bind_some] at hnone
    have hsummed : role ≠ .fixed := by
      rintro rfl
      exact IndexRole.not_isSummed_fixed (isSummed_of_newRole? hnew)
    refine ⟨_, hstate, rfl, ?_⟩
    simp [MonomialIndex.isFixed, MonomialIndex.classifyAs, hnone, hsummed]

end ElementKernel
