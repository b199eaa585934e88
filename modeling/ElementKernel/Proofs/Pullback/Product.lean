import ElementKernel.Proofs.Pullback.Factors

/-!
# Products under transformation

The parts of all factors together sum to the product of the physical values, for every reading of
the free keys.
-/

namespace ElementKernel

variable {F : Type*} [Field F] {P : PointData F}

/-- The account of a state in which some factors are done. -/
structure Accounts (P : PointData F) (done : List (MonomialFactor × FiniteElement))
    (state : Transformation) (part : Part) : Prop where
  tracked : Tracked (done.flatMap factorUses) part.own [] state
  coefficients : state.coefficients = part.coefficients
  transforms : state.transforms = part.transforms
  power : state.determinant.power = part.power
  count : state.basisFunctions.length = done.length
  below : ∀ k ∈ state.footprint, k < state.arena.next
  value : ∀ fixed assignment value, Reading P fixed assignment state value →
    part.sum P fixed (P.basisProduct state.basisFunctions) value = P.factors done assignment

theorem PointData.basisProduct_congr {basisFunctions : List BasisFunction}
    {v w : IndexHandle → Nat} (h : ∀ k ∈ internalOccurrences basisFunctions, v k = w k) :
    P.basisProduct basisFunctions v = P.basisProduct basisFunctions w := by
  refine congrArg List.prod (List.map_congr_left fun entry hentry => ?_)
  have hmem : entry.1 ∈ basisFunctions := List.fst_mem_of_mem_zipIdx hentry
  have hvalue : ∀ k ∈ entry.1.handles, v k = w k := fun k hk =>
    h k (List.mem_flatMap.2 ⟨entry.1, hmem, hk⟩)
  have hcomponents : entry.1.components.map v = entry.1.components.map w :=
    List.map_congr_left fun k hk => hvalue k (by simp [BasisFunction.handles, hk])
  have hderivatives : entry.1.derivatives.map v = entry.1.derivatives.map w :=
    List.map_congr_left fun k hk => hvalue k (by simp [BasisFunction.handles, hk])
  rw [basisFunction, basisFunction, hcomponents, hderivatives,
    hvalue entry.1.index (by simp [BasisFunction.handles])]

theorem PointData.basisProduct_concat (basisFunctions : List BasisFunction) (v : BasisFunction)
    (value : IndexHandle → Nat) :
    P.basisProduct (basisFunctions ++ [v]) value =
      P.basisProduct basisFunctions value * P.basisFunction value basisFunctions.length v := by
  simp [basisProduct, List.zipIdx_append]

theorem PointData.factors_concat (done : List (MonomialFactor × FiniteElement))
    (entry : MonomialFactor × FiniteElement) (assignment : Nat → Nat) :
    P.factors (done ++ [entry]) assignment =
      P.factors done assignment * P.factor done.length entry.1 entry.2 assignment := by
  simp [factors, List.zipIdx_append]

namespace Accounts

theorem start (P : PointData F) : Accounts P [] {} {} where
  tracked := by
    have hnone : ∀ h index, ({} : Transformation).arena.get? h = some index → False := by
      intro h index hget
      cases hget
    exact ⟨fun h index hget => (hnone h index hget).elim, fun _ hmem => absurd hmem (by simp),
      fun _ hmem => absurd hmem List.not_mem_nil, rfl, List.nodup_nil,
      fun h index hget => (hnone h index hget).elim, fun h index hget => (hnone h index hget).elim⟩
  coefficients := rfl
  transforms := rfl
  power := rfl
  count := rfl
  below _ hk := absurd hk List.not_mem_nil
  value fixed assignment value _ := by
    simp [PointData.basisProduct, PointData.factors]

variable {done : List (MonomialFactor × FiniteElement)} {a b : Transformation} {part : Part}

theorem step (h : Accounts P done a part) {factor : MonomialFactor} {element : FiniteElement}
    {more : Part} {v : BasisFunction}
    (htracked : Tracked (done.flatMap factorUses ++ factorUses (factor, element))
      (part.own ++ more.own) [] b) (hback : PullsBack P a b factor element more v) :
    Accounts P (done ++ [(factor, element)]) b (part.append more) where
  tracked := by simpa [Part.append] using htracked
  coefficients := by rw [hback.coefficients, h.coefficients, Part.append]
  transforms := by rw [hback.transforms, h.transforms, Part.append]
  power := by rw [hback.power, h.power, Part.append]
  count := by rw [hback.basisFunctions, List.length_append, h.count, List.length_append]; rfl
  below := by
    intro k hk
    have hk : k ∈ a.footprint ∨ k ∈ more.reads ∨ k ∈ v.handles := by
      simp only [Transformation.footprint, internalOccurrences, externalOccurrences, Part.reads,
        hback.basisFunctions, hback.coefficients, hback.transforms, List.flatMap_append,
        List.flatMap_cons, List.flatMap_nil, List.map_append, List.mem_append,
        List.append_nil] at hk ⊢
      tauto
    obtain hk | hk | hk := hk
    · exact (h.below k hk).trans_le hback.grows.next
    · exact hback.reads k hk
    · exact hback.below k hk
  value := by
    intro fixed assignment value hvalue
    have hreads : ∀ k ∈ part.reads, k < a.arena.next := by
      intro k hk
      rw [Part.reads, ← h.coefficients, ← h.transforms] at hk
      exact h.below k (List.mem_append_right _ hk)
    have hmore : ∀ w, Reading P fixed assignment b w →
        more.sum P fixed (P.basisProduct b.basisFunctions) w =
          P.factor done.length factor element assignment *
            P.basisProduct a.basisFunctions w := by
      intro w hw
      have hbody : more.sum P fixed (P.basisProduct b.basisFunctions) w =
          more.sum P fixed (fun x => P.basisProduct a.basisFunctions w *
            P.basisFunction x done.length v) w := by
        refine Part.sum_congr hback.fresh htracked (fun k hk => ?_) hw fun x _ hx => ?_
        · rw [Summation.keys, List.map_append]
          exact List.mem_append_right _ hk
        · rw [hback.basisFunctions, PointData.basisProduct_concat, h.count,
            PointData.basisProduct_congr fun k hk => hx k (h.below k (List.mem_append_left _ hk))]
      rw [hbody, Part.sum_mul_left, hback.value done.length fixed assignment w hw, mul_comm]
    rw [Part.sum_append hreads hback.fresh, PointData.factors_concat,
      ← h.value fixed assignment value (hvalue.mono hback.grows), mul_comm, ← Part.sum_mul_left]
    refine Part.sum_congr (fun k _ => Nat.zero_le k) htracked (fun k hk => ?_) hvalue
      fun w hw _ => hmore w hw
    rw [Summation.keys, List.map_append]
    exact List.mem_append_left _ hk

theorem foldl {factors : List MonomialFactor} (hone : ∀ factor ∈ factors, factor.OnePiolaPart)
    (h : Accounts P done a part)
    (hfold : factors.foldlM (Transformation.addFactor ElementDescriptor.reference) a = .ok b) :
    ∃ elements all, factors.mapM (fun factor => ElementDescriptor.reference factor.element) =
      .ok elements ∧ Accounts P (done ++ factors.zip elements) b all := by
  induction factors generalizing a done part with
  | nil =>
      obtain rfl := Except.ok.inj hfold
      exact ⟨[], part, rfl, by simpa using h⟩
  | cons factor factors ih =>
      rw [List.foldlM_cons] at hfold
      obtain ⟨next, hadd, hfold⟩ := bind_eq_ok.1 hfold
      obtain ⟨element, more, v, helement, htracked, hback⟩ :=
        pullsBack (P := P) h.tracked (hone factor List.mem_cons_self) hadd
      obtain ⟨elements, all, helements, haccounts⟩ :=
        ih (fun f hf => hone f (List.mem_cons_of_mem _ hf)) (h.step htracked hback) hfold
      refine ⟨element :: elements, all, ?_, by simpa using haccounts⟩
      rw [List.mapM_cons]
      exact bind_eq_ok.2 ⟨element, helement, bind_eq_ok.2 ⟨elements, helements, rfl⟩⟩

end Accounts

end ElementKernel
