import ElementKernel.Proofs.Pullback.Components

/-!
# Factors under transformation

The parts of one factor sum to the physical value of the factor, and the parts of all factors
together to the product of the values.
-/

namespace ElementKernel

variable {F : Type*} [Field F] {P : PointData F} {uses : List (Nat × Nat)}
  {own : Summation IndexHandle} {a b : Transformation}

/-- All components under a Piola map start alike, if the component of a factor is a free key. -/
def MonomialFactor.OnePiolaPart (factor : MonomialFactor) : Prop :=
  ∀ number, .free number ∈ factor.components → factor.element.OnePiolaPart

namespace Transformation

/-- The component of a factor, resolved and mapped to the reference cell. -/
def placeComponents (state : Transformation) (element : FiniteElement)
    (restriction : Option Restriction) (keys : List ComponentKey) :
    Attempt TransformError (List IndexHandle × Transformation) :=
  match state.resolveComponents element.valueDimension keys with
  | ([], state) => pure ([], state)
  | ([component], state) => do
      let (reference, state) ← state.mapComponent element restriction component
      pure ([reference], state)
  | (many, _) => Attempt.reject (.rank many.length)

theorem addFactor_eq (provider : ElementProvider) (state : Transformation)
    (factor : MonomialFactor) :
    state.addFactor provider factor = do
      let element ← (provider factor.element).mapError .element
      let (index, state) := state.resolveOrigin element.spaceDimension factor.origin
      let (components, state) ←
        state.placeComponents element factor.restriction factor.components
      let (derivatives, state) ←
        state.addDerivatives element.geometricDimension factor.restriction factor.derivatives
      return { state with basisFunctions := state.basisFunctions ++
        [⟨element, index, components, derivatives, factor.restriction⟩] } := by
  rw [addFactor]
  refine congrArg _ (funext fun element => ?_)
  simp only [placeComponents]
  rcases (state.resolveOrigin element.spaceDimension factor.origin).2.resolveComponents
    element.valueDimension factor.components with ⟨_ | ⟨c, _ | ⟨d, rest⟩⟩, next⟩
  · rfl
  · dsimp only
    rcases next.mapComponent element factor.restriction c with _ | _ <;> rfl
  · rfl

end Transformation

theorem performs_components (h : Tracked uses own [] a) {descriptor : ElementDescriptor}
    {element : FiniteElement} (helement : ElementDescriptor.reference descriptor = .ok element)
    {keys : List ComponentKey} (hone : ∀ number, .free number ∈ keys → descriptor.OnePiolaPart)
    {restriction : Option Restriction} {components : List IndexHandle}
    (hplace : a.placeComponents element restriction keys = .ok (components, b)) :
    ∃ part, Tracked (uses ++ freeUses element.valueDimension keys) (own ++ part.own) components b ∧
      Performs P a b part components fun assignment =>
        P.component descriptor element.geometricDimension (keys.map (·.value assignment)) := by
  unfold Transformation.placeComponents at hplace
  match keys with
  | [] =>
      obtain ⟨rfl, rfl⟩ := Prod.mk.inj (Except.ok.inj hplace)
      refine ⟨{}, ?_, .refl a, ?_, fun k hk => absurd hk List.not_mem_nil⟩
      · simpa [freeUses] using h
      · intro fixed assignment value _ f
        simp [PointData.component]
  | [key] =>
      obtain ⟨⟨reference, mid⟩, hmap, hplace⟩ := bind_eq_ok.1 hplace
      obtain ⟨rfl, rfl⟩ := Prod.mk.inj (Except.ok.inj hplace)
      have hkey := resolvesTo_component h element.valueDimension key
      have honeKey : ∀ number, key = .free number → descriptor.OnePiolaPart := by
        rintro number rfl
        exact hone number List.mem_cons_self
      obtain ⟨part, htracked, hpart⟩ :=
        performs_mapComponent (P := P) hkey.tracked helement honeKey hkey.resolves hmap
      have hadds := hkey.adds.trans hpart.adds
      rw [part.empty_append] at hadds
      exact ⟨part, htracked, hadds, hpart.realizes, hpart.below⟩
  | key :: other :: rest =>
      cases hplace

/-- What a transformed factor adds, with its basis function and its value at any position. -/
structure PullsBack (P : PointData F) (a b : Transformation) (factor : MonomialFactor)
    (element : FiniteElement) (part : Part) (v : BasisFunction) : Prop where
  grows : Grows a b
  fresh : ∀ k ∈ part.own.keys, a.arena.next ≤ k
  reads : ∀ k ∈ part.reads, k < b.arena.next
  coefficients : b.coefficients = a.coefficients ++ part.coefficients
  transforms : b.transforms = a.transforms ++ part.transforms
  power : b.determinant.power = a.determinant.power + part.power
  basisFunctions : b.basisFunctions = a.basisFunctions ++ [v]
  below : ∀ k ∈ v.handles, k < b.arena.next
  value : ∀ position fixed assignment value, Reading P fixed assignment b value →
    part.sum P fixed (fun w => P.basisFunction w position v) value =
      P.factor position factor element assignment

/-- The three parts of a factor, summed from the last one outwards. -/
theorem sum_factor {position : Nat} {factor : MonomialFactor} {element : FiniteElement}
    {first second third : Transformation} {originPart componentPart derivativePart : Part}
    {index : IndexHandle} {components derivatives pending : List IndexHandle}
    (htracked : Tracked uses
      (own ++ originPart.own ++ componentPart.own ++ derivativePart.own) pending third)
    (horigin : Performs P a first originPart [index] fun _ f =>
      P.expansion element.spaceDimension factor.origin fun dof => f [dof])
    (hcomponents : Performs P first second componentPart components fun assignment =>
      P.component factor.element element.geometricDimension
        (factor.components.map (·.value assignment)))
    (hderivatives : Performs P second third derivativePart derivatives fun assignment =>
      P.derivative element.geometricDimension (factor.derivatives.map (·.value assignment)))
    {fixed : IndexHandle → Bool} {assignment : Nat → Nat} {value : IndexHandle → Nat}
    (hvalue : Reading P fixed assignment third value) :
    (originPart.append (componentPart.append derivativePart)).sum P fixed (fun v =>
      P.basis position (v index) (components.map v) (derivatives.map v)) value =
        P.factor position factor element assignment := by
  have hlater := hcomponents.adds.trans hderivatives.adds
  have hkeys : ∀ part ∈ [originPart, componentPart, derivativePart], ∀ k ∈ part.own.keys,
      k ∈ Summation.keys (own ++ originPart.own ++ componentPart.own ++ derivativePart.own) := by
    intro part hpart k hk
    simp only [Summation.keys, List.map_append, List.mem_append, List.mem_cons,
      List.not_mem_nil, or_false] at hpart hk ⊢
    rcases hpart with rfl | rfl | rfl <;> tauto
  have hinner : ∀ v, Reading P fixed assignment third v →
      derivativePart.sum P fixed (fun w => P.basis position (w index) (components.map w)
        (derivatives.map w)) v =
      P.derivative element.geometricDimension (factor.derivatives.map (·.value assignment))
        (P.basis position (v index) (components.map v)) := by
    intro v hv
    refine Eq.trans ?_ (hderivatives.realizes fixed assignment v hv _)
    refine Part.sum_congr hderivatives.adds.fresh htracked (hkeys _ (by simp)) hv fun w _ hw => ?_
    have hindex : index < second.arena.next :=
      (horigin.below index List.mem_cons_self).trans_le hcomponents.adds.grows.next
    rw [hw index hindex, List.map_congr_left fun k hk => hw k (hcomponents.below k hk)]
  have hmiddle : ∀ v, Reading P fixed assignment third v →
      componentPart.sum P fixed (fun w =>
        P.derivative element.geometricDimension (factor.derivatives.map (·.value assignment))
          (P.basis position (w index) (components.map w))) v =
      P.component factor.element element.geometricDimension
        (factor.components.map (·.value assignment)) fun cs =>
          P.derivative element.geometricDimension (factor.derivatives.map (·.value assignment))
            (P.basis position (v index) cs) := by
    intro v hv
    refine Eq.trans ?_
      (hcomponents.realizes fixed assignment v (hv.mono hderivatives.adds.grows) _)
    refine Part.sum_congr hcomponents.adds.fresh htracked (hkeys _ (by simp)) hv fun w _ hw => ?_
    rw [hw index (horigin.below index List.mem_cons_self)]
  refine Eq.trans ?_
    (horigin.realizes fixed assignment value (hvalue.mono hlater.grows) fun dofs =>
      P.component factor.element element.geometricDimension
        (factor.components.map (·.value assignment)) fun cs =>
          P.derivative element.geometricDimension (factor.derivatives.map (·.value assignment))
            (P.basis position (dofs.headD 0) cs))
  rw [Part.sum_append horigin.adds.reads hlater.fresh]
  refine Part.sum_congr horigin.adds.fresh htracked (hkeys _ (by simp)) hvalue fun v hv _ => ?_
  rw [Part.sum_append hcomponents.adds.reads hderivatives.adds.fresh]
  refine Eq.trans ?_ (hmiddle v hv)
  exact Part.sum_congr hcomponents.adds.fresh htracked (hkeys _ (by simp)) hv fun w hw _ =>
    hinner w hw

theorem pullsBack (h : Tracked uses own [] a) {factor : MonomialFactor}
    (hone : factor.OnePiolaPart)
    (hadd : a.addFactor ElementDescriptor.reference factor = .ok b) :
    ∃ element part v, ElementDescriptor.reference factor.element = .ok element ∧
      Tracked (uses ++ factorUses (factor, element)) (own ++ part.own) [] b ∧
      PullsBack P a b factor element part v := by
  rw [Transformation.addFactor_eq] at hadd
  obtain ⟨element, helement, hadd⟩ := bind_eq_ok.1 hadd
  have helement := mapError_eq_ok.1 helement
  rcases horigin : a.resolveOrigin element.spaceDimension factor.origin with ⟨index, first⟩
  rw [horigin] at hadd
  obtain ⟨⟨components, second⟩, hcomponents, hadd⟩ := bind_eq_ok.1 hadd
  obtain ⟨⟨derivatives, third⟩, hderivatives, hadd⟩ := bind_eq_ok.1 hadd
  obtain rfl := Except.ok.inj hadd
  obtain ⟨originPart, htracked₁, horigin⟩ := performs_origin (P := P) h _ _ horigin
  obtain ⟨componentPart, htracked₂, hcomponents⟩ :=
    performs_components (P := P) htracked₁ helement hone hcomponents
  obtain ⟨derivativePart, htracked₃, hderivatives⟩ :=
    performs_derivatives (P := P) htracked₂ hderivatives
  have hlater := hcomponents.adds.trans hderivatives.adds
  have hadds := horigin.adds.trans hlater
  refine ⟨element, originPart.append (componentPart.append derivativePart),
    ⟨element, index, components, derivatives, factor.restriction⟩, helement, ?_,
    ⟨⟨hadds.grows.get?, hadds.grows.resolved, hadds.grows.next⟩, hadds.fresh, hadds.reads,
      hadds.coefficients, hadds.transforms, hadds.power, ?_, ?_, ?_⟩⟩
  · rw [factorUses, ← List.append_assoc, Part.append, Part.append, ← List.append_assoc,
      ← List.append_assoc]
    refine htracked₃.place rfl rfl (fun k hk => ?_) fun k hk _ _ _ => Or.inl ?_
    · simp only [Transformation.footprint, internalOccurrences, List.flatMap_append,
        List.mem_append] at hk ⊢
      tauto
    · simp [Transformation.footprint, internalOccurrences, BasisFunction.handles, hk]
  · exact congrArg (· ++ _) hadds.basisFunctions
  · intro k hk
    obtain _ | ⟨_, hk⟩ := hk
    · exact (horigin.below index List.mem_cons_self).trans_le hlater.grows.next
    · obtain hk | hk := List.mem_append.1 hk
      · exact (hcomponents.below k hk).trans_le hderivatives.adds.grows.next
      · exact hderivatives.below k hk
  · intro position fixed assignment value hvalue
    exact sum_factor htracked₃ horigin hcomponents hderivatives
      (hvalue.mono ⟨fun _ _ h => h, fun _ h => h, le_rfl⟩)

end ElementKernel
