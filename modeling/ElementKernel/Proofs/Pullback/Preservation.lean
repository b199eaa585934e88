import ElementKernel.Proofs.Pullback.Variables

/-!
# The transformation preserves the value

The transformed monomial is summed over its variables in the order of their roles.  The variables
are the indices of the free keys and those that the factors introduced, so the sum may be taken over
the free keys first; what is left then is the product of the physical factors.
-/

namespace ElementKernel

variable {F : Type*} [Field F] {P : PointData F} {uses : List (Nat × Nat)}
  {own : Summation IndexHandle} {state : Transformation} {m : TransformedMonomial}

/-! ## From roles to handles -/

/-- What a transformed monomial takes over from the last state. -/
structure Finishes (state : Transformation) (m : TransformedMonomial) : Prop where
  determinant : m.determinant = state.determinant
  coefficients : m.coefficients = state.coefficients
  transforms : m.transforms = state.transforms
  basisFunctions : m.basisFunctions = state.basisFunctions
  classified : Classified state m.arena

theorem Tracked.finishes (h : Tracked uses own [] state) {coefficient : Float}
    (hfinish : state.finish coefficient = .ok m) :
    Finishes state m ∧ m.coefficient = coefficient := by
  unfold Transformation.finish at hfinish
  rcases hrun : Classification.run ⟨state.arena, {}⟩ (internalOccurrences state.basisFunctions)
    (externalOccurrences state.coefficients state.transforms) with ⟨result, outcome⟩
  dsimp only at hfinish
  rw [hrun] at hfinish
  obtain ⟨_, hok, hfinish⟩ := bind_eq_ok.1 hfinish
  obtain rfl := Except.ok.inj hfinish
  have hok : outcome = .ok () := hok
  rw [hok] at hrun
  exact ⟨⟨rfl, rfl, rfl, rfl, h.classified hrun⟩, rfl⟩

namespace Finishes

theorem mem_indices_iff (hm : Finishes state m) {role : IndexRole} {k : IndexHandle} :
    k ∈ m.indices role ↔ k ∈ state.footprint ∧ m.arena.role? k = some role := by
  simp only [TransformedMonomial.indices, TransformedMonomial.internalIndices,
    TransformedMonomial.externalIndices, TransformedMonomial.ofRole,
    TransformedMonomial.internalHandles, TransformedMonomial.externalHandles, hm.basisFunctions,
    hm.coefficients, hm.transforms, Transformation.footprint, List.mem_append, List.mem_filter,
    decide_eq_true_eq]
  tauto

theorem summed_of_role (hm : Finishes state m) (h : Tracked uses own [] state) {role : IndexRole}
    (hrole : role.IsSummed) {k : IndexHandle} (hk : m.arena.role? k = some role) :
    k ∈ summedHandles own state ∧ (m.arena.variableName k).1 = role := by
  obtain ⟨index, hget, hindex⟩ := Option.bind_eq_some_iff.1 hk
  obtain ⟨old, hold, hnone⟩ := hm.classified.origin k index role hget hindex hrole
  have hmem := h.mem_summedHandles_iff.2 ⟨old, hold, hnone⟩
  obtain ⟨-, hsummed⟩ := hm.classified.get?_summed h hmem
  obtain rfl := Option.some.inj (hget.symm.trans hsummed)
  exact ⟨hmem, Option.some.inj hindex⟩

theorem eq_of_sameIndex (hm : Finishes state m) (h : Tracked uses own [] state) {j k : IndexHandle}
    (hj : j ∈ summedHandles own state) (hk : k ∈ summedHandles own state)
    (hsame : TransformedMonomial.sameIndex m.arena j k = true) : j = k := by
  obtain ⟨hrole, hgetj⟩ := hm.classified.get?_summed h hj
  obtain ⟨-, hgetk⟩ := hm.classified.get?_summed h hk
  simp only [TransformedMonomial.sameIndex, hgetj, hgetk, Bool.or_eq_true, decide_eq_true_eq,
    Bool.and_eq_true, Option.some.injEq] at hsame
  obtain rfl | ⟨⟨-, hroles⟩, hids⟩ := hsame
  · rfl
  · refine hm.classified.distinct j k _ _ (state.arena.rangeOf k) _ hrole hgetj ?_
    rw [hgetk, hroles, hids]

theorem uniqueIndices (hm : Finishes state m) (h : Tracked uses own [] state) {role : IndexRole}
    (hrole : role.IsSummed) :
    (m.uniqueIndices role).Nodup ∧ ∀ k, k ∈ m.uniqueIndices role ↔ k ∈ m.indices role := by
  have hsame : ∀ a ∈ m.indices role, ∀ b ∈ m.indices role,
      TransformedMonomial.sameIndex m.arena a b = true → a = b := by
    intro a ha b hb
    rw [hm.mem_indices_iff] at ha hb
    exact hm.eq_of_sameIndex h (hm.summed_of_role h hrole ha.2).1 (hm.summed_of_role h hrole hb.2).1
  rw [TransformedMonomial.uniqueIndices_eq_unique, TransformedMonomial.unique_eq_eraseDups hsame]
  exact ⟨nodup_eraseDups _, fun k => List.mem_eraseDups⟩

/-- The unique indices of the summation roles are the summed handles, in some order. -/
theorem perm (hm : Finishes state m) (h : Tracked uses own [] state) :
    ([IndexRole.secondary, .internal, .external].flatMap m.uniqueIndices).Perm
      (summedHandles own state) := by
  have hsummed : ∀ role ∈ [IndexRole.secondary, .internal, .external], role.IsSummed := by
    simp [IndexRole.IsSummed]
  have hmem : ∀ role ∈ [IndexRole.secondary, .internal, .external], ∀ k ∈ m.uniqueIndices role,
      k ∈ summedHandles own state ∧ (m.arena.variableName k).1 = role := by
    intro role hrole k hk
    have hk := ((hm.uniqueIndices h (hsummed role hrole)).2 k).1 hk
    exact hm.summed_of_role h (hsummed role hrole) (hm.mem_indices_iff.1 hk).2
  have hnodup : ([IndexRole.secondary, .internal, .external].flatMap m.uniqueIndices).Nodup := by
    refine List.nodup_flatMap.2 ⟨fun role hrole => (hm.uniqueIndices h (hsummed role hrole)).1, ?_⟩
    have hpairs : [IndexRole.secondary, .internal, .external].Pairwise (· ≠ ·) := by decide
    refine hpairs.imp_of_mem fun {a b} ha hb hne k hka hkb => hne ?_
    exact (hmem a ha k hka).2.symm.trans (hmem b hb k hkb).2
  refine (List.perm_ext_iff_of_nodup hnodup h.nodup_summedHandles).2 fun k => ?_
  constructor
  · intro hk
    obtain ⟨role, hrole, hk⟩ := List.mem_flatMap.1 hk
    exact (hmem role hrole k hk).1
  · intro hk
    obtain ⟨index, hget, hnone⟩ := h.mem_summedHandles_iff.1 hk
    obtain ⟨hrole, hgetm⟩ := hm.classified.get?_summed h hk
    have hlist : (m.arena.variableName k).1 ∈ [IndexRole.secondary, .internal, .external] := by
      simpa [IndexRole.IsSummed] using hrole
    refine List.mem_flatMap.2 ⟨_, hlist, ((hm.uniqueIndices h hrole).2 k).2 ?_⟩
    refine hm.mem_indices_iff.2 ⟨(h.occurs k index hget hnone).resolve_right List.not_mem_nil, ?_⟩
    rw [IndexArena.role?, hgetm]
    rfl

/-- The sum over roles and ids is the sum over the summed handles. -/
theorem sum_handles (hm : Finishes state m) (h : Tracked uses own [] state)
    (body : (IndexHandle → Nat) → F) :
    sumOver m.summation (fun assignment => body (m.arena.values P assignment)) (fun _ => 0) =
      sumOver ((summedHandles own state).map fun k => (k, state.arena.rangeOf k)) body
        (m.arena.values P fun _ => 0) := by
  have hperm := hm.perm h
  have hslot : ∀ k ∈ [IndexRole.secondary, .internal, .external].flatMap m.uniqueIndices,
      m.slot? k = some (m.arena.variableName k, state.arena.rangeOf k) := by
    intro k hk
    obtain ⟨-, hget⟩ := hm.classified.get?_summed h (hperm.mem_iff.1 hk)
    rw [TransformedMonomial.slot?, hget]
  have hsummation : m.summation =
      (([IndexRole.secondary, .internal, .external].flatMap m.uniqueIndices).map fun k =>
        (k, state.arena.rangeOf k)).map fun entry => (m.arena.variableName entry.1, entry.2) := by
    rw [TransformedMonomial.summation, List.filterMap_congr hslot, List.map_map]
    exact congrFun List.filterMap_eq_map _
  have hkeys : ∀ handles : List IndexHandle,
      Summation.keys (handles.map fun k => (k, state.arena.rangeOf k)) = handles := by
    intro handles
    simp [Summation.keys, Function.comp_def]
  rw [hsummation, sumOver_rename m.arena.variableName (m.arena.values P) _ body]
  · refine sumOver_perm (hperm.map _) ?_ body _
    rw [hkeys]
    exact hperm.nodup_iff.2 h.nodup_summedHandles
  · intro assignment k hk v
    rw [hkeys] at hk
    obtain ⟨hrole, hget⟩ := hm.classified.get?_summed h (hperm.mem_iff.1 hk)
    funext j
    by_cases hj : j = k
    · subst hj
      rw [IndexArena.values_summed hrole hget, Function.update_self, Function.update_self]
    · rw [Function.update_of_ne hj]
      refine IndexArena.values_update (fun range hgetj => hj ?_) assignment v
      exact hm.classified.distinct j k _ range _ _ hrole hgetj hget

/-- Values that agree with those of the given indices read the free keys in their ranges. -/
theorem reading (hm : Finishes state m) (h : Tracked uses own [] state) {value : IndexHandle → Nat}
    (hgiven : ∀ k ∉ summedHandles own state, value k = m.arena.values P (fun _ => 0) k)
    (hrange : ∀ r ∈ state.resolved, value r.2 ∈ List.range (state.arena.dimension r.2))
    {assignment : Nat → Nat} (hfree : ∀ r ∈ state.resolved, value r.2 = assignment r.1) :
    Reading P m.arena.isFixed assignment state value := by
  have hnotSummed : ∀ k index role, state.arena.get? k = some index → index.role = some role →
      k ∉ summedHandles own state := by
    intro k index role hget hrole hmem
    obtain ⟨other, hother, hnone⟩ := h.mem_summedHandles_iff.1 hmem
    obtain rfl := Option.some.inj (hother.symm.trans hget)
    simp [hrole] at hnone
  refine ⟨fun k index hget => ?_, fun k index v hget hrole hvalues => ?_,
    fun k index n hget hrole hid => ?_, hfree, fun r hr index hget => ?_⟩
  · by_cases hnone : index.role = none
    · obtain ⟨role, id, hrole, hassigned⟩ := hm.classified.assigned k index hget hnone
      rw [IndexArena.isFixed, hassigned]
      rcases hrole with rfl | rfl | rfl <;>
        simp [MonomialIndex.isFixed, MonomialIndex.classifyAs, hnone]
    · rw [IndexArena.isFixed, hm.classified.kept k index hget hnone]
      rfl
  · rw [hgiven k (hnotSummed k index _ hget hrole), IndexArena.values,
      hm.classified.kept k index hget (by simp [hrole])]
    obtain ⟨role, range, id⟩ := index
    cases hrole
    cases hvalues
    rfl
  · rw [hgiven k (hnotSummed k index _ hget hrole), IndexArena.values,
      hm.classified.kept k index hget (by simp [hrole])]
    obtain ⟨role, range, id⟩ := index
    cases hrole
    cases hid
    rfl
  · obtain rfl := Option.some.inj ((h.free_get r hr).symm.trans hget)
    exact hrange r hr

end Finishes

/-! ## From handles to keys -/

/-- The handles of the free keys with their values. -/
def freeEntries (state : Transformation) : Summation IndexHandle :=
  state.resolved.reverse.map fun r => (r.2, List.range (state.arena.dimension r.2))

/-- The values of the free keys, read off from the values of handles. -/
def keyValues (state : Transformation) (value : IndexHandle → Nat) (number : Nat) : Nat :=
  ((state.resolved.lookup number).map value).getD 0

theorem lookup_of_mem {entries : List (Nat × IndexHandle)} {r : Nat × IndexHandle}
    (hnodup : (entries.map Prod.fst).Nodup) (hr : r ∈ entries) :
    entries.lookup r.1 = some r.2 := by
  induction entries with
  | nil => cases hr
  | cons entry entries ih =>
      obtain ⟨hnew, hnodup⟩ := List.nodup_cons.1 hnodup
      obtain _ | ⟨_, hr⟩ := hr
      · exact List.lookup_cons_self
      · have hne : (r.1 == entry.1) = false := by
          rw [beq_eq_false_iff_ne]
          rintro heq
          exact hnew (heq ▸ List.mem_map_of_mem hr)
        rw [List.lookup_cons, hne]
        exact ih hnodup hr

namespace Tracked

theorem entries_eq {pending : List IndexHandle} (h : Tracked uses own pending state) :
    (summedHandles own state).map (fun k => (k, state.arena.rangeOf k)) =
      freeEntries state ++ own := by
  have hfree : (state.resolved.reverse.map Prod.snd).map (fun k => (k, state.arena.rangeOf k)) =
      freeEntries state := by
    rw [List.map_map, freeEntries]
    refine List.map_congr_left fun r hr => ?_
    simp only [Function.comp_apply, IndexArena.rangeOf, h.free_get r (List.mem_reverse.1 hr)]
    rfl
  have hown : own.keys.map (fun k => (k, state.arena.rangeOf k)) = own := by
    rw [Summation.keys, List.map_map]
    refine (List.map_congr_left fun entry hentry => ?_).trans (List.map_id own)
    simp only [Function.comp_apply, IndexArena.rangeOf, h.own_get entry hentry]
    rfl
  rw [summedHandles, List.map_append, hfree, hown]

theorem lookup_eq {pending : List IndexHandle} (h : Tracked uses own pending state)
    {r : Nat × IndexHandle} (hr : r ∈ state.resolved) :
    state.resolved.lookup r.1 = some r.2 := by
  refine lookup_of_mem ?_ hr
  have hnodup := nodup_firstUses uses
  rw [h.free_uses, List.map_map, List.map_reverse, List.nodup_reverse] at hnodup
  exact hnodup

/-- Summing over the handles of the free keys is summing over the keys. -/
theorem sum_keys {pending : List IndexHandle} (h : Tracked uses own pending state)
    (body : (Nat → Nat) → F) (value : IndexHandle → Nat) :
    sumOver (freeEntries state) (fun v => body (keyValues state v)) value =
      sumOver (freeSummation uses) body (keyValues state value) := by
  have hkeys : freeSummation uses = state.resolved.reverse.map fun r =>
      (r.1, List.range (state.arena.dimension r.2)) := by
    rw [freeSummation, h.free_uses, List.map_map]
    rfl
  have hentries : freeEntries state = (freeSummation uses).map fun entry =>
      ((state.resolved.lookup entry.1).getD 0, entry.2) := by
    rw [hkeys, List.map_map, freeEntries]
    refine List.map_congr_left fun r hr => ?_
    simp [h.lookup_eq (List.mem_reverse.1 hr)]
  have hnodup : (state.resolved.map Prod.snd).Nodup := (List.nodup_append.1 h.nodup).2.1
  rw [hentries]
  refine sumOver_rename (fun n => (state.resolved.lookup n).getD 0) (keyValues state) ?_ body value
  intro v key hkey x
  obtain ⟨r, hr, rfl⟩ : ∃ r ∈ state.resolved, r.1 = key := by
    rw [hkeys, Summation.keys, List.map_map] at hkey
    obtain ⟨r, hr, heq⟩ := List.mem_map.1 hkey
    exact ⟨r, List.mem_reverse.1 hr, heq⟩
  funext n
  simp only [h.lookup_eq hr, Option.getD_some]
  by_cases hn : n = r.1
  · subst hn
    simp [keyValues, h.lookup_eq hr]
  · rw [Function.update_of_ne hn, keyValues, keyValues]
    cases hlookup : state.resolved.lookup n with
    | none => rfl
    | some handle =>
        obtain ⟨before, after, hresolved, -⟩ := List.lookup_eq_some_iff.1 hlookup
        have hmem : (n, handle) ∈ state.resolved := by simp [hresolved]
        have hne : handle ≠ r.2 := by
          rintro rfl
          exact hn (congrArg Prod.fst (List.inj_on_of_nodup_map hnodup hmem hr rfl))
        simp [Function.update_of_ne hne]

end Tracked

/-- With the values of the free keys chosen, the indices of factors sum to the physical factors. -/
theorem Accounts.sum_own {done : List (MonomialFactor × FiniteElement)} {part : Part}
    (h : Accounts P done state part) (hm : Finishes state m) {value : IndexHandle → Nat}
    (hgiven : ∀ k ∉ summedHandles part.own state, value k = m.arena.values P (fun _ => 0) k)
    (hrange : ∀ entry ∈ freeEntries state, value entry.1 ∈ entry.2) :
    P.determinant ^ m.determinant.power * sumOver part.own
      (P.product m.arena.isFixed m.coefficients m.transforms m.basisFunctions) value =
        P.factors done (keyValues state value) := by
  have hreading : Reading P m.arena.isFixed (keyValues state value) state value := by
    refine hm.reading h.tracked hgiven (fun r hr => ?_) fun r hr => ?_
    · exact hrange _ (List.mem_map_of_mem (List.mem_reverse.2 hr))
    · simp [keyValues, h.tracked.lookup_eq hr]
  rw [← h.value _ _ value hreading, Part.sum, hm.determinant, h.power, hm.coefficients,
    h.coefficients, hm.transforms, h.transforms, hm.basisFunctions]
  rfl

/-- Transforming a monomial to the reference cell preserves its value at every point, for arbitrary
values of the Jacobian, its inverse and determinant, the degrees of freedom and the basis. -/
theorem RawMonomial.transform_value (P : PointData F) {monomial : RawMonomial}
    (hone : ∀ factor ∈ monomial.factors, factor.OnePiolaPart)
    (htransform : monomial.transform ElementDescriptor.reference = .ok m) :
    ∃ elements, monomial.factors.mapM (fun factor =>
        ElementDescriptor.reference factor.element) = .ok elements ∧
      m.value P = monomial.value P elements := by
  obtain ⟨state, hfold, hfinish⟩ := bind_eq_ok.1 htransform
  obtain ⟨elements, part, helements, haccounts⟩ := (Accounts.start P).foldl hone hfold
  rw [List.nil_append] at haccounts
  obtain ⟨hm, hcoefficient⟩ := haccounts.tracked.finishes hfinish
  refine ⟨elements, helements, ?_⟩
  have hsplit := hm.sum_handles (P := P) haccounts.tracked
    (P.product m.arena.isFixed m.coefficients m.transforms m.basisFunctions)
  rw [haccounts.tracked.entries_eq, sumOver_append] at hsplit
  have hmem : ∀ r ∈ state.resolved, r.2 ∈ summedHandles part.own state := fun r hr =>
    List.mem_append_left _ (List.mem_map_of_mem (List.mem_reverse.2 hr))
  have hnodup : (freeEntries state).keys.Nodup := by
    have hkeys : (freeEntries state).keys = state.resolved.reverse.map Prod.snd := by
      rw [freeEntries, Summation.keys, List.map_map]
      rfl
    rw [hkeys]
    exact (List.nodup_append.1 haccounts.tracked.nodup_summedHandles).1
  have hkeeps : (freeEntries state).Keeps fun value => ∀ k ∉ summedHandles part.own state,
      value k = m.arena.values P (fun _ => 0) k := by
    intro value hvalue entry hentry v _ k hk
    obtain ⟨r, hr, rfl⟩ := List.mem_map.1 hentry
    have hne : k ≠ r.2 := by
      rintro rfl
      exact hk (hmem r (List.mem_reverse.1 hr))
    rw [Function.update_of_ne hne]
    exact hvalue k hk
  have hzero : keyValues state (m.arena.values P fun _ => 0) = fun _ => 0 := by
    funext n
    rw [keyValues]
    cases hlookup : state.resolved.lookup n with
    | none => rfl
    | some handle =>
        obtain ⟨before, after, hresolved, -⟩ := List.lookup_eq_some_iff.1 hlookup
        obtain ⟨hrole, hget⟩ := hm.classified.get?_summed haccounts.tracked
          (hmem (n, handle) (by simp [hresolved]))
        have hvalue := IndexArena.values_summed (P := P) hrole hget fun _ => 0
        simpa using hvalue
  rw [TransformedMonomial.value, hsplit, mul_assoc, ← sumOver_mul_const, RawMonomial.value,
    hcoefficient]
  congr 1
  rw [← hzero, ← haccounts.tracked.sum_keys]
  exact sumOver_congr_mem hnodup hkeeps (fun value hgiven hrange =>
    haccounts.sum_own hm hgiven hrange) fun _ _ => rfl

/-- A gradient tested with a vector field: the free key is a component under a Piola map and the
direction of a derivative. -/
theorem RawMonomial.transform_value_gradient :
    let monomial : RawMonomial := ⟨2, [
      ⟨.raviartThomas .triangle 1, .argument 0, [.free 0], [], none⟩,
      ⟨.lagrange .triangle 1, .coefficient 0, [], [.free 0], none⟩]⟩
    let P : PointData ℚ := {
      literal := fun _ => 2
      jacobian := fun i j => if i = j then 2 else 0
      inverse := fun i j => if i = j then 1 / 2 else 0
      determinant := 4
      determinant_ne_zero := four_ne_zero
      dof := fun _ a => a
      argument := fun _ => 1
      basis := fun _ a cs γs => a + cs.sum + γs.sum }
    ∃ m elements, monomial.transform ElementDescriptor.reference = .ok m ∧
      monomial.factors.mapM (fun factor => ElementDescriptor.reference factor.element) =
        .ok elements ∧ m.value P = monomial.value P elements := by
  intro monomial P
  have hleaf : ∀ size mapping c p, ElementDescriptor.leaf size mapping c = some p →
      p.offset = 0 := by
    intro size mapping c p hp
    unfold ElementDescriptor.leaf at hp
    split at hp
    · exact congrArg ComponentElement.offset (Option.some.inj hp).symm
    · cases hp
  have hone : ∀ factor ∈ monomial.factors, factor.OnePiolaPart := by
    rintro factor (_ | ⟨_, _ | ⟨_, hmem⟩⟩)
    · intro _ _ c d p q hp hq _ _
      rw [ElementDescriptor.placement] at hp hq
      exact (hleaf _ _ c p hp).trans (hleaf _ _ d q hq).symm
    · intro _ hfree
      cases hfree
    · cases hmem
  cases htransform : monomial.transform ElementDescriptor.reference with
  | error failure => cases htransform
  | ok m =>
      obtain ⟨elements, helements, hvalue⟩ := RawMonomial.transform_value P hone htransform
      exact ⟨m, elements, rfl, helements, hvalue⟩

end ElementKernel
