import ElementKernel.Index.Binding
import ElementKernel.Proofs.Roles.Contraction

/-!
# Roles and slots

After a transformation every index has a role.  The indices of a summed role are numbered without
gaps in the order of their first occurrences, so a binding with one value for each of them evaluates
every index, and different indices of one role read different slots of it.
-/

namespace ElementKernel

/-! ## Statement -/

namespace IndexArena

/-- The slot of a binding that the index behind a handle reads. -/
def slot (arena : IndexArena) (handle : IndexHandle) : Nat :=
  ((arena.get? handle).bind MonomialIndex.id).getD 0

theorem slot_eq_of_sameIndex {arena : IndexArena} {a b : IndexHandle}
    (h : TransformedMonomial.sameIndex arena a b = true) : arena.slot a = arena.slot b := by
  obtain heq | hmatch := (Bool.or_eq_true _ _).mp h
  · rw [of_decide_eq_true heq]
  · unfold slot
    split at hmatch
    next x y hx hy =>
      have hid : x.id = y.id := by simp_all
      rw [hx, hy]
      exact congrArg (Option.getD · 0) hid
    next => cases hmatch

end IndexArena

/-- The binding has a value in a slot of a role. -/
def IndexBinding.Gives (binding : IndexBinding) (role : IndexRole) (slot value : Nat) : Prop :=
  ∃ values, binding.values role = some values ∧ values[slot]? = some value

namespace MonomialIndex

variable {index : MonomialIndex} {binding : IndexBinding} {role : IndexRole} {id v : Nat}

theorem evaluate_of_gives (hrole : index.role = some role) (hfixed : role ≠ .fixed)
    (hid : index.id = some id) (h : binding.Gives role id v) : index.evaluate binding = .ok v := by
  obtain ⟨values, hvalues, hv⟩ := h
  rw [evaluate, hrole]
  show (if role = .fixed then _ else _) = _
  rw [if_neg hfixed, hvalues, hid]
  show Attempt.ofOption _ values[id]? = _
  rw [hv]
  rfl

theorem evaluate_fixed (hrole : index.role = some .fixed) (hrange : index.range = [v]) :
    index.evaluate binding = .ok v := by
  rw [evaluate, hrole]
  show (liftM index.value : Attempt BindingError Nat) = _
  rw [value, hrange]
  rfl

end MonomialIndex

namespace TransformedMonomial

/-- The handles of a role are numbered from zero in the order of their first occurrences, those
inside of the integral first. -/
structure Numbers (m : TransformedMonomial) (role : IndexRole) (handles : List IndexHandle) :
    Prop where
  order : handles = (m.internalHandles ++ m.externalHandles).eraseDups.filter
    fun h => m.arena.role? h = some role
  nodup : handles.Nodup
  complete : ∀ h, h ∈ handles ↔ m.arena.role? h = some role
  ids : ∀ i h, handles[i]? = some h →
    ∃ range, m.arena.get? h = some ⟨some role, range, some i⟩

/-- The binding has a value for every argument number and for every index of a summed role. -/
structure Covers (m : TransformedMonomial) (arguments : Nat → Prop) (binding : IndexBinding) :
    Prop where
  primary : ∀ n, arguments n → ∃ v, binding.Gives .primary n v
  summed : ∀ role, role.IsSummed → ∀ i < (m.uniqueIndices role).length,
    ∃ v, binding.Gives role i v

/-- The roles, numbers and slots of the indices of a transformed monomial. -/
structure Assigned (m : TransformedMonomial) (arguments : Nat → Prop) : Prop where
  classified : ∀ h index, m.arena.get? h = some index → index.isClassified = true
  secondary : ∀ h, m.arena.role? h = some .secondary →
    m.internalHandles.count h = 1 ∧ m.externalHandles.count h = 1
  internal : ∀ h, m.arena.role? h = some .internal →
    m.internalHandles.count h = 2 ∧ m.externalHandles.count h = 0
  external : ∀ h, m.arena.role? h = some .external →
    m.internalHandles.count h = 0 ∧ m.externalHandles.count h = 2
  numbers : ∀ role, role.IsSummed → m.Numbers role (m.uniqueIndices role)
  evaluates : ∀ binding, m.Covers arguments binding → ∀ h index, m.arena.get? h = some index →
    ∃ v, index.evaluate binding = .ok v ∧
      ∀ role, index.role = some role → role ≠ .fixed → binding.Gives role (m.arena.slot h) v
  slots : ∀ role, role.IsSummed → ∀ h k, m.arena.role? h = some role →
    m.arena.role? k = some role → m.arena.slot h = m.arena.slot k → h = k

end TransformedMonomial

/-- The monomial has a factor of the argument with the given number. -/
def RawMonomial.HasArgument (monomial : RawMonomial) (number : Nat) : Prop :=
  ∃ factor ∈ monomial.factors, factor.origin = .argument number

/-! ## Classified indices -/

theorem IndexRole.ofOccurrences_eq_some {m n : Nat} {role : IndexRole} :
    ofOccurrences m n = some role ↔ (role = .secondary ∧ m = 1 ∧ n = 1) ∨
      (role = .internal ∧ m = 2 ∧ n = 0) ∨ (role = .external ∧ m = 0 ∧ n = 2) := by
  constructor
  · intro h
    unfold ofOccurrences at h
    split at h
    all_goals simp_all
  · rintro (⟨rfl, rfl, rfl⟩ | ⟨rfl, rfl, rfl⟩ | ⟨rfl, rfl, rfl⟩) <;> rfl

namespace Balanced

variable {arguments : Nat → Prop} {keys : List ComponentKey} {size : Nat} {state : Transformation}
  {classified : Classification} {role : IndexRole} {handle : IndexHandle} {index : MonomialIndex}

theorem mem_footprint (h : Balanced arguments keys size [] state)
    (hget : state.arena.get? handle = some index) (hnone : index.role = none) :
    handle ∈ state.footprint := by
  have hcount : 0 < (state.occurrences []).count handle := by
    by_cases hresolved : handle ∈ state.resolved.map Prod.snd
    · obtain ⟨r, hr, rfl⟩ := List.mem_map.1 hresolved
      rw [h.free r hr]
      exact List.count_pos_iff.2 ((h.numbers r.1).2 (List.mem_map_of_mem hr))
    · rw [h.own handle index hget hnone hresolved]
      exact Nat.two_pos
  rw [Transformation.occurrences, List.append_nil] at hcount
  exact List.count_pos_iff.1 hcount

end Balanced

/-- The indices that classification numbers under a role. -/
def Transformation.numbered (state : Transformation) (role : IndexRole) : List IndexHandle :=
  Classification.numbered state.arena (internalOccurrences state.basisFunctions)
    (externalOccurrences state.coefficients state.transforms) state.footprint role

namespace Balanced

variable {arguments : Nat → Prop} {keys : List ComponentKey} {size : Nat} {state : Transformation}
  {classified : Classification} {role : IndexRole} {handle : IndexHandle} {index : MonomialIndex}

/-- An index that is numbered had no role, and its place in the numbering is its id. -/
theorem get?_numbered (hvisited : state.VisitedAll classified) {i : Nat}
    (h : (state.numbered role)[i]? = some handle) :
    ∃ index, state.arena.get? handle = some index ∧ index.role = none ∧
      classified.arena.get? handle = some (index.classifyAs role i) := by
  obtain ⟨index, hget, hset⟩ := hvisited.assigned role i handle h
  have hnew := (Classification.mem_numbered.1 (List.mem_of_getElem? h)).2
  refine ⟨index, hget, ?_, ?_⟩
  · have hnone := Classification.role?_of_newRole? hnew
    rwa [IndexArena.role?, hget] at hnone
  · rw [hset, IndexCounters.count_empty, Nat.zero_add]

/-- After all visits an index is numbered under a role, or it is as it was and had a role. -/
theorem get?_cases (h : Balanced arguments keys size [] state)
    (hvisited : state.VisitedAll classified)
    (hget : classified.arena.get? handle = some index) :
    (∃ role i, (state.numbered role)[i]? = some handle ∧ index.role = some role ∧
      index.id = some i) ∨
    (state.arena.get? handle = some index ∧ index.role ≠ none) := by
  obtain ⟨hnew, hsame⟩ | ⟨role, i, -, hi, -, -⟩ := Classification.Visited.get?_cases hvisited handle
  · have hold := hsame.symm.trans hget
    refine Or.inr ⟨hold, fun hnone => ?_⟩
    have hmem := h.mem_footprint hold hnone
    have hsome := hvisited.isSome_newRole? hmem (by rw [IndexArena.role?, hold]; exact hnone)
    rw [hnew hmem] at hsome
    cases hsome
  · obtain ⟨old, -, -, hset⟩ := get?_numbered hvisited hi
    obtain rfl := Option.some.inj (hget.symm.trans hset)
    exact Or.inl ⟨role, i, hi, rfl, rfl⟩

theorem mem_numbered_iff (h : Balanced arguments keys size [] state)
    (hvisited : state.VisitedAll classified) (hrole : role.IsSummed) :
    handle ∈ state.numbered role ↔ classified.arena.role? handle = some role := by
  constructor
  · intro hmem
    obtain ⟨i, hi⟩ := List.mem_iff_getElem?.1 hmem
    obtain ⟨index, -, -, hset⟩ := get?_numbered hvisited hi
    rw [IndexArena.role?, hset]
    rfl
  · intro hassigned
    obtain ⟨index, hget, hindex⟩ := Option.bind_eq_some_iff.1 hassigned
    obtain ⟨other, i, hi, hother, -⟩ | ⟨hsame, -⟩ := h.get?_cases hvisited hget
    · obtain rfl := Option.some.inj (hindex.symm.trans hother)
      exact List.mem_of_getElem? hi
    · exact absurd hrole ((h.initial handle index hsame).isPlain.not_isSummed hindex)

theorem ofOccurrences_of_role? (h : Balanced arguments keys size [] state)
    (hvisited : state.VisitedAll classified) (hrole : role.IsSummed)
    (hassigned : classified.arena.role? handle = some role) :
    IndexRole.ofOccurrences ((internalOccurrences state.basisFunctions).count handle)
      ((externalOccurrences state.coefficients state.transforms).count handle) = some role := by
  have hmem := (h.mem_numbered_iff hvisited hrole).2 hassigned
  obtain ⟨-, hnew⟩ := Classification.mem_numbered.1 hmem
  obtain ⟨index, hget, -⟩ := Option.bind_eq_some_iff.1 hnew
  exact ((Classification.newRole?_eq_some hget).1 hnew).2

/-- Indices of a summed role that read the same slot have the same handle. -/
theorem eq_of_slot_eq (h : Balanced arguments keys size [] state)
    (hvisited : state.VisitedAll classified) (hrole : role.IsSummed) {a b : IndexHandle}
    (ha : classified.arena.role? a = some role) (hb : classified.arena.role? b = some role)
    (hslots : classified.arena.slot a = classified.arena.slot b) : a = b := by
  have hnumber : ∀ {k}, classified.arena.role? k = some role →
      (state.numbered role)[classified.arena.slot k]? = some k := by
    intro k hk
    obtain ⟨i, hi⟩ := List.mem_iff_getElem?.1 ((h.mem_numbered_iff hvisited hrole).2 hk)
    obtain ⟨index, -, -, hset⟩ := get?_numbered hvisited hi
    have hslot : classified.arena.slot k = i := by
      rw [IndexArena.slot, hset]
      rfl
    rw [hslot, hi]
  exact Option.some.inj ((hnumber ha).symm.trans (hslots ▸ hnumber hb))

theorem numbered_eq (h : Balanced arguments keys size [] state)
    (hvisited : state.VisitedAll classified) (hrole : role.IsSummed) :
    state.numbered role =
      state.footprint.eraseDups.filter fun k => classified.arena.role? k = some role := by
  refine List.filter_congr fun k hk => ?_
  rw [decide_eq_decide, ← h.mem_numbered_iff hvisited hrole, Transformation.numbered,
    Classification.mem_numbered]
  exact (and_iff_right (List.mem_eraseDups.1 hk)).symm

/-- The unique indices of a summed role are those that are numbered under it, in their order. -/
theorem uniqueIndices_eq (h : Balanced arguments keys size [] state)
    (hvisited : state.VisitedAll classified) (hrole : role.IsSummed) {m : TransformedMonomial}
    (hhandles : m.internalHandles ++ m.externalHandles = state.footprint)
    (harena : m.arena = classified.arena) : m.uniqueIndices role = state.numbered role := by
  have hindices : m.indices role =
      state.footprint.filter fun k => classified.arena.role? k = some role := by
    rw [TransformedMonomial.indices, TransformedMonomial.internalIndices,
      TransformedMonomial.externalIndices, TransformedMonomial.ofRole, TransformedMonomial.ofRole,
      ← List.filter_append, hhandles, harena]
  rw [TransformedMonomial.uniqueIndices_eq_unique, hindices,
    TransformedMonomial.unique_eq_eraseDups, eraseDups_filter, h.numbered_eq hvisited hrole]
  intro a ha b hb hab
  rw [harena] at hab
  exact h.eq_of_slot_eq hvisited hrole (of_decide_eq_true (List.mem_filter.1 ha).2)
    (of_decide_eq_true (List.mem_filter.1 hb).2) (IndexArena.slot_eq_of_sameIndex hab)

/-- A binding that covers the indices of all roles evaluates every index. -/
theorem evaluates (h : Balanced arguments keys size [] state)
    (hvisited : state.VisitedAll classified) {binding : IndexBinding}
    (hprimary : ∀ n, arguments n → ∃ v, binding.Gives .primary n v)
    (hsummed : ∀ role, role.IsSummed → ∀ i < (state.numbered role).length,
      ∃ v, binding.Gives role i v)
    (hget : classified.arena.get? handle = some index) :
    ∃ v, index.evaluate binding = .ok v ∧ ∀ role, index.role = some role → role ≠ .fixed →
      binding.Gives role (classified.arena.slot handle) v := by
  have hslot : ∀ i, index.id = some i → classified.arena.slot handle = i := by
    intro i hid
    rw [IndexArena.slot, hget, Option.bind_some, hid, Option.getD_some]
  obtain ⟨role, i, hi, hindex, hid⟩ | ⟨hsame, hclassified⟩ := h.get?_cases hvisited hget
  · have hrole : role.IsSummed :=
      Classification.isSummed_of_newRole? (Classification.mem_numbered.1 (List.mem_of_getElem? hi)).2
    have hfixed : role ≠ .fixed := by
      rintro rfl
      exact IndexRole.not_isSummed_fixed hrole
    obtain ⟨v, hv⟩ := hsummed role hrole i (List.getElem?_eq_some_iff.1 hi).1
    refine ⟨v, MonomialIndex.evaluate_of_gives hindex hfixed hid hv, fun other hother _ => ?_⟩
    obtain rfl := Option.some.inj (hindex.symm.trans hother)
    exact (hslot i hid).symm ▸ hv
  · obtain hnone | ⟨hfixed, v, hrange⟩ | ⟨n, hindex, hid, harg⟩ := h.initial handle index hsame
    · exact absurd hnone hclassified
    · refine ⟨v, MonomialIndex.evaluate_fixed hfixed hrange, fun other hother hne => ?_⟩
      exact absurd (Option.some.inj (hother.symm.trans hfixed)) hne
    · obtain ⟨v, hv⟩ := hprimary n harg
      refine ⟨v, MonomialIndex.evaluate_of_gives hindex (by decide) hid hv,
        fun other hother _ => ?_⟩
      obtain rfl := Option.some.inj (hindex.symm.trans hother)
      exact (hslot n hid).symm ▸ hv

theorem assigned (h : Balanced arguments keys size [] state)
    (hvisited : state.VisitedAll classified) {m : TransformedMonomial}
    (hinternal : m.internalHandles = internalOccurrences state.basisFunctions)
    (hexternal : m.externalHandles = externalOccurrences state.coefficients state.transforms)
    (harena : m.arena = classified.arena) : m.Assigned arguments := by
  have hhandles : m.internalHandles ++ m.externalHandles = state.footprint := by
    rw [hinternal, hexternal]
    rfl
  have hunique : ∀ role, role.IsSummed → m.uniqueIndices role = state.numbered role :=
    fun role hrole => h.uniqueIndices_eq hvisited hrole hhandles harena
  have hcounts : ∀ role k, role.IsSummed → m.arena.role? k = some role →
      IndexRole.ofOccurrences (m.internalHandles.count k) (m.externalHandles.count k) =
        some role := by
    intro role k hrole hk
    rw [hinternal, hexternal]
    exact h.ofOccurrences_of_role? hvisited hrole (harena ▸ hk)
  refine ⟨fun k index hget => ?_, fun k hk => ?_, fun k hk => ?_, fun k hk => ?_,
    fun role hrole => ?_, fun binding hcovers k index hget => ?_,
    fun role hrole a b ha hb hslots => ?_⟩
  · rw [harena] at hget
    obtain ⟨role, i, -, hrole, -⟩ | ⟨-, hrole⟩ := h.get?_cases hvisited hget
    · rw [MonomialIndex.isClassified, hrole]
      rfl
    · exact Option.isSome_iff_ne_none.2 hrole
  · simpa using IndexRole.ofOccurrences_eq_some.1 (hcounts _ k (Or.inl rfl) hk)
  · simpa using IndexRole.ofOccurrences_eq_some.1 (hcounts _ k (Or.inr (Or.inl rfl)) hk)
  · simpa using IndexRole.ofOccurrences_eq_some.1 (hcounts _ k (Or.inr (Or.inr rfl)) hk)
  · rw [hunique role hrole]
    refine ⟨?_, Classification.nodup_numbered _ _ _, fun k => ?_, fun i k hi => ?_⟩
    · rw [hhandles, harena, h.numbered_eq hvisited hrole]
    · rw [harena, h.mem_numbered_iff hvisited hrole]
    · obtain ⟨index, -, -, hset⟩ := get?_numbered hvisited hi
      exact ⟨index.range, harena ▸ hset⟩
  · rw [harena] at hget ⊢
    exact h.evaluates hvisited hcovers.primary
      (fun role hrole i hi => hcovers.summed role hrole i (hunique role hrole ▸ hi)) hget
  · exact h.eq_of_slot_eq hvisited hrole (harena ▸ ha) (harena ▸ hb) (harena ▸ hslots)

end Balanced

/-- Every index of a transformed monomial has a role.  A secondary index occurs once inside and once
outside of the integral, an internal one twice inside and an external one twice outside.  The
indices of each of these roles are numbered in the order of their first occurrences, which is the
order of the unique indices, and a binding of these numbers and of the arguments evaluates every
index, different indices of a role at different slots. -/
theorem RawMonomial.transform_assigned {provider : ElementProvider} {monomial : RawMonomial}
    {m : TransformedMonomial} (htransform : monomial.transform provider = .ok m) :
    m.Assigned monomial.HasArgument := by
  obtain ⟨state, hfold, hfinish⟩ := bind_eq_ok.1 htransform
  have hbalanced := (factors_yield False monomial.HasArgument
    False.elim fun factor (hmem : factor ∈ monomial.factors) number horigin =>
      ⟨factor, hmem, horigin⟩).ok state hfold
  obtain ⟨classified, hvisited, hok⟩ | ⟨r, -, -, range, i, e, -, hstop⟩ | ⟨-, hstop⟩ :=
    hbalanced.finish_cases monomial.coefficient
  · obtain rfl := Except.ok.inj (hfinish.symm.trans hok)
    exact hbalanced.assigned hvisited rfl rfl rfl
  · rw [hstop] at hfinish
    cases hfinish
  · rw [hstop] at hfinish
    cases hfinish

/-- A gradient tested with a vector field. -/
theorem RawMonomial.transform_assigned_gradient :
    let monomial : RawMonomial := ⟨2, [
      ⟨.raviartThomas .triangle 1, .argument 0, [.free 0], [], none⟩,
      ⟨.lagrange .triangle 1, .coefficient 0, [], [.free 0], none⟩]⟩
    ∃ m, monomial.transform ElementDescriptor.reference = .ok m ∧
      m.Assigned monomial.HasArgument := by
  intro monomial
  cases htransform : monomial.transform ElementDescriptor.reference with
  | error failure => cases htransform
  | ok m => exact ⟨m, rfl, transform_assigned htransform⟩

end ElementKernel
