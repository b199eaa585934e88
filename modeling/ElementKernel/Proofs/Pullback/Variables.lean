import ElementKernel.Proofs.Pullback.Product
import ElementKernel.Proofs.Roles.Visits

/-!
# Variables of a transformed monomial

After classification the secondary, internal and external indices are exactly those that had no role
before, each of them once.  A role and an id name one index.
-/

namespace ElementKernel

variable {F : Type*} [Field F] {P : PointData F}

/-! ## Values of classified indices -/

theorem IndexArena.values_summed {arena : IndexArena} {h : IndexHandle} {role : IndexRole}
    {range : List Nat} {id : Nat} (hrole : role.IsSummed)
    (hget : arena.get? h = some ⟨some role, range, some id⟩)
    (assignment : IndexRole × Nat → Nat) : arena.values P assignment h = assignment (role, id) := by
  rw [values, hget]
  rcases hrole with rfl | rfl | rfl <;> rfl

theorem IndexArena.values_update {arena : IndexArena} {h : IndexHandle} {name : IndexRole × Nat}
    (hne : ∀ range, arena.get? h ≠ some ⟨some name.1, range, some name.2⟩)
    (assignment : IndexRole × Nat → Nat) (v : Nat) :
    arena.values P (Function.update assignment name v) h = arena.values P assignment h := by
  unfold values
  split
  next => rfl
  next => rfl
  next role range id _ _ hget =>
    have hname : (role, id) ≠ name := by
      rintro rfl
      exact hne range hget
    exact Function.update_of_ne hname v assignment
  next => rfl

/-- The variable behind a handle. -/
def IndexArena.variableName (arena : IndexArena) (h : IndexHandle) : IndexRole × Nat :=
  match arena.get? h with
  | some ⟨some role, _, some id⟩ => (role, id)
  | _ => (.fixed, 0)

/-- The values of the index behind a handle. -/
def IndexArena.rangeOf (arena : IndexArena) (h : IndexHandle) : List Nat :=
  ((arena.get? h).map MonomialIndex.range).getD []

/-! ## Classified states -/

/-- The arena of a state after classification. -/
structure Classified (state : Transformation) (arena : IndexArena) : Prop where
  kept : ∀ h index, state.arena.get? h = some index → index.role ≠ none →
    arena.get? h = some index
  assigned : ∀ h index, state.arena.get? h = some index → index.role = none →
    ∃ role id, role.IsSummed ∧ arena.get? h = some (index.classifyAs role id)
  origin : ∀ h index role, arena.get? h = some index → index.role = some role → role.IsSummed →
    ∃ old, state.arena.get? h = some old ∧ old.role = none
  distinct : ∀ h k role range range' id, role.IsSummed →
    arena.get? h = some ⟨some role, range, some id⟩ →
    arena.get? k = some ⟨some role, range', some id⟩ → h = k

section

variable {uses : List (Nat × Nat)} {own : Summation IndexHandle} {state : Transformation}
  {arena : IndexArena}

theorem Tracked.classified (h : Tracked uses own [] state) {result : Classification}
    (hrun : Classification.run ⟨state.arena, {}⟩ (internalOccurrences state.basisFunctions)
      (externalOccurrences state.coefficients state.transforms) = (result, .ok ())) :
    Classified state result.arena := by
  have hnumbered := Classification.run_numbered
    (fun k index hget role hrole => (h.plain k index hget).not_isSummed hrole) hrun
  refine ⟨fun k index hget hrole => hnumbered.same k index hget (Or.inl hrole),
    fun k index hget hnone => ?_, fun k index role hget hrole hsummed => ?_, hnumbered.distinct⟩
  · have hoccurs := (h.occurs k index hget hnone).resolve_right List.not_mem_nil
    exact hnumbered.classified k hoccurs index hget hnone
  · cases hold : state.arena.get? k with
    | none =>
        rw [hnumbered.none_added k hold] at hget
        cases hget
    | some old =>
        refine ⟨old, rfl, ?_⟩
        by_contra hsome
        have hsame := hnumbered.same k old hold (Or.inl hsome)
        obtain rfl := Option.some.inj (hsame.symm.trans hget)
        exact (h.plain k old hold).not_isSummed hrole hsummed

/-- The variables of a state under transformation: the indices of free keys and of factors. -/
def summedHandles (own : Summation IndexHandle) (state : Transformation) : List IndexHandle :=
  state.resolved.reverse.map Prod.snd ++ own.keys

theorem Tracked.mem_summedHandles_iff (h : Tracked uses own [] state) {k : IndexHandle} :
    k ∈ summedHandles own state ↔ ∃ index, state.arena.get? k = some index ∧ index.role = none := by
  rw [summedHandles, List.mem_append, List.map_reverse, List.mem_reverse]
  constructor
  · rintro (hk | hk)
    · obtain ⟨r, hr, rfl⟩ := List.mem_map.1 hk
      exact ⟨_, h.free_get r hr, rfl⟩
    · obtain ⟨entry, hentry, rfl⟩ := List.mem_map.1 hk
      exact ⟨_, h.own_get entry hentry, rfl⟩
  · rintro ⟨index, hget, hnone⟩
    exact (h.complete k index hget hnone).symm

theorem Tracked.nodup_summedHandles (h : Tracked uses own [] state) :
    (summedHandles own state).Nodup := by
  rw [summedHandles, List.map_reverse, List.nodup_append_comm]
  exact (List.Perm.append_left _ (List.reverse_perm _)).nodup_iff.2 h.nodup

theorem Classified.get?_summed (hc : Classified state arena) (h : Tracked uses own [] state)
    {k : IndexHandle} (hk : k ∈ summedHandles own state) :
    (arena.variableName k).1.IsSummed ∧ arena.get? k =
      some ⟨some (arena.variableName k).1, state.arena.rangeOf k,
        some (arena.variableName k).2⟩ := by
  obtain ⟨index, hget, hnone⟩ := h.mem_summedHandles_iff.1 hk
  obtain ⟨role, id, hrole, hassigned⟩ := hc.assigned k index hget hnone
  rw [MonomialIndex.classifyAs] at hassigned
  simp only [IndexArena.variableName, IndexArena.rangeOf, hassigned, hget, Option.map_some,
    Option.getD_some]
  exact ⟨hrole, trivial⟩

end

end ElementKernel
