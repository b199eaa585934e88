import ElementKernel.Proofs.Records.Acceptance
import Mathlib.Data.List.Flatten

/-!
# Numbers of unique indices

Every index of a summed role occurs twice and every fixed index once, so their numbers follow from
the roles of the occurrences.  Indices of an argument count as one, whatever the number of factors.
-/

namespace ElementKernel

/-! ## Fixed indices -/

variable {dims : Nat → Nat} {state : Transformation} {records : List FactorRecord}
  {record : FactorRecord} {arguments : Nat → Prop} {keys : List ComponentKey} {size : Nat}

/-- The handles that stand for a fixed value. -/
def Transformation.fixedOnly (state : Transformation) (handles : List IndexHandle) :
    List IndexHandle :=
  handles.filter fun k => state.role? k = some .fixed

theorem freeRole_ne_fixed (factors : List MonomialFactor) (number : Nat) :
    freeRole dims factors number ≠ some .fixed := by
  intro h
  simpa [IndexRole.IsSummed] using IndexRole.isSummed_of_occurrences h

namespace Account

theorem fixedOnly_keys (h : Account dims records state) {keys : List ComponentKey}
    {handles : List IndexHandle} (hkeys : List.Forall₂ state.Resolves keys handles) :
    state.fixedOnly handles = literals keys handles := by
  induction hkeys with
  | nil => rfl
  | @cons key handle keys handles hkey _ ih =>
      rw [Transformation.fixedOnly] at ih ⊢
      rw [literals, List.zip_cons_cons, List.flatMap_cons]
      cases key with
      | fixed v =>
          have hfixed : state.role? handle = some .fixed := h.role?_key hkey
          rw [List.filter_cons_of_pos (by simpa using hfixed), ih]
          rfl
      | free number =>
          have hfree : state.role? handle ≠ some .fixed :=
            h.role?_key hkey ▸ freeRole_ne_fixed _ number
          rw [List.filter_cons_of_neg (by simpa using hfree), ih]
          rfl

/-- The fixed indices of a factor are used by this factor alone. -/
theorem fixedOnly_sublist (h : Account dims records state)
    (hbalanced : Balanced arguments keys size [] state) (hrecord : record ∈ records) :
    (state.fixedOnly (record.inner ++ record.outer)).Sublist (record.ownHandles dims) := by
  have hholds := h.holds record hrecord
  -- What is left are the handles of fixed keys, as the other handles of the factor have a role.
  have hindex : state.role? record.basisFunction.index ≠ some .fixed := by
    rw [h.role?_index hbalanced hrecord]
    cases record.factor.origin <;> nofun
  have hreferences : state.fixedOnly (record.entries.map (·.reference)) = [] := by
    rw [Transformation.fixedOnly, List.filter_eq_nil_iff, List.forall_mem_map]
    intro t ht
    simp [h.role?_reference hbalanced hrecord ht]
  have hcoefficients : state.fixedOnly (record.coefficients.map (·.index)) = [] := by
    rw [Transformation.fixedOnly, List.filter_eq_nil_iff, hholds.coefficients_eq,
      List.forall_mem_map]
    simpa using fun _ _ => hindex
  let lowered := (record.factor.links dims).map fun link => link.key.lower link.offset
  have hphysical : state.fixedOnly (record.entries.map (·.physical)) =
      literals lowered (record.entries.map (·.physical)) :=
    h.fixedOnly_keys (List.forall₂_map_left_iff.2 (List.forall₂_map_right_iff.2
      (hholds.makes.imp fun _ _ hmakes => hmakes.physical)))
  have hlinks : (literals lowered (record.entries.map (·.physical))).Sublist
      (linkHandles (record.factor.links dims) record.entries) := by
    rw [literals, List.zip_map, List.flatMap_map, linkHandles]
    refine List.Sublist.flatMap_right _ fun entry _ => ?_
    simp
  have hstays := h.fixedOnly_keys hholds.stays
  rw [Transformation.fixedOnly] at *
  rw [FactorRecord.inner, FactorRecord.outer, List.cons_append,
    List.filter_cons_of_neg (by simpa using hindex), List.filter_append, List.filter_append,
    List.filter_append, List.filter_append, hstays, hreferences, hcoefficients, hphysical,
    List.append_nil, List.nil_append, List.nil_append]
  exact (hlinks.append_left _).cons _

theorem nodup_fixedOnly (h : Account dims records state)
    (hbalanced : Balanced arguments keys size [] state) :
    (state.fixedOnly state.footprint).Nodup := by
  refine (h.footprint_perm.filter _).nodup_iff.2 ?_
  rw [List.filter_flatMap]
  exact (List.nodup_append.1 h.ledger.nodup).1.sublist
    (List.Sublist.flatMap_right _ fun record hrecord => h.fixedOnly_sublist hbalanced hrecord)

end Account

/-! ## Numbers -/

/-- Classification gives every index the role that its occurrences tell. -/
theorem Balanced.role?_classified (h : Balanced arguments keys size [] state)
    {classified : Classification} (hvisited : state.VisitedAll classified) (handle : IndexHandle) :
    classified.arena.role? handle = state.role? handle := by
  rw [Classification.Visited.role?_eq hvisited, Transformation.role?, IndexArena.role?]
  cases hget : state.arena.get? handle with
  | none => simp [Classification.newRole?, hget]
  | some index =>
      rw [Option.bind_some, Option.bind_some]
      cases hrole : index.role with
      | some role => rw [Option.some_or, Option.some_or]
      | none =>
          -- an index without role occurs, so the visits have come to it
          rw [if_pos (h.mem_footprint hget hrole), Classification.newRole?, hget]
          simp [MonomialIndex.isClassified, hrole]

namespace RawMonomial.Run

variable {monomial : RawMonomial} {m : TransformedMonomial} {classified : Classification}
  {role : IndexRole}

theorem role?_eq (run : monomial.Run m records state classified) (handle : IndexHandle) :
    m.arena.role? handle = state.role? handle := by
  obtain ⟨size, hbalanced⟩ := run.balanced
  rw [run.result]
  exact hbalanced.role?_classified run.visited handle

theorem indices_eq (run : monomial.Run m records state classified) (role : IndexRole) :
    m.indices role = state.footprint.filter fun k => state.role? k = some role := by
  have hhandles : m.internalHandles ++ m.externalHandles = state.footprint := by
    rw [run.result]
    rfl
  simp only [TransformedMonomial.indices, TransformedMonomial.internalIndices,
    TransformedMonomial.externalIndices, TransformedMonomial.ofRole, ← List.filter_append,
    hhandles, run.role?_eq]

theorem length_indices (run : monomial.Run m records state classified) (role : IndexRole) :
    (m.indices role).length =
      (occurrenceRoles monomial.dimensions monomial.factors).count (some role) := by
  obtain ⟨size, hbalanced⟩ := run.balanced
  rw [run.indices_eq, ← List.countP_eq_length_filter, ← run.factors,
    ← (run.account.occurrenceRoles_perm hbalanced).count_eq, List.count, List.countP_map]
  exact List.countP_congr fun k _ => by simp

theorem length_summed (run : monomial.Run m records state classified) (hrole : role.IsSummed) :
    (m.uniqueIndices role).length * 2 =
      (occurrenceRoles monomial.dimensions monomial.factors).count (some role) := by
  obtain ⟨size, hbalanced⟩ := run.balanced
  rw [← run.factors, ← (run.account.occurrenceRoles_perm hbalanced).count_eq,
    hbalanced.count_occurrences hrole]
  congr 2
  rw [run.result]
  exact hbalanced.uniqueIndices_eq run.visited hrole rfl rfl

theorem role?_of_mem (run : monomial.Run m records state classified) {k : IndexHandle}
    (hk : k ∈ m.indices role) : ∃ index, m.arena.get? k = some index ∧ index.role = some role := by
  rw [run.indices_eq, List.mem_filter, decide_eq_true_iff, ← run.role?_eq] at hk
  exact Option.bind_eq_some_iff.1 hk.2

theorem length_fixed (run : monomial.Run m records state classified) :
    (m.uniqueIndices .fixed).length =
      (occurrenceRoles monomial.dimensions monomial.factors).count (some .fixed) := by
  obtain ⟨size, hbalanced⟩ := run.balanced
  have hnodup : (m.indices .fixed).Nodup := by
    rw [run.indices_eq]
    exact run.account.nodup_fixedOnly hbalanced
  have hsame : ∀ a ∈ m.indices .fixed, ∀ b ∈ m.indices .fixed,
      TransformedMonomial.sameIndex m.arena a b = true ↔ id a = id b := fun a ha b hb => by
    obtain ⟨x, hx, -⟩ := run.role?_of_mem ha
    obtain ⟨y, hy, hfixed⟩ := run.role?_of_mem hb
    rw [TransformedMonomial.sameIndex_iff hx hy]
    simp [MonomialIndex.isFixed, hfixed]
  have hunique := TransformedMonomial.map_unique hsame
  rw [List.map_id, List.map_id] at hunique
  rw [TransformedMonomial.uniqueIndices_eq_unique, hunique,
    (eraseDups_perm hnodup fun _ => Iff.rfl).length_eq, run.length_indices]

theorem argument_of_mem (run : monomial.Run m records state classified) {k : IndexHandle}
    (hk : k ∈ m.indices .primary) : ∃ index number, m.arena.get? k = some index ∧
      index.role = some .primary ∧ index.id = some number ∧ monomial.HasArgument number := by
  obtain ⟨size, hbalanced⟩ := run.balanced
  obtain ⟨index, hget, hprimary⟩ := run.role?_of_mem hk
  have hclassified : classified.arena.get? k = some index := by
    rwa [run.result] at hget
  obtain ⟨role, i, hi, hrole, -⟩ | ⟨hsame, -⟩ := hbalanced.get?_cases run.visited hclassified
  · have hsummed := Classification.isSummed_of_newRole?
      (Classification.mem_numbered.1 (List.mem_of_getElem? hi)).2
    obtain rfl := Option.some.inj (hrole.symm.trans hprimary)
    simp [IndexRole.IsSummed] at hsummed
  · obtain hnone | ⟨hfixed, -⟩ | ⟨number, -, hid, hargument⟩ := hbalanced.initial k index hsame
    · rw [hnone] at hprimary
      cases hprimary
    · rw [hfixed] at hprimary
      cases hprimary
    · exact ⟨index, number, hget, hprimary, hid, hargument⟩

theorem mem_slots_primary (run : monomial.Run m records state classified) {number : Nat} :
    number ∈ (m.indices .primary).map m.arena.slot ↔ monomial.HasArgument number := by
  rw [List.mem_map]
  constructor
  · rintro ⟨k, hk, rfl⟩
    obtain ⟨index, number, hget, -, hid, hargument⟩ := run.argument_of_mem hk
    rw [IndexArena.slot, hget, Option.bind_some, hid]
    exact hargument
  · rintro ⟨factor, hfactor, horigin⟩
    obtain ⟨record, hrecord, rfl⟩ := List.mem_map.1 (run.factors ▸ hfactor)
    have hgives := (run.account.holds record hrecord).origin
    rw [horigin] at hgives
    have hmem : record.basisFunction.index ∈ state.footprint :=
      run.account.footprint_perm.mem_iff.2 (List.mem_flatMap.2
        ⟨record, hrecord, List.mem_append_left _ List.mem_cons_self⟩)
    have hsame : m.arena.get? record.basisFunction.index =
        some (.primary number (List.range record.basisFunction.element.spaceDimension)) := by
      rw [run.result]
      refine (run.visited.same _ (Or.inr ?_)).trans hgives.2
      rw [Classification.newRole?, hgives.2]
      rfl
    refine ⟨record.basisFunction.index, ?_, ?_⟩
    · rw [run.indices_eq, List.mem_filter, decide_eq_true_iff, ← run.role?_eq, IndexArena.role?,
        hsame]
      exact ⟨hmem, rfl⟩
    · rw [IndexArena.slot, hsame]
      rfl

/-- Primary indices count as one if they belong to the same argument. -/
theorem length_primary (run : monomial.Run m records state classified) :
    (m.uniqueIndices .primary).length =
      ((m.indices .primary).map m.arena.slot).eraseDups.length := by
  have hsame : ∀ a ∈ m.indices .primary, ∀ b ∈ m.indices .primary,
      TransformedMonomial.sameIndex m.arena a b = true ↔ m.arena.slot a = m.arena.slot b :=
    fun a ha b hb => by
      refine ⟨IndexArena.slot_eq_of_sameIndex, fun hslots => ?_⟩
      obtain ⟨x, i, hx, hrole, hi, -⟩ := run.argument_of_mem ha
      obtain ⟨y, j, hy, hrole', hj, -⟩ := run.argument_of_mem hb
      rw [IndexArena.slot, IndexArena.slot, hx, hy, Option.bind_some, Option.bind_some, hi, hj]
        at hslots
      obtain rfl : i = j := hslots
      rw [TransformedMonomial.sameIndex_iff hx hy, hrole, hrole', hi, hj]
      exact Or.inr ⟨by simp [MonomialIndex.isFixed, hrole'], rfl, rfl⟩
  rw [← TransformedMonomial.map_unique hsame, List.length_map,
    TransformedMonomial.uniqueIndices_eq_unique]

end RawMonomial.Run

end ElementKernel
