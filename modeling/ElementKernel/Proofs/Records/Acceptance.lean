import ElementKernel.Proofs.Records.Occurrences
import Mathlib.Algebra.BigOperators.Group.List.Lemmas

/-!
# Acceptance of a monomial

A monomial is accepted exactly if its factors are admissible, every free key is used twice, and the
counters do not run over.  How many indices a counter numbers follows from the roles of the
occurrences, since each of these indices occurs twice.
-/

namespace ElementKernel

/-! ## Counters -/

theorem IndexCounters.count_lt {counters advanced : IndexCounters} {role : IndexRole} {id : Nat}
    (h : counters.next role = .ok (id, advanced))
    (hwords : ∀ other, counters.count other < Word.limit) (other : IndexRole) :
    advanced.count other < Word.limit := by
  have hrole := isSummed_of_next h
  obtain ⟨hid, hcount, hothers⟩ := next_eq_ok h
  by_cases hother : other = role
  · subst hother
    rw [hcount, hid]
    refine Nat.lt_of_not_le fun hfull => ?_
    rw [next_eq_error hrole hfull] at h
    cases h
  · rw [hothers other hother]
    exact hwords other

namespace Classification

variable {state next : Classification} {internal external handles : List IndexHandle}

theorem visit_count_lt {handle : IndexHandle} (h : visit internal external state handle = .ok next)
    (hwords : ∀ role, state.counters.count role < Word.limit) (role : IndexRole) :
    next.counters.count role < Word.limit := by
  obtain ⟨index, -, h⟩ := bind_eq_ok.1 h
  dsimp only at h
  split at h
  · obtain rfl := Except.ok.inj h
    exact hwords role
  · obtain ⟨assigned, -, h⟩ := bind_eq_ok.1 h
    obtain ⟨⟨id, counters⟩, hnext, h⟩ := bind_eq_ok.1 h
    obtain rfl := Except.ok.inj h
    exact IndexCounters.count_lt (liftM_eq_ok.1 hnext) hwords role

theorem visitAll_count_lt (h : visitAll internal external handles state = (next, .ok ()))
    (hwords : ∀ role, state.counters.count role < Word.limit) (role : IndexRole) :
    next.counters.count role < Word.limit := by
  induction handles generalizing state with
  | nil =>
      obtain rfl := congrArg Prod.fst h
      exact hwords role
  | cons handle handles ih =>
      rw [visitAll] at h
      split at h
      next mid hvisit => exact ih h (visit_count_lt hvisit hwords)
      next => cases h

end Classification

/-! ## The last step -/

namespace Balanced

variable {arguments : Nat → Prop} {keys : List ComponentKey} {size : Nat} {state : Transformation}

/-- The last step succeeds exactly if every free key is used twice and the numbers that are given
out are machine words. -/
theorem finish_iff (h : Balanced arguments keys size [] state) (coefficient : Float) :
    (∃ m, state.finish coefficient = .ok m) ↔
      (∀ number, .free number ∈ keys → keys.count (.free number) = 2) ∧
        ∀ role, (state.numbered role).length < Word.limit := by
  obtain ⟨classified, hrun, hvisited⟩ | ⟨_, _, _, _, _, -, -, -, -, -, hrun⟩ |
      ⟨role, hfull, hrun⟩ :=
    (Classification.Visited.nil ⟨state.arena, {}⟩ (internalOccurrences state.basisFunctions)
      (externalOccurrences state.coefficients state.transforms)).visitAll_cases fun k hk =>
        IndexArena.exists_get? (h.inside k (List.mem_append_left _ hk))
  · refine iff_of_true ⟨_, Transformation.finish_of_run hrun⟩
      ⟨fun number hmem => h.count_of_visited hvisited hmem, fun role => ?_⟩
    have hlt := Classification.visitAll_count_lt hrun
      (fun role => (IndexCounters.count_empty role).trans_lt (by decide)) role
    rw [hvisited.counts, IndexCounters.count_empty, Nat.zero_add] at hlt
    exact hlt
  · have hstop : state.finish coefficient = _ :=
      Transformation.finish_of_stop (congrArg Prod.snd hrun)
    refine iff_of_false ?_ ?_
    · rintro ⟨m, hm⟩
      rw [hstop] at hm
      cases hm
    · rintro ⟨hcontracted, -⟩
      -- The visits stop at the index of a free key that is not used twice.
      obtain ⟨_, -, hok⟩ | ⟨r, hr, hne, -⟩ | ⟨-, hoverflow⟩ := h.finish_cases coefficient
      · rw [hstop] at hok
        cases hok
      · exact hne (hcontracted r.1 ((h.numbers r.1).2 (List.mem_map_of_mem hr)))
      · rw [hstop] at hoverflow
        cases hoverflow
  · have hstop : state.finish coefficient = _ := Transformation.finish_of_stop hrun
    rw [IndexCounters.count_empty, Nat.zero_add, List.nil_append] at hfull
    refine iff_of_false ?_ fun hwords => Nat.not_lt.2 hfull (hwords.2 role)
    rintro ⟨m, hm⟩
    rw [hstop] at hm
    cases hm

end Balanced

/-! ## Numbers of indices -/

theorem countP_eq_mul {α : Type} [DecidableEq α] {xs distinct : List α} {p : α → Bool} {n : Nat}
    (hnodup : distinct.Nodup) (hmem : ∀ a, a ∈ distinct ↔ a ∈ xs ∧ p a)
    (hcount : ∀ a ∈ distinct, xs.count a = n) : xs.countP p = distinct.length * n := by
  have hperm : (xs.dedup.filter p).Perm distinct :=
    (List.perm_ext_iff_of_nodup ((List.nodup_dedup xs).filter p) hnodup).2 fun a => by simp [hmem]
  rw [← List.sum_map_count_dedup_filter_eq_countP, (hperm.map _).sum_eq,
    List.map_congr_left hcount, List.map_const', List.sum_replicate_nat]

namespace Balanced

variable {arguments : Nat → Prop} {keys : List ComponentKey} {size : Nat} {state : Transformation}
  {role : IndexRole} {handle : IndexHandle}

/-- The indices that are numbered under a role are those whose occurrences tell this role. -/
theorem newRole?_iff (h : Balanced arguments keys size [] state) (hrole : role.IsSummed) :
    Classification.newRole? state.arena (internalOccurrences state.basisFunctions)
      (externalOccurrences state.coefficients state.transforms) handle = some role ↔
        state.role? handle = some role := by
  rw [Transformation.role?]
  cases hget : state.arena.get? handle with
  | none => simp [Classification.newRole?, hget]
  | some index =>
      rw [Classification.newRole?_eq_some hget, Option.bind_some]
      obtain hnone | ⟨other, hother⟩ := Option.eq_none_or_eq_some index.role
      · simp [MonomialIndex.isClassified, hnone]
      · have hne : other ≠ role := fun heq =>
          (h.initial handle index hget).isPlain.not_isSummed hother (heq ▸ hrole)
        simp [MonomialIndex.isClassified, hother, hne]

/-- Every index that is numbered occurs twice. -/
theorem count_occurrences (h : Balanced arguments keys size [] state) (hrole : role.IsSummed) :
    (state.footprint.map state.role?).count (some role) = (state.numbered role).length * 2 := by
  rw [List.count, List.countP_map]
  refine countP_eq_mul (Classification.nodup_numbered _ _ _) (fun k => ?_) fun k hk => ?_
  · rw [Transformation.numbered, Classification.mem_numbered, h.newRole?_iff hrole]
    simp
  · obtain ⟨-, hnew⟩ := Classification.mem_numbered.1 hk
    obtain ⟨index, hget, -⟩ := Option.bind_eq_some_iff.1 hnew
    rw [Transformation.footprint, List.count_append]
    exact IndexRole.ofOccurrences_sum ((Classification.newRole?_eq_some hget).1 hnew).2

end Balanced

/-- A monomial is accepted exactly if its factors are admissible, every free key is used twice, and
the indices of each role can be numbered by machine words. -/
theorem RawMonomial.exists_transform_iff (monomial : RawMonomial) :
    (∃ m, monomial.transform ElementDescriptor.reference = .ok m) ↔
      (∀ factor ∈ monomial.factors, factor.Admissible monomial.dimensions) ∧
        monomial.IsContracted ∧ ∀ role, role.IsSummed →
          (occurrenceRoles monomial.dimensions monomial.factors).count (some role) <
            Word.limit * 2 := by
  have hfactors := addFactors_succeeds monomial.firstMet_dimensions
  have hfinish : ∀ state, monomial.factors.foldlM
      (Transformation.addFactor ElementDescriptor.reference) {} = .ok state →
        ((∃ m, state.finish monomial.coefficient = .ok m) ↔ monomial.IsContracted ∧
          ∀ role, role.IsSummed →
            (occurrenceRoles monomial.dimensions monomial.factors).count (some role) <
              Word.limit * 2) := by
    intro state hfold
    obtain ⟨-, records, hrecords, haccount⟩ := hfactors.ok state hfold
    obtain ⟨size, hbalanced⟩ := balanced_of_fold hfold
    rw [hbalanced.finish_iff]
    -- Only summed roles are counted, and their numbers are half of the occurrences.
    refine and_congr_right fun _ => forall_congr' fun role => ?_
    by_cases hrole : role.IsSummed
    · have hcount := hbalanced.count_occurrences hrole
      rw [(haccount.occurrenceRoles_perm hbalanced).count_eq, hrecords] at hcount
      rw [hcount, imp_iff_right hrole, Nat.mul_lt_mul_right Nat.two_pos]
    · have hnone : state.numbered role = [] := List.eq_nil_iff_forall_not_mem.2 fun k hk =>
        hrole (Classification.isSummed_of_newRole? (Classification.mem_numbered.1 hk).2)
      exact iff_of_true (hnone ▸ by decide) fun h => absurd h hrole
  constructor
  · rintro ⟨m, hm⟩
    obtain ⟨state, hfold, hm⟩ := bind_eq_ok.1 hm
    exact ⟨(hfactors.ok state hfold).1, (hfinish state hfold).1 ⟨m, hm⟩⟩
  · rintro ⟨hadmissible, hrest⟩
    obtain ⟨state, hfold⟩ := hfactors.exists_ok hadmissible
    obtain ⟨m, hm⟩ := (hfinish state hfold).2 hrest
    exact ⟨m, bind_eq_ok.2 ⟨state, hfold, hm⟩⟩

end ElementKernel
