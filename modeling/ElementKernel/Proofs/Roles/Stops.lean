import ElementKernel.Proofs.Roles.Balance
import ElementKernel.Proofs.Roles.Visits

/-!
# Classifications that stop

A classification may start from any indices and counters, and an index with inadmissible occurrences
stops it half-way.  In either case it has gone through the handles in front of some place in the
order of visits: `Advances` says what that does to the indices and counters, and `run_advances`
where the place is.
-/

namespace ElementKernel

namespace Classification

/-- The listed indices that have no role before and the given role afterwards, in the order of their
first occurrences. -/
def newlyClassified (handles : List IndexHandle) (before after : IndexArena) (role : IndexRole) :
    List IndexHandle :=
  handles.eraseDups.filter fun h => before.role? h = none ∧ after.role? h = some role

/-- The indices and counters after a classification, relative to those before. -/
structure Advances (start : Classification) (internal external : List IndexHandle)
    (after : Classification) : Prop where
  size : after.arena.next = start.arena.next
  classified : ∀ h, (start.arena.role? h).isSome → after.arena.get? h = start.arena.get? h
  unlisted : ∀ h, h ∉ internal ++ external → after.arena.get? h = start.arena.get? h
  range : ∀ h index, start.arena.get? h = some index →
    ∃ index', after.arena.get? h = some index' ∧ index'.range = index.range
  /-- The ids of a role continue its counter. -/
  assigned : ∀ role i h,
    (newlyClassified (internal ++ external) start.arena after.arena role)[i]? = some h →
      IndexRole.ofOccurrences (internal.count h) (external.count h) = some role ∧
      ∃ index, start.arena.get? h = some index ∧
        after.arena.get? h = some (index.classifyAs role (start.counters.count role + i))
  counts : ∀ role, after.counters.count role = start.counters.count role +
    (newlyClassified (internal ++ external) start.arena after.arena role).length

/-- No index without role occurs inadmissibly and before this one, which does so. -/
structure FirstInadmissible (arena : IndexArena) (internal external : List IndexHandle)
    (k : IndexHandle) : Prop where
  listed : k ∈ internal ++ external
  unclassified : arena.role? k = none
  inadmissible : IndexRole.ofOccurrences (internal.count k) (external.count k) = none
  first : ∀ h ∈ internal ++ external, arena.role? h = none →
    IndexRole.ofOccurrences (internal.count h) (external.count h) = none →
      (internal ++ external).idxOf k ≤ (internal ++ external).idxOf h

variable {start after : Classification} {internal external done rest handles : List IndexHandle}
  {handle : IndexHandle} {index : MonomialIndex} {role : IndexRole}

/-- An element is in front of a place exactly if it occurs before the element at that place, which
does not occur in front of it. -/
theorem mem_iff_idxOf_lt {α : Type} [BEq α] [LawfulBEq α] {k : α} {front rest : List α}
    (hk : k ∉ front) (x : α) :
    x ∈ front ↔ x ∈ front ++ k :: rest ∧ (front ++ k :: rest).idxOf x <
      (front ++ k :: rest).idxOf k := by
  have hplace : (front ++ k :: rest).idxOf k = front.length := by
    rw [List.idxOf_append, if_neg hk, List.idxOf_cons_self, Nat.zero_add]
  rw [hplace]
  constructor
  · intro hx
    rw [List.idxOf_append, if_pos hx]
    exact ⟨List.mem_append_left _ hx, List.idxOf_lt_length_iff.2 hx⟩
  · rintro ⟨-, hlt⟩
    by_contra hx
    rw [List.idxOf_append, if_neg hx] at hlt
    omega

namespace Visited

/-- The indices that are classified are those that the visits number. -/
theorem newlyClassified_eq (h : Visited start internal external done after)
    (hhandles : handles = done ++ rest) (role : IndexRole) :
    newlyClassified handles start.arena after.arena role =
      numbered start.arena internal external done role := by
  rw [newlyClassified, hhandles, List.eraseDups_append, List.filter_append, numbered]
  have hlater : ((rest.removeAll done).eraseDups.filter fun h =>
      start.arena.role? h = none ∧ after.arena.role? h = some role) = [] := by
    refine List.filter_eq_nil_iff.2 fun k hk => ?_
    have hmem : k ∉ done := by
      have hrest := List.mem_eraseDups.1 hk
      simp only [List.removeAll, List.mem_filter] at hrest
      simpa using hrest.2
    have hsame := h.role?_eq k
    rw [if_neg hmem, Option.or_none] at hsame
    simp +contextual [hsame]
  rw [hlater, List.append_nil]
  refine List.filter_congr fun k hk => ?_
  have hmem : k ∈ done := List.mem_eraseDups.1 hk
  have hrole := h.role?_eq k
  rw [if_pos hmem] at hrole
  refine decide_eq_decide.2 ⟨?_, fun hnew => ?_⟩
  · rintro ⟨hnone, hsome⟩
    rwa [hnone, Option.none_or, hsome, eq_comm] at hrole
  · have hnone := role?_of_newRole? hnew
    rw [hnone, Option.none_or, hnew] at hrole
    exact ⟨hnone, hrole⟩

theorem advances (h : Visited start internal external done after)
    (hhandles : internal ++ external = done ++ rest) :
    Advances start internal external after := by
  have hnewly := fun role => h.newlyClassified_eq hhandles role
  have hsame : ∀ k, k ∉ done ∨ (start.arena.role? k).isSome →
      after.arena.get? k = start.arena.get? k := by
    intro k hk
    refine h.same k (hk.imp_right fun hsome => ?_)
    refine Option.eq_none_iff_forall_not_mem.2 fun role hrole => ?_
    rw [role?_of_newRole? hrole] at hsome
    cases hsome
  refine ⟨h.next_eq, fun k hk => hsame k (Or.inr hk),
    fun k hk => hsame k (Or.inl fun hmem => hk ?_), fun k index hget => ?_, fun role i k hk => ?_,
    fun role => ?_⟩
  · exact hhandles ▸ List.mem_append_left rest hmem
  · obtain ⟨-, hafter⟩ | ⟨role, i, old, -, hold, hafter⟩ := h.get?_cases k
    · exact ⟨index, hafter.trans hget, rfl⟩
    · obtain rfl := Option.some.inj (hget.symm.trans hold)
      exact ⟨_, hafter, rfl⟩
  · rw [hnewly] at hk
    obtain ⟨index, hget, hafter⟩ := h.assigned role i k hk
    have hrole := (mem_numbered.1 (List.mem_of_getElem? hk)).2
    exact ⟨((newRole?_eq_some hget).1 hrole).2, index, hget, hafter⟩
  · rw [hnewly, h.counts]

/-- Where an index occurs inadmissibly behind the visited ones, it is the first to do so, and what
occurs before it has been visited. -/
theorem stops {k : IndexHandle} (h : Visited start internal external done after)
    (hhandles : internal ++ external = done ++ k :: rest) (hnone : start.arena.role? k = none)
    (hrole : IndexRole.ofOccurrences (internal.count k) (external.count k) = none) :
    FirstInadmissible start.arena internal external k ∧
      ∀ h, start.arena.role? h = none → ((after.arena.role? h).isSome ↔
        h ∈ internal ++ external ∧
          (internal ++ external).idxOf h < (internal ++ external).idxOf k) := by
  have hinadmissible : ∀ x ∈ done, start.arena.role? x = none →
      IndexRole.ofOccurrences (internal.count x) (external.count x) ≠ none := by
    intro x hmem hunclassified hbad
    obtain ⟨role, hnew⟩ := Option.isSome_iff_exists.1 (h.isSome_newRole? hmem hunclassified)
    obtain ⟨index, hget⟩ := h.inside x hmem
    rw [((newRole?_eq_some hget).1 hnew).2] at hbad
    cases hbad
  have hk : k ∉ done := fun hmem => hinadmissible k hmem hnone hrole
  refine ⟨⟨?_, hnone, hrole, ?_⟩, fun x hunclassified => ?_⟩
  · rw [hhandles]
    exact List.mem_append_right _ List.mem_cons_self
  · intro x hmem hunclassified hbad
    have hlate : x ∉ done := fun hmem => hinadmissible x hmem hunclassified hbad
    rw [hhandles] at hmem ⊢
    exact Nat.not_lt.1 fun hlt => hlate ((mem_iff_idxOf_lt hk x).2 ⟨hmem, hlt⟩)
  · rw [h.role?_eq, hunclassified, Option.none_or, hhandles, ← mem_iff_idxOf_lt hk]
    by_cases hmem : x ∈ done
    · rw [if_pos hmem]
      exact iff_of_true (h.isSome_newRole? hmem hunclassified) hmem
    · rw [if_neg hmem]
      exact iff_of_false Bool.false_ne_true hmem

end Visited

theorem visitAll_of_classified (h : ∀ k ∈ handles, (start.arena.role? k).isSome) :
    visitAll internal external handles start = (start, .ok ()) := by
  induction handles with
  | nil => rfl
  | cons handle handles ih =>
      obtain ⟨hhandle, hrest⟩ := List.forall_mem_cons.1 h
      rw [visitAll, visit_of_isSome_role? hhandle]
      exact ih hrest

/-- A classification of indices in the arena that exhausts no counter either gives a role to all of
them, so that another one has nothing left to do, or stops at the first index without role that
occurs inadmissibly.  In that case it has classified what occurs before. -/
theorem run_advances (start : Classification) (internal external : List IndexHandle)
    (hinside : ∀ h ∈ internal ++ external, h < start.arena.next)
    (hcounters : (run start internal external).2 ≠ .error (.fault .overflow)) :
    ∃ after, Advances start internal external after ∧
      ((run start internal external = (after, .ok ()) ∧
          (∀ h ∈ internal ++ external, (after.arena.role? h).isSome) ∧
          run after internal external = (after, .ok ())) ∨
        ∃ k index, FirstInadmissible start.arena internal external k ∧
          start.arena.get? k = some index ∧
          run start internal external = (after, .error (.error
            (.contraction index.range (internal.count k) (external.count k)))) ∧
          ∀ h, start.arena.role? h = none → ((after.arena.role? h).isSome ↔
            h ∈ internal ++ external ∧
              (internal ++ external).idxOf h < (internal ++ external).idxOf k)) := by
  have hstored : ∀ k ∈ internal ++ external, ∃ index, start.arena.get? k = some index :=
    fun k hk => IndexArena.exists_get? (hinside k hk)
  obtain ⟨after, hrun, hvisited⟩ |
      ⟨done, k, rest, after, index, hhandles, hvisited, hget, hclassified, hrole, hrun⟩ |
      ⟨role, -, hrun⟩ :=
    (Visited.nil start internal external).visitAll_cases hstored
  · rw [List.nil_append] at hvisited
    have hall : ∀ h ∈ internal ++ external, (after.arena.role? h).isSome := fun k hk => by
      rw [hvisited.role?_eq, if_pos hk, Option.isSome_or, Bool.or_eq_true]
      cases hrole : start.arena.role? k with
      | none => exact Or.inr (hvisited.isSome_newRole? hk hrole)
      | some role => exact Or.inl rfl
    exact ⟨after, hvisited.advances (List.append_nil _).symm,
      Or.inl ⟨hrun, hall, visitAll_of_classified hall⟩⟩
  · rw [List.nil_append] at hvisited
    obtain ⟨hfirst, hbefore⟩ :=
      hvisited.stops hhandles ((role?_eq_none_iff hget).2 hclassified) hrole
    exact ⟨after, hvisited.advances hhandles, Or.inr ⟨k, index, hfirst, hget, hrun, hbefore⟩⟩
  · exact absurd hrun hcounters

/-- The fourth index occurs once only.  The first and the third have been numbered when it is
visited, and the last one has not. -/
theorem run_advances_stopped :
    let start : Classification :=
      ⟨⟨[.unclassified [0, 1], .primary 0 [0, 1, 2], .unclassified [0, 1], .unclassified [5, 6],
        .unclassified [0]]⟩, ⟨3, 0, 7⟩⟩
    let internal : List IndexHandle := [2, 0, 1, 0, 3]
    let external : List IndexHandle := [2, 4, 4]
    (∀ h ∈ internal ++ external, h < start.arena.next) ∧
    (run start internal external).2 ≠ .error (.fault .overflow) ∧
    (run start internal external).2 = .error (.error (.contraction [5, 6] 1 0)) ∧
    ∃ after, Advances start internal external after ∧
      ((run start internal external = (after, .ok ()) ∧
          (∀ h ∈ internal ++ external, (after.arena.role? h).isSome) ∧
          run after internal external = (after, .ok ())) ∨
        ∃ k index, FirstInadmissible start.arena internal external k ∧
          start.arena.get? k = some index ∧
          run start internal external = (after, .error (.error
            (.contraction index.range (internal.count k) (external.count k)))) ∧
          ∀ h, start.arena.role? h = none → ((after.arena.role? h).isSome ↔
            h ∈ internal ++ external ∧
              (internal ++ external).idxOf h < (internal ++ external).idxOf k)) := by
  intro start internal external
  have hinside : ∀ h ∈ internal ++ external, h < start.arena.next := by decide
  have hstop : (run start internal external).2 = .error (.error (.contraction [5, 6] 1 0)) := rfl
  have hcounters : (run start internal external).2 ≠ .error (.fault .overflow) := by
    rw [hstop]
    exact fun h => (nomatch h)
  exact ⟨hinside, hcounters, hstop, run_advances start internal external hinside hcounters⟩

end Classification

end ElementKernel
