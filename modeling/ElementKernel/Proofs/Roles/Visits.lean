import ElementKernel.Proofs.Pullback.Numbering

/-!
# Visits of a classification

A classification goes through the occurrences of indices.  At its first visit an index without role
gets the role of its occurrences and the next id of that role.  `Visited` says exactly which indices
have been numbered, and `visitAll_cases` where the visits can stop.
-/

namespace ElementKernel

namespace Classification

/-- The role that its occurrences give to an index without role. -/
def newRole? (arena : IndexArena) (internal external : List IndexHandle) (handle : IndexHandle) :
    Option IndexRole :=
  (arena.get? handle).bind fun index =>
    if index.isClassified then none
    else IndexRole.ofOccurrences (internal.count handle) (external.count handle)

/-- The indices that are numbered under a role, in the order of their first visits. -/
def numbered (arena : IndexArena) (internal external visited : List IndexHandle)
    (role : IndexRole) : List IndexHandle :=
  visited.eraseDups.filter fun h => newRole? arena internal external h = some role

/-- The state after some handles are visited. -/
structure Visited (start : Classification) (internal external visited : List IndexHandle)
    (state : Classification) : Prop where
  inside : ∀ h ∈ visited, ∃ index, start.arena.get? h = some index
  admissible : ∀ h ∈ visited, ∀ index, start.arena.get? h = some index →
    index.isClassified = false → (newRole? start.arena internal external h).isSome
  counts : ∀ role, state.counters.count role =
    start.counters.count role + (numbered start.arena internal external visited role).length
  assigned : ∀ role i h, (numbered start.arena internal external visited role)[i]? = some h →
    ∃ index, start.arena.get? h = some index ∧
      state.arena.get? h = some (index.classifyAs role (start.counters.count role + i))
  same : ∀ h, h ∉ visited ∨ newRole? start.arena internal external h = none →
    state.arena.get? h = start.arena.get? h

section

variable {start state next : Classification} {internal external visited handles : List IndexHandle}
  {handle : IndexHandle} {index : MonomialIndex} {role : IndexRole}

theorem role?_eq_none_iff {arena : IndexArena} (hget : arena.get? handle = some index) :
    arena.role? handle = none ↔ index.isClassified = false := by
  rw [IndexArena.role?, hget, Option.bind_some, MonomialIndex.isClassified,
    Option.isSome_eq_false_iff, Option.isNone_iff_eq_none]

theorem newRole?_eq_some {arena : IndexArena} (hget : arena.get? handle = some index) :
    newRole? arena internal external handle = some role ↔
      index.isClassified = false ∧
        IndexRole.ofOccurrences (internal.count handle) (external.count handle) = some role := by
  cases hclassified : index.isClassified <;> simp [newRole?, hget, hclassified]

theorem isSummed_of_newRole? {arena : IndexArena}
    (h : newRole? arena internal external handle = some role) : role.IsSummed := by
  obtain ⟨index, hget, -⟩ := Option.bind_eq_some_iff.1 h
  exact IndexRole.isSummed_of_occurrences ((newRole?_eq_some hget).1 h).2

theorem role?_of_newRole? {arena : IndexArena}
    (h : newRole? arena internal external handle = some role) : arena.role? handle = none := by
  obtain ⟨index, hget, -⟩ := Option.bind_eq_some_iff.1 h
  exact (role?_eq_none_iff hget).2 ((newRole?_eq_some hget).1 h).1

theorem visit_of_isSome_role? (h : (state.arena.role? handle).isSome) :
    visit internal external state handle = .ok state := by
  obtain ⟨role, hrole⟩ := Option.isSome_iff_exists.1 h
  obtain ⟨index, hget, hsome⟩ := Option.bind_eq_some_iff.1 hrole
  rw [visit]
  simp only [IndexArena.get, Checked.get_eq_ok_iff.2 hget]
  exact if_pos (by simp [MonomialIndex.isClassified, hsome])

theorem visit_eq (internal external : List IndexHandle)
    (hget : state.arena.get? handle = some index) (hclassified : index.isClassified = false) :
    visit internal external state handle = do
      let role ← Attempt.ofOption
        (.contraction index.range (internal.count handle) (external.count handle))
        (IndexRole.ofOccurrences (internal.count handle) (external.count handle))
      let next ← (liftM (state.counters.next role) : Attempt TransformError _)
      return ⟨state.arena.set handle (index.classifyAs role next.1), next.2⟩ := by
  rw [visit]
  simp only [IndexArena.get, Checked.get_eq_ok_iff.2 hget]
  exact if_neg (by simp [hclassified])

theorem mem_numbered {arena : IndexArena} :
    handle ∈ numbered arena internal external visited role ↔
      handle ∈ visited ∧ newRole? arena internal external handle = some role := by
  simp [numbered]

theorem nodup_numbered (arena : IndexArena) (visited : List IndexHandle) (role : IndexRole) :
    (numbered arena internal external visited role).Nodup :=
  (nodup_eraseDups visited).filter _

theorem length_numbered_le (internal external : List IndexHandle) (arena : IndexArena)
    (visited : List IndexHandle) (role : IndexRole) :
    (numbered arena internal external visited role).length ≤ visited.length :=
  Nat.le_trans (List.length_filter_le _ _) (length_eraseDups_le visited)

theorem length_numbered_append (internal external : List IndexHandle) (arena : IndexArena)
    (visited more : List IndexHandle) (role : IndexRole) :
    (numbered arena internal external visited role).length ≤
      (numbered arena internal external (visited ++ more) role).length := by
  rw [numbered, numbered, List.eraseDups_append, List.filter_append, List.length_append]
  exact Nat.le_add_right _ _

theorem numbered_concat (arena : IndexArena) (visited : List IndexHandle) (handle : IndexHandle)
    (role : IndexRole) :
    numbered arena internal external (visited ++ [handle]) role =
      numbered arena internal external visited role ++
        if handle ∉ visited ∧ newRole? arena internal external handle = some role then [handle]
        else [] := by
  rw [numbered, eraseDups_concat, List.filter_append]
  congr 1
  by_cases hmem : handle ∈ visited <;>
    by_cases hrole : newRole? arena internal external handle = some role <;>
      simp [hmem, hrole]

namespace Visited

theorem nil (start : Classification) (internal external : List IndexHandle) :
    Visited start internal external [] start where
  inside _ h := absurd h List.not_mem_nil
  admissible _ h := absurd h List.not_mem_nil
  counts _ := by simp [numbered]
  assigned _ _ _ h := by simp [numbered] at h
  same _ _ := rfl

/-- An index stays as it was, or gets the role and the id of its place among the numbered ones. -/
theorem get?_cases (h : Visited start internal external visited state) (handle : IndexHandle) :
    ((handle ∈ visited → newRole? start.arena internal external handle = none) ∧
      state.arena.get? handle = start.arena.get? handle) ∨
    ∃ role i index, (numbered start.arena internal external visited role)[i]? = some handle ∧
      start.arena.get? handle = some index ∧ state.arena.get? handle =
        some (index.classifyAs role (start.counters.count role + i)) := by
  by_cases hnone : handle ∈ visited → newRole? start.arena internal external handle = none
  · exact Or.inl ⟨hnone, h.same handle (or_iff_not_imp_left.2 fun hmem => hnone (not_not.1 hmem))⟩
  · obtain ⟨hmem, hsome⟩ := Classical.not_imp.1 hnone
    obtain ⟨role, hrole⟩ := Option.ne_none_iff_exists'.1 hsome
    obtain ⟨i, hi⟩ := List.mem_iff_getElem?.1 (mem_numbered.2 ⟨hmem, hrole⟩)
    obtain ⟨index, hget, hstate⟩ := h.assigned role i handle hi
    exact Or.inr ⟨role, i, index, hi, hget, hstate⟩

/-- The visits add no index and drop none. -/
theorem get?_eq_none_iff (h : Visited start internal external visited state) :
    state.arena.get? handle = none ↔ start.arena.get? handle = none := by
  obtain ⟨-, hsame⟩ | ⟨role, i, index, -, hget, hstate⟩ := h.get?_cases handle
  · rw [hsame]
  · simp [hget, hstate]

theorem next_eq (h : Visited start internal external visited state) :
    state.arena.next = start.arena.next := by
  have hlt : ∀ k, k < state.arena.next ↔ k < start.arena.next := fun k => by
    rw [← not_iff_not, Nat.not_lt, Nat.not_lt]
    exact List.getElem?_eq_none_iff.symm.trans
      (h.get?_eq_none_iff.trans List.getElem?_eq_none_iff)
  exact Nat.le_antisymm (Nat.not_lt.1 fun hless => Nat.lt_irrefl _ ((hlt _).1 hless))
    (Nat.not_lt.1 fun hless => Nat.lt_irrefl _ ((hlt _).2 hless))

theorem isSome_newRole? (h : Visited start internal external visited state)
    (hmem : handle ∈ visited) (hnone : start.arena.role? handle = none) :
    (newRole? start.arena internal external handle).isSome := by
  obtain ⟨index, hget⟩ := h.inside handle hmem
  exact h.admissible handle hmem index hget ((role?_eq_none_iff hget).1 hnone)

/-- Visited indices have the role of their occurrences, if they had none before. -/
theorem role?_eq (h : Visited start internal external visited state) (handle : IndexHandle) :
    state.arena.role? handle = (start.arena.role? handle).or
      (if handle ∈ visited then newRole? start.arena internal external handle else none) := by
  obtain ⟨hnone, hsame⟩ | ⟨role, i, index, hi, -, hstate⟩ := h.get?_cases handle
  · rw [ite_eq_right_iff.2 hnone, Option.or_none, IndexArena.role?, hsame]
    rfl
  · obtain ⟨hmem, hrole⟩ := mem_numbered.1 (List.mem_of_getElem? hi)
    rw [if_pos hmem, hrole, role?_of_newRole? hrole, IndexArena.role?, hstate]
    rfl

/-- A handle is passed over when its index had a role before or has been visited already. -/
theorem skip (h : Visited start internal external visited state)
    (hget : start.arena.get? handle = some index)
    (hpassed : index.isClassified = true ∨ handle ∈ visited) :
    Visited start internal external (visited ++ [handle]) state := by
  have hnone : ¬(handle ∉ visited ∧
      ∃ role, newRole? start.arena internal external handle = some role) := by
    rintro ⟨hmem, role, hrole⟩
    obtain hclassified | hvisited := hpassed
    · simp [((newRole?_eq_some hget).1 hrole).1] at hclassified
    · exact hmem hvisited
  have hsame : ∀ role, numbered start.arena internal external (visited ++ [handle]) role =
      numbered start.arena internal external visited role := fun role => by
    rw [numbered_concat, if_neg fun hnew => hnone ⟨hnew.1, role, hnew.2⟩, List.append_nil]
  refine ⟨fun k hk => ?_, fun k hk other hother hclassified => ?_, fun role => ?_,
    fun role i k hk => ?_, fun k hk => h.same k (hk.imp_left fun hk hmem => hk (by simp [hmem]))⟩
  · obtain hk | hk := List.mem_append.1 hk
    · exact h.inside k hk
    · exact ⟨index, List.mem_singleton.1 hk ▸ hget⟩
  · obtain hk | hk := List.mem_append.1 hk
    · exact h.admissible k hk other hother hclassified
    · obtain rfl := List.mem_singleton.1 hk
      obtain rfl := Option.some.inj (hother.symm.trans hget)
      obtain hpassed | hpassed := hpassed
      · simp [hpassed] at hclassified
      · exact h.admissible k hpassed other hget hclassified
  · rw [hsame, h.counts]
  · exact h.assigned role i k (hsame role ▸ hk)

/-- An index without role is numbered at its first visit. -/
theorem assign (h : Visited start internal external visited state) (hmem : handle ∉ visited)
    (hget : start.arena.get? handle = some index)
    (hrole : newRole? start.arena internal external handle = some role)
    {id : Nat} {counters : IndexCounters} (hnext : state.counters.next role = .ok (id, counters)) :
    Visited start internal external (visited ++ [handle])
      ⟨state.arena.set handle (index.classifyAs role id), counters⟩ := by
  obtain ⟨hid, hcount, hothers⟩ := IndexCounters.next_eq_ok hnext
  have hstate := (h.same handle (Or.inl hmem)).trans hget
  have hself := IndexArena.get?_set_self hstate (index.classifyAs role id)
  have hnumbered : ∀ other, numbered start.arena internal external (visited ++ [handle]) other =
      numbered start.arena internal external visited other ++ if other = role then [handle] else []
      := fun other => by
    rw [numbered_concat, hrole]
    simp [hmem, eq_comm]
  refine ⟨fun k hk => ?_, fun k hk other hother hclassified => ?_, fun other => ?_,
    fun other i k hk => ?_, fun k hk => ?_⟩
  · obtain hk | hk := List.mem_append.1 hk
    · exact h.inside k hk
    · exact ⟨index, List.mem_singleton.1 hk ▸ hget⟩
  · obtain hk | hk := List.mem_append.1 hk
    · exact h.admissible k hk other hother hclassified
    · rw [List.mem_singleton.1 hk, hrole]
      rfl
  · rw [hnumbered]
    by_cases hother : other = role
    · subst hother
      have hcounts := h.counts other
      simp only [if_true, List.length_append, List.length_singleton]
      omega
    · rw [if_neg hother, List.append_nil, ← h.counts]
      exact hothers other hother
  · rw [hnumbered] at hk
    by_cases hi : i < (numbered start.arena internal external visited other).length
    · rw [List.getElem?_append_left hi] at hk
      obtain ⟨old, hold, hset⟩ := h.assigned other i k hk
      refine ⟨old, hold, (IndexArena.get?_set_ne ?_ _).trans hset⟩
      rintro rfl
      exact hmem (mem_numbered.1 (List.mem_of_getElem? hk)).1
    · rw [List.getElem?_append_right (Nat.not_lt.1 hi)] at hk
      obtain rfl : other = role := by
        by_contra hother
        simp [hother] at hk
      obtain ⟨hzero, rfl⟩ : i - (numbered start.arena internal external visited other).length = 0 ∧
          handle = k := by
        rw [if_pos rfl] at hk
        obtain ⟨hlt, heq⟩ := List.getElem?_eq_some_iff.1 hk
        rw [List.length_singleton] at hlt
        exact ⟨Nat.lt_one_iff.1 hlt, by simpa using heq⟩
      refine ⟨index, hget, hself.trans ?_⟩
      rw [hid, h.counts]
      congr 2
      omega
  · have hne : k ≠ handle := by
      rintro rfl
      obtain hk | hk := hk
      · simp at hk
      · rw [hrole] at hk
        cases hk
    refine (IndexArena.get?_set_ne hne _).trans (h.same k ?_)
    exact hk.imp_left fun hk hvisited => hk (by simp [hvisited])

/-- A visit numbers the index or passes it over, unless its occurrences give it no role or the
counter of the role is at its end. -/
theorem visit_cases (h : Visited start internal external visited state)
    (hget : start.arena.get? handle = some index) :
    (∃ next, Classification.visit internal external state handle = .ok next ∧
      Visited start internal external (visited ++ [handle]) next) ∨
    (index.isClassified = false ∧
      IndexRole.ofOccurrences (internal.count handle) (external.count handle) = none ∧
      Classification.visit internal external state handle = .error (.error
        (.contraction index.range (internal.count handle) (external.count handle)))) ∨
    ∃ role, Word.limit ≤ start.counters.count role +
        (numbered start.arena internal external (visited ++ [handle]) role).length ∧
      Classification.visit internal external state handle = .error (.fault .overflow) := by
  by_cases hpassed : index.isClassified = true ∨ handle ∈ visited
  · refine Or.inl ⟨state, ?_, h.skip hget hpassed⟩
    -- An index that was visited before occurs admissibly, so it has got a role.
    refine visit_of_isSome_role? (Option.isSome_iff_ne_none.2 ?_)
    rw [h.role?_eq, Ne, Option.or_eq_none_iff, role?_eq_none_iff hget]
    rintro ⟨hclassified, hnone⟩
    have hmem : handle ∈ visited := by simpa [hclassified] using hpassed
    have hsome := h.admissible handle hmem index hget hclassified
    rw [if_pos hmem] at hnone
    simp [hnone] at hsome
  · obtain ⟨hclassified, hmem⟩ := not_or.1 hpassed
    rw [Bool.not_eq_true] at hclassified
    have hstate := (h.same handle (Or.inl hmem)).trans hget
    have hvisit := Classification.visit_eq internal external hstate hclassified
    cases hoccurrences : IndexRole.ofOccurrences (internal.count handle)
        (external.count handle) with
    | none =>
        rw [hoccurrences] at hvisit
        exact Or.inr (Or.inl ⟨hclassified, rfl, hvisit⟩)
    | some role =>
        rw [hoccurrences] at hvisit
        change _ = (do
          let next ← (liftM (state.counters.next role) : Attempt TransformError _)
          return (⟨state.arena.set handle (index.classifyAs role next.1), next.2⟩ : Classification))
          at hvisit
        have hrole : newRole? start.arena internal external handle = some role :=
          (newRole?_eq_some hget).2 ⟨hclassified, hoccurrences⟩
        have hbound := h.counts role
        have hlength : (numbered start.arena internal external (visited ++ [handle]) role).length =
            (numbered start.arena internal external visited role).length + 1 := by
          rw [numbered_concat, if_pos ⟨hmem, hrole⟩, List.length_append, List.length_singleton]
        obtain hfits | hfull := Nat.lt_or_ge (state.counters.count role + 1) Word.limit
        · obtain ⟨id, counters, hnext⟩ := IndexCounters.exists_next
            (isSummed_of_newRole? hrole) hfits
          refine Or.inl ⟨_, ?_, h.assign hmem hget hrole hnext⟩
          rw [hvisit, hnext]
          rfl
        · refine Or.inr (Or.inr ⟨role, by omega, ?_⟩)
          rw [hvisit, IndexCounters.next_eq_error (isSummed_of_newRole? hrole) hfull]
          rfl

/-- The visits stop at an index that its occurrences give no role, after all the handles in front of
it, or where a counter is at its end. -/
theorem visitAll_cases (h : Visited start internal external visited state)
    (hinside : ∀ k ∈ handles, ∃ index, start.arena.get? k = some index) :
    (∃ next, visitAll internal external handles state = (next, .ok ()) ∧
      Visited start internal external (visited ++ handles) next) ∨
    (∃ done k rest next index, handles = done ++ k :: rest ∧
      Visited start internal external (visited ++ done) next ∧
      start.arena.get? k = some index ∧ index.isClassified = false ∧
      IndexRole.ofOccurrences (internal.count k) (external.count k) = none ∧
      visitAll internal external handles state = (next, .error (.error
        (.contraction index.range (internal.count k) (external.count k))))) ∨
    ∃ role, Word.limit ≤ start.counters.count role +
        (numbered start.arena internal external (visited ++ handles) role).length ∧
      (visitAll internal external handles state).2 = .error (.fault .overflow) := by
  induction handles generalizing visited state with
  | nil => exact Or.inl ⟨state, rfl, by simpa using h⟩
  | cons handle handles ih =>
      obtain ⟨index, hget⟩ := hinside handle List.mem_cons_self
      rw [visitAll]
      obtain ⟨next, hvisit, hnext⟩ | ⟨hclassified, hrole, hvisit⟩ | ⟨role, hfull, hvisit⟩ :=
        h.visit_cases hget
      · rw [hvisit]
        have hrest := ih hnext fun k hk => hinside k (List.mem_cons_of_mem handle hk)
        rw [List.append_assoc, List.singleton_append] at hrest
        refine hrest.imp_right (Or.imp_left ?_)
        rintro ⟨done, k, rest, last, other, rfl, hlast, hstop⟩
        rw [List.append_assoc, List.singleton_append] at hlast
        exact ⟨handle :: done, k, rest, last, other, rfl, hlast, hstop⟩
      · rw [hvisit]
        exact Or.inr (Or.inl ⟨[], handle, handles, state, index, rfl, by simpa using h, hget,
          hclassified, hrole, rfl⟩)
      · rw [hvisit]
        have hmore := length_numbered_append internal external start.arena (visited ++ [handle])
          handles role
        rw [List.append_assoc, List.singleton_append] at hmore
        exact Or.inr (Or.inr ⟨role, Nat.le_trans hfull (Nat.add_le_add_left hmore _), rfl⟩)

theorem visit_eq_ok (h : Visited start internal external visited state)
    (hvisit : Classification.visit internal external state handle = .ok next) :
    Visited start internal external (visited ++ [handle]) next := by
  obtain ⟨found, hfound, -⟩ := bind_eq_ok.1 hvisit
  have hstate : state.arena.get? handle = some found :=
    Checked.get_eq_ok_iff.1 (liftM_eq_ok.1 hfound)
  obtain ⟨index, hget⟩ : ∃ index, start.arena.get? handle = some index :=
    Option.ne_none_iff_exists'.1 fun hnone => by simp [h.get?_eq_none_iff.2 hnone] at hstate
  obtain ⟨reached, hreached, hnext⟩ | ⟨-, -, hstop⟩ | ⟨role, -, hstop⟩ := h.visit_cases hget
  · obtain rfl := Except.ok.inj (hvisit.symm.trans hreached)
    exact hnext
  · cases hvisit.symm.trans hstop
  · cases hvisit.symm.trans hstop

theorem visitAll_eq_ok (h : Visited start internal external visited state)
    (hvisit : visitAll internal external handles state = (next, .ok ())) :
    Visited start internal external (visited ++ handles) next := by
  induction handles generalizing visited state with
  | nil =>
      obtain ⟨rfl, -⟩ := Prod.mk.inj hvisit
      simpa using h
  | cons handle handles ih =>
      rw [visitAll] at hvisit
      split at hvisit
      next reached hreached => simpa using ih (h.visit_eq_ok hreached) hvisit
      next => cases (Prod.mk.inj hvisit).2

end Visited

end

end Classification

/-! ## Arenas without ids -/

/-- The state after some handles are visited, in terms of the arena before the first of them. -/
structure Numbered (original : IndexArena) (visited : List IndexHandle) (state : Classification) :
    Prop where
  same : ∀ h index, original.get? h = some index → index.role ≠ none ∨ h ∉ visited →
    state.arena.get? h = some index
  classified : ∀ h ∈ visited, ∀ index, original.get? h = some index → index.role = none →
    ∃ role id, role.IsSummed ∧ state.arena.get? h = some (index.classifyAs role id)
  bounded : ∀ h role range id, role.IsSummed →
    state.arena.get? h = some ⟨some role, range, some id⟩ → id < state.counters.count role
  distinct : ∀ h k role range range' id, role.IsSummed →
    state.arena.get? h = some ⟨some role, range, some id⟩ →
    state.arena.get? k = some ⟨some role, range', some id⟩ → h = k
  none_added : ∀ h, original.get? h = none → state.arena.get? h = none

namespace Classification

variable {start state result : Classification} {internal external visited : List IndexHandle}

/-- Where no index had a summed role, the ids of such a role are the places of its indices. -/
theorem Visited.exists_place (h : Visited start internal external visited state)
    (hroles : ∀ h index, start.arena.get? h = some index → ∀ role, index.role = some role →
      ¬role.IsSummed) {handle : IndexHandle} {role : IndexRole} {range : List Nat} {id : Nat}
    (hrole : role.IsSummed)
    (hget : state.arena.get? handle = some ⟨some role, range, some id⟩) :
    ∃ i, id = start.counters.count role + i ∧
      (numbered start.arena internal external visited role)[i]? = some handle := by
  obtain ⟨-, hsame⟩ | ⟨other, i, index, hi, -, hstate⟩ := h.get?_cases handle
  · exact absurd hrole (hroles handle _ (hsame.symm.trans hget) role rfl)
  · have heq := Option.some.inj (hget.symm.trans hstate)
    simp only [MonomialIndex.classifyAs, MonomialIndex.mk.injEq, Option.some.injEq] at heq
    obtain ⟨rfl, -, rfl⟩ := heq
    exact ⟨i, rfl, hi⟩

theorem Visited.toNumbered (h : Visited start internal external visited state)
    (hroles : ∀ h index, start.arena.get? h = some index → ∀ role, index.role = some role →
      ¬role.IsSummed) : Numbered start.arena visited state where
  same k index hget hkeep := by
    obtain ⟨-, hsame⟩ | ⟨role, i, index', hi, hget', -⟩ := h.get?_cases k
    · exact hsame.trans hget
    · obtain ⟨hmem, hnew⟩ := mem_numbered.1 (List.mem_of_getElem? hi)
      have hnone := role?_of_newRole? hnew
      rw [IndexArena.role?, hget, Option.bind_some] at hnone
      exact absurd hmem (hkeep.resolve_left fun hrole => hrole hnone)
  classified k hmem index hget hnone := by
    obtain ⟨hnew, -⟩ | ⟨role, i, index', hi, hget', hstate⟩ := h.get?_cases k
    · have hsome := h.isSome_newRole? hmem (by rw [IndexArena.role?, hget, Option.bind_some, hnone])
      rw [hnew hmem] at hsome
      cases hsome
    · obtain rfl := Option.some.inj (hget.symm.trans hget')
      have hnew := (mem_numbered.1 (List.mem_of_getElem? hi)).2
      exact ⟨role, _, isSummed_of_newRole? hnew, hstate⟩
  bounded k role range id hrole hget := by
    obtain ⟨i, rfl, hi⟩ := h.exists_place hroles hrole hget
    rw [h.counts]
    exact Nat.add_lt_add_left (List.getElem?_eq_some_iff.1 hi).1 _
  distinct j k role range range' id hrole hj hk := by
    obtain ⟨i, hid, hi⟩ := h.exists_place hroles hrole hj
    obtain ⟨i', hid', hi'⟩ := h.exists_place hroles hrole hk
    obtain rfl : i = i' := Nat.add_left_cancel (hid.symm.trans hid')
    exact Option.some.inj (hi.symm.trans hi')
  none_added _ := h.get?_eq_none_iff.2

/-- After classification every index of the monomial is numbered. -/
theorem run_numbered {original : IndexArena} {counters : IndexCounters}
    (hroles : ∀ h index, original.get? h = some index → ∀ role, index.role = some role →
      ¬ role.IsSummed)
    (h : run ⟨original, counters⟩ internal external = (result, .ok ())) :
    Numbered original (internal ++ external) result :=
  ((Visited.nil ⟨original, counters⟩ internal external).visitAll_eq_ok h).toNumbered hroles

end Classification

end ElementKernel
