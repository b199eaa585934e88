import ElementKernel.Proofs.Pullback.Bookkeeping

/-!
# Occurrences under transformation

Every use of a free key leaves one occurrence of its index in the parts of the monomial, whether a
Piola map moves it out of the basis function or not.  Every index that a factor introduces itself
occurs twice.  `Balanced` counts the occurrences that are placed together with those that are still
pending, so that each step moves or adds a known number of them.
-/

namespace ElementKernel

/-- The keys that a factor uses. -/
def MonomialFactor.keys (factor : MonomialFactor) : List ComponentKey :=
  factor.components ++ factor.derivatives

/-- The keys of all factors, each as often as it is used. -/
def RawMonomial.keys (monomial : RawMonomial) : List ComponentKey :=
  monomial.factors.flatMap MonomialFactor.keys

/-- An index before classification: one without role, a fixed one, or that of an argument. -/
def MonomialIndex.IsInitial (arguments : Nat → Prop) (index : MonomialIndex) : Prop :=
  index.role = none ∨ (index.role = some .fixed ∧ ∃ v, index.range = [v]) ∨
    ∃ n, index.role = some .primary ∧ index.id = some n ∧ arguments n

theorem MonomialIndex.IsInitial.isPlain {arguments : Nat → Prop} {index : MonomialIndex}
    (h : index.IsInitial arguments) : index.IsPlain :=
  h.imp_right (Or.imp_right fun ⟨n, hprimary, hid, _⟩ => ⟨n, hprimary, hid⟩)

namespace Transformation

/-- All occurrences, where some handles are still to be placed. -/
def occurrences (state : Transformation) (pending : List IndexHandle) : List IndexHandle :=
  state.footprint ++ pending

theorem count_occurrences_cons (state : Transformation) (pending : List IndexHandle)
    (handle k : IndexHandle) : (state.occurrences (handle :: pending)).count k =
      (state.occurrences pending).count k + if handle = k then 1 else 0 := by
  by_cases h : handle = k
  · subst h
    simp [occurrences]
    omega
  · simp [occurrences, h]

theorem length_occurrences_cons (state : Transformation) (pending : List IndexHandle)
    (handle : IndexHandle) :
    (state.occurrences (handle :: pending)).length = (state.occurrences pending).length + 1 := by
  simp [occurrences]
  omega

theorem forall_occurrences_cons {state : Transformation} {pending : List IndexHandle}
    {handle : IndexHandle} {p : IndexHandle → Prop} :
    (∀ k ∈ state.occurrences (handle :: pending), p k) ↔
      p handle ∧ ∀ k ∈ state.occurrences pending, p k := by
  simp only [occurrences, List.forall_mem_append, List.forall_mem_cons]
  tauto

@[simp] theorem occurrences_insert (state : Transformation) (pending : List IndexHandle)
    (index : MonomialIndex) :
    (state.insert index).2.occurrences pending = state.occurrences pending := rfl

end Transformation

open Transformation (count_occurrences_cons length_occurrences_cons forall_occurrences_cons)

/-- The account of the occurrences of a state.  The keys were used so far, and the handles in
`pending` are still to be placed. -/
structure Balanced (arguments : Nat → Prop) (keys : List ComponentKey) (size : Nat)
    (pending : List IndexHandle) (state : Transformation) : Prop where
  initial : ∀ h index, state.arena.get? h = some index → index.IsInitial arguments
  inside : ∀ h ∈ state.occurrences pending, h < state.arena.next
  resolved : ∀ r ∈ state.resolved, ∃ index, state.arena.get? r.2 = some index ∧ index.role = none
  numbers : ∀ number, .free number ∈ keys ↔ number ∈ state.resolved.map Prod.fst
  once : (state.resolved.map Prod.fst).Nodup
  distinct : (state.resolved.map Prod.snd).Nodup
  free : ∀ r ∈ state.resolved, (state.occurrences pending).count r.2 = keys.count (.free r.1)
  own : ∀ h index, state.arena.get? h = some index → index.role = none →
    h ∉ state.resolved.map Prod.snd → (state.occurrences pending).count h = 2
  size : (state.occurrences pending).length ≤ size

theorem IndexArena.exists_get? {arena : IndexArena} {h : IndexHandle} (hlt : h < arena.next) :
    ∃ index, arena.get? h = some index :=
  ⟨_, List.getElem?_eq_getElem hlt⟩

namespace Balanced

variable {arguments : Nat → Prop} {keys : List ComponentKey} {size : Nat}
  {pending remaining : List IndexHandle} {state next : Transformation}

theorem start (arguments : Nat → Prop) : Balanced arguments [] 0 [] {} where
  initial h index hget := by simp [IndexArena.get?] at hget
  inside h hmem := by
    simp [Transformation.occurrences, Transformation.footprint, internalOccurrences,
      externalOccurrences] at hmem
  resolved r hr := absurd hr List.not_mem_nil
  numbers number := by simp
  once := List.nodup_nil
  distinct := List.nodup_nil
  free r hr := absurd hr List.not_mem_nil
  own h index hget := by simp [IndexArena.get?] at hget
  size := by
    simp [Transformation.occurrences, Transformation.footprint, internalOccurrences,
      externalOccurrences]

theorem resolved_lt (h : Balanced arguments keys size pending state) {k : IndexHandle}
    (hk : k ∈ state.resolved.map Prod.snd) : k < state.arena.next := by
  obtain ⟨r, hr, rfl⟩ := List.mem_map.1 hk
  obtain ⟨index, hget, -⟩ := h.resolved r hr
  exact IndexArena.lt_next hget

theorem next_notMem (h : Balanced arguments keys size pending state) :
    state.arena.next ∉ state.occurrences pending :=
  fun hmem => Nat.lt_irrefl _ (h.inside _ hmem)

/-- Parts of the monomial are recorded or pending handles exchanged, and the indices without role
occur as often as before. -/
theorem place (h : Balanced arguments keys size pending state) {larger : Nat}
    (harena : next.arena = state.arena) (hresolved : next.resolved = state.resolved)
    (hinside : ∀ k ∈ next.occurrences remaining, k < state.arena.next)
    (hcount : ∀ k index, state.arena.get? k = some index → index.role = none →
      (next.occurrences remaining).count k = (state.occurrences pending).count k)
    (hsize : (next.occurrences remaining).length ≤ larger) :
    Balanced arguments keys larger remaining next where
  initial := by rw [harena]; exact h.initial
  inside := by rw [harena]; exact hinside
  resolved := by rw [harena, hresolved]; exact h.resolved
  numbers := by rw [hresolved]; exact h.numbers
  once := by rw [hresolved]; exact h.once
  distinct := by rw [hresolved]; exact h.distinct
  free := by
    rw [hresolved]
    intro r hr
    obtain ⟨index, hget, hnone⟩ := h.resolved r hr
    rw [hcount r.2 index hget hnone, h.free r hr]
  own := by
    rw [harena, hresolved]
    intro k index hget hnone hk
    rw [hcount k index hget hnone, h.own k index hget hnone hk]
  size := hsize

theorem perm (h : Balanced arguments keys size pending state) (harena : next.arena = state.arena)
    (hresolved : next.resolved = state.resolved)
    (hperm : (next.occurrences remaining).Perm (state.occurrences pending)) :
    Balanced arguments keys size remaining next :=
  h.place harena hresolved (fun k hk => h.inside k (hperm.mem_iff.1 hk))
    (fun k _ _ _ => hperm.count_eq k) (hperm.length_eq ▸ h.size)

theorem larger (h : Balanced arguments keys size pending state) {bound : Nat}
    (hle : size ≤ bound) : Balanced arguments keys bound pending state :=
  { h with size := h.size.trans hle }

theorem reorder (h : Balanced arguments keys size pending state)
    (hperm : remaining.Perm pending) : Balanced arguments keys size remaining state :=
  h.perm rfl rfl (hperm.append_left state.footprint)

theorem insertFixed (h : Balanced arguments keys size pending state) {index : MonomialIndex}
    (hinitial : index.IsInitial arguments) (hrole : index.role ≠ none) :
    Balanced arguments keys size pending (state.insert index).2 where
  initial k other hget := (IndexArena.get?_insert_cases hget).elim (h.initial k other)
    fun hnew => hnew.2 ▸ hinitial
  inside k hk := Nat.lt_of_lt_of_le (h.inside k hk) (grows_insert state index).next
  resolved r hr := by
    obtain ⟨other, hget, hnone⟩ := h.resolved r hr
    exact ⟨other, IndexArena.get?_insert hget index, hnone⟩
  numbers := h.numbers
  once := h.once
  distinct := h.distinct
  free := h.free
  own k other hget hnone hk := (IndexArena.get?_insert_cases hget).elim
    (fun hold => h.own k other hold hnone hk) fun hnew => absurd (hnew.2 ▸ hnone) hrole
  size := h.size

theorem addPending (h : Balanced arguments keys size pending state) {handle : IndexHandle}
    {index : MonomialIndex} (hget : state.arena.get? handle = some index)
    (hrole : index.role ≠ none) : Balanced arguments keys (size + 1) (handle :: pending) state := by
  refine h.place rfl rfl (forall_occurrences_cons.2 ⟨IndexArena.lt_next hget, h.inside⟩)
    (fun k other hother hnone => ?_) ?_
  · have hne : handle ≠ k := by
      rintro rfl
      obtain rfl := Option.some.inj (hget.symm.trans hother)
      exact hrole hnone
    rw [count_occurrences_cons, if_neg hne, Nat.add_zero]
  · rw [length_occurrences_cons]
    exact Nat.add_le_add_right h.size 1

/-- An index without role is inserted for the factor itself, which is to be placed twice. -/
theorem insertOwn (h : Balanced arguments keys size pending state) (range : List Nat) :
    Balanced arguments keys (size + 2) (state.arena.next :: state.arena.next :: pending)
      (state.insert (.unclassified range)).2 where
  initial k other hget := (IndexArena.get?_insert_cases hget).elim (h.initial k other)
    fun hnew => Or.inl (by rw [hnew.2]; rfl)
  inside := by
    show ∀ k ∈ _, k < (state.arena.insert (.unclassified range)).next
    rw [IndexArena.next_insert]
    exact forall_occurrences_cons.2 ⟨Nat.lt_succ_self _, forall_occurrences_cons.2
      ⟨Nat.lt_succ_self _, fun k hk => Nat.lt_succ_of_lt (h.inside k hk)⟩⟩
  resolved r hr := by
    obtain ⟨other, hget, hnone⟩ := h.resolved r hr
    exact ⟨other, IndexArena.get?_insert hget _, hnone⟩
  numbers := h.numbers
  once := h.once
  distinct := h.distinct
  free r hr := by
    have hne : state.arena.next ≠ r.2 :=
      (Nat.ne_of_lt (h.resolved_lt (List.mem_map_of_mem hr))).symm
    rw [count_occurrences_cons, count_occurrences_cons, if_neg hne,
      Transformation.occurrences_insert]
    exact h.free r hr
  own k other hget hnone hk := by
    rw [count_occurrences_cons, count_occurrences_cons, Transformation.occurrences_insert]
    obtain hold | ⟨rfl, -⟩ := IndexArena.get?_insert_cases hget
    · rw [if_neg (Nat.ne_of_lt (IndexArena.lt_next hold)).symm]
      exact h.own k other hold hnone hk
    · rw [List.count_eq_zero.2 h.next_notMem, if_pos rfl]
  size := by
    rw [length_occurrences_cons, length_occurrences_cons]
    exact Nat.add_le_add_right h.size 2

/-! ## Keys -/

/-- A free key that was met before occurs once more. -/
theorem resolveKnown (h : Balanced arguments keys size pending state) {number : Nat}
    {handle : IndexHandle} (hmem : (number, handle) ∈ state.resolved) :
    Balanced arguments (keys ++ [.free number]) (size + 1) (handle :: pending) state where
  initial := h.initial
  inside := forall_occurrences_cons.2 ⟨h.resolved_lt (List.mem_map_of_mem hmem), h.inside⟩
  resolved := h.resolved
  numbers other := by
    have hsame : other = number → other ∈ state.resolved.map Prod.fst :=
      fun heq => heq ▸ List.mem_map_of_mem hmem
    simp only [List.mem_append, h.numbers, List.mem_singleton, ComponentKey.free.injEq]
    exact ⟨fun hother => hother.elim id hsame, Or.inl⟩
  once := h.once
  distinct := h.distinct
  free r hr := by
    have hiff : handle = r.2 ↔ number = r.1 :=
      ⟨fun heq => congrArg Prod.fst (List.inj_on_of_nodup_map h.distinct hmem hr heq),
        fun heq => congrArg Prod.snd (List.inj_on_of_nodup_map h.once hmem hr heq)⟩
    rw [count_occurrences_cons, h.free r hr, List.count_append, List.count_singleton]
    simp [hiff]
  own k other hget hnone hk := by
    have hne : handle ≠ k := by
      rintro rfl
      exact hk (List.mem_map_of_mem hmem)
    rw [count_occurrences_cons, if_neg hne]
    exact h.own k other hget hnone hk
  size := by
    rw [length_occurrences_cons]
    exact Nat.add_le_add_right h.size 1

/-- A free key that is met first gets an index that occurs once. -/
theorem resolveNew (h : Balanced arguments keys size pending state) {number : Nat}
    (hnew : number ∉ state.resolved.map Prod.fst) (range : List Nat) :
    Balanced arguments (keys ++ [.free number]) (size + 1) (state.arena.next :: pending)
      { (state.insert (.unclassified range)).2 with
        resolved := (number, state.arena.next) :: state.resolved } where
  initial := (h.insertOwn range).initial
  inside := (forall_occurrences_cons.1 (h.insertOwn range).inside).2
  resolved := by
    rintro r (_ | ⟨_, hr⟩)
    · exact ⟨_, IndexArena.get?_insert_next _ _, rfl⟩
    · exact (h.insertOwn range).resolved r hr
  numbers other := by
    rw [List.mem_append, List.mem_singleton, h.numbers, ComponentKey.free.injEq, List.map_cons,
      List.mem_cons]
    exact or_comm
  once := List.nodup_cons.2 ⟨hnew, h.once⟩
  distinct := List.nodup_cons.2
    ⟨fun hmem => Nat.lt_irrefl _ (h.resolved_lt hmem), h.distinct⟩
  free := by
    have hunused : .free number ∉ keys := fun hmem => hnew ((h.numbers number).1 hmem)
    rintro r (_ | ⟨_, hr⟩)
    · show ((state.insert (.unclassified range)).2.occurrences (state.arena.next :: pending)).count
        state.arena.next = (keys ++ [ComponentKey.free number]).count (.free number)
      rw [count_occurrences_cons, Transformation.occurrences_insert,
        List.count_eq_zero.2 h.next_notMem, if_pos rfl, List.count_append,
        List.count_eq_zero.2 hunused, List.count_singleton_self]
    · have hne : state.arena.next ≠ r.2 :=
        (Nat.ne_of_lt (h.resolved_lt (List.mem_map_of_mem hr))).symm
      have hother : ComponentKey.free r.1 ≠ .free number := by
        rintro heq
        exact hnew (ComponentKey.free.inj heq ▸ List.mem_map_of_mem hr)
      show ((state.insert (.unclassified range)).2.occurrences (state.arena.next :: pending)).count
        r.2 = (keys ++ [ComponentKey.free number]).count (.free r.1)
      rw [count_occurrences_cons, if_neg hne, Transformation.occurrences_insert, h.free r hr,
        List.count_append, List.count_singleton]
      simp [hother.symm]
  own k other hget hnone hk := by
    obtain ⟨hne, hk⟩ := not_or.1 (List.mem_cons.not.1 hk)
    have hold := (IndexArena.get?_insert_cases hget).resolve_right fun hnew => hne hnew.1
    show ((state.insert (.unclassified range)).2.occurrences (state.arena.next :: pending)).count
      k = 2
    rw [count_occurrences_cons, if_neg (Ne.symm hne), Transformation.occurrences_insert]
    exact h.own k other hold hnone hk
  size := by
    show ((state.insert (.unclassified range)).2.occurrences
      (state.arena.next :: pending)).length ≤ size + 1
    rw [length_occurrences_cons]
    exact Nat.add_le_add_right h.size 1

theorem resolveFree (h : Balanced arguments keys size pending state) (number dimension : Nat) :
    Balanced arguments (keys ++ [.free number]) (size + 1)
      ((state.resolveFree number dimension).1 :: pending)
      (state.resolveFree number dimension).2 := by
  unfold Transformation.resolveFree
  split
  next handle hlookup =>
    obtain ⟨before, after, hresolved, -⟩ := List.lookup_eq_some_iff.1 hlookup
    exact h.resolveKnown (by simp [hresolved])
  next hlookup =>
    refine h.resolveNew (fun hmem => ?_) _
    obtain ⟨r, hr, rfl⟩ := List.mem_map.1 hmem
    simpa using List.lookup_eq_none_iff.1 hlookup r hr

theorem resolveFixed (h : Balanced arguments keys size pending state) {v : Nat}
    {index : MonomialIndex} (hrole : index.role = some .fixed) (hrange : index.range = [v]) :
    Balanced arguments (keys ++ [.fixed v]) (size + 1) ((state.insert index).1 :: pending)
      (state.insert index).2 := by
  have hne : index.role ≠ none := by simp [hrole]
  have hinsert := (h.insertFixed (Or.inr (Or.inl ⟨hrole, v, hrange⟩)) hne).addPending
    (IndexArena.get?_insert_next state.arena index) hne
  exact { hinsert with
    numbers := fun number => by simpa using hinsert.numbers number
    free := fun r hr => by
      have hcount : (keys ++ [ComponentKey.fixed v]).count (.free r.1) =
          keys.count (.free r.1) := by simp
      exact (hinsert.free r hr).trans hcount.symm }

theorem resolveComponent (h : Balanced arguments keys size pending state) (dimension : Nat)
    (key : ComponentKey) :
    Balanced arguments (keys ++ [key]) (size + 1)
      ((state.resolveComponent dimension key).1 :: pending)
      (state.resolveComponent dimension key).2 := by
  cases key with
  | fixed v => exact h.resolveFixed rfl rfl
  | free number => exact h.resolveFree number dimension

theorem resolveDirection (h : Balanced arguments keys size pending state) (dimension : Nat)
    (key : ComponentKey) :
    Balanced arguments (keys ++ [key]) (size + 1)
      ((state.resolveDirection dimension key).1 :: pending)
      (state.resolveDirection dimension key).2 := by
  cases key with
  | fixed v => exact h.resolveFixed rfl rfl
  | free number => exact h.resolveFree number dimension

theorem resolveComponents (dimension : Nat) (more : List ComponentKey) :
    ∀ {keys size pending state}, Balanced arguments keys size pending state →
      Balanced arguments (keys ++ more) (size + more.length)
        ((state.resolveComponents dimension more).1 ++ pending)
        (state.resolveComponents dimension more).2 := by
  induction more with
  | nil =>
      intro keys size pending state h
      simpa [Transformation.resolveComponents] using h
  | cons key more ih =>
      intro keys size pending state h
      have hrest := ih (h.resolveComponent dimension key)
      rw [List.append_assoc, List.singleton_append, Nat.add_assoc, Nat.add_comm 1] at hrest
      exact hrest.reorder List.perm_middle.symm

end Balanced

end ElementKernel
