import ElementKernel.Proofs.Pullback.Meaning
import ElementKernel.Proofs.Pullback.Numbering

/-!
# Indices under transformation

While factors are transformed, the indices without role are those of the free keys and those that a
factor introduced itself.  `Tracked` keeps account of them.
-/

namespace ElementKernel

/-- The handles that stand in the parts of a monomial that are done. -/
def Transformation.footprint (state : Transformation) : List IndexHandle :=
  internalOccurrences state.basisFunctions ++
    externalOccurrences state.coefficients state.transforms

/-- The dimension of the index behind a handle. -/
def IndexArena.dimension (arena : IndexArena) (handle : IndexHandle) : Nat :=
  ((arena.get? handle).map fun index => index.range.length).getD 0

/-- The indices of a monomial before classification. -/
def MonomialIndex.IsPlain (index : MonomialIndex) : Prop :=
  index.role = none ∨ (index.role = some .fixed ∧ ∃ v, index.range = [v]) ∨
    ∃ n, index.role = some .primary ∧ index.id = some n

theorem MonomialIndex.IsPlain.not_isSummed {index : MonomialIndex} (h : index.IsPlain)
    {role : IndexRole} (hrole : index.role = some role) : ¬role.IsSummed := by
  obtain hnone | ⟨hfixed, -⟩ | ⟨n, hprimary, -⟩ := h
  · cases hrole.symm.trans hnone
  · obtain rfl := Option.some.inj (hrole.symm.trans hfixed)
    exact IndexRole.not_isSummed_fixed
  · obtain rfl := Option.some.inj (hrole.symm.trans hprimary)
    exact IndexRole.not_isSummed_primary

/-- The account of the indices of a state.  The free keys were used with dimensions `uses`, factors
introduced the indices `own`, and only handles in `pending` are still to be placed. -/
structure Tracked (uses : List (Nat × Nat)) (own : Summation IndexHandle)
    (pending : List IndexHandle) (state : Transformation) : Prop where
  plain : ∀ h index, state.arena.get? h = some index → index.IsPlain
  own_get : ∀ entry ∈ own, state.arena.get? entry.1 = some (.unclassified entry.2)
  free_get : ∀ r ∈ state.resolved, state.arena.get? r.2 =
    some (.unclassified (List.range (state.arena.dimension r.2)))
  free_uses : firstUses uses =
    state.resolved.reverse.map fun r => (r.1, state.arena.dimension r.2)
  nodup : (own.keys ++ state.resolved.map Prod.snd).Nodup
  complete : ∀ h index, state.arena.get? h = some index → index.role = none →
    h ∈ own.keys ∨ h ∈ state.resolved.map Prod.snd
  occurs : ∀ h index, state.arena.get? h = some index → index.role = none →
    h ∈ state.footprint ∨ h ∈ pending

/-- Later states of a transformation. -/
structure Grows (a b : Transformation) : Prop where
  get? : ∀ h index, a.arena.get? h = some index → b.arena.get? h = some index
  resolved : ∀ r ∈ a.resolved, r ∈ b.resolved
  next : a.arena.next ≤ b.arena.next

theorem Grows.refl (a : Transformation) : Grows a a := ⟨fun _ _ h => h, fun _ h => h, le_rfl⟩

theorem Grows.trans {a b c : Transformation} (h : Grows a b) (h' : Grows b c) : Grows a c :=
  ⟨fun k i hk => h'.get? k i (h.get? k i hk), fun r hr => h'.resolved r (h.resolved r hr),
    h.next.trans h'.next⟩

theorem IndexArena.lt_next {arena : IndexArena} {h : IndexHandle} {index : MonomialIndex}
    (hget : arena.get? h = some index) : h < arena.next :=
  (List.getElem?_eq_some_iff.1 hget).1

theorem IndexArena.get?_insert {arena : IndexArena} {h : IndexHandle} {index : MonomialIndex}
    (hget : arena.get? h = some index) (inserted : MonomialIndex) :
    (arena.insert inserted).get? h = some index :=
  (get?_insert_of_lt inserted (lt_next hget)).trans hget

theorem IndexArena.get?_insert_cases {arena : IndexArena} {h : IndexHandle}
    {index inserted : MonomialIndex} (hget : (arena.insert inserted).get? h = some index) :
    arena.get? h = some index ∨ h = arena.next ∧ index = inserted := by
  have hlt := lt_next hget
  rw [next_insert] at hlt
  by_cases hold : h < arena.next
  · exact Or.inl ((get?_insert_of_lt inserted hold).symm.trans hget)
  · obtain rfl : h = arena.next := Nat.le_antisymm (Nat.le_of_lt_succ hlt) (Nat.not_lt.1 hold)
    rw [get?_insert_next] at hget
    exact Or.inr ⟨rfl, (Option.some.inj hget).symm⟩

theorem IndexArena.dimension_insert {arena : IndexArena} {h : IndexHandle}
    (hlt : h < arena.next) (inserted : MonomialIndex) :
    (arena.insert inserted).dimension h = arena.dimension h := by
  rw [dimension, dimension, get?_insert_of_lt inserted hlt]

theorem grows_insert (state : Transformation) (index : MonomialIndex) :
    Grows state (state.insert index).2 where
  get? _ _ hget := IndexArena.get?_insert hget index
  resolved _ hr := hr
  next := by
    show state.arena.next ≤ (state.arena.insert index).next
    rw [IndexArena.next_insert]
    exact Nat.le_succ _

namespace Tracked

variable {uses : List (Nat × Nat)} {own : Summation IndexHandle} {pending : List IndexHandle}
  {state : Transformation}

theorem own_lt (h : Tracked uses own pending state) {key : IndexHandle} (hkey : key ∈ own.keys) :
    key < state.arena.next := by
  obtain ⟨entry, hentry, rfl⟩ := List.mem_map.1 hkey
  exact IndexArena.lt_next (h.own_get entry hentry)

theorem free_lt (h : Tracked uses own pending state) {key : IndexHandle}
    (hkey : key ∈ state.resolved.map Prod.snd) : key < state.arena.next := by
  obtain ⟨r, hr, rfl⟩ := List.mem_map.1 hkey
  exact IndexArena.lt_next (h.free_get r hr)

theorem next_notMem (h : Tracked uses own pending state) :
    state.arena.next ∉ own.keys ++ state.resolved.map Prod.snd := by
  intro hmem
  obtain hmem | hmem := List.mem_append.1 hmem
  · exact Nat.lt_irrefl _ (h.own_lt hmem)
  · exact Nat.lt_irrefl _ (h.free_lt hmem)

theorem insert_free_uses (h : Tracked uses own pending state) (index : MonomialIndex) :
    firstUses uses = state.resolved.reverse.map fun r =>
      (r.1, (state.arena.insert index).dimension r.2) := by
  rw [h.free_uses]
  refine List.map_congr_left fun r hr => ?_
  rw [IndexArena.dimension_insert]
  exact h.free_lt (List.mem_map_of_mem (List.mem_reverse.1 hr))

theorem insert_free_get (h : Tracked uses own pending state) (index : MonomialIndex) :
    ∀ r ∈ state.resolved, (state.arena.insert index).get? r.2 =
      some (.unclassified (List.range ((state.arena.insert index).dimension r.2))) := by
  intro r hr
  rw [IndexArena.dimension_insert (h.free_lt (List.mem_map_of_mem hr))]
  exact IndexArena.get?_insert (h.free_get r hr) index

theorem insertFixed (h : Tracked uses own pending state) {index : MonomialIndex}
    (hplain : index.IsPlain) (hrole : index.role ≠ none) :
    Tracked uses own pending (state.insert index).2 where
  plain k other hget := (IndexArena.get?_insert_cases hget).elim (h.plain k other)
    fun hnew => hnew.2 ▸ hplain
  own_get entry hentry := IndexArena.get?_insert (h.own_get entry hentry) index
  free_get := h.insert_free_get index
  free_uses := h.insert_free_uses index
  nodup := h.nodup
  complete k other hget hnone := (IndexArena.get?_insert_cases hget).elim
    (fun hold => h.complete k other hold hnone) fun hnew => absurd (hnew.2 ▸ hnone) hrole
  occurs k other hget hnone := (IndexArena.get?_insert_cases hget).elim
    (fun hold => h.occurs k other hold hnone) fun hnew => absurd (hnew.2 ▸ hnone) hrole

theorem insertOwn (h : Tracked uses own pending state) (range : List Nat) :
    Tracked uses (own ++ [(state.arena.next, range)]) (state.arena.next :: pending)
      (state.insert (.unclassified range)).2 where
  plain k other hget := (IndexArena.get?_insert_cases hget).elim (h.plain k other)
    fun hnew => Or.inl (by rw [hnew.2]; rfl)
  own_get entry hentry := by
    obtain hold | hnew := List.mem_append.1 hentry
    · exact IndexArena.get?_insert (h.own_get entry hold) _
    · obtain rfl := List.mem_singleton.1 hnew
      exact IndexArena.get?_insert_next _ _
  free_get := h.insert_free_get _
  free_uses := h.insert_free_uses _
  nodup := by
    rw [Summation.keys, List.map_append, List.append_assoc]
    exact List.nodup_middle.2 (List.nodup_cons.2 ⟨h.next_notMem, h.nodup⟩)
  complete k other hget hnone := by
    obtain hold | ⟨rfl, -⟩ := IndexArena.get?_insert_cases hget
    · refine (h.complete k other hold hnone).imp_left fun hk => ?_
      rw [Summation.keys, List.map_append]
      exact List.mem_append_left _ hk
    · exact Or.inl (by simp [Summation.keys])
  occurs k other hget hnone := by
    obtain hold | ⟨rfl, -⟩ := IndexArena.get?_insert_cases hget
    · exact (h.occurs k other hold hnone).imp_right fun hk => List.mem_cons_of_mem _ hk
    · exact Or.inr List.mem_cons_self

/-- Parts of the monomial are recorded, which may place pending indices. -/
theorem place (h : Tracked uses own pending state) {next : Transformation}
    {remaining : List IndexHandle} (harena : next.arena = state.arena)
    (hresolved : next.resolved = state.resolved)
    (hfootprint : ∀ k ∈ state.footprint, k ∈ next.footprint)
    (hplace : ∀ k ∈ pending, ∀ index, state.arena.get? k = some index → index.role = none →
      k ∈ next.footprint ∨ k ∈ remaining) : Tracked uses own remaining next where
  plain := by rw [harena]; exact h.plain
  own_get := by rw [harena]; exact h.own_get
  free_get := by rw [harena, hresolved]; exact h.free_get
  free_uses := by rw [harena, hresolved]; exact h.free_uses
  nodup := by rw [hresolved]; exact h.nodup
  complete := by rw [harena, hresolved]; exact h.complete
  occurs := by
    rw [harena]
    intro k index hget hnone
    obtain hk | hk := h.occurs k index hget hnone
    · exact Or.inl (hfootprint k hk)
    · exact hplace k hk index hget hnone

theorem weaken (h : Tracked uses own pending state) {more : List IndexHandle}
    (hmore : ∀ k ∈ pending, k ∈ more) : Tracked uses own more state :=
  h.place rfl rfl (fun _ hk => hk) fun k hk _ _ _ => Or.inr (hmore k hk)

end Tracked

/-! ## First uses of free keys -/

theorem firstUses_append (uses : List (Nat × Nat)) (use : Nat × Nat) :
    firstUses (uses ++ [use]) = addUse (firstUses uses) use := by
  rw [firstUses, List.foldl_append]
  rfl

theorem nodup_firstUses (uses : List (Nat × Nat)) : ((firstUses uses).map Prod.fst).Nodup := by
  have hstep : ∀ seen : List (Nat × Nat), (seen.map Prod.fst).Nodup →
      ((uses.foldl addUse seen).map Prod.fst).Nodup := by
    induction uses with
    | nil => exact fun _ h => h
    | cons use uses ih =>
        intro seen hseen
        refine ih _ ?_
        unfold addUse
        split
        next => exact hseen
        next hmem =>
          rw [List.map_append, List.nodup_append_comm]
          exact List.nodup_cons.2 ⟨hmem, hseen⟩
  exact hstep [] List.nodup_nil

end ElementKernel
