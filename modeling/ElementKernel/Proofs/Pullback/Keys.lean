import ElementKernel.Proofs.Pullback.Parts

/-!
# Keys under transformation

A fixed key gets an index of its own, and a free key the one index that all its uses share.
-/

namespace ElementKernel

variable {F : Type*} [Field F] {P : PointData F} {uses : List (Nat × Nat)}
  {own : Summation IndexHandle} {pending : List IndexHandle} {a b : Transformation}

/-- A handle stands for a key. -/
def Transformation.Resolves (state : Transformation) : ComponentKey → IndexHandle → Prop
  | .fixed v, handle => ∃ index, state.arena.get? handle = some index ∧
      index.role = some .fixed ∧ index.range = [v]
  | .free number, handle => (number, handle) ∈ state.resolved

namespace Transformation.Resolves

variable {key : ComponentKey} {handle : IndexHandle}

theorem mono (h : a.Resolves key handle) (hgrows : Grows a b) : b.Resolves key handle := by
  cases key with
  | fixed v =>
      obtain ⟨index, hget, hindex⟩ := h
      exact ⟨index, hgrows.get? handle index hget, hindex⟩
  | free number => exact hgrows.resolved _ h

theorem value_eq (h : a.Resolves key handle) {fixed : IndexHandle → Bool}
    {assignment : Nat → Nat} {value : IndexHandle → Nat}
    (hvalue : Reading P fixed assignment a value) : value handle = key.value assignment := by
  cases key with
  | fixed v =>
      obtain ⟨index, hget, hrole, hrange⟩ := h
      exact hvalue.fixed handle index v hget hrole hrange
  | free number => exact hvalue.free _ h

theorem value_mem (h : a.Resolves key handle) {fixed : IndexHandle → Bool}
    {assignment : Nat → Nat} {value : IndexHandle → Nat}
    (hvalue : Reading P fixed assignment a value) {index : MonomialIndex}
    (hget : a.arena.get? handle = some index) : value handle ∈ index.range := by
  cases key with
  | fixed v =>
      obtain ⟨other, hother, hrole, hrange⟩ := h
      obtain rfl := Option.some.inj (hother.symm.trans hget)
      rw [hvalue.fixed handle other v hget hrole hrange, hrange]
      exact List.mem_singleton_self v
  | free number => exact hvalue.range _ h index hget

end Transformation.Resolves

/-- What resolving a key does. -/
structure ResolvesTo (uses : List (Nat × Nat)) (own : Summation IndexHandle)
    (pending : List IndexHandle) (a : Transformation) (dimension : Nat) (key : ComponentKey)
    (result : IndexHandle × Transformation) : Prop where
  tracked : Tracked (uses ++ freeUses dimension [key]) own (result.1 :: pending) result.2
  adds : Adds a result.2 {}
  resolves : result.2.Resolves key result.1

theorem resolvesTo_insert (h : Tracked uses own pending a) (dimension : Nat) {v : Nat}
    {index : MonomialIndex} (hrole : index.role = some .fixed) (hrange : index.range = [v]) :
    ResolvesTo uses own pending a dimension (.fixed v) (a.insert index) where
  tracked := by
    have hplain : index.IsPlain := Or.inr (Or.inl ⟨hrole, v, hrange⟩)
    have hsome : index.role ≠ none := by simp [hrole]
    have hinsert := (h.insertFixed hplain hsome).weaken fun k hk =>
      List.mem_cons_of_mem (a.insert index).1 hk
    simpa [freeUses] using hinsert
  adds := .insert a index [] fun _ hkey => absurd hkey List.not_mem_nil
  resolves := ⟨index, IndexArena.get?_insert_next _ _, hrole, hrange⟩

theorem freeUses_free (dimension number : Nat) :
    freeUses dimension [.free number] = [(number, dimension)] := rfl

/-- A free key that was met before keeps its index. -/
theorem resolvesTo_known (h : Tracked uses own pending a) (dimension : Nat) {number : Nat}
    {handle : IndexHandle} (hmem : (number, handle) ∈ a.resolved) :
    ResolvesTo uses own pending a dimension (.free number) (handle, a) where
  tracked := by
    have hseen : number ∈ (firstUses uses).map Prod.fst := by
      rw [h.free_uses, List.map_map]
      exact List.mem_map.2 ⟨_, List.mem_reverse.2 hmem, rfl⟩
    have huses : firstUses (uses ++ freeUses dimension [.free number]) = firstUses uses := by
      rw [freeUses_free, firstUses_append, addUse, if_pos hseen]
    exact { h.weaken fun k hk => List.mem_cons_of_mem handle hk with
      free_uses := huses.trans h.free_uses }
  adds := .refl a
  resolves := hmem

/-- A free key that is met first gets an index over its dimension. -/
theorem resolvesTo_new (h : Tracked uses own pending a) (dimension : Nat) {number : Nat}
    (hnew : number ∉ a.resolved.map Prod.fst) :
    ResolvesTo uses own pending a dimension (.free number)
      (a.arena.next, { (a.insert (.unclassified (List.range dimension))).2 with
        resolved := (number, a.arena.next) :: a.resolved }) where
  tracked := by
    have hown := h.insertOwn (List.range dimension)
    have hget := IndexArena.get?_insert_next a.arena (.unclassified (List.range dimension))
    have hdimension : (a.arena.insert (.unclassified (List.range dimension))).dimension
        a.arena.next = dimension := by
      simp [IndexArena.dimension, MonomialIndex.unclassified]
    have hunseen : number ∉ (firstUses uses).map Prod.fst := by
      rw [h.free_uses, List.map_map]
      intro hmem
      obtain ⟨r, hr, hnumber⟩ := List.mem_map.1 hmem
      exact hnew (List.mem_map.2 ⟨r, List.mem_reverse.1 hr, hnumber⟩)
    refine ⟨hown.plain, fun entry hentry => ?_, ?_, ?_, ?_, fun k index hk hnone => ?_,
      fun k index hk hnone => hown.occurs k index hk hnone⟩
    · exact hown.own_get entry (List.mem_append_left _ hentry)
    · rintro r (_ | ⟨_, hr⟩)
      · exact hget.trans
          (congrArg (fun d => some (MonomialIndex.unclassified (List.range d))) hdimension.symm)
      · exact hown.free_get r hr
    · rw [freeUses_free, firstUses_append, addUse, if_neg hunseen, List.reverse_cons,
        List.map_append, List.map_singleton]
      exact congrArg₂ (· ++ ·) hown.free_uses (congrArg (fun d => [(number, d)]) hdimension.symm)
    · exact List.nodup_middle.2 (List.nodup_cons.2 ⟨h.next_notMem, h.nodup⟩)
    · obtain hold | ⟨rfl, -⟩ := IndexArena.get?_insert_cases hk
      · exact (h.complete k index hold hnone).imp_right fun hk => List.mem_cons_of_mem _ hk
      · exact Or.inr List.mem_cons_self
  adds := by
    have hinsert := Adds.insert a (.unclassified (List.range dimension)) []
      fun _ hkey => absurd hkey List.not_mem_nil
    exact { hinsert with
      grows := { hinsert.grows with resolved := fun r hr => List.mem_cons_of_mem _ hr } }
  resolves := List.mem_cons_self

theorem resolvesTo_free (h : Tracked uses own pending a) (number dimension : Nat) :
    ResolvesTo uses own pending a dimension (.free number) (a.resolveFree number dimension) := by
  unfold Transformation.resolveFree
  split
  next handle hlookup =>
    obtain ⟨before, after, hresolved, -⟩ := List.lookup_eq_some_iff.1 hlookup
    exact resolvesTo_known h dimension (by simp [hresolved])
  next hlookup =>
    refine resolvesTo_new h dimension fun hmem => ?_
    obtain ⟨r, hr, rfl⟩ := List.mem_map.1 hmem
    simpa using List.lookup_eq_none_iff.1 hlookup r hr

theorem resolvesTo_component (h : Tracked uses own pending a) (dimension : Nat)
    (key : ComponentKey) :
    ResolvesTo uses own pending a dimension key (a.resolveComponent dimension key) := by
  cases key with
  | fixed v => exact resolvesTo_insert h dimension rfl rfl
  | free number => exact resolvesTo_free h number dimension

theorem resolvesTo_direction (h : Tracked uses own pending a) (dimension : Nat)
    (key : ComponentKey) :
    ResolvesTo uses own pending a dimension key (a.resolveDirection dimension key) := by
  cases key with
  | fixed v => exact resolvesTo_insert h dimension rfl rfl
  | free number => exact resolvesTo_free h number dimension

end ElementKernel
