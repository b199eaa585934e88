import ElementKernel.Proofs.Roles.Factors

/-!
# The ledger of a run

A transformation hands out new handles and keeps the handles of the free keys.  `Ledger` says which
handles stand in the monomial for one purpose only and which belong to a free key, so that all of
them are known to be different.  The index of a free key runs over the dimension that the key is
first met with.
-/

namespace ElementKernel

/-! ## Exact outcomes -/

namespace Attempt

variable {ε α β : Type} {valid valid' : Prop} {post : α → Prop} {post' : β → Prop}

/-- The attempt comes to a result exactly when its input is valid, and the result has `post`. -/
structure Succeeds (x : Attempt ε α) (valid : Prop) (post : α → Prop) : Prop where
  ok : ∀ a, x = .ok a → valid ∧ post a
  exists_ok : valid → ∃ a, x = .ok a

namespace Succeeds

theorem pure {a : α} (h : post a) : Attempt.Succeeds (.ok a : Attempt ε α) True post where
  ok _ h' := ⟨trivial, Except.ok.inj h' ▸ h⟩
  exists_ok _ := ⟨a, rfl⟩

theorem fails {failure : Failure ε} (h : ¬valid) :
    Attempt.Succeeds (.error failure : Attempt ε α) valid post where
  ok _ h' := nomatch h'
  exists_ok hvalid := absurd hvalid h

theorem congr {x : Attempt ε α} (hx : x.Succeeds valid post) (h : valid ↔ valid') :
    x.Succeeds valid' post := by
  rwa [← propext h]

theorem mono {x : Attempt ε α} {more : α → Prop} (hx : x.Succeeds valid post)
    (h : ∀ a, post a → more a) : x.Succeeds valid more where
  ok a ha := ⟨(hx.ok a ha).1, h a (hx.ok a ha).2⟩
  exists_ok := hx.exists_ok

theorem bind {x : Attempt ε α} {k : α → Attempt ε β} (hx : x.Succeeds valid post)
    (hk : ∀ a, post a → (k a).Succeeds valid' post') :
    (x >>= k).Succeeds (valid ∧ valid') post' where
  ok b h := by
    obtain ⟨a, ha, hb⟩ := bind_eq_ok.1 h
    obtain ⟨hvalid, hpost⟩ := hx.ok a ha
    obtain ⟨hvalid', hpost'⟩ := (hk a hpost).ok b hb
    exact ⟨⟨hvalid, hvalid'⟩, hpost'⟩
  exists_ok hvalid := by
    obtain ⟨a, ha⟩ := hx.exists_ok hvalid.1
    obtain ⟨b, hb⟩ := (hk a (hx.ok a ha).2).exists_ok hvalid.2
    exact ⟨b, bind_eq_ok.2 ⟨a, ha, hb⟩⟩

theorem bindFree {x : Attempt ε α} {k : α → Attempt ε β} (hx : x.Succeeds valid post)
    (hk : ∀ a, post a → (k a).Succeeds True post') : (x >>= k).Succeeds valid post' :=
  (hx.bind hk).congr (and_iff_left trivial)

/-- What is valid after a step may depend on its result. -/
theorem of_bind {x : Attempt ε α} {k : α → Attempt ε β} {validFor : α → Prop}
    (hk : ∀ a, x = .ok a → (k a).Succeeds (validFor a) post') :
    (x >>= k).Succeeds (∃ a, x = .ok a ∧ validFor a) post' where
  ok b h := by
    obtain ⟨a, ha, hb⟩ := bind_eq_ok.1 h
    obtain ⟨hvalid, hpost⟩ := (hk a ha).ok b hb
    exact ⟨⟨a, ha, hvalid⟩, hpost⟩
  exists_ok := by
    rintro ⟨a, ha, hvalid⟩
    obtain ⟨b, hb⟩ := (hk a ha).exists_ok hvalid
    exact ⟨b, bind_eq_ok.2 ⟨a, ha, hb⟩⟩

theorem foldlM {f : β → α → Attempt ε β} {validAt : α → Prop} (invariant : List α → β → Prop)
    {xs : List α} (h : ∀ done x rest b, xs = done ++ x :: rest → invariant done b →
      (f b x).Succeeds (validAt x) (invariant (done ++ [x]))) {b : β} (hb : invariant [] b) :
    (xs.foldlM f b).Succeeds (∀ x ∈ xs, validAt x) (invariant xs) := by
  suffices hrest : ∀ rest done b, xs = done ++ rest → invariant done b →
      (rest.foldlM f b).Succeeds (∀ x ∈ rest, validAt x) (invariant xs) by
    exact hrest xs [] b rfl hb
  -- By induction on what is left, with the invariant at what is done.
  intro rest
  induction rest with
  | nil =>
      intro done b hsplit hdone
      rw [List.append_nil] at hsplit
      exact (pure (hsplit ▸ hdone)).congr (by simp)
  | cons x rest ih =>
      intro done b hsplit hdone
      rw [List.foldlM_cons]
      refine ((h done x rest b hsplit hdone).bind fun next hnext => ?_).congr
        List.forall_mem_cons.symm
      exact ih (done ++ [x]) next (by simpa using hsplit) hnext

end Succeeds

end Attempt

/-! ## First uses -/

/-- Keys that are not seen before are first met with the given dimensions. -/
def FirstMet (dims : Nat → Nat) (seen uses : List (Nat × Nat)) : Prop :=
  ∀ n d, n ∉ seen.map Prod.fst → uses.lookup n = some d → dims n = d

namespace FirstMet

variable {dims : Nat → Nat} {seen uses more : List (Nat × Nat)}

theorem left (h : FirstMet dims seen (uses ++ more)) : FirstMet dims seen uses := by
  intro n d hnew hlookup
  refine h n d hnew ?_
  rw [List.lookup_append, hlookup, Option.some_or]

theorem right (h : FirstMet dims seen (uses ++ more)) : FirstMet dims (seen ++ uses) more := by
  intro n d hnew hlookup
  rw [List.map_append, List.mem_append, not_or] at hnew
  refine h n d hnew.1 ?_
  have hnone : uses.lookup n = none := List.lookup_eq_none_iff.2 fun use huse => by
    simpa using fun heq : n = use.1 => hnew.2 (heq ▸ List.mem_map_of_mem huse)
  rw [List.lookup_append, hnone, Option.none_or, hlookup]

end FirstMet

/-! ## Ledger -/

/-- The handles in `used` stand for one purpose each, and the free keys in `uses` have indices over
their dimensions. -/
structure Ledger (dims : Nat → Nat) (uses : List (Nat × Nat)) (used : List IndexHandle)
    (state : Transformation) : Prop where
  free : ∀ r ∈ state.resolved,
    state.arena.get? r.2 = some (.unclassified (List.range (dims r.1)))
  met : ∀ n, n ∈ state.resolved.map Prod.fst ↔ n ∈ uses.map Prod.fst
  once : (state.resolved.map Prod.fst).Nodup
  inside : ∀ h ∈ used, h < state.arena.next
  nodup : (used ++ state.resolved.map Prod.snd).Nodup

/-- Only indices and free keys are added. -/
def OnlyIndices (a b : Transformation) : Prop :=
  b = { a with arena := b.arena, resolved := b.resolved }

/-- The handle of a fixed key is used for this key only. -/
def ComponentKey.literal (handle : IndexHandle) : ComponentKey → List IndexHandle
  | .fixed _ => [handle]
  | .free _ => []

namespace Ledger

variable {dims : Nat → Nat} {uses : List (Nat × Nat)} {used : List IndexHandle}
  {state next : Transformation}

theorem start (dims : Nat → Nat) : Ledger dims [] [] {} where
  free _ hr := absurd hr List.not_mem_nil
  met _ := Iff.rfl
  once := List.nodup_nil
  inside _ hh := absurd hh List.not_mem_nil
  nodup := List.nodup_nil

theorem resolved_lt (h : Ledger dims uses used state) {handle : IndexHandle}
    (hmem : handle ∈ state.resolved.map Prod.snd) : handle < state.arena.next := by
  obtain ⟨r, hr, rfl⟩ := List.mem_map.1 hmem
  exact IndexArena.lt_next (h.free r hr)

theorem next_notMem (h : Ledger dims uses used state) :
    state.arena.next ∉ used ++ state.resolved.map Prod.snd := by
  intro hmem
  obtain hmem | hmem := List.mem_append.1 hmem
  · exact Nat.lt_irrefl _ (h.inside _ hmem)
  · exact Nat.lt_irrefl _ (h.resolved_lt hmem)

theorem of_eq (h : Ledger dims uses used state) (harena : next.arena = state.arena)
    (hresolved : next.resolved = state.resolved) : Ledger dims uses used next where
  free := by rw [harena, hresolved]; exact h.free
  met := by rw [hresolved]; exact h.met
  once := by rw [hresolved]; exact h.once
  inside := by rw [harena]; exact h.inside
  nodup := by rw [hresolved]; exact h.nodup

theorem insert (h : Ledger dims uses used state) (index : MonomialIndex) :
    Ledger dims uses used (state.insert index).2 where
  free r hr := IndexArena.get?_insert (h.free r hr) index
  met := h.met
  once := h.once
  inside k hk := (h.inside k hk).trans_le (grows_insert state index).next
  nodup := h.nodup

theorem use (h : Ledger dims uses used state) {handle : IndexHandle}
    (hlt : handle < state.arena.next) (hused : handle ∉ used)
    (hfree : handle ∉ state.resolved.map Prod.snd) : Ledger dims uses (used ++ [handle]) state where
  free := h.free
  met := h.met
  once := h.once
  inside := List.forall_mem_append.2 ⟨h.inside, List.forall_mem_singleton.2 hlt⟩
  nodup := by
    rw [List.append_assoc, List.singleton_append, List.nodup_middle, List.nodup_cons]
    exact ⟨fun hmem => (List.mem_append.1 hmem).elim hused hfree, h.nodup⟩

theorem insertUsed (h : Ledger dims uses used state) (index : MonomialIndex) :
    Ledger dims uses (used ++ [state.arena.next]) (state.insert index).2 := by
  have hnew := h.next_notMem
  rw [List.mem_append, not_or] at hnew
  refine (h.insert index).use ?_ hnew.1 hnew.2
  show state.arena.next < (state.arena.insert index).next
  rw [IndexArena.next_insert]
  exact Nat.lt_succ_self _

theorem resolveNew (h : Ledger dims uses used state) {number : Nat}
    (hnew : number ∉ state.resolved.map Prod.fst) :
    Ledger dims (uses ++ [(number, dims number)]) used
      { (state.insert (.unclassified (List.range (dims number)))).2 with
        resolved := (number, state.arena.next) :: state.resolved } where
  free := by
    rintro r (_ | ⟨_, hr⟩)
    · exact IndexArena.get?_insert_next _ _
    · exact IndexArena.get?_insert (h.free r hr) _
  met n := by
    rw [List.map_cons, List.mem_cons, h.met, List.map_append, List.mem_append, List.map_singleton,
      List.mem_singleton, or_comm]
  once := List.nodup_cons.2 ⟨hnew, h.once⟩
  inside := (h.insert _).inside
  nodup := by
    rw [List.map_cons, List.nodup_middle, List.nodup_cons]
    exact ⟨h.next_notMem, h.nodup⟩

theorem resolveKnown (h : Ledger dims uses used state) {number : Nat} (dimension : Nat)
    (hmem : number ∈ state.resolved.map Prod.fst) :
    Ledger dims (uses ++ [(number, dimension)]) used state where
  free := h.free
  met n := by
    rw [List.map_append, List.mem_append, ← h.met, List.map_singleton, List.mem_singleton]
    exact ⟨Or.inl, fun hn => hn.elim id fun heq => heq ▸ hmem⟩
  once := h.once
  inside := h.inside
  nodup := h.nodup

theorem resolved_inj (h : Ledger dims uses used state) {r s : Nat × IndexHandle}
    (hr : r ∈ state.resolved) (hs : s ∈ state.resolved) : r.2 = s.2 ↔ r.1 = s.1 :=
  ⟨fun heq => congrArg Prod.fst
      (List.inj_on_of_nodup_map (List.nodup_append.1 h.nodup).2.1 hr hs heq),
    fun heq => congrArg Prod.snd (List.inj_on_of_nodup_map h.once hr hs heq)⟩

end Ledger

/-! ## Keys -/

/-- What resolving a key does to the ledger. -/
structure Resolution (dims : Nat → Nat) (uses : List (Nat × Nat)) (used : List IndexHandle)
    (a : Transformation) (dimension : Nat) (key : ComponentKey)
    (result : IndexHandle × Transformation) : Prop where
  ledger : Ledger dims (uses ++ freeUses dimension [key]) used result.2
  resolves : result.2.Resolves key result.1
  literal : ∀ v, key = .fixed v → a.arena.next ≤ result.1
  grows : Grows a result.2
  only : OnlyIndices a result.2

namespace Ledger

variable {dims : Nat → Nat} {uses : List (Nat × Nat)} {used : List IndexHandle}
  {state : Transformation}

theorem resolveFixed (h : Ledger dims uses used state) (dimension : Nat) {v : Nat}
    {index : MonomialIndex} (hrole : index.role = some .fixed) (hrange : index.range = [v]) :
    Resolution dims uses used state dimension (.fixed v) (state.insert index) where
  ledger := by simpa [freeUses] using h.insert index
  resolves := ⟨index, IndexArena.get?_insert_next _ _, hrole, hrange⟩
  literal _ _ := le_rfl
  grows := grows_insert state index
  only := rfl

theorem resolveFree (h : Ledger dims uses used state) {dimension number : Nat}
    (hfirst : FirstMet dims uses (freeUses dimension [.free number])) :
    Resolution dims uses used state dimension (.free number)
      (state.resolveFree number dimension) := by
  unfold Transformation.resolveFree
  split
  next handle hlookup =>
    obtain ⟨before, after, hresolved, -⟩ := List.lookup_eq_some_iff.1 hlookup
    have hmem : (number, handle) ∈ state.resolved := by simp [hresolved]
    exact ⟨h.resolveKnown dimension (List.mem_map_of_mem hmem), hmem, nofun, .refl state, rfl⟩
  next hlookup =>
    have hnew : number ∉ state.resolved.map Prod.fst := by
      rintro hmem
      obtain ⟨r, hr, rfl⟩ := List.mem_map.1 hmem
      simpa using List.lookup_eq_none_iff.1 hlookup r hr
    have hdims : dims number = dimension :=
      hfirst number dimension (fun hmem => hnew ((h.met number).2 hmem)) (by simp [freeUses])
    subst hdims
    exact ⟨h.resolveNew hnew, List.mem_cons_self, nofun,
      ⟨fun _ _ hget => IndexArena.get?_insert hget _, fun _ hr => List.mem_cons_of_mem _ hr,
        (grows_insert state _).next⟩, rfl⟩

theorem resolveComponent (h : Ledger dims uses used state) {dimension : Nat} {key : ComponentKey}
    (hfirst : FirstMet dims uses (freeUses dimension [key])) :
    Resolution dims uses used state dimension key (state.resolveComponent dimension key) := by
  cases key with
  | fixed v => exact h.resolveFixed dimension rfl rfl
  | free number => exact h.resolveFree hfirst

theorem resolveDirection (h : Ledger dims uses used state) {dimension : Nat} {key : ComponentKey}
    (hfirst : FirstMet dims uses (freeUses dimension [key])) :
    Resolution dims uses used state dimension key (state.resolveDirection dimension key) := by
  cases key with
  | fixed v => exact h.resolveFixed dimension rfl rfl
  | free number => exact h.resolveFree hfirst

/-- The handle of a key is not one of a free key, if the key is fixed. -/
theorem literal_notMem (h : Ledger dims uses used state) {v : Nat} {handle : IndexHandle}
    (hresolves : state.Resolves (.fixed v) handle) : handle ∉ state.resolved.map Prod.snd := by
  rintro hmem
  obtain ⟨r, hr, rfl⟩ := List.mem_map.1 hmem
  obtain ⟨index, hget, hrole, -⟩ := hresolves
  obtain rfl := Option.some.inj (hget.symm.trans (h.free r hr))
  cases hrole

theorem useLiteral (h : Ledger dims uses used state) {key : ComponentKey} {handle : IndexHandle}
    (hresolves : state.Resolves key handle) (hfresh : ∀ v, key = .fixed v → handle ∉ used) :
    Ledger dims uses (used ++ key.literal handle) state := by
  cases key with
  | fixed v =>
      obtain ⟨index, hget, -⟩ := id hresolves
      exact h.use (IndexArena.lt_next hget) (hfresh v rfl) (h.literal_notMem hresolves)
  | free number => simpa [ComponentKey.literal] using h

end Ledger

end ElementKernel
