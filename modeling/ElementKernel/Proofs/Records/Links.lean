import ElementKernel.Proofs.Records.Ledger

/-!
# Links

A Piola mapped component and every derivative take one entry of the Jacobian or its inverse, which
links a reference index of the factor's own to the key.  What a factor takes is known beforehand,
once the dimensions of the free keys are.
-/

namespace ElementKernel

/-! ## Keys and links -/

namespace ComponentKey

/-- The values of a key, when free keys run over the given dimensions. -/
def values (dims : Nat → Nat) : ComponentKey → List Nat
  | .fixed v => [v]
  | .free number => List.range (dims number)

/-- The key local to the sub-element that starts at `offset`.  The index of a free key stays. -/
def lower (offset : Nat) : ComponentKey → ComponentKey
  | .fixed v => .fixed (v - offset)
  | .free number => .free number

/-- A fixed key can be made local. -/
def Reaches (key : ComponentKey) (offset : Nat) : Prop := ∀ v, key = .fixed v → offset ≤ v

@[simp] theorem literal_lower (key : ComponentKey) (offset : Nat) (handle : IndexHandle) :
    (key.lower offset).literal handle = key.literal handle := by
  cases key <;> rfl

end ComponentKey

/-- An entry of the Jacobian or its inverse that a key selects, in a sub-element that starts at
`offset`. -/
structure Link where
  kind : JacobianKind
  key : ComponentKey
  offset : Nat

/-- The link of a key whose values are placed so. -/
def ComponentElement.links (p : ComponentElement) (key : ComponentKey) : List Link :=
  match p.mapping with
  | .affine => []
  | .contravariantPiola => [⟨.jacobian, key, p.offset⟩]
  | .covariantPiola => [⟨.inverse, key, p.offset⟩]

/-- The link of a component, which depends on where its first value is placed. -/
def ElementDescriptor.pullback (element : ElementDescriptor) (dims : Nat → Nat)
    (key : ComponentKey) : List Link :=
  (((key.values dims).head?.bind element.placement).map (·.links key)).getD []

namespace JacobianEntry

/-- The end of an entry on the reference cell. -/
def reference (t : JacobianEntry) : IndexHandle :=
  match t.kind with
  | .jacobian => t.column
  | .inverse => t.row

/-- The end of an entry on the physical cell. -/
def physical (t : JacobianEntry) : IndexHandle :=
  match t.kind with
  | .jacobian => t.row
  | .inverse => t.column

end JacobianEntry

variable {dims : Nat → Nat} {uses : List (Nat × Nat)} {used : List IndexHandle}
  {state a b c : Transformation} {dimension : Nat} {restriction : Option Restriction}

/-- The entry is the one of the link, on a cell of the given dimension. -/
structure Link.Makes (dimension : Nat) (restriction : Option Restriction) (state : Transformation)
    (link : Link) (t : JacobianEntry) : Prop where
  kind : t.kind = link.kind
  restriction : t.restriction = restriction
  offset : t.offset = link.offset
  reference : state.arena.get? t.reference =
    some (.unclassified ((List.range dimension).map (· + link.offset)))
  physical : state.Resolves (link.key.lower link.offset) t.physical

theorem Link.Makes.mono {link : Link} {t : JacobianEntry}
    (h : link.Makes dimension restriction a t) (hgrows : Grows a b) :
    link.Makes dimension restriction b t where
  kind := h.kind
  restriction := h.restriction
  offset := h.offset
  reference := hgrows.get? _ _ h.reference
  physical := h.physical.mono hgrows

/-! ## Entries -/

theorem localize_own {arena : IndexArena} {handle : IndexHandle} {range : List Nat}
    (hget : arena.get? handle = some (.unclassified range)) (offset : Nat) :
    JacobianEntry.localize arena handle offset = .ok (handle, arena) := by
  have hindex : (liftM (arena.get handle) : Attempt TransformError MonomialIndex) =
      .ok (.unclassified range) := liftM_eq_ok.2 (Checked.get_eq_ok_iff.2 hget)
  rw [JacobianEntry.localize, hindex]
  rfl

/-- The handle of a key is made local, for a fixed key by an index that is used here only. -/
theorem localize_succeeds (h : Ledger dims uses used state) {key : ComponentKey}
    {handle : IndexHandle} (hkey : state.Resolves key handle) (offset : Nat) :
    (JacobianEntry.localize state.arena handle offset).Succeeds (key.Reaches offset) fun result =>
      Ledger dims uses (used ++ key.literal result.1) { state with arena := result.2 } ∧
      Grows state { state with arena := result.2 } ∧
      { state with arena := result.2 : Transformation }.Resolves (key.lower offset) result.1 := by
  cases key with
  | free number =>
      rw [localize_own (h.free _ hkey)]
      refine (Attempt.Succeeds.pure ?_).congr (iff_of_true trivial nofun)
      exact ⟨by simpa [ComponentKey.literal] using h, .refl state, hkey⟩
  | fixed v =>
      obtain ⟨index, hget, hrole, hrange⟩ := hkey
      have hindex : (liftM (state.arena.get handle) : Attempt TransformError MonomialIndex) =
          .ok index := liftM_eq_ok.2 (Checked.get_eq_ok_iff.2 hget)
      have hvalue : (liftM index.value : Attempt TransformError Nat) = .ok v := by
        rw [MonomialIndex.value, hrange]
        rfl
      rw [JacobianEntry.localize, hindex]
      change Attempt.Succeeds (if index.isFixed then _ else _) _ _
      rw [if_pos (by simp [MonomialIndex.isFixed, hrole]), hvalue]
      change Attempt.Succeeds (if v < offset then _ else _) _ _
      split
      next hlt => exact .fails fun hreaches => Nat.not_le.2 hlt (hreaches v rfl)
      next hle =>
        rw [Nat.not_lt] at hle
        have hlower : (liftM (index.lower offset) : Attempt TransformError MonomialIndex) =
            .ok { index with range := [v - offset] } := by
          rw [MonomialIndex.lower, hrange, if_pos (by simpa using hle)]
          rfl
        rw [hlower]
        refine (Attempt.Succeeds.pure ?_).congr (iff_of_true trivial ?_)
        · exact ⟨h.insertUsed _, grows_insert state _, _, IndexArena.get?_insert_next _ _, hrole,
            rfl⟩
        · rintro w hw
          exact ComponentKey.fixed.inj hw ▸ hle

/-- The ends of an entry of a kind. -/
def JacobianKind.Orders (reference physical row column : IndexHandle) : JacobianKind → Prop
  | .jacobian => row = physical ∧ column = reference
  | .inverse => row = reference ∧ column = physical

/-- What an entry adds. -/
structure Linked (dims : Nat → Nat) (uses : List (Nat × Nat)) (used : List IndexHandle)
    (dimension : Nat) (restriction : Option Restriction) (a : Transformation) (link : Link)
    (reference : IndexHandle) (t : JacobianEntry) (b : Transformation) : Prop where
  makes : link.Makes dimension restriction b t
  reference : t.reference = reference
  ledger : Ledger dims uses (used ++ link.key.literal t.physical) b
  grows : Grows a b
  parts : b = { a with arena := b.arena, transforms := a.transforms ++ [t] }

theorem link_succeeds (h : Ledger dims uses used state) (link : Link)
    {reference physical row column : IndexHandle}
    (hends : link.kind.Orders reference physical row column)
    (hreference : state.arena.get? reference =
      some (.unclassified ((List.range dimension).map (· + link.offset))))
    (hkey : state.Resolves link.key physical) :
    (state.link row column link.kind restriction link.offset).Succeeds
      (link.key.Reaches link.offset) fun next =>
        ∃ t, Linked dims uses used dimension restriction state link reference t next := by
  have hlocal := localize_succeeds h hkey link.offset
  have hlinked : ∀ t arena, t.kind = link.kind → t.restriction = restriction →
      t.offset = link.offset → t.reference = reference →
      Ledger dims uses (used ++ link.key.literal t.physical) { state with arena := arena } ∧
        Grows state { state with arena := arena } ∧
        { state with arena := arena : Transformation }.Resolves (link.key.lower link.offset)
          t.physical →
      Linked dims uses used dimension restriction state link reference t
        { state with arena := arena, transforms := state.transforms ++ [t] } := by
    rintro t arena hkind hrestriction hoffset rfl ⟨hledger, hgrows, hphysical⟩
    refine ⟨⟨hkind, hrestriction, hoffset, hgrows.get? _ _ hreference, ?_⟩, rfl,
      hledger.of_eq rfl rfl, ⟨hgrows.get?, hgrows.resolved, hgrows.next⟩, rfl⟩
    exact hphysical.mono ⟨fun _ _ h => h, fun _ h => h, le_rfl⟩
  obtain ⟨kind, key, offset⟩ := link
  rw [Transformation.link_eq]
  cases kind with
  | jacobian =>
      obtain ⟨rfl, rfl⟩ := hends
      refine hlocal.bindFree ?_
      rintro ⟨k, arena⟩ hpost
      change (JacobianEntry.localize arena column offset >>= _).Succeeds _ _
      rw [localize_own (hpost.2.1.get? _ _ hreference)]
      exact .pure ⟨⟨k, column, .jacobian, restriction, offset⟩,
        hlinked _ arena rfl rfl rfl rfl hpost⟩
  | inverse =>
      obtain ⟨rfl, rfl⟩ := hends
      rw [localize_own hreference]
      change (JacobianEntry.localize state.arena column offset >>= _).Succeeds _ _
      refine hlocal.bindFree ?_
      rintro ⟨k, arena⟩ hpost
      exact .pure ⟨⟨row, k, .inverse, restriction, offset⟩,
        hlinked _ arena rfl rfl rfl rfl hpost⟩

/-! ## Attached parts -/

/-- The handles of fixed keys. -/
def literals (keys : List ComponentKey) (handles : List IndexHandle) : List IndexHandle :=
  (keys.zip handles).flatMap fun entry => entry.1.literal entry.2

/-- The handles that entries are the only ones to use: their reference ends, and those of fixed
keys. -/
def linkHandles (links : List Link) (entries : List JacobianEntry) : List IndexHandle :=
  (links.zip entries).flatMap fun entry =>
    entry.2.reference :: entry.1.key.literal entry.2.physical

/-- What is added to a monomial for some keys that stay in place and some links. -/
structure Attached (dims : Nat → Nat) (uses : List (Nat × Nat)) (used : List IndexHandle)
    (dimension : Nat) (restriction : Option Restriction) (a : Transformation)
    (keys : List ComponentKey) (links : List Link) (stay : List IndexHandle)
    (entries : List JacobianEntry) (b : Transformation) : Prop where
  stays : List.Forall₂ b.Resolves keys stay
  makes : List.Forall₂ (Link.Makes dimension restriction b) links entries
  ledger : Ledger dims uses (used ++ literals keys stay ++ linkHandles links entries) b
  grows : Grows a b
  parts : b = { a with
    arena := b.arena
    resolved := b.resolved
    transforms := a.transforms ++ entries
    determinant := { a.determinant with
      power := a.determinant.power - links.countP (·.kind = .jacobian) } }

namespace Attached

theorem append {keys : List ComponentKey} {links more : List Link} {stay : List IndexHandle}
    {entries added : List JacobianEntry} {uses' : List (Nat × Nat)}
    (h : Attached dims uses used dimension restriction a keys links stay entries b)
    (h' : Attached dims uses' (used ++ literals keys stay ++ linkHandles links entries) dimension
      restriction b [] more [] added c) :
    Attached dims uses' used dimension restriction a keys (links ++ more) stay (entries ++ added)
      c where
  stays := h.stays.imp fun _ _ hkey => hkey.mono h'.grows
  makes := List.rel_append (h.makes.imp fun _ _ hlink => hlink.mono h'.grows) h'.makes
  ledger := by
    have hledger := h'.ledger
    simpa [literals, linkHandles, List.zip_append h.makes.length_eq] using hledger
  grows := h.grows.trans h'.grows
  parts := by
    have hparts := h'.parts
    rw [h.parts] at hparts
    rw [hparts]
    simp [Int.sub_sub]

theorem after {start : Transformation} {keys : List ComponentKey} {links : List Link}
    {stay : List IndexHandle} {entries : List JacobianEntry}
    (h : Attached dims uses used dimension restriction a keys links stay entries b)
    (hgrows : Grows start a) (honly : OnlyIndices start a) :
    Attached dims uses used dimension restriction start keys links stay entries b where
  stays := h.stays
  makes := h.makes
  ledger := h.ledger
  grows := hgrows.trans h.grows
  parts := by rw [h.parts, honly]

end Attached

/-! ## Components -/

/-- The common mapping is that of the first value. -/
theorem commonMapping_cases {element : FiniteElement} {range : List Nat} {p : ComponentElement}
    (h : Transformation.commonMapping element range = .ok p) :
    range = [] ∧ p = ⟨.affine, 0⟩ ∨
      ∃ c rest, range = c :: rest ∧ element.component c = .ok (some p) := by
  obtain ⟨found, hfound, h⟩ := bind_eq_ok.1 h
  obtain _ | ⟨hfirst, _⟩ := mapM_eq_ok.1 hfound
  · exact Or.inl ⟨rfl, (Except.ok.inj h).symm⟩
  · dsimp only at h
    split at h
    next => cases h
    next =>
      obtain rfl := Except.ok.inj h
      obtain ⟨found, hcomponent, hfirst⟩ := bind_eq_ok.1 hfirst
      cases found with
      | none => cases hfirst
      | some q =>
          obtain rfl := Except.ok.inj hfirst
          exact Or.inr ⟨_, _, rfl, liftM_eq_ok.1 hcomponent⟩

namespace ElementDescriptor

theorem pullback_eq {descriptor : ElementDescriptor} {element : FiniteElement}
    (helement : reference descriptor = .ok element) {key : ComponentKey} {p : ComponentElement}
    (h : Transformation.commonMapping element (key.values dims) = .ok p) :
    descriptor.pullback dims key = p.links key := by
  rw [pullback]
  obtain ⟨hrange, rfl⟩ | ⟨c, rest, hrange, hc⟩ := commonMapping_cases h
  · rw [hrange]
    rfl
  · rw [reference_component helement] at hc
    rw [hrange, List.head?_cons, Option.bind_some, Except.ok.inj hc]
    rfl

/-- The component stays in the basis function, if it has no link. -/
def stays (element : ElementDescriptor) (dims : Nat → Nat) (key : ComponentKey) :
    List ComponentKey :=
  if (element.pullback dims key).isEmpty then [key] else []

end ElementDescriptor

/-- The values of the component are mapped alike, and a reference component can take their place. -/
def FiniteElement.Maps (element : FiniteElement) (dims : Nat → Nat) (key : ComponentKey) : Prop :=
  ∃ p, Transformation.commonMapping element (key.values dims) = .ok p ∧
    (p.mapping ≠ .affine → (∃ image, (MonomialIndex.unclassified
      (List.range element.geometricDimension)).raise p.offset = .ok image) ∧ key.Reaches p.offset)

theorem Ledger.range_eq (h : Ledger dims uses used state) {key : ComponentKey}
    {handle : IndexHandle} (hkey : state.Resolves key handle) :
    ∃ index, state.arena.get? handle = some index ∧ index.range = key.values dims := by
  cases key with
  | fixed v =>
      obtain ⟨index, hget, -, hrange⟩ := hkey
      exact ⟨index, hget, hrange⟩
  | free number => exact ⟨_, h.free _ hkey, rfl⟩

/-- A link from an index that is inserted for it, with its effect on the determinant. -/
theorem Linked.attached {mid : Transformation} {link : Link} {reference : IndexHandle}
    {t : JacobianEntry}
    (h : Linked dims uses (used ++ [reference]) dimension restriction mid link reference t b)
    (hgrows : Grows a mid) (honly : OnlyIndices a mid)
    (hc : c = { b with determinant := { b.determinant with
      power := b.determinant.power - [link].countP (·.kind = .jacobian) } }) :
    Attached dims uses used dimension restriction a [] [link] [] [t] c where
  stays := .nil
  makes := .cons (h.makes.mono (hc ▸ ⟨fun _ _ hget => hget, fun _ hr => hr, le_rfl⟩)) .nil
  ledger := by
    have hledger : Ledger dims uses (used ++ literals [] [] ++ linkHandles [link] [t]) b := by
      simpa [literals, linkHandles, h.reference] using h.ledger
    exact hledger.of_eq (by rw [hc]) (by rw [hc])
  grows := by
    have hgrows := hgrows.trans h.grows
    rw [hc]
    exact ⟨hgrows.get?, hgrows.resolved, hgrows.next⟩
  parts := by
    rw [hc, h.parts, honly]

theorem mapComponent_succeeds (h : Ledger dims uses used state) {descriptor : ElementDescriptor}
    {element : FiniteElement} (helement : ElementDescriptor.reference descriptor = .ok element)
    {key : ComponentKey} {component : IndexHandle} (hkey : state.Resolves key component)
    (hfresh : ∀ v, key = .fixed v → component ∉ used) :
    (state.mapComponent element restriction component).Succeeds (element.Maps dims key)
      fun result => ∃ stay entries, [result.1] = stay ++ entries.map (·.reference) ∧
        Attached dims uses used element.geometricDimension restriction state
          (descriptor.stays dims key) (descriptor.pullback dims key) stay entries result.2 := by
  obtain ⟨index, hget, hrange⟩ := h.range_eq hkey
  have hindex : (liftM (state.arena.get component) : Attempt TransformError MonomialIndex) =
      .ok index := liftM_eq_ok.2 (Checked.get_eq_ok_iff.2 hget)
  rw [Transformation.mapComponent, hindex]
  change Attempt.Succeeds (Transformation.commonMapping element index.range >>= _) _ _
  rw [hrange]
  refine .of_bind fun p hp => ?_
  have hpullback := ElementDescriptor.pullback_eq helement hp
  rw [ElementDescriptor.stays, hpullback]
  obtain ⟨mapping, offset⟩ := p
  -- Both Piola maps put an index in the place of the component and link it by an entry.
  have hlinked : ∀ kind row column, kind.Orders state.arena.next component row column →
      ∀ image, (liftM ((MonomialIndex.unclassified
          (List.range element.geometricDimension)).raise offset) :
          Attempt TransformError MonomialIndex) = .ok image →
        ((state.insert image).2.link row column kind restriction offset).Succeeds
          (key.Reaches offset) fun next => ∃ t, Linked dims uses (used ++ [state.arena.next])
            element.geometricDimension restriction (state.insert image).2 ⟨kind, key, offset⟩
            state.arena.next t next := by
    intro kind row column hends image hraise
    obtain rfl := raise_eq (liftM_eq_ok.1 hraise)
    exact link_succeeds (h.insertUsed _) ⟨kind, key, offset⟩ hends
      (IndexArena.get?_insert_next _ _) (hkey.mono (grows_insert state _))
  have hvalid : mapping ≠ .affine → ((∃ image, (liftM ((MonomialIndex.unclassified
          (List.range element.geometricDimension)).raise offset) :
          Attempt TransformError MonomialIndex) = .ok image ∧ key.Reaches offset) ↔
      (mapping ≠ .affine → (∃ image, (MonomialIndex.unclassified
          (List.range element.geometricDimension)).raise offset = .ok image) ∧
        key.Reaches offset)) := fun hne => by simp [hne]
  cases mapping with
  | affine =>
      refine (Attempt.Succeeds.pure ⟨[component], [], rfl, ?_⟩).congr
        (iff_of_true trivial fun hne => absurd rfl hne)
      refine ⟨.cons hkey .nil, .nil, ?_, .refl state, ?_⟩
      · simpa [literals, linkHandles, ComponentElement.links] using h.useLiteral hkey hfresh
      · simp [ComponentElement.links]
  | contravariantPiola =>
      refine (Attempt.Succeeds.of_bind fun image hraise => ?_).congr (hvalid (by decide))
      have hlink := hlinked .jacobian component state.arena.next ⟨rfl, rfl⟩ image hraise
      refine hlink.bindFree ?_
      rintro next ⟨t, hnext⟩
      exact .pure ⟨[], [t], congrArg (fun k => [k]) hnext.reference.symm,
        hnext.attached (grows_insert state image) rfl rfl⟩
  | covariantPiola =>
      refine (Attempt.Succeeds.of_bind fun image hraise => ?_).congr (hvalid (by decide))
      have hlink := hlinked .inverse state.arena.next component ⟨rfl, rfl⟩ image hraise
      refine hlink.bindFree ?_
      rintro next ⟨t, hnext⟩
      exact .pure ⟨[], [t], congrArg (fun k => [k]) hnext.reference.symm,
        hnext.attached (grows_insert state image) rfl (by simp)⟩

/-! ## Derivatives -/

/-- Every derivative is an entry of the inverse. -/
def gradients (keys : List ComponentKey) : List Link := keys.map (⟨.inverse, ·, 0⟩)

/-- A derivative inserts a reference direction and links it to the direction of the key. -/
theorem direction_succeeds (h : Ledger dims uses used a) {key : ComponentKey}
    (hfirst : FirstMet dims uses (freeUses dimension [key])) :
    let start := (a.insert (.unclassified (List.range dimension))).2
    let direction := start.resolveDirection dimension key
    (direction.2.link a.arena.next direction.1 .inverse restriction 0).Succeeds True fun next =>
      ∃ t, t.reference = a.arena.next ∧ Attached dims (uses ++ freeUses dimension [key]) used
        dimension restriction a [] [⟨.inverse, key, 0⟩] [] [t] next := by
  intro start direction
  have hstart := grows_insert a (.unclassified (List.range dimension))
  have hdirection : Resolution dims uses (used ++ [a.arena.next]) start dimension key direction :=
    (h.insertUsed _).resolveDirection hfirst
  have hreference : direction.2.arena.get? a.arena.next =
      some (.unclassified ((List.range dimension).map (· + 0))) := by
    simp only [Nat.add_zero, List.map_id_fun', id_eq]
    exact hdirection.grows.get? _ _ (IndexArena.get?_insert_next _ _)
  refine ((link_succeeds hdirection.ledger ⟨.inverse, key, 0⟩ ⟨rfl, rfl⟩ hreference
    hdirection.resolves).congr (iff_of_true (fun _ _ => Nat.zero_le _) trivial)).mono ?_
  rintro next ⟨t, hnext⟩
  refine ⟨t, hnext.reference, hnext.attached (hstart.trans hdirection.grows) ?_ (by simp)⟩
  exact hdirection.only

theorem addDerivatives_succeeds (keys : List ComponentKey) : ∀ {uses used a},
    Ledger dims uses used a → FirstMet dims uses (freeUses dimension keys) →
      (a.addDerivatives dimension restriction keys).Succeeds True fun result => ∃ entries,
        result.1 = entries.map (·.reference) ∧
          Attached dims (uses ++ freeUses dimension keys) used dimension restriction a []
            (gradients keys) [] entries result.2 := by
  induction keys with
  | nil =>
      intro uses used a h _
      refine .pure ⟨[], rfl, .nil, .nil, ?_, .refl a, ?_⟩
      · simpa [literals, linkHandles, freeUses] using h
      · simp [gradients]
  | cons key keys ih =>
      intro uses used a h hfirst
      have hsplit : freeUses dimension (key :: keys) =
          freeUses dimension [key] ++ freeUses dimension keys := by
        rw [freeUses, ← List.singleton_append, List.filterMap_append]
        rfl
      rw [hsplit] at hfirst ⊢
      rw [Transformation.addDerivatives, ← List.append_assoc]
      refine (direction_succeeds h hfirst.left).bindFree ?_
      rintro mid ⟨t, ht, hmid⟩
      refine (ih hmid.ledger hfirst.right).bindFree ?_
      rintro ⟨_, last⟩ ⟨entries, rfl, hlast⟩
      exact .pure ⟨t :: entries, by rw [List.map_cons, ht], hmid.append hlast⟩

end ElementKernel
