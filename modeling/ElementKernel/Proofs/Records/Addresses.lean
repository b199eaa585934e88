import ElementKernel.Proofs.Records.Runs
import ElementKernel.Proofs.SubElements.Components
import Mathlib.Data.List.Pairwise

/-!
# Entries of the Jacobian

The entries that a transformation introduces select rows and columns of the Jacobian or its inverse,
as long as the keys that select them stay within the dimension of the cell.  Components of one
sub-element do so by the description of their element; the directions of derivatives and the ranges
of free keys are not checked.
-/

namespace ElementKernel

/-! ## Sub-elements -/

namespace ElementDescriptor

/-- In an accepted element a Piola mapped component lies in its sub-element. -/
theorem placement_located {descriptor : ElementDescriptor} {element : FiniteElement}
    (h : reference descriptor = .ok element) {c : Nat} {p : ComponentElement}
    (hp : descriptor.placement c = some p) (hmapping : p.mapping ≠ .affine) :
    p.offset ≤ c ∧ c < p.offset + element.geometricDimension := by
  have hcomponent := (reference_component h c).trans (congrArg Except.ok hp)
  exact ((reference_isGrouped h).piola c p hcomponent hmapping c).1 ⟨p, hcomponent, rfl⟩

end ElementDescriptor

/-! ## Links -/

variable {dims : Nat → Nat} {dimension : Nat}

/-- The key of the link selects rows or columns that exist in the sub-element. -/
def Link.Fits (dims : Nat → Nat) (dimension : Nat) (link : Link) : Prop :=
  match link.key with
  | .fixed v => link.offset ≤ v ∧ v < link.offset + dimension
  | .free number => link.offset = 0 ∧ dims number ≤ dimension

/-- The link of a component starts where its first value does, which a Piola map applies to. -/
theorem ElementDescriptor.mem_pullback {element : ElementDescriptor} {key : ComponentKey}
    {link : Link} (h : link ∈ element.pullback dims key) :
    ∃ c p, (key.values dims).head? = some c ∧ element.placement c = some p ∧
      p.mapping ≠ .affine ∧ link.key = key ∧ link.offset = p.offset := by
  unfold pullback at h
  cases hhead : (key.values dims).head? with
  | none => simp [hhead] at h
  | some c =>
      cases hp : element.placement c with
      | none => simp [hhead, hp] at h
      | some p =>
          rw [hhead, Option.bind_some, hp, Option.map_some, Option.getD_some] at h
          obtain ⟨mapping, offset⟩ := p
          cases mapping with
          | affine => cases h
          | contravariantPiola =>
              obtain rfl := List.mem_singleton.1 h
              exact ⟨c, _, rfl, hp, by simp, rfl, rfl⟩
          | covariantPiola =>
              obtain rfl := List.mem_singleton.1 h
              exact ⟨c, _, rfl, hp, by simp, rfl, rfl⟩

namespace MonomialFactor

/-- A Piola map applies to some value of the component. -/
def HasPiolaComponent (dims : Nat → Nat) (factor : MonomialFactor) : Prop :=
  ∃ key ∈ factor.components, ∃ c ∈ key.values dims, ∃ p,
    factor.element.placement c = some p ∧ p.mapping ≠ .affine

/-- The keys of a factor that select entries of the Jacobian stay below its dimension: the fixed
directions, and the free keys that are directions or Piola mapped components. -/
structure StaysOnCell (dims : Nat → Nat) (factor : MonomialFactor) : Prop where
  fixed : ∀ v, .fixed v ∈ factor.derivatives → v < factor.dimension
  direction : ∀ number, .free number ∈ factor.derivatives → dims number ≤ factor.dimension
  component : factor.HasPiolaComponent dims →
    ∀ number, .free number ∈ factor.components → dims number ≤ factor.dimension

theorem Admissible.links_fit {factor : MonomialFactor} (h : factor.Admissible dims)
    (hcell : factor.StaysOnCell dims) :
    ∀ link ∈ factor.links dims, link.Fits dims factor.dimension := by
  obtain ⟨element, helement, -, -⟩ := h
  have hdimension := (ElementDescriptor.reference_dimensions helement).2
  intro link hlink
  obtain hlink | hlink := List.mem_append.1 hlink
  · obtain ⟨key, hkey, hlink⟩ := List.mem_flatMap.1 hlink
    obtain ⟨c, p, hhead, hp, hmapping, rfl, hoffset⟩ := ElementDescriptor.mem_pullback hlink
    have hlocated := ElementDescriptor.placement_located helement hp hmapping
    rw [hdimension] at hlocated
    have hvalue := List.mem_of_mem_head? (Option.mem_def.2 hhead)
    have hpiola : factor.HasPiolaComponent dims := ⟨_, hkey, c, hvalue, p, hp, hmapping⟩
    unfold Link.Fits
    cases hlinkKey : link.key with
    | fixed v =>
        rw [hlinkKey] at hvalue
        obtain rfl := List.mem_singleton.1 hvalue
        rw [hoffset]
        exact hlocated
    | free number =>
        -- The first value of a free key is zero, so its sub-element is the first one.
        have hzero : c = 0 := by
          rw [hlinkKey, ComponentKey.values, List.head?_range] at hhead
          split at hhead
          · cases hhead
          · exact (Option.some.inj hhead).symm
        exact ⟨by omega, hcell.component hpiola number (hlinkKey ▸ hkey)⟩
  · obtain ⟨key, hkey, rfl⟩ := List.mem_map.1 hlink
    cases key with
    | fixed v => exact ⟨Nat.zero_le v, by simpa using hcell.fixed v hkey⟩
    | free number => exact ⟨rfl, hcell.direction number hkey⟩

end MonomialFactor

/-! ## Entries -/

/-- The ends of the entry exist on a cell of the given dimension, for every value of their
indices. -/
def JacobianEntry.Addresses (arena : IndexArena) (dimension : Nat) (t : JacobianEntry) : Prop :=
  ∀ handle, handle = t.row ∨ handle = t.column → ∃ index, arena.get? handle = some index ∧
    if index.isFixed then ∃ v, index.range = [v] ∧ v < dimension
    else ∀ v ∈ index.range, t.offset ≤ v ∧ v < t.offset + dimension

/-- The reference end of the entry is an index of the basis function. -/
def JacobianEntry.BelongsTo (t : JacobianEntry) (v : BasisFunction) : Prop :=
  t.reference ∈ v.components ++ v.derivatives

theorem JacobianEntry.eq_reference_or_physical {t : JacobianEntry} {handle : IndexHandle}
    (h : handle = t.row ∨ handle = t.column) : handle = t.reference ∨ handle = t.physical := by
  unfold reference physical
  cases t.kind
  · exact h.symm
  · exact h

/-- The entry of a fitting link addresses what exists, also after classification. -/
theorem Link.Makes.addresses {restriction : Option Restriction} {uses : List (Nat × Nat)}
    {used : List IndexHandle} {state : Transformation} {classified : Classification} {link : Link}
    {t : JacobianEntry} (h : link.Makes dimension restriction state t)
    (hledger : Ledger dims uses used state) (hvisited : state.VisitedAll classified)
    (hfits : link.Fits dims dimension) : t.Addresses classified.arena dimension := by
  have hsummed : ∀ range, (MonomialIndex.unclassified range).isFixed = false := fun _ => rfl
  intro handle hhandle
  obtain rfl | rfl := t.eq_reference_or_physical hhandle
  · obtain ⟨found, hfound, hrange, hfixed⟩ := hvisited.get?_of_get? h.reference
    refine ⟨found, hfound, ?_⟩
    rw [hfixed, hsummed, if_neg Bool.false_ne_true, hrange, h.offset]
    intro v hv
    obtain ⟨j, hj, rfl⟩ := List.mem_map.1 hv
    have hj := List.mem_range.1 hj
    omega
  · unfold Link.Fits at hfits
    have hphysical := h.physical
    cases hkey : link.key with
    | fixed v =>
        rw [hkey] at hfits hphysical
        obtain ⟨index, hget, hrole, hindex⟩ := hphysical
        obtain ⟨found, hfound, hrange, hfixed⟩ := hvisited.get?_of_get? hget
        refine ⟨found, hfound, ?_⟩
        rw [hfixed, hrange, hindex, if_pos (by simp [MonomialIndex.isFixed, hrole])]
        dsimp only at hfits
        exact ⟨_, rfl, by omega⟩
    | free number =>
        rw [hkey] at hfits hphysical
        obtain ⟨found, hfound, hrange, hfixed⟩ := hvisited.get?_of_get? (hledger.free _ hphysical)
        refine ⟨found, hfound, ?_⟩
        rw [hfixed, hsummed, if_neg Bool.false_ne_true, hrange, h.offset]
        intro v hv
        have hv := List.mem_range.1 hv
        dsimp only at hfits hv
        omega

/-! ## Records -/

namespace FactorRecord.Holds

variable {state : Transformation} {record : FactorRecord}

/-- The components and directions of a basis function are the factor's own or belong to a key. -/
theorem handle_mem (h : record.Holds dims state) {handle : IndexHandle}
    (hmem : handle ∈ record.basisFunction.components ++ record.basisFunction.derivatives) :
    handle ∈ record.ownHandles dims ∨ handle ∈ state.resolved.map Prod.snd := by
  rw [h.handles] at hmem
  obtain hmem | hmem := List.mem_append.1 hmem
  · obtain ⟨key, hzip⟩ := exists_zip_of_mem h.stays.length_eq hmem
    have hresolves := (List.forall₂_iff_zip.1 h.stays).2 hzip
    cases key with
    | fixed v =>
        refine Or.inl (List.mem_cons_of_mem _ (List.mem_append_left _ ?_))
        exact List.mem_flatMap.2 ⟨_, hzip, List.mem_singleton_self _⟩
    | free number => exact Or.inr (List.mem_map.2 ⟨_, hresolves, rfl⟩)
  · obtain ⟨t, ht, rfl⟩ := List.mem_map.1 hmem
    exact Or.inl (h.reference_mem ht)

theorem belongs (h : record.Holds dims state) {t : JacobianEntry} (ht : t ∈ record.entries) :
    t.BelongsTo record.basisFunction := by
  rw [JacobianEntry.BelongsTo, h.handles]
  exact List.mem_append_right _ (List.mem_map_of_mem ht)

end FactorRecord.Holds

namespace Account

variable {state : Transformation} {records : List FactorRecord}

/-- A handle that a factor uses alone is not used by another one. -/
theorem eq_of_mem_ownHandles (h : Account dims records state) {a b : FactorRecord}
    (ha : a ∈ records) (hb : b ∈ records) {handle : IndexHandle}
    (hleft : handle ∈ a.ownHandles dims) (hright : handle ∈ b.ownHandles dims) : a = b := by
  by_contra hne
  have hown := (List.nodup_append.1 h.ledger.nodup).1
  have : Std.Symm (Function.onFun List.Disjoint (FactorRecord.ownHandles dims)) :=
    ⟨fun _ _ hdisjoint _ hb ha => hdisjoint ha hb⟩
  exact (List.nodup_flatMap.1 hown).2.forall ha hb hne hleft hright

/-- The entries that belong to the basis function of a factor are those of the factor. -/
theorem eq_of_belongs (h : Account dims records state) {a b : FactorRecord} (ha : a ∈ records)
    (hb : b ∈ records) {t : JacobianEntry} (ht : t ∈ a.entries)
    (hbelongs : t.BelongsTo b.basisFunction) : a = b := by
  have hown := (h.holds a ha).reference_mem ht
  obtain hmem | hmem := (h.holds b hb).handle_mem hbelongs
  · exact h.eq_of_mem_ownHandles ha hb hown hmem
  · exact absurd hmem (h.own_notMem ha hown)

end Account

namespace RawMonomial

/-- Every entry of the Jacobian or its inverse belongs to a factor, and selects a row and a column
that exist on the cell of the factor for every value of its indices, if the keys of the factors stay
on their cells. -/
theorem transform_addresses {monomial : RawMonomial} {m : TransformedMonomial}
    (h : monomial.transform ElementDescriptor.reference = .ok m)
    (hcells : ∀ factor ∈ monomial.factors, factor.StaysOnCell monomial.dimensions) :
    List.Forall₂ (fun factor v => ElementDescriptor.reference factor.element = .ok v.element)
        monomial.factors m.basisFunctions ∧
      ∀ t ∈ m.transforms, (∃ v ∈ m.basisFunctions, t.BelongsTo v) ∧
        ∀ v ∈ m.basisFunctions, t.BelongsTo v →
          t.Addresses m.arena v.element.geometricDimension := by
  obtain ⟨records, state, classified, run⟩ := exists_run h
  have haccount := run.account
  rw [run.result]
  dsimp only
  rw [haccount.basisFunctions, haccount.transforms, ← run.factors]
  refine ⟨?_, fun t ht => ?_⟩
  · rw [List.forall₂_map_left_iff, List.forall₂_map_right_iff, List.forall₂_same]
    exact fun record hrecord => (haccount.holds record hrecord).element
  · obtain ⟨record, hrecord, ht⟩ := List.mem_flatMap.1 ht
    have hholds := haccount.holds record hrecord
    have hfactor : record.factor ∈ monomial.factors :=
      run.factors ▸ List.mem_map_of_mem hrecord
    refine ⟨⟨_, List.mem_map_of_mem hrecord, hholds.belongs ht⟩, fun v hv hbelongs => ?_⟩
    obtain ⟨other, hother, rfl⟩ := List.mem_map.1 hv
    obtain rfl := haccount.eq_of_belongs hrecord hother ht hbelongs
    obtain ⟨link, hlink, hmakes⟩ := exists_of_forall₂_right hholds.makes ht
    rw [(ElementDescriptor.reference_dimensions hholds.element).2]
    exact hmakes.addresses haccount.ledger run.visited
      ((run.admissible _ hfactor).links_fit (hcells _ hfactor) link hlink)

/-- A flux along the gradient of a coefficient function. -/
def advection : RawMonomial := ⟨1, [
  ⟨.raviartThomas .triangle 1, .argument 0, [.free 0], [], none⟩,
  ⟨.lagrange .triangle 1, .coefficient 0, [], [.free 0], none⟩]⟩

theorem transform_addresses_advection : ∃ m,
    advection.transform ElementDescriptor.reference = .ok m ∧
      ∀ t ∈ m.transforms, (∃ v ∈ m.basisFunctions, t.BelongsTo v) ∧
        ∀ v ∈ m.basisFunctions, t.BelongsTo v →
          t.Addresses m.arena v.element.geometricDimension := by
  have hok := eq_ok_get (x := advection.transform ElementDescriptor.reference)
    (by decide +kernel)
  have hzero : advection.dimensions 0 = 2 := by decide +kernel
  have hcells : ∀ factor ∈ advection.factors, factor.StaysOnCell advection.dimensions := by
    rintro factor (_ | ⟨_, _ | ⟨_, hmem⟩⟩)
    · refine ⟨fun v hv => (List.not_mem_nil hv).elim, fun n hn => (List.not_mem_nil hn).elim,
        fun _ n hn => ?_⟩
      obtain rfl : n = 0 := by simpa using hn
      exact hzero.le
    · refine ⟨fun v hv => absurd hv (by simp), fun n hn => ?_,
        fun _ n hn => (List.not_mem_nil hn).elim⟩
      obtain rfl : n = 0 := by simpa using hn
      exact hzero.le
    · cases hmem
  exact ⟨_, hok, (transform_addresses hok hcells).2⟩

/-- The product of two pairs of Raviart-Thomas functions, summed over the components of both. -/
def massOfFluxPairs : RawMonomial := ⟨1, [
  ⟨.mixed [.raviartThomas .triangle 1, .raviartThomas .triangle 1], .argument 0, [.free 0], [],
    none⟩,
  ⟨.mixed [.raviartThomas .triangle 1, .raviartThomas .triangle 1], .argument 1, [.free 0], [],
    none⟩]⟩

/-- Over the components of both fluxes the row of an entry leaves the Jacobian. -/
theorem not_transform_addresses : ¬∀ (monomial : RawMonomial) (m : TransformedMonomial),
    monomial.transform ElementDescriptor.reference = .ok m → ∀ t ∈ m.transforms,
      ∀ v ∈ m.basisFunctions, t.BelongsTo v →
        t.Addresses m.arena v.element.geometricDimension := by
  intro h
  obtain ⟨m, hm, hentry⟩ := exists_eq_ok_of_any
    (x := massOfFluxPairs.transform ElementDescriptor.reference)
    (p := fun m => m.transforms.any fun t => m.basisFunctions.any fun v =>
      t.reference ∈ v.components ++ v.derivatives ∧ v.element.geometricDimension = 2 ∧
        m.arena.get? t.row = some ⟨some .external, [0, 1, 2, 3], some 0⟩) (by decide +kernel)
  obtain ⟨t, ht, hentry⟩ := List.any_eq_true.1 hentry
  obtain ⟨v, hv, hentry⟩ := List.any_eq_true.1 hentry
  obtain ⟨hbelongs, hdimension, hrow⟩ := of_decide_eq_true hentry
  obtain ⟨index, hget, hindex⟩ := h _ m hm t ht v hv hbelongs t.row (Or.inl rfl)
  obtain rfl := Option.some.inj (hget.symm.trans hrow)
  have hbound := (hindex 3 (by decide)).2
  have hfirst := (hindex 0 (by decide)).1
  omega

end RawMonomial

end ElementKernel
