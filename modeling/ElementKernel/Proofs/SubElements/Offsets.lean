import ElementKernel.Proofs.Roles.Factors
import ElementKernel.Proofs.SubElements.Components

/-!
# Offsets of fixed components

A fixed component under a Piola map is made local to its sub-element: the offset of the sub-element
is taken away from its value.  As no sub-element starts behind one of its components, the value is
large enough, and a transformation never fails for an offset (`RawMonomial.transform_offset`).
Steps may still fault here, so nothing has to be known about the sizes or the handles of a monomial.
-/

namespace ElementKernel

/-- An error other than that of a component in front of its sub-element. -/
def TransformError.NotOffset : TransformError → Prop
  | .invalidOffset .. => False
  | _ => True

/-- A fixed index does not lie in front of the offset. -/
def MonomialIndex.Reaches (index : MonomialIndex) (offset : Nat) : Prop :=
  index.isFixed → ∀ v, index.value = .ok v → offset ≤ v

/-- No sub-element starts behind one of its components. -/
def FiniteElement.StartsBefore (element : FiniteElement) : Prop :=
  ∀ c p, element.component c = .ok (some p) → p.offset ≤ c

namespace IndexArena

/-- Indices of a smaller arena are the same in a larger one. -/
def Within (small large : IndexArena) : Prop :=
  ∀ k index, small.get? k = some index → large.get? k = some index

theorem Within.refl (arena : IndexArena) : arena.Within arena := fun _ _ h => h

theorem Within.trans {a b c : IndexArena} (h : a.Within b) (h' : b.Within c) : a.Within c :=
  fun k index hk => h' k index (h k index hk)

theorem within_insert (arena : IndexArena) (index : MonomialIndex) :
    arena.Within (arena.insert index) := fun _ _ h => get?_insert h index

/-- Whatever a handle stands for, now or in a larger arena, does not lie in front of the offset. -/
def Reaches (arena : IndexArena) (handle : IndexHandle) (offset : Nat) : Prop :=
  ∀ larger, arena.Within larger → ∀ index, larger.get? handle = some index → index.Reaches offset

theorem reaches_zero (arena : IndexArena) (handle : IndexHandle) : arena.Reaches handle 0 :=
  fun _ _ _ _ _ v _ => Nat.zero_le v

theorem Reaches.within {arena larger : IndexArena} {handle : IndexHandle} {offset : Nat}
    (h : arena.Reaches handle offset) (hwithin : arena.Within larger) :
    larger.Reaches handle offset := fun last hlast => h last (hwithin.trans hlast)

theorem reaches_of_get? {arena : IndexArena} {handle : IndexHandle} {index : MonomialIndex}
    {offset : Nat} (hget : arena.get? handle = some index) (h : index.Reaches offset) :
    arena.Reaches handle offset := by
  intro larger hwithin found hfound
  obtain rfl := Option.some.inj ((hwithin handle index hget).symm.trans hfound)
  exact h

theorem get_yields {refused : TransformError → Prop} (arena : IndexArena) (handle : IndexHandle) :
    (liftM (arena.get handle) : Attempt TransformError MonomialIndex).Yields False refused
      fun index => arena.get? handle = some index :=
  .lift (fun _ h => Checked.get_eq_ok_iff.1 h) fun _ _ => id

end IndexArena

/-- A computation that may fault, but not report an error. -/
theorem Attempt.Yields.lift_trivial {ε α : Type} (refused : ε → Prop) (x : Checked α) :
    (liftM x : Attempt ε α).Yields False refused fun a => x = .ok a :=
  .lift (fun _ h => h) fun _ _ => id

/-! ## Steps -/

theorem localize_offset {arena : IndexArena} {handle : IndexHandle} {offset : Nat}
    (h : arena.Reaches handle offset) :
    (JacobianEntry.localize arena handle offset).Yields False TransformError.NotOffset
      fun result => arena.Within result.2 := by
  refine (arena.get_yields handle).bind fun index _ hget => ?_
  split
  next hfixed =>
    refine (Attempt.Yields.lift_trivial _ index.value).bind fun v _ hv => ?_
    have hreaches : offset ≤ v := h arena (.refl arena) index hget hfixed v hv
    rw [if_neg (Nat.not_lt.2 hreaches)]
    exact (Attempt.Yields.lift_trivial _ (index.lower offset)).bind fun lowered _ _ =>
      .pure (arena.within_insert lowered)
  next => exact .pure (.refl arena)

theorem link_offset (state : Transformation) {row column : IndexHandle} {offset : Nat}
    (hrow : state.arena.Reaches row offset) (hcolumn : state.arena.Reaches column offset)
    (kind : JacobianKind) (restriction : Option Restriction) :
    (state.link row column kind restriction offset).Yields False TransformError.NotOffset
      fun _ => True := by
  rw [Transformation.link_eq]
  refine (localize_offset hrow).bind ?_
  rintro ⟨row', arena⟩ - hwithin
  refine (localize_offset (hcolumn.within hwithin)).bind fun _ _ _ => ?_
  exact .pure trivial

/-- The offset of a component is that of its first value, which no sub-element starts behind. -/
theorem mapComponent_offset (state : Transformation) {element : FiniteElement}
    (h : element.StartsBefore) (restriction : Option Restriction) (component : IndexHandle) :
    (state.mapComponent element restriction component).Yields False TransformError.NotOffset
      fun _ => True := by
  rw [Transformation.mapComponent]
  refine (state.arena.get_yields component).bind fun index _ hget => ?_
  refine (commonMapping_yields index.range False.elim (fun _ _ => trivial)
    fun _ => trivial).bind ?_
  rintro ⟨mapping, offset⟩ - hp
  have hreaches : mapping ≠ .affine → index.Reaches offset := fun hmapping _ v hv => by
    obtain ⟨c, hc, hplaced⟩ := hp.resolve_left hmapping
    obtain rfl := Option.some.inj (hc.symm.trans (Checked.get_eq_ok_iff.1 hv))
    exact h c _ hplaced
  have himage := Attempt.Yields.lift_trivial TransformError.NotOffset
    ((MonomialIndex.unclassified (List.range element.geometricDimension)).raise offset)
  -- Both ends of the entry reach the offset, the new one as it has no role.
  have hends : mapping ≠ .affine → ∀ image : MonomialIndex,
      (MonomialIndex.unclassified (List.range element.geometricDimension)).raise offset =
        .ok image →
      (state.arena.insert image).Reaches component offset ∧
        (state.arena.insert image).Reaches state.arena.next offset := by
    intro hmapping image hraise
    have hcomponent := IndexArena.get?_insert hget image
    have hreference := IndexArena.get?_insert_next state.arena image
    obtain rfl := raise_eq hraise
    exact ⟨IndexArena.reaches_of_get? hcomponent (hreaches hmapping),
      IndexArena.reaches_of_get? hreference fun hfixed => absurd hfixed Bool.false_ne_true⟩
  cases mapping with
  | affine => exact .pure trivial
  | contravariantPiola =>
      refine himage.bind fun image _ hraise => ?_
      obtain ⟨hcomponent, hreference⟩ := hends (by simp) image hraise
      exact (link_offset (state.insert image).2 hcomponent hreference _ _).bind
        fun _ _ _ => .pure trivial
  | covariantPiola =>
      refine himage.bind fun image _ hraise => ?_
      obtain ⟨hcomponent, hreference⟩ := hends (by simp) image hraise
      exact (link_offset (state.insert image).2 hreference hcomponent _ _).bind
        fun _ _ _ => .pure trivial

theorem addDerivatives_offset (dimension : Nat) (restriction : Option Restriction)
    (keys : List ComponentKey) (state : Transformation) :
    (state.addDerivatives dimension restriction keys).Yields False TransformError.NotOffset
      fun _ => True := by
  induction keys generalizing state with
  | nil => exact .pure trivial
  | cons key keys ih =>
      rw [Transformation.addDerivatives]
      refine (link_offset _ (IndexArena.reaches_zero _ _) (IndexArena.reaches_zero _ _) _ _).bind
        fun next _ _ => ?_
      exact (ih next).bind fun _ _ _ => .pure trivial

theorem addFactor_offset {provider : ElementProvider}
    (h : ∀ descriptor element, provider descriptor = .ok element → element.StartsBefore)
    (state : Transformation) (factor : MonomialFactor) :
    (state.addFactor provider factor).Yields False TransformError.NotOffset fun _ => True := by
  rw [Transformation.addFactor_eq]
  have hprovided : (provider factor.element).Yields False (fun _ => True)
      fun element => provider factor.element = .ok element :=
    ⟨fun _ h => h, fun _ _ => id, fun _ _ => trivial⟩
  refine (hprovided.mapError fun _ _ => trivial).bind fun element _ helement => ?_
  have hplaced : ∀ start : Transformation,
      (start.placeComponents element factor.restriction factor.components).Yields False
        TransformError.NotOffset fun _ => True := fun start => by
    unfold Transformation.placeComponents
    split
    · exact .pure trivial
    · exact (mapComponent_offset _ (h _ _ helement) _ _).bind fun _ _ _ => .pure trivial
    · exact .reject trivial
  refine (hplaced _).bind fun placed _ _ => ?_
  exact (addDerivatives_offset _ _ _ _).bind fun _ _ _ => .pure trivial

/-! ## Classification -/

namespace Classification

theorem visit_offset (internal external : List IndexHandle) (state : Classification)
    (handle : IndexHandle) :
    (state.visit internal external handle).Yields False TransformError.NotOffset
      fun _ => True := by
  refine (state.arena.get_yields handle).bind fun index _ _ => ?_
  split
  · exact .pure trivial
  · refine Attempt.Yields.bind (?_ : Attempt.Yields _ _ _ fun _ => True) fun role _ _ => ?_
    · cases IndexRole.ofOccurrences (internal.count handle) (external.count handle) with
      | none => exact .reject trivial
      | some role => exact .pure trivial
    · exact (Attempt.Yields.lift_trivial _ (state.counters.next role)).bind fun _ _ _ => .pure trivial

theorem visitAll_offset (internal external : List IndexHandle) (handles : List IndexHandle)
    (state : Classification) :
    (visitAll internal external handles state).2.Yields False TransformError.NotOffset
      fun _ => True := by
  induction handles generalizing state with
  | nil => exact .pure trivial
  | cons handle handles ih =>
      have hvisit := visit_offset internal external state handle
      rw [visitAll]
      cases hcase : state.visit internal external handle with
      | ok next => exact ih next
      | error failure =>
          rw [hcase] at hvisit
          exact ⟨fun _ h => (nomatch h), fun f h => hvisit.fault f (by cases h; rfl),
            fun e h => hvisit.error e (by cases h; rfl)⟩

end Classification

/-- No fixed component lies in front of its sub-element, if the elements of the provider start their
sub-elements at one of their components. -/
theorem RawMonomial.transform_offset {provider : ElementProvider}
    (h : ∀ descriptor element, provider descriptor = .ok element → element.StartsBefore)
    (monomial : RawMonomial) :
    (monomial.transform provider).Yields False TransformError.NotOffset fun _ => True := by
  refine (Attempt.Yields.foldlM (fun _ _ => True) [] (fun _ state factor _ _ =>
    addFactor_offset h state factor) trivial).bind fun state _ _ => ?_
  exact (Classification.visitAll_offset _ _ _ _).bind fun _ _ _ => .pure trivial

/-! ## Structure of accepted elements -/

/-- An accepted element lies on the cell of its description, its components are grouped by its
sub-elements, and a mixed element joins its parts.  So no monomial over accepted elements has a
fixed component in front of its sub-element. -/
theorem ElementDescriptor.reference_subElements :
    (∀ descriptor element, reference descriptor = .ok element →
      descriptor.cell? = some element.cell ∧ element.IsGrouped ∧
      ∀ elements, descriptor = .mixed elements → ∃ parts,
        List.Forall₂ (fun part result => reference part = .ok result) elements parts ∧
          element.Joins parts) ∧
    ∀ (monomial : RawMonomial) (component offset : Nat),
      monomial.transform reference ≠ .error (.error (.invalidOffset component offset)) := by
  refine ⟨fun descriptor element h => ⟨?_, reference_isGrouped h, ?_⟩,
    fun monomial component offset herror => ?_⟩
  · obtain ⟨info, hinfo, rfl⟩ := reference_eq_ok.1 h
    exact (info_describes descriptor hinfo).cell
  · rintro elements rfl
    exact reference_joins h
  · have hstart : ∀ descriptor element, reference descriptor = .ok element →
        element.StartsBefore := fun _ _ h c p hp => ((reference_isGrouped h).start c p hp).1
    exact (monomial.transform_offset hstart).error _ herror

/-- Two copies of a mixed element of one component, whose other part has none, stand in front of a
Piola mapped element.  The second component of the latter is the fourth of all. -/
theorem ElementDescriptor.reference_subElements_nested :
    let copied := .mixed [.vector (.real .triangle) (some 0), .lagrange .triangle 1]
    let descriptor := .mixed [.vector copied (some 2), .mixed [.raviartThomas .triangle 1]]
    let monomial : RawMonomial := ⟨1, [⟨descriptor, .argument 0, [.fixed 3], [], none⟩]⟩
    ∃ element, reference descriptor = .ok element ∧
      element.component 3 = .ok (some ⟨.contravariantPiola, 2⟩) ∧
      (descriptor.cell? = some element.cell ∧ element.IsGrouped ∧ ∃ parts,
        List.Forall₂ (fun part result => reference part = .ok result)
            [.vector copied (some 2), .mixed [.raviartThomas .triangle 1]] parts ∧
          element.Joins parts) ∧
      monomial.transform reference ≠ .error (.error (.invalidOffset 3 2)) := by
  intro copied descriptor monomial
  obtain ⟨element, helement⟩ : ∃ element, reference descriptor = .ok element := ⟨_, rfl⟩
  have hcomponent : element.component 3 = .ok (some ⟨.contravariantPiola, 2⟩) := by
    obtain rfl := Except.ok.inj helement
    rfl
  obtain ⟨hcell, hgrouped, hjoins⟩ := reference_subElements.1 descriptor element helement
  exact ⟨element, helement, hcomponent, ⟨hcell, hgrouped, hjoins _ rfl⟩,
    reference_subElements.2 monomial 3 2⟩

end ElementKernel
