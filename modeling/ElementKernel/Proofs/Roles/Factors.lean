import ElementKernel.Proofs.Pullback.Factors
import ElementKernel.Proofs.Roles.Balance

/-!
# Occurrences of the factors

Every step of the transformation keeps the account of occurrences, or reports an error of the factor.
It faults only when an element or the sizes of the factor do.
-/

namespace ElementKernel

/-- An error that a single factor causes. -/
def TransformError.OfFactor : TransformError → Prop
  | .contraction .. => False
  | _ => True

/-- The element of a factor is provided without a fault, and the components that its sub-elements
cover are machine words. -/
structure MonomialFactor.Fits (factor : MonomialFactor) (provider : ElementProvider) : Prop where
  provided : ∀ f, provider factor.element ≠ .error (.fault f)
  component : ∀ element, provider factor.element = .ok element →
    ∀ c f, element.component c ≠ .error f
  offset : ∀ element, provider factor.element = .ok element →
    ∀ c p, element.component c = .ok (some p) →
      p.offset + element.geometricDimension ≤ Word.limit

variable {arguments : Nat → Prop} {keys : List ComponentKey} {size : Nat}
  {pending : List IndexHandle} {state : Transformation} {fits : Prop}

/-! ## Recorded parts -/

namespace Transformation

theorem perm_coefficient (state : Transformation) (pending : List IndexHandle)
    (c : CoefficientValue) :
    ({ state with coefficients := state.coefficients ++ [c] }.occurrences pending).Perm
      (state.occurrences (c.index :: pending)) := by
  refine List.perm_iff_count.2 fun k => ?_
  simp only [occurrences, footprint, externalOccurrences, List.map_append, List.map_singleton,
    List.count_append, List.count_cons, List.count_nil]
  omega

theorem perm_transform (state : Transformation) (pending : List IndexHandle)
    (t : JacobianEntry) :
    ({ state with transforms := state.transforms ++ [t] }.occurrences pending).Perm
      (state.occurrences (t.row :: t.column :: pending)) := by
  refine List.perm_iff_count.2 fun k => ?_
  simp only [occurrences, footprint, externalOccurrences, List.map_append, List.map_singleton,
    List.count_append, List.count_cons, List.count_nil]
  omega

theorem perm_basisFunction (state : Transformation) (pending : List IndexHandle)
    (v : BasisFunction) :
    ({ state with basisFunctions := state.basisFunctions ++ [v] }.occurrences pending).Perm
      (state.occurrences (v.handles ++ pending)) := by
  refine List.perm_iff_count.2 fun k => ?_
  simp only [occurrences, footprint, internalOccurrences, List.flatMap_append,
    List.flatMap_singleton, List.count_append]
  omega

end Transformation

/-! ## Entries of the Jacobian -/

/-- What making an endpoint local does: a fixed index may be exchanged for a new one, and an index
without role stays. -/
structure Localized (arena : IndexArena) (handle : IndexHandle)
    (result : IndexHandle × IndexArena) : Prop where
  grows : arena.next ≤ result.2.next
  below : result.1 < result.2.next
  old : ∀ k index, result.2.get? k = some index → index.role = none →
    arena.get? k = some index
  same : ∀ k index, arena.get? k = some index → index.role = none →
    (result.1 = k ↔ handle = k)

theorem localize_yields (h : Balanced arguments keys size pending state) {handle : IndexHandle}
    (hlt : handle < state.arena.next) (offset : Nat) :
    (JacobianEntry.localize state.arena handle offset).Yields fits TransformError.OfFactor
      fun result => Balanced arguments keys size pending { state with arena := result.2 } ∧
        Localized state.arena handle result := by
  obtain ⟨index, hget⟩ := IndexArena.exists_get? hlt
  have hindex : (liftM (state.arena.get handle) : Attempt TransformError MonomialIndex) =
      .ok index := liftM_eq_ok.2 (Checked.get_eq_ok_iff.2 hget)
  rw [JacobianEntry.localize, hindex]
  change Attempt.Yields (if index.isFixed then _ else _) _ _ _
  split
  next hfixed =>
    have hrole : index.role = some .fixed := by simpa [MonomialIndex.isFixed] using hfixed
    obtain ⟨v, hrange⟩ : ∃ v, index.range = [v] := by
      rcases h.initial handle index hget with hnone | ⟨-, hrange⟩ | ⟨n, hprimary, -⟩
      · simp [hrole] at hnone
      · exact hrange
      · simp [hrole] at hprimary
    have hvalue : (liftM index.value : Attempt TransformError Nat) = .ok v := by
      rw [MonomialIndex.value, hrange]
      rfl
    rw [hvalue]
    change Attempt.Yields (if v < offset then _ else _) _ _ _
    split
    next => exact .reject trivial
    next hle =>
      have hlow : (liftM (index.lower offset) : Attempt TransformError MonomialIndex) =
          .ok { index with range := [v - offset] } := by
        rw [MonomialIndex.lower, hrange, if_pos (by simpa using Nat.not_lt.1 hle)]
        rfl
      rw [hlow]
      refine .pure ⟨h.insertFixed (Or.inr (Or.inl ⟨hrole, _, rfl⟩)) (by simp [hrole]), ?_⟩
      refine ⟨by rw [IndexArena.next_insert]; exact Nat.le_succ _,
        by rw [IndexArena.next_insert]; exact Nat.lt_succ_self _, fun k other hk hnone => ?_,
        fun k other hk hnone => ?_⟩
      · obtain hold | ⟨-, rfl⟩ := IndexArena.get?_insert_cases hk
        · exact hold
        · simp [hrole] at hnone
      · have hhandle : handle ≠ k := by
          rintro rfl
          obtain rfl := Option.some.inj (hget.symm.trans hk)
          simp [hrole] at hnone
        exact iff_of_false (Nat.ne_of_lt (IndexArena.lt_next hk)).symm hhandle
  next =>
    have hsame : Localized state.arena handle (handle, state.arena) :=
      ⟨le_rfl, hlt, fun _ _ hk _ => hk, fun _ _ _ _ => Iff.rfl⟩
    exact .pure ⟨h, hsame⟩

theorem Transformation.link_eq (state : Transformation) (row column : IndexHandle)
    (kind : JacobianKind) (restriction : Option Restriction) (offset : Nat) :
    state.link row column kind restriction offset = do
      let (row, arena) ← JacobianEntry.localize state.arena row offset
      let (column, arena) ← JacobianEntry.localize arena column offset
      return { state with
        arena, transforms := state.transforms ++ [⟨row, column, kind, restriction, offset⟩] } := by
  rw [link, JacobianEntry.link]
  cases JacobianEntry.localize state.arena row offset with
  | error => rfl
  | ok first =>
      obtain ⟨row, arena⟩ := first
      simp only [bind, Except.bind]
      cases JacobianEntry.localize arena column offset <;> rfl

/-- An entry places its two endpoints. -/
theorem link_yields {row column : IndexHandle}
    (h : Balanced arguments keys size (row :: column :: pending) state) (kind : JacobianKind)
    (restriction : Option Restriction) (offset : Nat) :
    (state.link row column kind restriction offset).Yields fits TransformError.OfFactor
      (Balanced arguments keys size pending) := by
  obtain ⟨hrow, hinside⟩ := Transformation.forall_occurrences_cons.1 h.inside
  obtain ⟨hcolumn, -⟩ := Transformation.forall_occurrences_cons.1 hinside
  rw [Transformation.link_eq]
  refine (localize_yields h hrow offset).bind ?_
  rintro ⟨row', arena'⟩ - ⟨h', hrow'⟩
  refine (localize_yields h' (hcolumn.trans_le hrow'.grows) offset).bind ?_
  rintro ⟨column', arena''⟩ - ⟨h'', hcolumn'⟩
  refine .pure ?_
  have hperm := Transformation.perm_transform { state with arena := arena'' } pending
    ⟨row', column', kind, restriction, offset⟩
  have hends : ∀ k ∈ ({ state with arena := arena'' } : Transformation).occurrences
      (row' :: column' :: pending), k < arena''.next :=
    Transformation.forall_occurrences_cons.2 ⟨hrow'.below.trans_le hcolumn'.grows,
      Transformation.forall_occurrences_cons.2 ⟨hcolumn'.below, fun k hk => h''.inside k
        (List.mem_append.2 ((List.mem_append.1 hk).imp_right fun hk => by simp [hk]))⟩⟩
  refine h''.place rfl rfl (fun k hk => hends k (hperm.mem_iff.1 hk))
    (fun k index hget hnone => ?_) ?_
  · have hold' := hcolumn'.old k index hget hnone
    have hold := hrow'.old k index hold' hnone
    have hcolumnSame : column' = k ↔ column = k := hcolumn'.same k index hold' hnone
    have hrowSame : row' = k ↔ row = k := hrow'.same k index hold hnone
    rw [hperm.count_eq]
    simp only [Transformation.count_occurrences_cons, hrowSame, hcolumnSame]
  · have hsize := h''.size
    rw [hperm.length_eq]
    simpa only [Transformation.length_occurrences_cons] using hsize

/-! ## Components -/

/-- The common mapping is that of the first component. -/
theorem commonMapping_yields {refused : TransformError → Prop} {element : FiniteElement}
    (range : List Nat) (hcomponent : fits → ∀ c f, element.component c ≠ .error f)
    (hinvalid : ∀ c n, refused (.invalidComponent c n))
    (hconflict : ∀ range, refused (.mappingConflict range)) :
    (Transformation.commonMapping element range).Yields fits refused
      fun p => p.mapping = .affine ∨
        ∃ c, range[0]? = some c ∧ element.component c = .ok (some p) := by
  have hlookup : ∀ c, ((liftM (element.component c) :
      Attempt TransformError (Option ComponentElement)) >>=
        Attempt.ofOption (.invalidComponent c element.valueDimension)).Yields fits
        refused fun p => element.component c = .ok (some p) := by
    intro c
    have hlift : (liftM (element.component c) :
        Attempt TransformError (Option ComponentElement)).Yields fits refused
          fun p => element.component c = .ok p :=
      .lift (fun _ h => h) fun f hf hfits => hcomponent hfits c f hf
    refine hlift.bind fun found _ hfound => ?_
    cases found with
    | none => exact .reject (hinvalid _ _)
    | some p => exact .pure hfound
  refine (Attempt.Yields.mapM fun c _ => hlookup c).bind fun found _ hfound => ?_
  cases hfound with
  | nil => exact .pure (Or.inl rfl)
  | cons hfirst _ =>
      dsimp only
      split
      next => exact .reject (hconflict _)
      next => exact .pure (Or.inr ⟨_, rfl, hfirst⟩)

theorem raise_yields {dimension offset : Nat} (h : fits → offset + dimension ≤ Word.limit) :
    (liftM ((MonomialIndex.unclassified (List.range dimension)).raise offset) :
      Attempt TransformError MonomialIndex).Yields fits TransformError.OfFactor
        fun image => ∃ range, image = .unclassified range := by
  refine .lift (fun image himage => ⟨_, raise_eq himage⟩) fun f hf hfits => ?_
  have hadd : ∀ v ∈ List.range dimension, ∃ w, Word.add v offset = .ok w := fun v hv => by
    have hv := List.mem_range.1 hv
    exact ⟨_, Word.fit_eq_ok_iff.2 ⟨rfl, by have := h hfits; omega⟩⟩
  obtain ⟨raised, hraised⟩ := exists_mapM_eq_ok.2 hadd
  have hraise : (MonomialIndex.unclassified (List.range dimension)).raise offset =
      .ok (.unclassified raised) := by
    rw [MonomialIndex.raise, MonomialIndex.unclassified, hraised]
    rfl
  rw [hraise] at hf
  cases hf

/-- A component is placed, or a Piola map puts an index of its own in its place. -/
theorem mapComponent_yields {component : IndexHandle}
    (h : Balanced arguments keys size (component :: pending) state) {element : FiniteElement}
    (hcomponent : fits → ∀ c f, element.component c ≠ .error f)
    (hoffset : fits → ∀ c p, element.component c = .ok (some p) →
      p.offset + element.geometricDimension ≤ Word.limit) (restriction : Option Restriction) :
    (state.mapComponent element restriction component).Yields fits TransformError.OfFactor
      fun result => Balanced arguments keys (size + 2) (result.1 :: pending) result.2 := by
  obtain ⟨index, hget⟩ := IndexArena.exists_get? (Transformation.forall_occurrences_cons.1 h.inside).1
  have hindex : (liftM (state.arena.get component) : Attempt TransformError MonomialIndex) =
      .ok index := liftM_eq_ok.2 (Checked.get_eq_ok_iff.2 hget)
  rw [Transformation.mapComponent, hindex]
  refine (commonMapping_yields index.range hcomponent (fun _ _ => trivial)
    fun _ => trivial).bind ?_
  rintro ⟨mapping, offset⟩ - hp
  have himage : mapping ≠ .affine →
      (liftM ((MonomialIndex.unclassified (List.range element.geometricDimension)).raise offset) :
        Attempt TransformError MonomialIndex).Yields fits TransformError.OfFactor
          fun image => ∃ range, image = .unclassified range := fun hne =>
    raise_yields fun hfits => by
      obtain ⟨c, -, hc⟩ := hp.resolve_left hne
      exact hoffset hfits c _ hc
  cases mapping with
  | affine => exact .pure (h.larger (Nat.le_add_right size 2))
  | contravariantPiola =>
      refine (himage (by simp)).bind ?_
      rintro image - ⟨range, rfl⟩
      have hmiddle : (component :: ([state.arena.next, state.arena.next] ++ pending)).Perm
          ([state.arena.next, state.arena.next] ++ component :: pending) :=
        List.perm_middle.symm
      have hown := (h.insertOwn range).reorder hmiddle
      refine (link_yields hown _ _ _).bind fun next _ hnext => ?_
      exact .pure (hnext.perm rfl rfl (.refl _))
  | covariantPiola =>
      refine (himage (by simp)).bind ?_
      rintro image - ⟨range, rfl⟩
      have hown := (h.insertOwn range).reorder
        ((List.Perm.swap state.arena.next component pending).cons state.arena.next)
      refine (link_yields hown _ _ _).bind fun next _ hnext => ?_
      exact .pure hnext

/-! ## Factors -/

/-- Every derivative places its direction and leaves a reference direction. -/
theorem addDerivatives_yields (dimension : Nat) (restriction : Option Restriction)
    (more : List ComponentKey) : ∀ {keys size pending state},
      Balanced arguments keys size pending state →
        (state.addDerivatives dimension restriction more).Yields fits TransformError.OfFactor
          fun result => Balanced arguments (keys ++ more) (size + 3 * more.length)
            (result.1 ++ pending) result.2 := by
  induction more with
  | nil =>
      intro keys size pending state h
      exact .pure (by simpa using h)
  | cons key more ih =>
      intro keys size pending state h
      rw [Transformation.addDerivatives]
      have hown := (h.insertOwn (List.range dimension)).resolveDirection dimension key
      have hends := hown.reorder (List.Perm.swap _ _ _)
      refine (link_yields hends _ _ _).bind fun next _ hnext => ?_
      refine (ih hnext).bind ?_
      rintro ⟨gradients, last⟩ - hlast
      refine .pure ?_
      rw [List.append_assoc, List.singleton_append] at hlast
      refine (hlast.reorder List.perm_middle.symm).larger ?_
      rw [List.length_cons]
      omega

/-- The index of an argument is known beforehand, and that of a coefficient function is recorded. -/
theorem resolveOrigin_balanced (h : Balanced arguments keys size pending state)
    (spaceDimension : Nat) {origin : FactorOrigin}
    (harguments : ∀ number, origin = .argument number → arguments number) :
    Balanced arguments keys (size + 2)
      ((state.resolveOrigin spaceDimension origin).1 :: pending)
      (state.resolveOrigin spaceDimension origin).2 := by
  cases origin with
  | argument number =>
      have hinitial : (MonomialIndex.primary number (List.range spaceDimension)).IsInitial
          arguments := Or.inr (Or.inr ⟨number, rfl, rfl, harguments number rfl⟩)
      have hne : (MonomialIndex.primary number (List.range spaceDimension)).role ≠ none := by
        simp [MonomialIndex.primary]
      exact ((h.insertFixed hinitial hne).addPending
        (IndexArena.get?_insert_next _ _) hne).larger (Nat.le_succ _)
  | coefficient number =>
      exact (h.insertOwn (List.range spaceDimension)).perm rfl rfl
        (Transformation.perm_coefficient _ _ ⟨state.arena.next, number⟩)

theorem Transformation.length_resolveComponents (dimension : Nat) (keys : List ComponentKey) :
    ∀ state : Transformation, (state.resolveComponents dimension keys).1.length = keys.length := by
  induction keys with
  | nil => exact fun _ => rfl
  | cons key keys ih => exact fun state => congrArg (· + 1) (ih _)

theorem placeComponents_yields (h : Balanced arguments keys size pending state)
    {element : FiniteElement} (hcomponent : fits → ∀ c f, element.component c ≠ .error f)
    (hoffset : fits → ∀ c p, element.component c = .ok (some p) →
      p.offset + element.geometricDimension ≤ Word.limit) (restriction : Option Restriction)
    (components : List ComponentKey) :
    (state.placeComponents element restriction components).Yields fits TransformError.OfFactor
      fun result => Balanced arguments (keys ++ components) (size + 3 * components.length)
        (result.1 ++ pending) result.2 := by
  have hresolved := Balanced.resolveComponents element.valueDimension components h
  have hlength : (state.resolveComponents element.valueDimension components).1.length =
      components.length := Transformation.length_resolveComponents _ components state
  unfold Transformation.placeComponents
  generalize state.resolveComponents element.valueDimension components = resolved at *
  obtain ⟨handles, next⟩ := resolved
  dsimp only at hresolved hlength
  obtain _ | ⟨component, _ | ⟨second, rest⟩⟩ := handles
  · exact .pure (hresolved.larger (by omega))
  · refine (mapComponent_yields hresolved hcomponent hoffset restriction).bind ?_
    rintro ⟨reference, last⟩ - hlast
    refine .pure (hlast.larger ?_)
    rw [← hlength, List.length_singleton]
  · exact .reject trivial

theorem addFactor_yields {provider : ElementProvider} {factor : MonomialFactor}
    (h : Balanced arguments keys size [] state) (hfits : fits → factor.Fits provider)
    (harguments : ∀ number, factor.origin = .argument number → arguments number) :
    (state.addFactor provider factor).Yields fits TransformError.OfFactor
      (Balanced arguments (keys ++ factor.keys) (size + 2 + 3 * factor.keys.length) []) := by
  rw [Transformation.addFactor_eq]
  have hanswer : (provider factor.element).Yields fits (fun _ => True)
      fun element => provider factor.element = .ok element :=
    ⟨fun _ h => h, fun f hf hfit => (hfits hfit).provided f hf, fun _ _ => trivial⟩
  have hprovided : ((provider factor.element).mapError TransformError.element).Yields fits
      TransformError.OfFactor fun element => provider factor.element = .ok element :=
    hanswer.mapError fun _ _ => trivial
  refine hprovided.bind fun element _ helement => ?_
  have horigin := resolveOrigin_balanced h element.spaceDimension harguments
  refine (placeComponents_yields horigin (fun hfit => (hfits hfit).component element helement)
    (fun hfit => (hfits hfit).offset element helement) factor.restriction
    factor.components).bind ?_
  rintro ⟨components, placed⟩ - hplaced
  refine (addDerivatives_yields element.geometricDimension factor.restriction factor.derivatives
    hplaced).bind ?_
  rintro ⟨derivatives, last⟩ - hlast
  have hperm := Transformation.perm_basisFunction last []
    ⟨element, (state.resolveOrigin element.spaceDimension factor.origin).1, components, derivatives,
      factor.restriction⟩
  have hhandles : ∀ v : BasisFunction, (last.occurrences (v.handles ++ [])).Perm
      (last.occurrences (v.derivatives ++ (v.components ++ [v.index]))) := fun v =>
    List.perm_iff_count.2 fun k => by
      simp only [BasisFunction.handles, Transformation.occurrences, List.count_append,
        List.count_cons, List.count_nil]
      omega
  refine .pure ?_
  rw [List.append_assoc] at hlast
  refine (hlast.perm ?_ ?_ (hperm.trans (hhandles _))).larger ?_
  · rfl
  · rfl
  · rw [MonomialFactor.keys, List.length_append]
    omega

theorem factors_yield (fits : Prop) (arguments : Nat → Prop) {provider : ElementProvider}
    {factors : List MonomialFactor}
    (hfits : fits → ∀ factor ∈ factors, factor.Fits provider)
    (harguments : ∀ factor ∈ factors, ∀ number, factor.origin = .argument number →
      arguments number) :
    (factors.foldlM (Transformation.addFactor provider) {}).Yields fits TransformError.OfFactor
      (Balanced arguments (factors.flatMap MonomialFactor.keys)
        (2 * factors.length + 3 * (factors.flatMap MonomialFactor.keys).length) []) := by
  refine Attempt.Yields.foldlM (fun done =>
    Balanced arguments (done.flatMap MonomialFactor.keys)
      (2 * done.length + 3 * (done.flatMap MonomialFactor.keys).length) []) []
    (fun done state factor hmem h => ?_) (.start arguments)
  refine (addFactor_yields h (fun hfit => hfits hfit factor hmem)
    (harguments factor hmem)).mono fun next hnext => ?_
  rw [List.flatMap_append, List.flatMap_singleton, List.length_append, List.length_append,
    List.length_singleton]
  exact hnext.larger (by omega)

end ElementKernel
