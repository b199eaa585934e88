import ElementKernel.Proofs.Records.Links

/-!
# Records of factors

The parts that a factor leaves in the monomial are its record: a basis function, possibly a
coefficient, the handles of the keys that stay in the basis function, and an entry for each link.  A
state is put together from the records of the factors that are done.
-/

namespace ElementKernel

/-! ## What a factor takes -/

namespace MonomialFactor

/-- The dimension of the cell of a factor. -/
def dimension (factor : MonomialFactor) : Nat :=
  (factor.element.cell?.map CellShape.dimension).getD 0

/-- The uses of free keys with the dimensions that they have in the factor. -/
def uses (factor : MonomialFactor) : List (Nat × Nat) :=
  freeUses factor.element.size factor.components ++ freeUses factor.dimension factor.derivatives

/-- The components that no Piola map applies to. -/
def stays (dims : Nat → Nat) (factor : MonomialFactor) : List ComponentKey :=
  factor.components.flatMap (factor.element.stays dims)

def links (dims : Nat → Nat) (factor : MonomialFactor) : List Link :=
  factor.components.flatMap (factor.element.pullback dims) ++ gradients factor.derivatives

/-- A factor that can be transformed: its element exists, and it has at most one component, which is
mapped. -/
def Admissible (dims : Nat → Nat) (factor : MonomialFactor) : Prop :=
  ∃ element, ElementDescriptor.reference factor.element = .ok element ∧
    factor.components.length ≤ 1 ∧ ∀ key ∈ factor.components, element.Maps dims key

end MonomialFactor

namespace RawMonomial

/-- The uses of free keys in the order of the factors. -/
def uses (monomial : RawMonomial) : List (Nat × Nat) := monomial.factors.flatMap (·.uses)

/-- The dimension that a free key is first met with. -/
def dimensions (monomial : RawMonomial) (number : Nat) : Nat :=
  (monomial.uses.lookup number).getD 0

theorem firstMet_dimensions (monomial : RawMonomial) :
    FirstMet monomial.dimensions [] monomial.uses := by
  intro n d _ hlookup
  rw [dimensions, hlookup, Option.getD_some]

end RawMonomial

theorem ElementDescriptor.reference_dimensions {descriptor : ElementDescriptor}
    {element : FiniteElement} (h : reference descriptor = .ok element) :
    element.valueDimension = descriptor.size ∧
      element.geometricDimension = (descriptor.cell?.map CellShape.dimension).getD 0 := by
  obtain ⟨info, hinfo, h⟩ := bind_eq_ok.1 h
  obtain rfl := Except.ok.inj h
  have hdescribes := info_describes descriptor hinfo
  exact ⟨hdescribes.size, by rw [hdescribes.cell]; rfl⟩

/-! ## Records -/

theorem exists_zip_of_mem {α β : Type} {xs : List α} {ys : List β} (h : xs.length = ys.length)
    {y : β} (hy : y ∈ ys) : ∃ x, (x, y) ∈ xs.zip ys := by
  rw [← List.map_snd_zip h.ge] at hy
  obtain ⟨⟨x, y⟩, hmem, rfl⟩ := List.mem_map.1 hy
  exact ⟨x, hmem⟩

structure FactorRecord where
  factor : MonomialFactor
  basisFunction : BasisFunction
  coefficients : List CoefficientValue
  /-- The handles of the components that no Piola map applies to. -/
  stay : List IndexHandle
  entries : List JacobianEntry

variable {dims : Nat → Nat} {uses : List (Nat × Nat)} {used : List IndexHandle}
  {state a b : Transformation}

/-- The index of the basis function and the coefficient that is recorded with it. -/
def FactorOrigin.Gives (spaceDimension : Nat) (state : Transformation) (index : IndexHandle)
    (coefficients : List CoefficientValue) : FactorOrigin → Prop
  | .argument number => coefficients = [] ∧
      state.arena.get? index = some (.primary number (List.range spaceDimension))
  | .coefficient number => coefficients = [⟨index, number⟩] ∧
      state.arena.get? index = some (.unclassified (List.range spaceDimension))

theorem FactorOrigin.Gives.mono {spaceDimension : Nat} {index : IndexHandle}
    {coefficients : List CoefficientValue} {origin : FactorOrigin}
    (h : origin.Gives spaceDimension a index coefficients) (hgrows : Grows a b) :
    origin.Gives spaceDimension b index coefficients := by
  cases origin with
  | argument number => exact h.imp_right (hgrows.get? _ _)
  | coefficient number => exact h.imp_right (hgrows.get? _ _)

namespace FactorRecord

/-- The handles that the factor is the only one to use. -/
def ownHandles (dims : Nat → Nat) (record : FactorRecord) : List IndexHandle :=
  record.basisFunction.index :: (literals (record.factor.stays dims) record.stay ++
    linkHandles (record.factor.links dims) record.entries)

/-- What the parts of a factor are. -/
structure Holds (dims : Nat → Nat) (state : Transformation) (record : FactorRecord) : Prop where
  element : ElementDescriptor.reference record.factor.element = .ok record.basisFunction.element
  restriction : record.basisFunction.restriction = record.factor.restriction
  origin : record.factor.origin.Gives record.basisFunction.element.spaceDimension state
    record.basisFunction.index record.coefficients
  handles : record.basisFunction.components ++ record.basisFunction.derivatives =
    record.stay ++ record.entries.map (·.reference)
  stays : List.Forall₂ state.Resolves (record.factor.stays dims) record.stay
  makes : List.Forall₂ (Link.Makes record.factor.dimension record.factor.restriction state)
    (record.factor.links dims) record.entries

theorem Holds.mono {record : FactorRecord} (h : record.Holds dims a) (hgrows : Grows a b) :
    record.Holds dims b where
  element := h.element
  restriction := h.restriction
  origin := h.origin.mono hgrows
  handles := h.handles
  stays := h.stays.imp fun _ _ hkey => hkey.mono hgrows
  makes := h.makes.imp fun _ _ hlink => hlink.mono hgrows

theorem Holds.reference_mem {record : FactorRecord} (h : record.Holds dims state)
    {t : JacobianEntry} (ht : t ∈ record.entries) : t.reference ∈ record.ownHandles dims := by
  obtain ⟨link, hzip⟩ := exists_zip_of_mem h.makes.length_eq ht
  refine List.mem_cons_of_mem _ (List.mem_append_right _ ?_)
  exact List.mem_flatMap.2 ⟨_, hzip, List.mem_cons_self⟩

end FactorRecord

/-- The state consists of the records of some factors. -/
structure Account (dims : Nat → Nat) (records : List FactorRecord) (state : Transformation) :
    Prop where
  ledger : Ledger dims (records.flatMap (·.factor.uses)) (records.flatMap (·.ownHandles dims)) state
  holds : ∀ record ∈ records, record.Holds dims state
  basisFunctions : state.basisFunctions = records.map (·.basisFunction)
  coefficients : state.coefficients = records.flatMap (·.coefficients)
  transforms : state.transforms = records.flatMap (·.entries)
  determinant : state.determinant =
    ⟨-((records.flatMap (·.factor.links dims)).countP (·.kind = .jacobian) : Nat), none⟩

theorem Account.start (dims : Nat → Nat) : Account dims [] {} where
  ledger := .start dims
  holds _ h := absurd h List.not_mem_nil
  basisFunctions := rfl
  coefficients := rfl
  transforms := rfl
  determinant := rfl

theorem Account.own_notMem {records : List FactorRecord} (h : Account dims records state)
    {record : FactorRecord} (hrecord : record ∈ records) {handle : IndexHandle}
    (hown : handle ∈ record.ownHandles dims) : handle ∉ state.resolved.map Prod.snd :=
  fun hmem => (List.nodup_append.1 h.ledger.nodup).2.2 _
    (List.mem_flatMap.2 ⟨record, hrecord, hown⟩) _ hmem rfl

/-! ## Steps of a factor -/

/-- What resolving the origin of a factor does. -/
structure Originates (dims : Nat → Nat) (uses : List (Nat × Nat)) (used : List IndexHandle)
    (spaceDimension : Nat) (origin : FactorOrigin) (a : Transformation) (index : IndexHandle)
    (coefficients : List CoefficientValue) (b : Transformation) : Prop where
  gives : origin.Gives spaceDimension b index coefficients
  ledger : Ledger dims uses (used ++ [index]) b
  grows : Grows a b
  parts : b = { a with arena := b.arena, coefficients := a.coefficients ++ coefficients }

theorem Ledger.resolveOrigin (h : Ledger dims uses used state) (spaceDimension : Nat)
    (origin : FactorOrigin) : ∃ coefficients, Originates dims uses used spaceDimension origin state
      (state.resolveOrigin spaceDimension origin).1 coefficients
      (state.resolveOrigin spaceDimension origin).2 := by
  cases origin with
  | argument number =>
      refine ⟨[], ⟨rfl, IndexArena.get?_insert_next _ _⟩, h.insertUsed _, grows_insert _ _, ?_⟩
      rw [List.append_nil]
      rfl
  | coefficient number =>
      have hgrows := grows_insert state (.unclassified (List.range spaceDimension))
      exact ⟨[⟨state.arena.next, number⟩], ⟨rfl, IndexArena.get?_insert_next _ _⟩,
        (h.insertUsed _).of_eq rfl rfl, ⟨hgrows.get?, hgrows.resolved, hgrows.next⟩, rfl⟩

theorem placeComponents_succeeds (h : Ledger dims uses used state)
    {descriptor : ElementDescriptor} {element : FiniteElement}
    (helement : ElementDescriptor.reference descriptor = .ok element)
    {restriction : Option Restriction} {keys : List ComponentKey}
    (hfirst : FirstMet dims uses (freeUses element.valueDimension keys)) :
    (state.placeComponents element restriction keys).Succeeds
      (keys.length ≤ 1 ∧ ∀ key ∈ keys, element.Maps dims key) fun result => ∃ stay entries,
        result.1 = stay ++ entries.map (·.reference) ∧
        Attached dims (uses ++ freeUses element.valueDimension keys) used
          element.geometricDimension restriction state (keys.flatMap (descriptor.stays dims))
          (keys.flatMap (descriptor.pullback dims)) stay entries result.2 := by
  unfold Transformation.placeComponents
  match keys with
  | [] =>
      refine (Attempt.Succeeds.pure ⟨[], [], rfl, .nil, .nil, ?_, .refl state, ?_⟩).congr
        (by simp)
      · simpa [literals, linkHandles, freeUses] using h
      · simp
  | [key] =>
      have hkey := h.resolveComponent hfirst
      have hfresh : ∀ v, key = .fixed v →
          (state.resolveComponent element.valueDimension key).1 ∉ used := fun v hv hmem =>
        Nat.not_lt.2 (hkey.literal v hv) (h.inside _ hmem)
      show ((state.resolveComponent element.valueDimension key).2.mapComponent element restriction
        (state.resolveComponent element.valueDimension key).1 >>= _).Succeeds _ _
      refine ((mapComponent_succeeds hkey.ledger helement hkey.resolves hfresh).congr
        (by simp)).bindFree ?_
      rintro ⟨reference, next⟩ ⟨stay, entries, hhandles, hattached⟩
      refine .pure ⟨stay, entries, hhandles, ?_⟩
      rw [List.flatMap_singleton, List.flatMap_singleton]
      exact hattached.after hkey.grows hkey.only
  | key :: other :: rest =>
      exact .fails fun hvalid => absurd hvalid.1 (by simp)

theorem Account.record {records : List FactorRecord} (h : Account dims records a)
    {factor : MonomialFactor} {v : BasisFunction} {coefficients : List CoefficientValue}
    {stay : List IndexHandle} {entries : List JacobianEntry} {first last : Transformation}
    (helement : ElementDescriptor.reference factor.element = .ok v.element)
    (hrestriction : v.restriction = factor.restriction)
    (horigin : Originates dims (records.flatMap (·.factor.uses))
      (records.flatMap (·.ownHandles dims)) v.element.spaceDimension factor.origin a v.index
      coefficients first)
    (hattached : Attached dims (records.flatMap (·.factor.uses) ++ factor.uses)
      (records.flatMap (·.ownHandles dims) ++ [v.index]) factor.dimension factor.restriction first
      (factor.stays dims) (factor.links dims) stay entries last)
    (hhandles : v.components ++ v.derivatives = stay ++ entries.map (·.reference)) :
    Account dims (records ++ [⟨factor, v, coefficients, stay, entries⟩])
      { last with basisFunctions := last.basisFunctions ++ [v] } := by
  have hsame : Grows last { last with basisFunctions := last.basisFunctions ++ [v] } :=
    ⟨fun _ _ hget => hget, fun _ hr => hr, le_rfl⟩
  have hgrows := (horigin.grows.trans hattached.grows).trans hsame
  have hparts := hattached.parts
  rw [horigin.parts] at hparts
  refine ⟨?_, ?_, ?_, ?_, ?_, ?_⟩
  · have hledger : Ledger dims _ _ { last with basisFunctions := last.basisFunctions ++ [v] } :=
      hattached.ledger.of_eq rfl rfl
    simpa [FactorRecord.ownHandles] using hledger
  · refine List.forall_mem_append.2 ⟨fun record hrecord => (h.holds record hrecord).mono hgrows, ?_⟩
    refine List.forall_mem_singleton.2 ⟨helement, hrestriction, ?_, hhandles, ?_, ?_⟩
    · exact horigin.gives.mono (hattached.grows.trans hsame)
    · exact hattached.stays.imp fun _ _ hkey => hkey.mono hsame
    · exact hattached.makes.imp fun _ _ hlink => hlink.mono hsame
  · rw [List.map_append, ← h.basisFunctions, hparts]
    rfl
  · rw [List.flatMap_append, ← h.coefficients, List.flatMap_singleton, hparts]
  · rw [List.flatMap_append, ← h.transforms, List.flatMap_singleton, hparts]
  · rw [hparts, List.flatMap_append, List.flatMap_singleton, List.countP_append]
    simp only [h.determinant]
    congr 1
    omega

/-- A factor is added exactly if it is admissible, and leaves its record. -/
theorem addFactor_succeeds {records : List FactorRecord} (h : Account dims records state)
    {factor : MonomialFactor}
    (hfirst : FirstMet dims (records.flatMap (·.factor.uses)) factor.uses) :
    (state.addFactor ElementDescriptor.reference factor).Succeeds (factor.Admissible dims)
      fun next => ∃ record, record.factor = factor ∧ Account dims (records ++ [record]) next := by
  rw [Transformation.addFactor_eq]
  -- The element comes first, since the dimensions of all keys of the factor depend on it.
  refine (Attempt.Succeeds.of_bind fun element helement => ?_).congr
    (exists_congr fun element => and_congr_left' mapError_eq_ok)
  have helement := mapError_eq_ok.1 helement
  obtain ⟨hsize, hdimension⟩ := ElementDescriptor.reference_dimensions helement
  obtain ⟨coefficients, horigin⟩ := h.ledger.resolveOrigin element.spaceDimension factor.origin
  generalize state.resolveOrigin element.spaceDimension factor.origin = result at horigin ⊢
  obtain ⟨index, first⟩ := result
  rw [MonomialFactor.uses, ← hsize, MonomialFactor.dimension, ← hdimension] at hfirst
  refine (placeComponents_succeeds horigin.ledger helement hfirst.left).bindFree ?_
  rintro ⟨components, second⟩ ⟨stay, entries, hcomponents, hsecond⟩
  refine (addDerivatives_succeeds factor.derivatives hsecond.ledger hfirst.right).bindFree ?_
  rintro ⟨derivatives, third⟩ ⟨gradients, hderivatives, hthird⟩
  have hattached := hsecond.append hthird
  rw [List.append_assoc (records.flatMap _), hsize, hdimension] at hattached
  have hhandles : components ++ derivatives =
      stay ++ (entries ++ gradients).map (·.reference) := by
    rw [List.map_append, ← List.append_assoc, ← hcomponents, ← hderivatives]
  exact .pure ⟨⟨factor, ⟨element, index, components, derivatives, factor.restriction⟩, coefficients,
    stay, entries ++ gradients⟩, rfl, h.record helement rfl horigin hattached hhandles⟩

/-- All factors are added exactly if they are admissible, and leave their records. -/
theorem addFactors_succeeds {factors : List MonomialFactor}
    (hfirst : FirstMet dims [] (factors.flatMap (·.uses))) :
    (factors.foldlM (Transformation.addFactor ElementDescriptor.reference) {}).Succeeds
      (∀ factor ∈ factors, factor.Admissible dims) fun state =>
        ∃ records : List FactorRecord, records.map (·.factor) = factors ∧
          Account dims records state := by
  refine Attempt.Succeeds.foldlM (fun done state => ∃ records : List FactorRecord,
    records.map (·.factor) = done ∧ Account dims records state) ?_ ⟨[], rfl, .start dims⟩
  rintro done factor rest state rfl ⟨records, rfl, h⟩
  rw [List.flatMap_append, List.flatMap_cons] at hfirst
  have hnext := hfirst.right.left
  rw [List.nil_append, List.flatMap_map] at hnext
  refine (addFactor_succeeds h hnext).mono ?_
  rintro next ⟨record, rfl, hrecorded⟩
  exact ⟨records ++ [record], by simp, hrecorded⟩

end ElementKernel
