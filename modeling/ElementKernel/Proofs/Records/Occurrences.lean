import ElementKernel.Proofs.Records.Runs
import Mathlib.Data.List.Perm.Basic

/-!
# Roles of the occurrences

The index of a free key occurs inside of the integral for every component that stays in its basis
function, and outside for every link.  So the roles of all occurrences can be read off the factors,
in the order of the factors.
-/

namespace ElementKernel

/-! ## Roles in a factor -/

namespace ComponentKey

/-- The role of the index of a key, when the roles of free keys are known. -/
def role (freeRole : Nat → Option IndexRole) : ComponentKey → Option IndexRole
  | .fixed _ => some .fixed
  | .free number => freeRole number

@[simp] theorem role_lower (freeRole : Nat → Option IndexRole) (key : ComponentKey)
    (offset : Nat) : (key.lower offset).role freeRole = key.role freeRole := by
  cases key <;> rfl

@[simp] theorem lower_eq_free {key : ComponentKey} {offset number : Nat} :
    key.lower offset = .free number ↔ key = .free number := by
  cases key <;> simp [lower]

end ComponentKey

namespace FactorOrigin

/-- The role of the index of a basis function. -/
def role : FactorOrigin → IndexRole
  | .argument _ => .primary
  | .coefficient _ => .secondary

/-- The role of the index of the coefficient that is recorded, if any. -/
def outerRoles : FactorOrigin → List (Option IndexRole)
  | .argument _ => []
  | .coefficient _ => [some .secondary]

end FactorOrigin

namespace MonomialFactor

/-- The roles of the occurrences of a factor inside of the integral. -/
def innerRoles (dims : Nat → Nat) (freeRole : Nat → Option IndexRole) (factor : MonomialFactor) :
    List (Option IndexRole) :=
  some factor.origin.role :: ((factor.stays dims).map (·.role freeRole) ++
    (factor.links dims).map fun _ => some .secondary)

/-- The roles of the occurrences of a factor outside of the integral. -/
def outerRoles (dims : Nat → Nat) (freeRole : Nat → Option IndexRole) (factor : MonomialFactor) :
    List (Option IndexRole) :=
  factor.origin.outerRoles ++ ((factor.links dims).map (fun _ => some .secondary) ++
    (factor.links dims).map (·.key.role freeRole))

end MonomialFactor

/-- The role of a free key by its uses in some factors. -/
def freeRole (dims : Nat → Nat) (factors : List MonomialFactor) (number : Nat) :
    Option IndexRole :=
  IndexRole.ofOccurrences ((factors.flatMap (·.stays dims)).count (.free number))
    ((factors.flatMap fun factor => (factor.links dims).map (·.key)).count (.free number))

/-- The roles of the occurrences of some factors. -/
def occurrenceRoles (dims : Nat → Nat) (factors : List MonomialFactor) : List (Option IndexRole) :=
  factors.flatMap fun factor => factor.innerRoles dims (freeRole dims factors) ++
    factor.outerRoles dims (freeRole dims factors)

/-- The role that an index has, or that its occurrences give it. -/
def Transformation.role? (state : Transformation) (handle : IndexHandle) : Option IndexRole :=
  (state.arena.get? handle).bind fun index => index.role.or
    (IndexRole.ofOccurrences ((internalOccurrences state.basisFunctions).count handle)
      ((externalOccurrences state.coefficients state.transforms).count handle))

/-! ## Occurrences in a record -/

variable {dims : Nat → Nat} {uses : List (Nat × Nat)} {used : List IndexHandle}
  {state : Transformation} {records : List FactorRecord} {record : FactorRecord}

theorem map_eq_of_forall₂ {α β γ : Type} {f : α → γ} {g : β → γ} {xs : List α} {ys : List β}
    (h : List.Forall₂ (fun x y => g y = f x) xs ys) : ys.map g = xs.map f := by
  induction h with
  | nil => rfl
  | cons hfirst _ ih => rw [List.map_cons, List.map_cons, hfirst, ih]

theorem count_eq_of_forall₂ {keys : List ComponentKey} {handles : List IndexHandle}
    {key : ComponentKey} {handle : IndexHandle}
    (h : List.Forall₂ (fun a b => b = handle ↔ a = key) keys handles) :
    handles.count handle = keys.count key := by
  induction h with
  | nil => rfl
  | @cons a b keys handles hfirst _ ih =>
      rw [List.count_cons, List.count_cons, ih]
      simp only [beq_iff_eq, hfirst]

/-- The handle of a key is that of a free key only if it is this key. -/
theorem Ledger.eq_iff (h : Ledger dims uses used state) {r : Nat × IndexHandle}
    (hr : r ∈ state.resolved) {key : ComponentKey} {handle : IndexHandle}
    (hkey : state.Resolves key handle) : handle = r.2 ↔ key = .free r.1 := by
  cases key with
  | fixed v =>
      refine iff_of_false ?_ nofun
      rintro rfl
      exact h.literal_notMem hkey (List.mem_map_of_mem hr)
  | free number =>
      rw [ComponentKey.free.injEq]
      exact h.resolved_inj hkey hr

theorem JacobianEntry.ends_perm (ts : List JacobianEntry) :
    (ts.map (·.row) ++ ts.map (·.column)).Perm
      (ts.map (·.reference) ++ ts.map (·.physical)) := by
  have hends : ∀ t : JacobianEntry, [t.row, t.column].Perm [t.reference, t.physical] := fun t => by
    unfold reference physical
    cases t.kind
    · exact .swap _ _ _
    · exact .refl _
  rw [List.map_eq_flatMap, List.map_eq_flatMap, List.map_eq_flatMap, List.map_eq_flatMap]
  exact (List.flatMap_append_perm ts _ _).trans ((List.Perm.flatMap_left _ fun t _ => hends t).trans
    (List.flatMap_append_perm ts (fun t => [t.reference]) fun t => [t.physical]).symm)

namespace FactorRecord

/-- The occurrences of a factor inside of the integral. -/
def inner (record : FactorRecord) : List IndexHandle :=
  record.basisFunction.index :: (record.stay ++ record.entries.map (·.reference))

/-- The occurrences of a factor outside of the integral. -/
def outer (record : FactorRecord) : List IndexHandle :=
  record.coefficients.map (·.index) ++
    (record.entries.map (·.reference) ++ record.entries.map (·.physical))

namespace Holds

theorem inner_eq (h : record.Holds dims state) : record.basisFunction.handles = record.inner := by
  rw [BasisFunction.handles, h.handles, inner]

theorem coefficients_eq (h : record.Holds dims state) :
    record.coefficients.map (·.index) =
      record.factor.origin.outerRoles.map fun _ => record.basisFunction.index := by
  have horigin := h.origin
  unfold FactorOrigin.Gives at horigin
  cases hfactor : record.factor.origin with
  | argument number =>
      rw [hfactor] at horigin
      rw [horigin.1]
      rfl
  | coefficient number =>
      rw [hfactor] at horigin
      rw [horigin.1]
      rfl

end Holds

end FactorRecord

namespace Account

theorem internal_eq (h : Account dims records state) :
    internalOccurrences state.basisFunctions = records.flatMap (·.inner) := by
  rw [internalOccurrences, h.basisFunctions, List.flatMap_map]
  exact List.flatMap_congr fun record hrecord => (h.holds record hrecord).inner_eq

theorem external_perm (h : Account dims records state) :
    (externalOccurrences state.coefficients state.transforms).Perm (records.flatMap (·.outer)) := by
  -- Whether the reference end is the row or the column depends on the kind of the entry.
  rw [externalOccurrences, List.append_assoc]
  refine ((JacobianEntry.ends_perm state.transforms).append_left _).trans ?_
  rw [h.coefficients, h.transforms, List.map_flatMap, List.map_flatMap, List.map_flatMap]
  exact ((List.flatMap_append_perm records _ _).append_left _).trans
    (List.flatMap_append_perm records _ _)

theorem own_ne (h : Account dims records state) (hrecord : record ∈ records)
    {handle : IndexHandle} (hown : handle ∈ record.ownHandles dims) {r : Nat × IndexHandle}
    (hr : r ∈ state.resolved) : handle ≠ r.2 := by
  rintro rfl
  exact h.own_notMem hrecord hown (List.mem_map_of_mem hr)

variable {r : Nat × IndexHandle}

theorem resolved_notMem_references (h : Account dims records state) (hrecord : record ∈ records)
    (hr : r ∈ state.resolved) : r.2 ∉ record.entries.map (·.reference) := by
  rintro hmem
  obtain ⟨t, ht, heq⟩ := List.mem_map.1 hmem
  exact h.own_ne hrecord ((h.holds record hrecord).reference_mem ht) hr heq

/-- Inside of the integral the index of a free key stands for components that stay. -/
theorem count_inner (h : Account dims records state) (hrecord : record ∈ records)
    (hr : r ∈ state.resolved) :
    record.inner.count r.2 = (record.factor.stays dims).count (.free r.1) := by
  have hindex : record.basisFunction.index ≠ r.2 := h.own_ne hrecord List.mem_cons_self hr
  rw [FactorRecord.inner, List.count_cons_of_ne hindex, List.count_append,
    List.count_eq_zero.2 (h.resolved_notMem_references hrecord hr), Nat.add_zero]
  exact count_eq_of_forall₂ ((h.holds record hrecord).stays.imp fun _ _ hkey =>
    h.ledger.eq_iff hr hkey)

/-- Outside of the integral the index of a free key stands for links. -/
theorem count_outer (h : Account dims records state) (hrecord : record ∈ records)
    (hr : r ∈ state.resolved) : record.outer.count r.2 =
      ((record.factor.links dims).map (·.key)).count (.free r.1) := by
  have hholds := h.holds record hrecord
  have hcoefficients : r.2 ∉ record.coefficients.map (·.index) := by
    rw [hholds.coefficients_eq]
    rintro hmem
    obtain ⟨_, _, heq⟩ := List.mem_map.1 hmem
    exact h.own_ne hrecord List.mem_cons_self hr heq
  rw [FactorRecord.outer, List.count_append, List.count_eq_zero.2 hcoefficients, List.count_append,
    List.count_eq_zero.2 (h.resolved_notMem_references hrecord hr), Nat.zero_add, Nat.zero_add]
  refine count_eq_of_forall₂ (List.forall₂_map_right_iff.2 (List.forall₂_map_left_iff.2 ?_))
  exact hholds.makes.imp fun link t hmakes =>
    (h.ledger.eq_iff hr hmakes.physical).trans ComponentKey.lower_eq_free

theorem role?_resolved (h : Account dims records state) (hr : r ∈ state.resolved) :
    state.role? r.2 = freeRole dims (records.map (·.factor)) r.1 := by
  rw [Transformation.role?, h.ledger.free r hr, Option.bind_some, freeRole]
  show IndexRole.ofOccurrences _ _ = _
  rw [h.internal_eq, h.external_perm.count_eq, List.flatMap_map, List.flatMap_map]
  simp only [List.count_flatMap]
  congr 2
  · exact List.map_congr_left fun record hrecord => h.count_inner hrecord hr
  · exact List.map_congr_left fun record hrecord => h.count_outer hrecord hr

theorem role?_key (h : Account dims records state) {key : ComponentKey} {handle : IndexHandle}
    (hkey : state.Resolves key handle) :
    state.role? handle = key.role (freeRole dims (records.map (·.factor))) := by
  cases key with
  | fixed v =>
      obtain ⟨index, hget, hrole, -⟩ := hkey
      rw [Transformation.role?, hget, Option.bind_some, hrole]
      rfl
  | free number => exact h.role?_resolved hkey

variable {arguments : Nat → Prop} {keys : List ComponentKey} {size : Nat}

/-- An index without role that a factor uses alone, inside and outside of the integral, is
secondary. -/
theorem role?_own (h : Account dims records state)
    (hbalanced : Balanced arguments keys size [] state) (hrecord : record ∈ records)
    {handle : IndexHandle} (hown : handle ∈ record.ownHandles dims) {range : List Nat}
    (hget : state.arena.get? handle = some (.unclassified range))
    (hinner : handle ∈ record.inner) (houter : handle ∈ record.outer) :
    state.role? handle = some .secondary := by
  have hsum := hbalanced.own handle _ hget rfl (h.own_notMem hrecord hown)
  rw [← Balanced.count_add_count] at hsum
  have hinside : 0 < (internalOccurrences state.basisFunctions).count handle := by
    rw [h.internal_eq]
    exact List.count_pos_iff.2 (List.mem_flatMap.2 ⟨record, hrecord, hinner⟩)
  have houtside : 0 < (externalOccurrences state.coefficients state.transforms).count handle := by
    rw [h.external_perm.count_eq]
    exact List.count_pos_iff.2 (List.mem_flatMap.2 ⟨record, hrecord, houter⟩)
  rw [Transformation.role?, hget, Option.bind_some]
  -- It occurs twice in all, so once on either side.
  exact IndexRole.ofOccurrences_eq_some.2 (Or.inl ⟨rfl, by omega, by omega⟩)

theorem role?_reference (h : Account dims records state)
    (hbalanced : Balanced arguments keys size [] state) (hrecord : record ∈ records)
    {t : JacobianEntry} (ht : t ∈ record.entries) : state.role? t.reference = some .secondary := by
  have hholds := h.holds record hrecord
  obtain ⟨link, -, hmakes⟩ := exists_of_forall₂_right hholds.makes ht
  have hmem : t.reference ∈ record.entries.map (·.reference) := List.mem_map_of_mem ht
  exact h.role?_own hbalanced hrecord (hholds.reference_mem ht) hmakes.reference
    (List.mem_cons_of_mem _ (List.mem_append_right _ hmem))
    (List.mem_append_right _ (List.mem_append_left _ hmem))

theorem role?_index (h : Account dims records state)
    (hbalanced : Balanced arguments keys size [] state) (hrecord : record ∈ records) :
    state.role? record.basisFunction.index = some record.factor.origin.role := by
  have hholds := h.holds record hrecord
  have horigin := hholds.origin
  have houter := hholds.coefficients_eq
  cases hfactor : record.factor.origin with
  | argument number =>
      rw [hfactor] at horigin
      rw [Transformation.role?, horigin.2]
      rfl
  | coefficient number =>
      rw [hfactor] at horigin houter
      refine h.role?_own hbalanced hrecord List.mem_cons_self horigin.2 List.mem_cons_self ?_
      exact List.mem_append_left _ (houter ▸ List.mem_singleton_self _)

theorem map_role?_references (h : Account dims records state)
    (hbalanced : Balanced arguments keys size [] state) (hrecord : record ∈ records) :
    (record.entries.map (·.reference)).map state.role? =
      (record.factor.links dims).map fun _ => some .secondary := by
  have hsecondary : ∀ t ∈ record.entries, (state.role? ∘ (·.reference)) t = some .secondary :=
    fun t ht => h.role?_reference hbalanced hrecord ht
  rw [List.map_map, List.map_congr_left hsecondary, List.map_const', List.map_const',
    (h.holds record hrecord).makes.length_eq]

theorem map_role?_inner (h : Account dims records state)
    (hbalanced : Balanced arguments keys size [] state) (hrecord : record ∈ records) :
    record.inner.map state.role? =
      record.factor.innerRoles dims (freeRole dims (records.map (·.factor))) := by
  rw [FactorRecord.inner, List.map_cons, List.map_append, h.role?_index hbalanced hrecord,
    h.map_role?_references hbalanced hrecord, MonomialFactor.innerRoles]
  congr 2
  exact map_eq_of_forall₂ ((h.holds record hrecord).stays.imp fun _ _ hkey => h.role?_key hkey)

theorem map_role?_outer (h : Account dims records state)
    (hbalanced : Balanced arguments keys size [] state) (hrecord : record ∈ records) :
    record.outer.map state.role? =
      record.factor.outerRoles dims (freeRole dims (records.map (·.factor))) := by
  have hholds := h.holds record hrecord
  have hcoefficients : (record.coefficients.map (·.index)).map state.role? =
      record.factor.origin.outerRoles := by
    rw [hholds.coefficients_eq, List.map_map]
    have hindex := h.role?_index hbalanced hrecord
    cases hfactor : record.factor.origin with
    | argument number => rfl
    | coefficient number =>
        rw [hfactor] at hindex
        exact congrArg (fun role => [role]) hindex
  have hphysical : (record.entries.map (·.physical)).map state.role? =
      (record.factor.links dims).map
        (·.key.role (freeRole dims (records.map (·.factor)))) := by
    rw [List.map_map]
    refine map_eq_of_forall₂ (hholds.makes.imp fun link t hmakes => ?_)
    exact (h.role?_key hmakes.physical).trans (link.key.role_lower _ _)
  rw [FactorRecord.outer, List.map_append, List.map_append, hcoefficients,
    h.map_role?_references hbalanced hrecord, hphysical, MonomialFactor.outerRoles]

theorem footprint_perm (h : Account dims records state) :
    state.footprint.Perm (records.flatMap fun record => record.inner ++ record.outer) := by
  rw [Transformation.footprint, h.internal_eq]
  exact (h.external_perm.append_left _).trans (List.flatMap_append_perm records _ _)

/-- The roles of all occurrences are those that the factors tell, up to the order. -/
theorem occurrenceRoles_perm (h : Account dims records state)
    (hbalanced : Balanced arguments keys size [] state) :
    (state.footprint.map state.role?).Perm (occurrenceRoles dims (records.map (·.factor))) := by
  refine (h.footprint_perm.map _).trans ?_
  rw [List.map_flatMap, occurrenceRoles, List.flatMap_map]
  refine .flatMap_left _ fun record hrecord => ?_
  rw [List.map_append, h.map_role?_inner hbalanced hrecord, h.map_role?_outer hbalanced hrecord]

end Account

end ElementKernel
