import ElementKernel.Proofs.Records.UniqueIndices

/-!
# Order of the factors

A free key runs over the dimension that it is first met with.  If all factors agree on these
dimensions, neither the acceptance of a monomial nor the numbers of its parts and indices depend on
the order of the factors.
-/

namespace ElementKernel

variable {dims : Nat → Nat} {monomial : RawMonomial}

/-! ## Dimensions of free keys -/

namespace RawMonomial

/-- Factors that share a free key use it first with the same dimension. -/
def AgreesOnKeys (monomial : RawMonomial) : Prop :=
  ∀ f ∈ monomial.factors, ∀ g ∈ monomial.factors, ∀ number d e,
    f.uses.lookup number = some d → g.uses.lookup number = some e → d = e

/-- The index that the transformation of a monomial creates for a free key, as it is in the
result. -/
def freeIndex? (monomial : RawMonomial) (m : TransformedMonomial) (number : Nat) :
    Option MonomialIndex :=
  (monomial.factors.foldlM (Transformation.addFactor ElementDescriptor.reference)
      {}).toOption.bind fun state =>
    (state.resolved.lookup number).bind m.arena.get?

theorem lookup_uses {number d : Nat} (h : monomial.uses.lookup number = some d) :
    ∃ factor ∈ monomial.factors, factor.uses.lookup number = some d := by
  obtain ⟨coefficient, factors⟩ := monomial
  induction factors with
  | nil => cases h
  | cons factor factors ih =>
      rw [uses, List.flatMap_cons, List.lookup_append, Option.or_eq_some_iff] at h
      obtain h | ⟨-, h⟩ := h
      · exact ⟨factor, List.mem_cons_self, h⟩
      · obtain ⟨other, hother, hlookup⟩ := ih h
        exact ⟨other, List.mem_cons_of_mem _ hother, hlookup⟩

theorem exists_lookup_uses {factor : MonomialFactor} (hfactor : factor ∈ monomial.factors)
    {number d : Nat} (h : factor.uses.lookup number = some d) :
    ∃ e, monomial.uses.lookup number = some e := by
  refine Option.ne_none_iff_exists'.1 fun hnone => ?_
  obtain ⟨before, after, huses, -⟩ := List.lookup_eq_some_iff.1 h
  have hmem : (number, d) ∈ monomial.uses :=
    List.mem_flatMap.2 ⟨factor, hfactor, huses ▸ by simp⟩
  simpa using List.lookup_eq_none_iff.1 hnone _ hmem

theorem AgreesOnKeys.lookup_iff (h : monomial.AgreesOnKeys) {number d : Nat} :
    monomial.uses.lookup number = some d ↔
      ∃ factor ∈ monomial.factors, factor.uses.lookup number = some d := by
  refine ⟨lookup_uses, fun ⟨factor, hfactor, hd⟩ => ?_⟩
  obtain ⟨e, he⟩ := exists_lookup_uses hfactor hd
  obtain ⟨other, hother, hlookup⟩ := lookup_uses he
  rw [he, h factor hfactor other hother number d e hd hlookup]

variable {a b : RawMonomial}

theorem AgreesOnKeys.perm (h : a.AgreesOnKeys) (hperm : a.factors.Perm b.factors) :
    b.AgreesOnKeys :=
  fun f hf g hg => h f (hperm.mem_iff.2 hf) g (hperm.mem_iff.2 hg)

/-- Free keys are first met with the same dimensions in any order. -/
theorem AgreesOnKeys.dimensions_eq (h : a.AgreesOnKeys) (hperm : a.factors.Perm b.factors) :
    a.dimensions = b.dimensions := by
  funext number
  rw [dimensions, dimensions]
  congr 1
  refine Option.ext fun d => ?_
  rw [h.lookup_iff, (h.perm hperm).lookup_iff]
  exact exists_congr fun factor => and_congr_left' hperm.mem_iff

end RawMonomial

/-! ## Roles of occurrences -/

section

variable {factors permuted : List MonomialFactor}

theorem freeRole_of_perm (hperm : factors.Perm permuted) :
    freeRole dims factors = freeRole dims permuted := by
  funext number
  rw [freeRole, freeRole, (hperm.flatMap_right _).count_eq, (hperm.flatMap_right _).count_eq]

theorem occurrenceRoles_of_perm (hperm : factors.Perm permuted) :
    (occurrenceRoles dims factors).Perm (occurrenceRoles dims permuted) := by
  rw [occurrenceRoles, freeRole_of_perm hperm]
  exact hperm.flatMap_right _

end

/-! ## Parts -/

namespace RawMonomial.Run

variable {m : TransformedMonomial} {records : List FactorRecord} {state : Transformation}
  {classified : Classification}

theorem countP_transforms (run : monomial.Run m records state classified) (kind : JacobianKind) :
    m.transforms.countP (·.kind = kind) =
      (monomial.factors.flatMap (·.links monomial.dimensions)).countP (·.kind = kind) := by
  rw [run.result, run.account.transforms, ← run.factors, List.flatMap_map, List.countP_flatMap,
    List.countP_flatMap]
  refine congrArg List.sum (List.map_congr_left fun record hrecord => ?_)
  have hkinds := map_eq_of_forall₂ ((run.account.holds record hrecord).makes.imp
    fun _ _ hmakes => hmakes.kind)
  have hcount := congrArg (List.countP (decide <| · = kind)) hkinds
  rwa [List.countP_map, List.countP_map] at hcount

theorem length_coefficients (run : monomial.Run m records state classified) :
    m.coefficients.length = (monomial.factors.flatMap (·.origin.outerRoles)).length := by
  rw [run.result, run.account.coefficients, ← run.factors, List.flatMap_map, List.length_flatMap,
    List.length_flatMap]
  refine congrArg List.sum (List.map_congr_left fun record hrecord => ?_)
  have hlength := congrArg List.length (run.account.holds record hrecord).coefficients_eq
  rwa [List.length_map, List.length_map] at hlength

theorem exists_freeIndex (run : monomial.Run m records state classified) {number : Nat}
    (hmem : .free number ∈ monomial.keys) : ∃ index, monomial.freeIndex? m number = some index ∧
      index.range = List.range (monomial.dimensions number) ∧
      index.role = freeRole monomial.dimensions monomial.factors number := by
  obtain ⟨size, hbalanced⟩ := run.balanced
  obtain ⟨handle, hlookup⟩ : ∃ handle, state.resolved.lookup number = some handle := by
    obtain ⟨r, hr, rfl⟩ := List.mem_map.1 ((hbalanced.numbers number).1 hmem)
    refine Option.ne_none_iff_exists'.1 fun hnone => ?_
    simpa using List.lookup_eq_none_iff.1 hnone r hr
  obtain ⟨before, after, hresolved, -⟩ := List.lookup_eq_some_iff.1 hlookup
  have hr : (number, handle) ∈ state.resolved := hresolved ▸ by simp
  obtain ⟨index, hget, hrange, -⟩ := run.visited.get?_of_get? (run.account.ledger.free _ hr)
  have hindex : m.arena.get? handle = some index := by
    rwa [run.result]
  have hrole := run.role?_eq handle
  rw [run.account.role?_resolved hr, run.factors, IndexArena.role?, hindex] at hrole
  refine ⟨index, ?_, hrange, hrole⟩
  rw [freeIndex?, run.fold]
  show (state.resolved.lookup number).bind _ = _
  rw [hlookup]
  exact hindex

end RawMonomial.Run

/-! ## Acceptance and result -/

/-- The monomials agree in their determinants, and have as many coefficients, entries of each kind
and unique indices of each role. -/
structure TransformedMonomial.AgreesInNumbers (a b : TransformedMonomial) : Prop where
  determinant : a.determinant = b.determinant
  coefficients : a.coefficients.length = b.coefficients.length
  transforms : ∀ kind, a.transforms.countP (·.kind = kind) = b.transforms.countP (·.kind = kind)
  indices : ∀ role, (a.uniqueIndices role).length = (b.uniqueIndices role).length

namespace RawMonomial

variable {a b : RawMonomial}

theorem exists_transform_perm (hagrees : a.AgreesOnKeys) (hperm : a.factors.Perm b.factors) :
    (∃ m, a.transform ElementDescriptor.reference = .ok m) ↔
      ∃ m, b.transform ElementDescriptor.reference = .ok m := by
  have hkeys : a.keys.Perm b.keys := hperm.flatMap_right _
  rw [exists_transform_iff, exists_transform_iff, hagrees.dimensions_eq hperm]
  refine and_congr (forall_congr' fun factor => imp_congr_left hperm.mem_iff) (and_congr ?_ ?_)
  · refine forall_congr' fun number => ?_
    rw [hkeys.mem_iff, hkeys.count_eq]
  · refine forall_congr' fun role => imp_congr_right fun _ => ?_
    rw [(occurrenceRoles_of_perm hperm).count_eq]

theorem Run.agreesInNumbers {m n : TransformedMonomial} {records others : List FactorRecord}
    {state final : Transformation} {classified visited : Classification}
    (run : a.Run m records state classified) (other : b.Run n others final visited)
    (hagrees : a.AgreesOnKeys) (hperm : a.factors.Perm b.factors) : m.AgreesInNumbers n := by
  have hdimensions := hagrees.dimensions_eq hperm
  have hlinks : (a.factors.flatMap (·.links a.dimensions)).Perm
      (b.factors.flatMap (·.links b.dimensions)) := hdimensions ▸ hperm.flatMap_right _
  have hroles : (occurrenceRoles a.dimensions a.factors).Perm
      (occurrenceRoles b.dimensions b.factors) := hdimensions ▸ occurrenceRoles_of_perm hperm
  have hsummed : ∀ {role : IndexRole}, role.IsSummed →
      (m.uniqueIndices role).length = (n.uniqueIndices role).length := fun hrole => by
    have hlength := run.length_summed hrole
    have hother := other.length_summed hrole
    rw [hroles.count_eq] at hlength
    omega
  have harguments : ∀ number, a.HasArgument number ↔ b.HasArgument number := fun number =>
    exists_congr fun factor => and_congr_left' hperm.mem_iff
  refine ⟨?_, ?_, fun kind => ?_, fun role => ?_⟩
  · rw [run.determinant_eq, other.determinant_eq, hlinks.countP_eq]
  · rw [run.length_coefficients, other.length_coefficients, (hperm.flatMap_right _).length_eq]
  · rw [run.countP_transforms, other.countP_transforms, hlinks.countP_eq]
  · cases role with
    | fixed => rw [run.length_fixed, other.length_fixed, hroles.count_eq]
    | primary =>
        rw [run.length_primary, other.length_primary]
        refine (eraseDups_perm (nodup_eraseDups _) fun number => ?_).length_eq
        rw [List.mem_eraseDups, run.mem_slots_primary, other.mem_slots_primary, harguments]
    | secondary => exact hsummed (Or.inl rfl)
    | internal => exact hsummed (Or.inr (Or.inl rfl))
    | external => exact hsummed (Or.inr (Or.inr rfl))

/-- If the factors agree on the dimensions of their free keys, they are accepted in any order, with
as many parts and indices and the same ranges and roles of the free keys. -/
theorem transform_perm {factors : List MonomialFactor} (hperm : factors.Perm monomial.factors)
    (hagrees : monomial.AgreesOnKeys) :
    ((∃ m, ({ monomial with factors } : RawMonomial).transform ElementDescriptor.reference =
        .ok m) ↔ ∃ m, monomial.transform ElementDescriptor.reference = .ok m) ∧
      ∀ m n, monomial.transform ElementDescriptor.reference = .ok m →
        ({ monomial with factors } : RawMonomial).transform ElementDescriptor.reference = .ok n →
          m.AgreesInNumbers n ∧ ∀ number, .free number ∈ monomial.keys → ∃ i j,
            monomial.freeIndex? m number = some i ∧
            ({ monomial with factors } : RawMonomial).freeIndex? n number = some j ∧
            i.range = j.range ∧ i.role = j.role := by
  have hsymm : monomial.factors.Perm ({ monomial with factors } : RawMonomial).factors := hperm.symm
  refine ⟨(exists_transform_perm hagrees hsymm).symm, fun m n hm hn => ?_⟩
  obtain ⟨records, state, classified, run⟩ := exists_run hm
  obtain ⟨others, final, visited, other⟩ := exists_run hn
  refine ⟨run.agreesInNumbers other hagrees hsymm, fun number hnumber => ?_⟩
  have hkeys : monomial.keys.Perm ({ monomial with factors } : RawMonomial).keys :=
    hsymm.flatMap_right _
  obtain ⟨i, hi, hrange, hrole⟩ := run.exists_freeIndex hnumber
  obtain ⟨j, hj, hrange', hrole'⟩ := other.exists_freeIndex (hkeys.mem_iff.1 hnumber)
  refine ⟨i, j, hi, hj, ?_, ?_⟩
  · rw [hrange, hrange', hagrees.dimensions_eq hsymm]
  · rw [hrole, hrole', hagrees.dimensions_eq hsymm, freeRole_of_perm hsymm]

/-- A gradient tested with a flux, in both orders. -/
theorem transform_perm_gradient :
    let flux : MonomialFactor := ⟨.raviartThomas .triangle 1, .argument 0, [.free 0], [], none⟩
    let gradient : MonomialFactor := ⟨.lagrange .triangle 1, .coefficient 0, [], [.free 0], none⟩
    ∃ m n, (⟨1, [flux, gradient]⟩ : RawMonomial).transform ElementDescriptor.reference = .ok m ∧
      (⟨1, [gradient, flux]⟩ : RawMonomial).transform ElementDescriptor.reference = .ok n ∧
      m.AgreesInNumbers n ∧ ∃ i j, (⟨1, [flux, gradient]⟩ : RawMonomial).freeIndex? m 0 = some i ∧
        (⟨1, [gradient, flux]⟩ : RawMonomial).freeIndex? n 0 = some j ∧
        i.range = j.range ∧ i.role = j.role := by
  intro flux gradient
  let monomial : RawMonomial := ⟨1, [flux, gradient]⟩
  have huses : ∀ factor ∈ monomial.factors, factor.uses = [(0, 2)] := by decide +kernel
  have hagrees : monomial.AgreesOnKeys := by
    intro f hf g hg number d e hd he
    rw [huses f hf] at hd
    rw [huses g hg] at he
    exact Option.some.inj (hd.symm.trans he)
  have hok := eq_ok_get (x := monomial.transform ElementDescriptor.reference) (by decide +kernel)
  obtain ⟨haccepted, hmatches⟩ := transform_perm (.swap flux gradient []) hagrees
  obtain ⟨n, hn⟩ := haccepted.2 ⟨_, hok⟩
  obtain ⟨hnumbers, hkeys⟩ := hmatches _ n hok hn
  exact ⟨_, n, hok, hn, hnumbers, hkeys 0 (by decide)⟩

/-- A product of vectors of two and of three components, over the components of the first. -/
theorem not_transform_perm : ¬∀ (monomial : RawMonomial) (factors : List MonomialFactor),
    factors.Perm monomial.factors →
      ((∃ m, ({ monomial with factors } : RawMonomial).transform ElementDescriptor.reference =
        .ok m) ↔ ∃ m, monomial.transform ElementDescriptor.reference = .ok m) := by
  intro h
  let plane : MonomialFactor :=
    ⟨.vector (.lagrange .triangle 1) (some 2), .argument 0, [.free 0], [], none⟩
  let space : MonomialFactor :=
    ⟨.vector (.lagrange .triangle 1) (some 3), .argument 1, [.free 0], [], none⟩
  have hok := eq_ok_get (x := (⟨1, [plane, space]⟩ : RawMonomial).transform
    ElementDescriptor.reference) (by decide +kernel)
  obtain ⟨m, hm⟩ := (h ⟨1, [plane, space]⟩ [space, plane] (.swap plane space [])).2 ⟨_, hok⟩
  have hstops : ((⟨1, [space, plane]⟩ : RawMonomial).transform
      ElementDescriptor.reference).toOption.isSome = false := by decide +kernel
  rw [hm] at hstops
  cases hstops

end RawMonomial

end ElementKernel
