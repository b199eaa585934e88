import ElementKernel.Proofs.Execution.Tables
import Mathlib.Data.List.Nodup

/-!
# What the codes of the integrands see

A kernel is called with its inputs and declares its tables.  In a consistent integral the names of
both are distinct, so that everything is visible that the code of an integrand reads, and the names
that it declares itself are still free.
-/

namespace ElementKernel

open Execution

namespace OrderedMap

variable {κ α : Type} [LT κ] [Std.Irrefl (α := κ) (· < ·)] {map : OrderedMap κ α} {key : κ}
  {value : α}

theorem nodup_keys (map : OrderedMap κ α) : (map.entries.map Prod.fst).Nodup := by
  refine map.ascending.imp ?_
  rintro a b hlt rfl
  exact Std.Irrefl.irrefl (r := (· < ·)) a hlt

theorem get?_eq_some_iff [BEq κ] [LawfulBEq κ] :
    map.get? key = some value ↔ (key, value) ∈ map.entries := by
  rw [get?, List.lookup_eq_some_iff]
  constructor
  · rintro ⟨before, after, hentries, -⟩
    simp [hentries]
  · intro hmem
    obtain ⟨before, after, hentries⟩ := List.append_of_mem hmem
    have hnodup := map.nodup_keys
    rw [hentries, List.map_append, List.nodup_append] at hnodup
    refine ⟨before, after, hentries, fun entry hentry => ?_⟩
    have hne := hnodup.2.2 entry.1 (List.mem_map_of_mem hentry) key (by simp)
    simpa using Ne.symm hne

end OrderedMap

/-! ## Inputs -/

namespace KernelData

variable {K : Type} [Field K] (D : KernelData K)

def geometry (target : Target) : List (String × Cell K) :=
  match target.integralType with
  | .interiorFacet =>
      [("facet_0", .number (D.facet (some .plus))), ("facet_1", .number (D.facet (some .minus))),
        ("n_0", .vector (D.normal (some .plus))), ("n_1", .vector (D.normal (some .minus))),
        ("volume_0", .scalar (D.volume (some .plus))),
        ("volume_1", .scalar (D.volume (some .minus)))]
  | .exteriorFacet =>
      [("facet", .number (D.facet none)), ("n", .vector (D.normal none)),
        ("volume", .scalar (D.volume none))]
  | .vertex => [("vertex", .number D.vertex), ("volume", .scalar (D.volume none))]
  | _ => [("volume", .scalar (D.volume none))]

/-- The weights of the rules that a kernel does not declare. -/
def weightInputs (integral : Integral) : List (String × Cell K) :=
  (integral.integrands.entries.filter fun entry => ¬integral.DeclaresWeights entry.2).map
    fun entry => (Kernel.weightsName entry.1, .vector (D.weight entry.1))

def inputEntries (target : Target) (integral : Integral) : List (String × Cell K) :=
  ("w", .matrix D.coefficient) :: ("coordinate_dofs", .vector D.coordinate) ::
    (D.geometry target ++ D.weightInputs integral)

/-- What is visible when a kernel is called. -/
def inputs (target : Target) (integral : Integral) : Locals K :=
  Locals.setAll (fun _ => none) (D.inputEntries target integral)

theorem map_fst_geometry (target : Target) :
    (D.geometry target).map Prod.fst = target.geometryNames := by
  unfold geometry Target.geometryNames
  cases target.integralType <;> rfl

variable {target : Target} {restriction : Option Restriction} {name : String}

theorem normal_mem_geometry
    (htype : target.integralType = .exteriorFacet ∨ target.integralType = .interiorFacet)
    (hname : target.cellSymbol "n" restriction = .symbol name) :
    (name, .vector (D.normal (target.sideOf restriction))) ∈ D.geometry target := by
  unfold geometry Target.sideOf
  unfold Target.cellSymbol at hname
  obtain htype | htype := htype <;> simp only [htype] at hname ⊢ <;> cases hname
  · simp
  · refine List.mem_of_getElem? (i := 2 + (restriction.getD .plus).side) ?_
    rcases restriction with _ | _ | _ <;> rfl

theorem volume_mem_geometry (hname : target.cellSymbol "volume" restriction = .symbol name) :
    (name, .scalar (D.volume (target.sideOf restriction))) ∈ D.geometry target := by
  unfold geometry Target.sideOf
  unfold Target.cellSymbol at hname
  cases htype : target.integralType <;> simp only [htype] at hname ⊢ <;> cases hname
  case interiorFacet =>
    refine List.mem_of_getElem? (i := 4 + (restriction.getD .plus).side) ?_
    rcases restriction with _ | _ | _ <;> rfl
  all_goals simp

theorem entity_mem_geometry (hname : target.entity restriction = .symbol name) :
    (name, .number (D.entity target restriction)) ∈ D.geometry target := by
  unfold geometry entity Target.sideOf
  unfold Target.entity at hname
  cases htype : target.integralType <;> simp only [htype] at hname ⊢ <;> cases hname
  case interiorFacet =>
    refine List.mem_of_getElem? (i := (restriction.getD .plus).side) ?_
    rcases restriction with _ | _ | _ <;> rfl
  all_goals simp

end KernelData

/-! ## Names of tables -/

namespace Integral

variable {integral : Integral} {entry entry' : Nat × Integrand} {name : String}

/-- The names that belong to an integrand. -/
def namesOf (entry : Nat × Integrand) : List String :=
  Kernel.weightsName entry.1 :: Kernel.pointsName entry.1 :: entry.2.tables.keys

theorem tableNames_eq : integral.tableNames = integral.integrands.entries.flatMap namesOf := rfl

theorem eq_of_mem_namesOf (hnodup : integral.tableNames.Nodup)
    (hentry : entry ∈ integral.integrands.entries) (hentry' : entry' ∈ integral.integrands.entries)
    (hname : name ∈ namesOf entry) (hname' : name ∈ namesOf entry') : entry = entry' := by
  by_contra hne
  rw [tableNames_eq, List.nodup_flatMap] at hnodup
  have : Std.Symm (Function.onFun List.Disjoint namesOf) := ⟨fun _ _ h => h.symm⟩
  exact hnodup.2.forall hentry hentry' hne hname hname'

theorem nodup_namesOf (hnodup : integral.tableNames.Nodup)
    (hentry : entry ∈ integral.integrands.entries) : (namesOf entry).Nodup := by
  rw [tableNames_eq, List.nodup_flatMap] at hnodup
  exact hnodup.1 entry hentry

end Integral

namespace Kernel

open Integral (namesOf eq_of_mem_namesOf nodup_namesOf)

variable {K : Type} [Field K] {D : KernelData K} {integral : Integral} {name : String}

theorem nodup_weightInputs (hnodup : integral.tableNames.Nodup) :
    ((D.weightInputs integral).map Prod.fst).Nodup := by
  unfold KernelData.weightInputs
  rw [List.map_map]
  refine List.Nodup.map_on (fun entry hentry entry' hentry' hname => ?_)
    (integral.integrands.nodup_keys.of_map.filter _)
  have hfirst : weightsName entry.1 ∈ namesOf entry := List.mem_cons_self
  exact eq_of_mem_namesOf hnodup (List.mem_of_mem_filter hentry) (List.mem_of_mem_filter hentry')
    hfirst (List.mem_cons.2 (.inl hname))

theorem mem_registeredEntries {registered : Nat × QuadratureRule}
    (h : name ∈ (registeredEntries D.toInterpretation integral registered).map Prod.fst) :
    ∃ integrand, (registered.1, integrand) ∈ integral.integrands.entries ∧
      (name = weightsName registered.1 ∧ integrand.needWeights ∨
        name = pointsName registered.1) := by
  unfold registeredEntries at h
  cases hintegrand : integral.integrands.get? registered.1 with
  | none => simp [hintegrand] at h
  | some integrand =>
      refine ⟨integrand, OrderedMap.get?_eq_some_iff.1 hintegrand, ?_⟩
      simp only [hintegrand, ruleEntries, List.map_append, List.mem_append] at h
      refine h.imp (fun h => ?_) fun h => ?_ <;> split at h <;> simp_all

theorem nodup_registeredEntries (hnodup : integral.tableNames.Nodup)
    (registered : Nat × QuadratureRule) :
    ((registeredEntries D.toInterpretation integral registered).map Prod.fst).Nodup := by
  unfold registeredEntries
  cases hintegrand : integral.integrands.get? registered.1 with
  | none => exact List.nodup_nil
  | some integrand =>
      have hown := nodup_namesOf hnodup (OrderedMap.get?_eq_some_iff.1 hintegrand)
      refine hown.sublist ?_
      simp only [ruleEntries, namesOf]
      split <;> split <;> simp

theorem mem_rulesEntries (h : name ∈ (rulesEntries D.toInterpretation integral).map Prod.fst) :
    ∃ entry ∈ integral.integrands.entries,
      name = weightsName entry.1 ∧ integral.DeclaresWeights entry.2 ∨
        name = pointsName entry.1 := by
  unfold rulesEntries at h
  split at h
  next hstatic =>
    rw [List.map_flatMap] at h
    obtain ⟨registered, -, h⟩ := List.mem_flatMap.1 h
    obtain ⟨integrand, hmem, hname⟩ := mem_registeredEntries h
    exact ⟨_, hmem, hname.imp_left fun ⟨hname, hneeded⟩ => ⟨hname, hstatic, hneeded⟩⟩
  next => cases h

theorem nodup_rulesEntries (hnodup : integral.tableNames.Nodup) :
    ((rulesEntries D.toInterpretation integral).map Prod.fst).Nodup := by
  unfold rulesEntries
  split
  next =>
    rw [List.map_flatMap, List.nodup_flatMap]
    refine ⟨fun registered _ => nodup_registeredEntries hnodup registered, ?_⟩
    refine (List.pairwise_map.1 integral.rules.ascending).imp fun {first second} hlt => ?_
    intro name hfirst hsecond
    obtain ⟨integrand, hmem, hname⟩ := mem_registeredEntries hfirst
    obtain ⟨integrand', hmem', hname'⟩ := mem_registeredEntries hsecond
    have hown : name ∈ namesOf (first.1, integrand) := by
      rcases hname with ⟨rfl, -⟩ | rfl <;> simp [namesOf]
    have hown' : name ∈ namesOf (second.1, integrand') := by
      rcases hname' with ⟨rfl, -⟩ | rfl <;> simp [namesOf]
    exact hlt.ne (Prod.mk.inj (eq_of_mem_namesOf hnodup hmem hmem' hown hown')).1
  next => exact List.nodup_nil

theorem map_fst_elementEntries : (integral.integrands.entries.flatMap
    (integrandEntries D.toInterpretation ·.2)).map Prod.fst =
      integral.integrands.entries.flatMap fun entry => entry.2.tables.keys := by
  rw [List.map_flatMap]
  refine List.flatMap_congr fun entry _ => ?_
  rw [integrandEntries, List.map_map]
  rfl

theorem nodup_elementEntries (hnodup : integral.tableNames.Nodup) :
    (integral.integrands.entries.flatMap fun entry => entry.2.tables.keys).Nodup := by
  rw [Integral.tableNames_eq, List.nodup_flatMap] at hnodup
  refine List.nodup_flatMap.2 ⟨fun entry hentry => ?_, hnodup.2.imp fun hdisjoint => ?_⟩
  · exact (List.nodup_cons.1 (List.nodup_cons.1 (hnodup.1 entry hentry)).2).2
  · exact fun name h h' => hdisjoint (List.mem_cons_of_mem _ (List.mem_cons_of_mem _ h))
      (List.mem_cons_of_mem _ (List.mem_cons_of_mem _ h'))

theorem mem_weightInputs (h : name ∈ (D.weightInputs integral).map Prod.fst) :
    ∃ entry ∈ integral.integrands.entries,
      name = weightsName entry.1 ∧ ¬integral.DeclaresWeights entry.2 := by
  unfold KernelData.weightInputs at h
  rw [List.map_map] at h
  obtain ⟨entry, hentry, rfl⟩ := List.mem_map.1 h
  obtain ⟨hmem, hruntime⟩ := List.mem_filter.1 hentry
  exact ⟨entry, hmem, rfl, by simpa using hruntime⟩

theorem nodup_tableEntries (hnodup : integral.tableNames.Nodup) :
    ((D.weightInputs integral).map Prod.fst ++
      (tableEntries D.toInterpretation integral).map Prod.fst).Nodup := by
  have hsame : ∀ {entry entry' : Nat × Integrand} {name : String},
      entry ∈ integral.integrands.entries → entry' ∈ integral.integrands.entries →
      name ∈ namesOf entry → name ∈ namesOf entry' → entry = entry' := eq_of_mem_namesOf hnodup
  have hown : ∀ {entry : Nat × Integrand}, entry ∈ integral.integrands.entries →
      (namesOf entry).Nodup := nodup_namesOf hnodup
  unfold tableEntries
  rw [List.map_append, map_fst_elementEntries]
  refine List.nodup_append.2 ⟨nodup_weightInputs hnodup, List.nodup_append.2
    ⟨nodup_rulesEntries hnodup, nodup_elementEntries hnodup, ?_⟩, ?_⟩
  · rintro name hrule _ helement rfl
    obtain ⟨entry, hentry, hname⟩ := mem_rulesEntries hrule
    obtain ⟨entry', hentry', hkey⟩ := List.mem_flatMap.1 helement
    have hown' : name ∈ namesOf entry := by
      rcases hname with ⟨rfl, -⟩ | rfl <;> simp [namesOf]
    obtain rfl := hsame hentry hentry' hown' (by simp [namesOf, hkey])
    have hdistinct := hown hentry
    rcases hname with ⟨rfl, -⟩ | rfl <;> simp_all [namesOf]
  · rintro name hweight _ htable rfl
    obtain ⟨entry, hentry, rfl, hruntime⟩ := mem_weightInputs hweight
    have hfirst : weightsName entry.1 ∈ namesOf entry := List.mem_cons_self
    obtain hrule | helement := List.mem_append.1 htable
    · obtain ⟨entry', hentry', ⟨hname, hstatic⟩ | hname⟩ := mem_rulesEntries hrule
      · obtain rfl := hsame hentry hentry' hfirst (by simp [namesOf, hname])
        exact hruntime hstatic
      · obtain rfl := hsame hentry hentry' hfirst (by simp [namesOf, hname])
        have hdistinct := hown hentry
        simp_all [namesOf]
    · obtain ⟨entry', hentry', hkey⟩ := List.mem_flatMap.1 helement
      obtain rfl := hsame hentry hentry' hfirst (by simp [namesOf, hkey])
      have hdistinct := hown hentry
      simp_all [namesOf]

theorem mem_tableNames (h : name ∈ (D.weightInputs integral).map Prod.fst ++
      (tableEntries D.toInterpretation integral).map Prod.fst) :
    name ∈ integral.tableNames := by
  refine List.mem_flatMap.2 ?_
  obtain hweight | htable := List.mem_append.1 h
  · obtain ⟨entry, hentry, rfl, -⟩ := mem_weightInputs hweight
    exact ⟨entry, hentry, List.mem_cons_self⟩
  · unfold tableEntries at htable
    rw [List.map_append, map_fst_elementEntries] at htable
    obtain hrule | helement := List.mem_append.1 htable
    · obtain ⟨entry, hentry, hname⟩ := mem_rulesEntries hrule
      exact ⟨entry, hentry, by rcases hname with ⟨rfl, -⟩ | rfl <;> simp⟩
    · obtain ⟨entry, hentry, hkey⟩ := List.mem_flatMap.1 helement
      exact ⟨entry, hentry, List.mem_cons_of_mem _ (List.mem_cons_of_mem _ hkey)⟩

end Kernel

/-! ## What is visible -/

/-- Everything that is visible where the codes of the integrands start. -/
def KernelData.visible {K : Type} [Field K] (D : KernelData K) (target : Target)
    (integral : Integral) : Locals K :=
  (D.inputs target integral).setAll (Kernel.tableEntries D.toInterpretation integral)

namespace Setting

variable {K : Type} [Field K] (S : Setting K)

/-- The names and values that are visible where the code of an integrand starts. -/
def visibleEntries : List (String × Cell K) :=
  S.data.inputEntries S.target S.integral ++
    Kernel.tableEntries S.data.toInterpretation S.integral

theorem visible_eq :
    S.data.visible S.target S.integral = Locals.setAll (fun _ => none) S.visibleEntries := by
  rw [KernelData.visible, KernelData.inputs, visibleEntries, Locals.setAll, Locals.setAll,
    Locals.setAll, List.foldl_append]

theorem map_fst_visibleEntries : S.visibleEntries.map Prod.fst =
    "w" :: "coordinate_dofs" :: (S.target.geometryNames ++
      ((S.data.weightInputs S.integral).map Prod.fst ++
        (Kernel.tableEntries S.data.toInterpretation S.integral).map Prod.fst)) := by
  rw [visibleEntries, KernelData.inputEntries, List.map_append, List.map_cons, List.map_cons,
    List.map_append, KernelData.map_fst_geometry, List.cons_append, List.cons_append,
    List.append_assoc]

variable {S}

/-! ### Where the names come from -/

theorem mem_visible_geometry {entry : String × Cell K} (h : entry ∈ S.data.geometry S.target) :
    entry ∈ S.visibleEntries := by
  simp [visibleEntries, KernelData.inputEntries, h]

theorem mem_visible_weightInput (hruntime : ¬S.integral.DeclaresWeights S.integrand)
    (hmem : (S.pointCount, S.integrand) ∈ S.integral.integrands.entries) :
    (Kernel.weightsName S.pointCount, .vector (S.data.weight S.pointCount)) ∈
      S.visibleEntries := by
  have hweight : (Kernel.weightsName S.pointCount, .vector (S.data.weight S.pointCount)) ∈
      S.data.weightInputs S.integral :=
    List.mem_map.2 ⟨_, List.mem_filter.2 ⟨hmem, by simpa using hruntime⟩, rfl⟩
  simp [visibleEntries, KernelData.inputEntries, hweight]

theorem mem_visible_weightTable (hdeclares : S.integral.DeclaresWeights S.integrand)
    (hmem : (S.pointCount, S.integrand) ∈ S.integral.integrands.entries) {rule : QuadratureRule}
    (hrule : S.integral.rules.get? S.pointCount = some rule) :
    (Kernel.weightsName S.pointCount,
      .table S.data.toInterpretation [S.pointCount] rule.weights) ∈ S.visibleEntries := by
  refine List.mem_append_right _ (List.mem_append_left _ ?_)
  rw [Kernel.rulesEntries, if_pos hdeclares.1]
  refine List.mem_flatMap.2 ⟨_, OrderedMap.get?_eq_some_iff.1 hrule, ?_⟩
  rw [Kernel.registeredEntries, OrderedMap.get?_eq_some_iff.2 hmem]
  simp [Kernel.ruleEntries, hdeclares.2]

theorem mem_visible_table (hmem : (S.pointCount, S.integrand) ∈ S.integral.integrands.entries)
    {name : String} {table : ElementTable} (htable : S.integrand.tables.get? name = some table) :
    (name, .table S.data.toInterpretation table.shape.toList table.values) ∈
      S.visibleEntries := by
  refine List.mem_append_right _ (List.mem_append_right _ ?_)
  refine List.mem_flatMap.2 ⟨_, hmem, ?_⟩
  exact List.mem_map.2 ⟨_, OrderedMap.get?_eq_some_iff.1 htable, rfl⟩

namespace Consistent

variable (h : S.Consistent)

include h

/-- Names of inputs and tables are distinct, and none of them is declared again. -/
theorem nodup_visible : (Kernel.tensorName :: S.visibleEntries.map Prod.fst ++
    "iq" :: (S.innerCounters ++ S.ownNames)).Nodup := by
  have hperm : S.names.Perm (Kernel.tensorName :: "w" :: "coordinate_dofs" ::
      S.target.geometryNames ++ "iq" :: (S.innerCounters ++ S.ownNames) ++
        S.integral.tableNames) := by
    refine List.perm_iff_count.2 fun name => ?_
    simp only [Setting.names, innerCounters, Integral.counterNames, List.count_append,
      List.count_cons]
    omega
  have hnodup := hperm.nodup_iff.1 h.names
  obtain ⟨hothers, htables, hdisjoint⟩ := List.nodup_append.1 hnodup
  have hgoal : (Kernel.tensorName :: S.visibleEntries.map Prod.fst ++
      "iq" :: (S.innerCounters ++ S.ownNames)).Perm
      (Kernel.tensorName :: "w" :: "coordinate_dofs" ::
      S.target.geometryNames ++ "iq" :: (S.innerCounters ++ S.ownNames) ++
        ((S.data.weightInputs S.integral).map Prod.fst ++
          (Kernel.tableEntries S.data.toInterpretation S.integral).map Prod.fst)) := by
    rw [map_fst_visibleEntries]
    refine List.perm_iff_count.2 fun name => ?_
    simp only [List.count_append, List.count_cons]
    omega
  refine hgoal.nodup_iff.2 (List.nodup_append.2 ⟨hothers, Kernel.nodup_tableEntries htables, ?_⟩)
  intro name hother other htable
  exact hdisjoint name hother other (Kernel.mem_tableNames htable)

theorem visible_of_mem {name : String} {cell : Cell K} (hmem : (name, cell) ∈ S.visibleEntries) :
    S.data.visible S.target S.integral name = some cell := by
  rw [visible_eq]
  refine Locals.setAll_of_mem ?_ hmem
  exact (List.nodup_cons.1 (List.nodup_append.1 h.nodup_visible).1).2

theorem visible_own {name : String} (hmem : name ∈ "iq" :: (S.innerCounters ++ S.ownNames)) :
    S.data.visible S.target S.integral name = none := by
  rw [visible_eq, Locals.setAll_of_notMem]
  intro hvisible
  have hdisjoint := (List.nodup_append.1 h.nodup_visible).2.2
  exact hdisjoint name (List.mem_cons_of_mem _ hvisible) name hmem rfl

theorem provides_weights {options : KernelOptions} {rules : List Stmt}
    (hmem : (S.pointCount, S.integrand) ∈ S.integral.integrands.entries)
    (hrules : Kernel.quadratureTables options S.integral = .ok rules) :
    ∃ cell, S.data.visible S.target S.integral (Kernel.weightsName S.pointCount) = some cell ∧
      ∀ point < S.pointCount, cell.read [word point] = some (S.weight point) := by
  unfold Setting.weight
  split
  next hdeclares =>
    obtain ⟨hvalid, -⟩ := (Kernel.quadratureTables_decides options S.integral).ok rules hrules
    have hcomplete := hvalid hdeclares.1
    obtain ⟨rule, hrule⟩ := hcomplete.registered _ hmem
    have hlength : rule.weights.length = S.pointCount :=
      hcomplete.size _ (OrderedMap.get?_eq_some_iff.1 hrule)
    refine ⟨_, h.visible_of_mem (mem_visible_weightTable hdeclares hmem hrule), ?_⟩
    intro point hpoint
    have hweight : point < rule.weights.length := hlength ▸ hpoint
    simp [Cell.table, Cell.read, position, toNat_word (hpoint.trans_le h.pointCount), hpoint,
      hrule, hweight]
  next hruntime =>
    exact ⟨_, h.visible_of_mem (mem_visible_weightInput hruntime hmem), fun _ _ => rfl⟩

theorem provides {options : KernelOptions} {rules : List Stmt}
    (hmem : (S.pointCount, S.integrand) ∈ S.integral.integrands.entries)
    (hrules : Kernel.quadratureTables options S.integral = .ok rules) :
    S.Provides (S.data.visible S.target S.integral) where
  coefficients := h.visible_of_mem (by simp [visibleEntries, KernelData.inputEntries])
  coordinates := h.visible_of_mem (by simp [visibleEntries, KernelData.inputEntries])
  normal htype _ _ hname :=
    h.visible_of_mem (mem_visible_geometry (S.data.normal_mem_geometry htype hname))
  volume _ _ hname :=
    h.visible_of_mem (mem_visible_geometry (S.data.volume_mem_geometry hname))
  entity _ _ hname :=
    h.visible_of_mem (mem_visible_geometry (S.data.entity_mem_geometry hname))
  weights := h.provides_weights hmem hrules
  tables _ _ htable := h.visible_of_mem (mem_visible_table hmem htable)

end Consistent

end Setting

end ElementKernel
