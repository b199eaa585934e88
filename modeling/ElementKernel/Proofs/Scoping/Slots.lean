import ElementKernel.Proofs.Scoping.Codes
import ElementKernel.Proofs.Scoping.Order

/-!
# Slots

Operators store their values in the slots of an array of their partition.  The array is declared
where its partition is computed, each slot is assigned once and in order, and a slot is only read
after that.
-/

namespace ElementKernel

open Kernel

/-! ## Arrays of slots -/

/-- A node that stores its value in a slot. -/
def GraphNode.hasSlot : GraphNode → Bool
  | .operator op _ => !op.isCondition
  | .terminal _ => false

def Integrand.slotCount (integrand : Integrand) (partition : Partition) : Nat :=
  (integrand.partitionNodes partition).countP (·.2.hasSlot)

/-- The number of slots of a partition, none without an integrand for the number of points. -/
def Integral.slotCount (integral : Integral) (partition : Partition) (pointCount : Nat) : Nat :=
  ((integral.integrands.get? pointCount).map (·.slotCount partition)).getD 0

/-- The names of the tables that are declared or read. -/
def Integrand.tableNames (integrand : Integrand) : List String :=
  integrand.tables.keys ++ integrand.tableRanges.filterMap (·.map TableRange.table) ++
    Partition.all.flatMap fun partition =>
      (integrand.contributions.get partition).flatMap fun entry =>
        entry.2.flatMap fun contribution => contribution.ranges.map TableRange.table

/-- The names of arrays of slots. -/
def IsSlots (name : String) : Prop := ∃ partition pointCount, name = slotsName partition pointCount

namespace Kernel

/-- The assignments of values to the slots of an array. -/
def slotAssignments (array : String) (values : List Expr) : List Stmt :=
  values.mapIdx fun k value => .assign (slot array k) value

/-- The declaration of an array in front of the assignments to it, if there are any. -/
def slotText (decl : ArrayDecl) (assignments : List Stmt) : List Stmt :=
  if assignments.isEmpty then [] else .array decl :: assignments

/-- The declaration of an array that holds the given values and the assignments of them. -/
def slotStatements (options : KernelOptions) (array : String) (values : List Expr) : List Stmt :=
  slotText (slotArray options array values.length) (slotAssignments array values)

/-- A slot that is read has been assigned in an open block, after its array has been declared. -/
def SlotWritten (arrays : Partition → Nat → ArrayDecl) (before : List Stmt) (p : Expr) : Prop :=
  ∀ partition pointCount, p.root? = some (slotsName partition pointCount) →
    ∃ value, [.array (arrays partition pointCount), .assign p value].Sublist before

end Kernel

/-- The values that an array of slots is declared for are assigned to its slots, one after the
other and in the block that declares it, and all of this comes before a slot is read. -/
structure Stmt.SlotsSound (body : Stmt) (options : KernelOptions) (array : String)
    (values : List Expr) : Prop where
  changes : body.changes array = slotStatements options array values
  together : ∃ block, body.HasBlock block ∧ slotStatements options array values <:+: block
  written : ∀ run ∈ body.trace [], ∀ e ∈ run.2.needs, e.Reads fun p => p.root? = some array →
    ∃ value,
      [.array (slotArray options array values.length), .assign p value].Sublist run.1

/-! ## Statements without slots -/

theorem not_isSlots {name : String} {c : Char} (hname : name.toList.head? = some c) (hc : c ≠ 's') :
    ¬IsSlots name := by
  rintro ⟨partition, pointCount, rfl⟩
  exact ne_of_heads hname (head_slotsName partition pointCount) hc rfl

/-- An expression that reads no slot. -/
def Expr.SlotFree (e : Expr) : Prop := e.Reads fun p => ∀ name ∈ p.root?, ¬IsSlots name

/-- A statement that neither reads nor writes slots. -/
def Stmt.SlotFree (s : Stmt) : Prop :=
  s.Everywhere fun _ t => (∀ e ∈ t.needs, e.SlotFree) ∧ ∀ name ∈ t.changedName?, ¬IsSlots name

theorem Stmt.slotFree_array {decl : ArrayDecl} (h : ¬IsSlots decl.name) :
    (array decl).SlotFree := by
  refine everywhere_array.2 ⟨nofun, ?_⟩
  rintro _ ⟨⟩
  exact h

theorem ModifiedTerminal.not_isSlots_of_expansionName {t : ModifiedTerminal}
    {range? : Option TableRange} {name : String} (h : t.expansionName? range? = some name) :
    ¬IsSlots name := by
  obtain hhead | hhead | hhead := head_expansionName h
  · exact not_isSlots hhead (by decide)
  · exact not_isSlots hhead (by decide)
  · exact not_isSlots hhead (by decide)

theorem not_isSlots_of_input {pointCount : Nat} :
    ∀ name ∈ inputArrays pointCount, ¬IsSlots name := by
  have hweights := not_isSlots (head_weightsName pointCount) (by decide)
  simp only [inputArrays, List.forall_mem_cons, List.not_mem_nil, false_implies, implies_true,
    and_true]
  exact ⟨not_isSlots (c := 'w') rfl (by decide), not_isSlots (c := 'c') rfl (by decide),
    not_isSlots (c := 'n') rfl (by decide), not_isSlots (c := 'n') rfl (by decide),
    not_isSlots (c := 'n') rfl (by decide), hweights⟩

/-- A terminal refers to no slot, unless its table is named like one. -/
theorem ModifiedTerminal.Reading.slotFree {t : ModifiedTerminal} {range? : Option TableRange}
    {pointCount : Nat} {p : Expr} (h : t.Reading range? pointCount p)
    (htable : ∀ range ∈ range?, ¬IsSlots range.table) : ∀ name ∈ p.root?, ¬IsSlots name := by
  rintro name hname
  cases h with
  | point =>
      cases hname
      exact not_isSlots (c := 'i') rfl (by decide)
  | axis =>
      cases hname
      refine not_isSlots (c := 'i') ?_ (by decide)
      rw [String.toList_append]
      rfl
  | @scalar _ c hhead hc =>
      cases hname
      refine not_isSlots hhead ?_
      rintro rfl
      exact absurd hc (by decide)
  | table hrange =>
      cases hname
      exact htable _ hrange
  | input harray =>
      cases hname
      exact not_isSlots_of_input _ harray
  | row =>
      cases hname
      exact not_isSlots (c := 'w') rfl (by decide)

theorem Integrand.mem_tableNames_of_rangeOf {integrand : Integrand} {id : NodeId}
    {range : TableRange} (h : integrand.rangeOf id = some range) :
    range.table ∈ integrand.tableNames := by
  refine List.mem_append_left _ (List.mem_append_right _ ?_)
  refine List.mem_filterMap.2 ⟨some range, ?_, rfl⟩
  exact List.mem_of_getElem? (Option.join_eq_some_iff.1 h)

theorem Integrand.mem_tableNames_of_axis {integrand : Integrand} {partition : Partition}
    {entry : BlockEntry} (hentry : entry ∈ integrand.contributions.get partition)
    {contribution : BlockContribution} (hcontribution : contribution ∈ entry.2) {axis : Axis}
    (haxis : axis ∈ axes entry.1 contribution) : axis.range.table ∈ integrand.tableNames := by
  obtain ⟨⟨⟨bounds, range, argument⟩, position⟩, hzip, rfl⟩ := List.mem_map.1 haxis
  have hrange : range ∈ contribution.ranges :=
    (List.of_mem_zip (List.of_mem_zip (List.fst_mem_of_mem_zipIdx hzip)).2).1
  refine List.mem_append_right _ (List.mem_flatMap.2 ⟨partition, ?_, ?_⟩)
  · cases partition <;> decide
  · exact List.mem_flatMap.2 ⟨entry, hentry, List.mem_flatMap.2
      ⟨contribution, hcontribution, List.mem_map_of_mem hrange⟩⟩

namespace Kernel

open Stmt (RunReads changesAll directAll)

variable {target : Target} {integral : Integral} {options : KernelOptions} {pointCount : Nat}
  {integrand : Integrand} {partition : Partition} {arrays : Partition → Nat → ArrayDecl}
  {before after : List Stmt}

/-! ## Nodes -/

theorem SlotWritten.mono {p : Expr} (hafter : before.Sublist after)
    (h : SlotWritten arrays before p) : SlotWritten arrays after p :=
  fun partition pointCount hroot =>
    (h partition pointCount hroot).imp fun _ hbefore => hbefore.trans hafter

theorem slotWritten_of_slotFree {p : Expr} (h : ∀ name ∈ p.root?, ¬IsSlots name) :
    SlotWritten arrays before p :=
  fun partition pointCount hroot => absurd ⟨partition, pointCount, rfl⟩ (h _ hroot)

theorem slotText_sublist (decl : ArrayDecl) (assignments : List Stmt) :
    (slotText decl assignments).Sublist (.array decl :: assignments) := by
  unfold slotText
  split
  · exact List.nil_sublist _
  · exact List.Sublist.refl _

theorem slotText_concat (decl : ArrayDecl) (assignments : List Stmt) (s : Stmt) :
    slotText decl (assignments ++ [s]) = .array decl :: (assignments ++ [s]) := by
  simp [slotText]

theorem directAll_slotAssignments (array : String) (values : List Expr) :
    directAll (slotAssignments array values) = slotAssignments array values := by
  refine Stmt.directAll_eq_self fun s hs => ?_
  obtain ⟨k, hk, rfl⟩ := List.mem_mapIdx.1 hs
  rfl

/-- After some nodes of a partition, in front of which `before` has run, so many slots have been
assigned in order, and what is read has been written. -/
structure SlotsFilled (arrays : Partition → Nat → ArrayDecl) (before : List Stmt)
    (partition : Partition) (pointCount count : Nat) (state : PartitionState) : Prop where
  values : ∃ values, values.length = count ∧
    state.assignments = slotAssignments (slotsName partition pointCount) values
  run : RunReads (SlotWritten arrays) (before ++ [.array (arrays partition pointCount)])
    state.assignments
  reads : ∀ access ∈ state.accesses, access.2.Reads
    (SlotWritten arrays (before ++ slotText (arrays partition pointCount) state.assignments))

/-- A value is computed from slots that have been assigned before and assigned to the next one. -/
theorem SlotsFilled.assign {count : Nat} {state : PartitionState} {id : NodeId} {value : Expr}
    {operators : List Operator}
    (h : SlotsFilled arrays before partition pointCount count state)
    (hvalue : value.Reads
      (SlotWritten arrays (before ++ slotText (arrays partition pointCount) state.assignments))) :
    SlotsFilled arrays before partition pointCount (count + 1) { state with
      accesses := (id, slot (slotsName partition pointCount) state.assignments.length) ::
        state.accesses
      operators
      assignments := state.assignments ++
        [.assign (slot (slotsName partition pointCount) state.assignments.length) value] } := by
  obtain ⟨⟨values, rfl, hassignments⟩, hrun, hreads⟩ := h
  have hlength : state.assignments.length = values.length := by
    rw [hassignments, slotAssignments, List.length_mapIdx]
  have hbefore := slotText_sublist (arrays partition pointCount) state.assignments
  refine ⟨⟨values ++ [value], by simp, ?_⟩, Stmt.runReads_append.2 ⟨hrun, ?_⟩, ?_⟩
  · rw [slotAssignments, List.mapIdx_concat, hlength]
    exact congrArg (· ++ [_]) hassignments
  · refine Stmt.runReads_of_everywhere (fun hafter hp => hp.mono hafter)
      (List.forall_mem_singleton.2 (Stmt.everywhere_assign.2 ?_))
    refine List.forall_mem_cons.2 ⟨Expr.reads_int, List.forall_mem_singleton.2 ?_⟩
    refine hvalue.mono fun p hp => hp.mono ?_
    rw [hassignments, directAll_slotAssignments, ← hassignments, List.append_assoc]
    exact hbefore.append_left before
  · rw [slotText_concat]
    refine List.forall_mem_cons.2 ⟨reads_slot ?_, fun access hmem => ?_⟩
    · intro other m hroot
      obtain ⟨rfl, rfl⟩ := slotsName_inj (Option.some.inj hroot)
      refine ⟨value, List.Sublist.trans ?_ (List.sublist_append_right before _)⟩
      exact (List.sublist_append_right state.assignments _).cons_cons _
    · refine (hreads access hmem).mono fun p hp => hp.mono ?_
      refine (hbefore.trans ?_).append_left before
      exact (List.sublist_append_left state.assignments _).cons_cons _

theorem slotsFilled_partitionState {accesses : Accesses} {state : PartitionState}
    (htables : ∀ name ∈ integrand.tableNames, ¬IsSlots name)
    (haccesses : ∀ access ∈ accesses, access.2.Reads (SlotWritten arrays before))
    (h : partitionState target pointCount integrand partition accesses = .ok state) :
    SlotsFilled arrays before partition pointCount (integrand.slotCount partition) state := by
  refine foldlM_eq_ok_induction (P := fun done state =>
    SlotsFilled arrays before partition pointCount (done.countP (·.2.hasSlot)) state) h
    ⟨⟨[], rfl, rfl⟩, Stmt.runReads_nil, ?_⟩ ?_
  · simpa [slotText] using haccesses
  rintro done ⟨id, t | ⟨op, operands⟩⟩ rest state next - hdone hvisit
  · obtain ⟨e, definitions, he, -, rfl⟩ := visitTerminal_eq_ok hvisit
    rw [List.countP_append]
    refine ⟨hdone.values, hdone.run, List.forall_mem_cons.2 ⟨?_, hdone.reads⟩⟩
    refine (Target.reads_access he).mono fun p hp => slotWritten_of_slotFree (hp.slotFree ?_)
    exact fun range hrange => htables _ (Integrand.mem_tableNames_of_rangeOf hrange)
  · obtain ⟨arguments, e, harguments, he, hnext⟩ := visitOperator_eq_ok hvisit
    have hvalue := reads_operator hdone.reads harguments he
    obtain ⟨hcondition, rfl⟩ | ⟨hcondition, rfl⟩ := hnext
    · have hcount : (done ++ [(id, GraphNode.operator op operands)]).countP (·.2.hasSlot) =
          done.countP (·.2.hasSlot) := by
        simp [List.countP_append, GraphNode.hasSlot, hcondition]
      rw [hcount]
      exact ⟨hdone.values, hdone.run, List.forall_mem_cons.2 ⟨hvalue, hdone.reads⟩⟩
    · have hcount : (done ++ [(id, GraphNode.operator op operands)]).countP (·.2.hasSlot) =
          done.countP (·.2.hasSlot) + 1 := by
        simp [List.countP_append, GraphNode.hasSlot, hcondition]
      rw [hcount]
      exact hdone.assign hvalue

theorem slotFree_definitions {accesses : Accesses} {state : PartitionState}
    (htables : ∀ name ∈ integrand.tableNames, ¬IsSlots name)
    (h : partitionState target pointCount integrand partition accesses = .ok state) :
    ∀ s ∈ state.definitions, s.SlotFree := by
  intro s hs
  obtain ⟨id, t, name, -, hname, rfl | ⟨past, value, rfl, hvalue⟩⟩ := mem_definitions h s hs
  all_goals have hvariable := ModifiedTerminal.not_isSlots_of_expansionName hname
  · refine Stmt.everywhere_declare.2 ⟨List.forall_mem_singleton.2 Expr.reads_float, ?_⟩
    rintro _ ⟨⟩
    exact hvariable
  · refine Stmt.everywhere_forRange.2 ⟨⟨nofun, nofun⟩, List.forall_mem_singleton.2 ?_⟩
    refine Stmt.everywhere_assignAdd.2 ⟨List.forall_mem_cons.2 ⟨Expr.reads_symbol.2 ?_,
      List.forall_mem_singleton.2 (hvalue.mono ?_)⟩, ?_⟩
    · rintro _ ⟨⟩
      exact hvariable
    · rintro p (rfl | hp)
      · rintro _ ⟨⟩
        exact not_isSlots (c := 'i') rfl (by decide)
      · exact hp.slotFree fun range hrange =>
          htables _ (Integrand.mem_tableNames_of_rangeOf hrange)
    · rintro _ ⟨⟩
      exact hvariable

/-! ## Contributions -/

theorem slotFree_index (axis : Axis) : (axis.index pointCount).SlotFree := by
  unfold Axis.index
  split
  · refine Target.reads_pointIndex fun _ => ?_
    rintro _ ⟨⟩
    exact not_isSlots (c := 'i') rfl (by decide)
  · refine Expr.reads_symbol.2 ?_
    rintro _ ⟨⟩
    refine not_isSlots (c := 'i') ?_ (by decide)
    rw [String.toList_append]
    rfl

namespace CodeParts

variable (parts : CodeParts target integral pointCount integrand) (options : KernelOptions)
  (htables : ∀ name ∈ integrand.tableNames, ¬IsSlots name)

include htables

/-- Updates read the slots that their factors read and write none. -/
theorem everywhere_updates {P : Expr → Prop}
    (hfree : ∀ p, (∀ name ∈ p.root?, ¬IsSlots name) → P p)
    (haccesses : ∀ access ∈ (parts.state partition).accesses, access.2.Reads P) :
    ∀ s ∈ parts.updates partition, s.Everywhere fun _ t =>
      (∀ e ∈ t.needs, e.Reads P) ∧ ∀ name ∈ t.changedName?, ¬IsSlots name := by
  intro s hs
  obtain ⟨entry, hentry, contribution, hcontribution, hs⟩ :=
    mem_blockCode (parts.updates_eq partition) hs
  obtain ⟨position, factors, rfl, hposition, hfactors⟩ := reads_contributionCode hs haccesses
    (fun axis _ => (slotFree_index axis).mono hfree)
    (fun axis haxis t _ _ _ p hp => hfree p (hp.slotFree fun range hrange => by
      cases hrange
      exact htables _ (Integrand.mem_tableNames_of_axis hentry hcontribution haxis)))
  have htensor : ¬IsSlots tensorName := not_isSlots (c := 'A') rfl (by decide)
  refine everywhere_nest _ (fun _ _ _ _ _ => ⟨nofun, nofun⟩)
    (Stmt.everywhere_assignAdd.2 ⟨?_, ?_⟩)
  · refine List.forall_mem_cons.2 ⟨Expr.reads_access.2 ⟨hfree _ ?_,
      List.forall_mem_singleton.2 hposition⟩, List.forall_mem_singleton.2 ?_⟩
    · rintro _ ⟨⟩
      exact htensor
    · split
      · exact Expr.reads_float
      · exact Expr.reads_product.2 hfactors
  · rintro _ ⟨⟩
    exact htensor

/-! ## Integrands -/

theorem slotsFilled_piecewise (before : List Stmt) : SlotsFilled arrays before .piecewise pointCount
    (integrand.slotCount .piecewise) (parts.state .piecewise) :=
  slotsFilled_partitionState htables (List.forall_mem_nil _) parts.piecewise_eq

theorem slotsFilled_varying
    (h : ∀ access ∈ (parts.state .piecewise).accesses, access.2.Reads (SlotWritten arrays before)) :
    SlotsFilled arrays before .varying pointCount (integrand.slotCount .varying)
      (parts.state .varying) :=
  slotsFilled_partitionState htables h parts.varying_eq

/-- The statements of a partition end with the array of its slots. -/
theorem exists_values (partition : Partition) : ∃ values : List Expr,
    values.length = integrand.slotCount partition ∧
      (parts.state partition).assignments =
        slotAssignments (slotsName partition pointCount) values ∧
      ∀ options, parts.slots options partition =
        slotArray options (slotsName partition pointCount) values.length := by
  have hpiecewise : SlotsFilled (fun partition _ => parts.slots {} partition) [] .piecewise
      pointCount (integrand.slotCount .piecewise) (parts.state .piecewise) :=
    parts.slotsFilled_piecewise htables []
  have hfilled : ∃ values, values.length = integrand.slotCount partition ∧
      (parts.state partition).assignments =
        slotAssignments (slotsName partition pointCount) values := by
    cases partition with
    | piecewise => exact hpiecewise.values
    | varying => exact (parts.slotsFilled_varying htables hpiecewise.reads).values
  obtain ⟨values, hcount, hassignments⟩ := hfilled
  refine ⟨values, hcount, hassignments, fun options => ?_⟩
  rw [slots, hassignments, slotAssignments, List.length_mapIdx]

omit htables in
theorem statements_eq (partition : Partition) : parts.statements options partition =
    Stmt.commented [s!"Unstructured {partition.name} computations"]
      ((parts.state partition).definitions ++
        slotText (parts.slots options partition) (parts.state partition).assignments) := rfl

/-- The array of the slots of a partition is declared and assigned in one block. -/
theorem slotText_suffix (partition : Partition) :
    slotText (parts.slots options partition) (parts.state partition).assignments <:+
      directAll (parts.statements options partition) := by
  obtain ⟨values, -, hassignments, -⟩ := parts.exists_values htables partition
  have hdirect : directAll (slotText (parts.slots options partition)
      (parts.state partition).assignments) =
        slotText (parts.slots options partition) (parts.state partition).assignments := by
    unfold slotText
    split
    · rfl
    · rw [directAll, hassignments, directAll_slotAssignments]
      rfl
  rw [statements_eq]
  refine List.IsSuffix.trans ?_ (Stmt.directAll_suffix_commented _ _)
  rw [Stmt.directAll_append, hdirect]
  exact List.suffix_append _ _

/-- The statements of a partition read what has been written, and so does what comes after them. -/
theorem runReads_statements {count : Nat} (before : List Stmt)
    (hdecl : arrays partition pointCount = parts.slots options partition)
    (hfilled : ∀ after, before.Sublist after →
      SlotsFilled arrays after partition pointCount count (parts.state partition)) :
    RunReads (SlotWritten arrays) before (parts.statements options partition) ∧
      ∀ access ∈ (parts.state partition).accesses, access.2.Reads
        (SlotWritten arrays (before ++ directAll (parts.statements options partition))) := by
  constructor
  · rw [statements_eq]
    refine Stmt.runReads_commented fun after hafter => Stmt.runReads_append.2 ⟨?_, ?_⟩
    · refine Stmt.runReads_of_everywhere (fun hmore hp => hp.mono hmore) fun s hs => ?_
      refine (slotFree_definitions htables (parts.state_eq partition) s hs).mono ?_
      exact fun _ _ ht e he => (ht.1 e he).mono fun p hp => slotWritten_of_slotFree hp
    · have hrun := (hfilled _ (hafter.trans (List.sublist_append_left after
        (directAll (parts.state partition).definitions)))).run
      rw [hdecl] at hrun
      unfold slotText
      split
      · exact Stmt.runReads_nil
      · refine Stmt.runReads_cons.2 ⟨?_, hrun⟩
        simp [RunReads, Stmt.traceAll, Stmt.trace, Stmt.needs]
  · have hreads := (hfilled before (List.Sublist.refl _)).reads
    rw [hdecl] at hreads
    exact fun access hmem => (hreads access hmem).mono fun p hp =>
      hp.mono ((parts.slotText_suffix options htables partition).sublist.append_left before)

/-- Everything in the code of an integrand that reads a slot comes after the slot is written. -/
theorem runReads_code
    (hdecl : ∀ partition, arrays partition pointCount = parts.slots options partition)
    (before : List Stmt) : RunReads (SlotWritten arrays) before (parts.code options) := by
  have hupdates : ∀ (partition : Partition) (after : List Stmt),
      (∀ access ∈ (parts.state partition).accesses, access.2.Reads (SlotWritten arrays after)) →
        RunReads (SlotWritten arrays) after (parts.updates partition) :=
    fun partition after haccesses =>
      Stmt.runReads_of_everywhere (fun hmore hp => hp.mono hmore) fun s hs =>
        (parts.everywhere_updates htables (fun _ => slotWritten_of_slotFree) haccesses s hs).mono
          fun _ _ ht => ht.1
  obtain ⟨hstatements, haccesses⟩ := parts.runReads_statements options htables before
    (hdecl .piecewise) fun after _ => parts.slotsFilled_piecewise htables after
  -- In every round of the loop over the points, the piecewise slots are still there.
  have hbody : ∀ after, (before ++ directAll (parts.ahead options)).Sublist after →
      RunReads (SlotWritten arrays) after (parts.loopBody options) := by
    intro after hafter
    rw [ahead, Stmt.directAll_append, ← List.append_assoc] at hafter
    have hvarying : ∀ more, after.Sublist more → SlotsFilled arrays more .varying pointCount
        (integrand.slotCount .varying) (parts.state .varying) := by
      intro more hmore
      refine parts.slotsFilled_varying htables fun access hmem => (haccesses access hmem).mono ?_
      exact fun p hp => hp.mono (((List.sublist_append_left _ _).trans hafter).trans hmore)
    obtain ⟨-, hreads⟩ := parts.runReads_statements options htables after (hdecl .varying) hvarying
    refine Stmt.runReads_append.2 ⟨Stmt.runReads_commented fun more hmore => ?_, ?_⟩
    · exact (parts.runReads_statements options htables more (hdecl .varying)
        fun last hlast => hvarying last (hmore.trans hlast)).1
    · refine hupdates .varying _ fun access hmem => (hreads access hmem).mono fun p hp => ?_
      exact hp.mono ((Stmt.directAll_suffix_commented _ _).sublist.append_left after)
  refine Stmt.runReads_append.2 ⟨Stmt.runReads_append.2 ⟨hstatements, hupdates _ _ haccesses⟩, ?_⟩
  unfold quadratureLoop
  split
  · exact Stmt.runReads_nil
  · split
    · refine Stmt.runReads_cons.2 ⟨?_, Stmt.runReads_scope (hbody _ (List.sublist_append_left _ _))⟩
      simp [RunReads, Stmt.traceAll, Stmt.trace, Stmt.needs]
    · exact Stmt.runReads_forRange (hbody _ (List.Sublist.refl _))

theorem changesAll_statements (partition other : Partition) (m : Nat) :
    changesAll (slotsName other m) (parts.statements options partition) =
      if other = partition ∧ m = pointCount then
        slotText (parts.slots options partition) (parts.state partition).assignments
      else [] := by
  obtain ⟨values, -, hassignments, -⟩ := parts.exists_values htables partition
  -- The array and all assignments belong to the slots of the partition.
  have hsimple : ∀ s ∈ slotText (parts.slots options partition)
      (parts.state partition).assignments,
      s.placed = [([], s)] ∧ s.changedName? = some (slotsName partition pointCount) := by
    intro s hs
    rw [hassignments] at hs
    obtain rfl | hs := List.mem_cons.1 ((slotText_sublist _ _).subset hs)
    · exact ⟨rfl, rfl⟩
    · obtain ⟨k, hk, rfl⟩ := List.mem_mapIdx.1 hs
      exact ⟨rfl, rfl⟩
  have hdefinitions : changesAll (slotsName other m) (parts.state partition).definitions = [] := by
    refine Stmt.changesAll_eq_nil fun s hs => ?_
    refine (slotFree_definitions htables (parts.state_eq partition) s hs).mono ?_
    exact fun _ _ ht hname => ht.2 _ hname ⟨other, m, rfl⟩
  rw [statements_eq, Stmt.changesAll_commented, Stmt.changesAll_append, hdefinitions,
    List.nil_append]
  split
  next hsame =>
    obtain ⟨rfl, rfl⟩ := hsame
    exact Stmt.changesAll_eq_self hsimple
  next hdiffers =>
    refine Stmt.changesAll_eq_nil fun s hs => ?_
    obtain ⟨hplaced, hname⟩ := hsimple s hs
    rw [Stmt.Everywhere, hplaced, List.forall_mem_singleton, hname]
    exact fun hslots => hdiffers ⟨(slotsName_inj (Option.some.inj hslots)).1.symm,
      (slotsName_inj (Option.some.inj hslots)).2.symm⟩

/-- The code of an integrand changes the slots of its own number of points only. -/
theorem changesAll_code (partition : Partition) (m : Nat) :
    changesAll (slotsName partition m) (parts.code options) =
      if m = pointCount then
        slotText (parts.slots options partition) (parts.state partition).assignments
      else [] := by
  have hupdates : ∀ other, changesAll (slotsName partition m) (parts.updates other) = [] := by
    refine fun other => Stmt.changesAll_eq_nil fun s hs => ?_
    refine (parts.everywhere_updates (P := fun _ => True) htables (fun _ _ => trivial)
      (fun _ _ _ _ _ => trivial) s hs).mono ?_
    exact fun _ _ ht hname => ht.2 _ hname ⟨partition, m, rfl⟩
  have hloop : changesAll (slotsName partition m)
      (quadratureLoop pointCount (parts.loopBody options)) =
        changesAll (slotsName partition m) (parts.loopBody options) := by
    unfold quadratureLoop
    split
    next hempty => rw [List.isEmpty_iff.1 hempty]
    next =>
      split
      · rw [Stmt.changesAll_cons, Stmt.changesAll_cons, Stmt.changes_scope]
        exact List.append_nil _
      · rw [Stmt.changesAll_cons, Stmt.changes_forRange]
        exact List.append_nil _
  rw [code, ahead, Stmt.changesAll_append, Stmt.changesAll_append, hloop, loopBody,
    Stmt.changesAll_append, Stmt.changesAll_commented, hupdates, hupdates, List.append_nil,
    List.append_nil, parts.changesAll_statements options htables,
    parts.changesAll_statements options htables]
  cases partition <;> simp

/-- The array of slots and its assignments stand together in a block of the code. -/
theorem exists_block (partition : Partition) :
    slotText (parts.slots options partition) (parts.state partition).assignments <:+:
        directAll (parts.code options) ∨
      ∃ loops s body, (loops, s) ∈ Stmt.placedAll (parts.code options) ∧ s.block? = some body ∧
        slotText (parts.slots options partition) (parts.state partition).assignments <:+:
          directAll body := by
  have hstatements := (parts.slotText_suffix options htables partition).isInfix
  cases partition with
  | piecewise =>
      refine .inl (hstatements.trans ?_)
      rw [code, ahead, Stmt.directAll_append, Stmt.directAll_append, List.append_assoc]
      exact (List.prefix_append _ _).isInfix
  | varying =>
      have hbody : slotText (parts.slots options .varying) (parts.state .varying).assignments <:+:
          directAll (parts.loopBody options) := by
        refine hstatements.trans ?_
        rw [loopBody, Stmt.directAll_append]
        exact (Stmt.directAll_suffix_commented _ _).isInfix.trans
          (List.prefix_append _ _).isInfix
      rw [code, Stmt.placedAll_append]
      unfold quadratureLoop
      split
      next hempty =>
        rw [List.isEmpty_iff.1 hempty] at hbody
        rw [List.infix_nil.1 hbody]
        exact .inl List.nil_infix
      next =>
        split
        · refine .inr ⟨[], .scope (parts.loopBody options), _, ?_, rfl, hbody⟩
          simp [Stmt.placedAll, Stmt.placed]
        · refine .inr ⟨[], .forRange (pointIndex pointCount) 0 pointCount (parts.loopBody options),
            _, ?_, rfl, hbody⟩
          simp [Stmt.placedAll, Stmt.placed]

/-- What stands in front of the loop over the points reads no varying slot. -/
theorem everywhere_ahead : ∀ s ∈ parts.ahead options, s.Everywhere fun _ t =>
    ∀ e ∈ t.needs, e.Reads fun p => ∀ m, p.root? ≠ some (slotsName .varying m) := by
  have hfree : ∀ p : Expr, (∀ name ∈ p.root?, ¬IsSlots name) →
      ∀ m, p.root? ≠ some (slotsName .varying m) :=
    fun p hp m hroot => hp _ hroot ⟨.varying, m, rfl⟩
  obtain ⟨haccesses, hassignments⟩ := reads_partitionState
    (P := fun p => ∀ m, p.root? ≠ some (slotsName .varying m)) parts.piecewise_eq
    (List.forall_mem_nil _)
    (fun id t p _ hp => hfree p (hp.slotFree fun range hrange =>
      htables _ (Integrand.mem_tableNames_of_rangeOf hrange)))
    (fun k m hroot => nomatch (slotsName_inj (Option.some.inj hroot)).1)
  refine List.forall_mem_append.2 ⟨fun s hs => ?_, fun s hs => ?_⟩
  · obtain rfl | hs | rfl | hs := mem_statements hs
    · exact Stmt.everywhere_comment.2 nofun
    · refine (slotFree_definitions htables parts.piecewise_eq s hs).mono ?_
      exact fun _ _ ht e he => (ht.1 e he).mono hfree
    · exact Stmt.everywhere_array.2 nofun
    · obtain ⟨k, value, rfl, hvalue⟩ := hassignments s hs
      exact Stmt.everywhere_assign.2 (List.forall_mem_cons.2
        ⟨Expr.reads_int, List.forall_mem_singleton.2 hvalue⟩)
  · exact (parts.everywhere_updates htables hfree haccesses s hs).mono fun _ _ ht => ht.1

end CodeParts

/-! ## Kernels -/

/-- Of results for entries with distinct keys, only that for one key contributes. -/
theorem exists_flatMap_eq {κ α β γ : Type} {R : κ × α → β → Prop} {f : β → List γ}
    {entries : List (κ × α)} {results : List β} (h : List.Forall₂ R entries results)
    (hkeys : (entries.map Prod.fst).Nodup) {entry : κ × α} (hentry : entry ∈ entries)
    (hother : ∀ other result, R other result → other ∈ entries → other.1 ≠ entry.1 →
      f result = []) :
    ∃ result ∈ results, R entry result ∧ results.flatMap f = f result := by
  induction h with
  | nil => cases hentry
  | @cons first result rest results hfirst hrest ih =>
      obtain ⟨hnew, hkeys⟩ := List.nodup_cons.1 hkeys
      obtain rfl | hmem := List.mem_cons.1 hentry
      · refine ⟨result, List.mem_cons_self, hfirst, ?_⟩
        have hnone : results.flatMap f = [] := by
          refine List.flatMap_eq_nil_iff.2 fun later hlater => ?_
          obtain ⟨other, hmem, hR⟩ := exists_of_forall₂_right hrest hlater
          exact hother other later hR (List.mem_cons_of_mem _ hmem) fun heq =>
            hnew (heq ▸ List.mem_map_of_mem hmem)
        rw [List.flatMap_cons, hnone, List.append_nil]
      · obtain ⟨later, hlater, hR, heq⟩ := ih hkeys hmem fun other result hR hother' =>
          hother other result hR (List.mem_cons_of_mem _ hother')
        refine ⟨later, List.mem_cons_of_mem _ hlater, hR, ?_⟩
        rw [List.flatMap_cons, hother first result hfirst List.mem_cons_self fun heq =>
          hnew (heq ▸ List.mem_map_of_mem hmem), List.nil_append, heq]

theorem changesAll_joinCodes (name : String) (codes : List (List Stmt)) :
    changesAll name (joinCodes codes) = codes.flatMap (changesAll name) := by
  unfold joinCodes
  split
  · rw [changesAll, List.flatMap_map]
    exact List.flatMap_congr fun code _ => Stmt.changes_scope
  · exact Stmt.changesAll_flatten codes

theorem runReads_joinCodes {P : List Stmt → Expr → Prop} {codes : List (List Stmt)}
    (h : ∀ code ∈ codes, ∀ before, RunReads P before code) (before : List Stmt) :
    RunReads P before (joinCodes codes) := by
  unfold joinCodes
  split
  · rw [List.map_eq_flatMap]
    exact Stmt.runReads_flatMap (fun code hcode before =>
      Stmt.runReads_scope (h code hcode before)) before
  · rw [← List.flatMap_id]
    exact Stmt.runReads_flatMap h before

/-- What stands together directly in a code stands together in a block of the kernel. -/
theorem exists_block_joinCodes {codes : List (List Stmt)} {code front xs : List Stmt}
    (hcode : code ∈ codes) (h : xs <:+: directAll code) :
    ∃ block, (Stmt.list (front ++ joinCodes codes)).HasBlock block ∧ xs <:+: block := by
  unfold joinCodes
  split
  · refine ⟨directAll code, .inr ⟨[], .scope code, code, ?_, rfl, rfl⟩, h⟩
    rw [Stmt.placed, Stmt.placedAll_append]
    refine List.mem_cons_of_mem _ (List.mem_append_right _ (Stmt.mem_placedAll.2 ?_))
    exact ⟨.scope code, List.mem_map_of_mem hcode, Stmt.mem_placed_self _⟩
  · refine ⟨_, .inl rfl, h.trans ?_⟩
    rw [Stmt.direct, Stmt.directAll_append, Stmt.directAll_flatten, List.flatMap_def]
    exact (List.infix_of_mem_flatten (List.mem_map_of_mem hcode)).trans
      (List.suffix_append _ _).isInfix

end Kernel

namespace Integral

open Stmt (changesAll)

variable {integral : Integral} {target : Target} {options : KernelOptions}
  {kernel : GeneratedKernel}

/-- The arrays of slots for all numbers of points. -/
def slotArrays (integral : Integral) (options : KernelOptions) (partition : Partition)
    (pointCount : Nat) : ArrayDecl :=
  slotArray options (slotsName partition pointCount) (integral.slotCount partition pointCount)

section

variable (htables : ∀ entry ∈ integral.integrands.entries, ∀ name ∈ entry.2.tableNames,
  ¬IsSlots name)

include htables

theorem slotFree_tables {rules reset : List Stmt}
    (hrules : quadratureTables options integral = .ok rules)
    (hreset : tensorReset integral = .ok reset) :
    ∀ s ∈ rules ++ elementTables options integral ++ reset, s.SlotFree := by
  refine List.forall_mem_append.2 ⟨List.forall_mem_append.2 ⟨fun s hs => ?_, fun s hs => ?_⟩,
    fun s hs => ?_⟩
  · obtain ⟨text, rfl⟩ | ⟨decl, rfl⟩ := (mem_quadratureTables hrules).1 s hs
    · exact Stmt.everywhere_comment.2 ⟨nofun, nofun⟩
    · have hname := (mem_quadratureTables hrules).2.subset (Stmt.mem_declaredNames_of_array hs)
      obtain ⟨n, -, hname⟩ := List.mem_flatMap.1 hname
      obtain h | h := List.mem_pair.1 hname
      · exact Stmt.slotFree_array (h ▸ not_isSlots (head_weightsName n) (by decide))
      · exact Stmt.slotFree_array (h ▸ not_isSlots (head_pointsName n) (by decide))
  · obtain ⟨text, rfl⟩ | ⟨decl, rfl⟩ := mem_elementTables hs
    · exact Stmt.everywhere_comment.2 ⟨nofun, nofun⟩
    · have hname := Stmt.mem_declaredNames_of_array hs
      rw [declaredNames_elementTables] at hname
      obtain ⟨entry, hentry, hname⟩ := List.mem_flatMap.1 hname
      exact Stmt.slotFree_array (htables entry hentry _
        (List.mem_append_left _ (List.mem_append_left _ hname)))
  · have htensor : ¬IsSlots tensorName := not_isSlots (c := 'A') rfl (by decide)
    refine forall_mem_tensorReset hreset (fun _ => Stmt.everywhere_comment.2 ⟨nofun, nofun⟩) ?_
      (fun size => ?_) s hs
    · refine Stmt.everywhere_assign.2 ⟨List.forall_mem_cons.2 ⟨Expr.reads_int,
        List.forall_mem_singleton.2 Expr.reads_float⟩, ?_⟩
      rintro _ ⟨⟩
      exact htensor
    · refine Stmt.everywhere_zeroFill.2 ⟨nofun, ?_⟩
      rintro _ ⟨⟩
      exact htensor

theorem slotArrays_eq {entry : Nat × Integrand} (hentry : entry ∈ integral.integrands.entries)
    (parts : CodeParts target integral entry.1 entry.2) (partition : Partition) :
    integral.slotArrays options partition entry.1 = parts.slots options partition := by
  obtain ⟨values, hcount, -, hslots⟩ := parts.exists_values (htables entry hentry) partition
  rw [hslots, hcount, slotArrays, slotCount, OrderedMap.get?_eq_some_iff.2 hentry]
  rfl

/-- Whatever reads a slot in a run of the kernel comes after the slot is written. -/
theorem slotWritten_of_trace (h : integral.generate target options = .ok kernel) :
    ∀ run ∈ kernel.body.trace [], ∀ e ∈ run.2.needs,
      e.Reads (SlotWritten (integral.slotArrays options) run.1) := by
  obtain ⟨rules, reset, codes, hrules, hreset, hforall, hbody⟩ := exists_codes h
  rw [hbody, Stmt.trace]
  refine Stmt.runReads_append.2 ⟨?_, runReads_joinCodes (fun code hcode before => ?_) _⟩
  · refine Stmt.runReads_of_everywhere (fun hmore hp => hp.mono hmore) fun s hs => ?_
    refine (slotFree_tables htables hrules hreset s hs).mono ?_
    exact fun _ _ ht e he => (ht.1 e he).mono fun p hp => slotWritten_of_slotFree hp
  · obtain ⟨entry, hentry, parts, rfl⟩ := exists_of_forall₂_right hforall hcode
    exact parts.runReads_code options (htables entry hentry) (slotArrays_eq htables hentry parts)
      before

/-- The kernel changes the slots for a number of points in the code of its integrand, if there is
one. -/
theorem exists_slotStatements (h : integral.generate target options = .ok kernel)
    (partition : Partition) (pointCount : Nat) :
    ∃ values : List Expr, values.length = integral.slotCount partition pointCount ∧
      kernel.body.changes (slotsName partition pointCount) =
        slotStatements options (slotsName partition pointCount) values ∧
      ∃ block, kernel.body.HasBlock block ∧
        slotStatements options (slotsName partition pointCount) values <:+: block := by
  obtain ⟨rules, reset, codes, hrules, hreset, hforall, hbody⟩ := exists_codes h
  have htop : changesAll (slotsName partition pointCount)
      (rules ++ elementTables options integral ++ reset) = [] := by
    refine Stmt.changesAll_eq_nil fun s hs => ?_
    refine (slotFree_tables htables hrules hreset s hs).mono ?_
    exact fun _ _ ht hname => ht.2 _ hname ⟨partition, pointCount, rfl⟩
  -- An integrand for another number of points has other slots.
  have hother : ∀ entry code, integral.HasCode target options entry code →
      entry ∈ integral.integrands.entries → entry.1 ≠ pointCount →
        changesAll (slotsName partition pointCount) code = [] := by
    rintro entry code ⟨parts, rfl⟩ hentry hne
    rw [parts.changesAll_code options (htables entry hentry), if_neg (Ne.symm hne)]
  rw [hbody, Stmt.changes_list, Stmt.changesAll_append, htop, List.nil_append,
    changesAll_joinCodes]
  cases hget : integral.integrands.get? pointCount with
  | none =>
      refine ⟨[], by rw [slotCount, hget]; rfl, ?_, _, .inl rfl, List.nil_infix⟩
      refine List.flatMap_eq_nil_iff.2 fun code hcode => ?_
      obtain ⟨entry, hentry, hcode⟩ := exists_of_forall₂_right hforall hcode
      refine hother entry code hcode hentry ?_
      rintro rfl
      rw [OrderedMap.get?_eq_some_iff.2 hentry] at hget
      cases hget
  | some integrand =>
      have hentry := OrderedMap.get?_eq_some_iff.1 hget
      obtain ⟨_, hcode, ⟨parts, rfl⟩, hcodes⟩ := exists_flatMap_eq hforall
        integral.integrands.nodup_keys hentry fun other code hcode hmem hne =>
          hother other code hcode hmem hne
      obtain ⟨values, hcount, hassignments, hslots⟩ :=
        parts.exists_values (htables _ hentry) partition
      have htext : slotText (parts.slots options partition) (parts.state partition).assignments =
          slotStatements options (slotsName partition pointCount) values := by
        rw [hassignments, hslots]
        rfl
      refine ⟨values, by rw [hcount, slotCount, hget]; rfl, ?_, ?_⟩
      · rw [hcodes, parts.changesAll_code options (htables _ hentry), if_pos rfl, htext]
      · rw [← htext]
        obtain hdirect | ⟨loops, s, body, hplace, hblock, hbelow⟩ :=
          parts.exists_block options (htables _ hentry) partition
        · exact exists_block_joinCodes hcode hdirect
        · refine ⟨_, .inr ⟨loops, s, body, ?_, hblock, rfl⟩, hbelow⟩
          rw [Stmt.placed, Stmt.placedAll_append]
          exact List.mem_cons_of_mem _
            (List.mem_append_right _ (mem_placedAll_joinCodes hcode hplace))

end

/-- In a kernel, the array of slots of a partition is declared if and only if an operator of it has
a value to store, with so many slots.  Each slot is assigned once, in order and in the block of the
declaration, and slots are only read after that, those of the varying partition only inside of the
quadrature loop. -/
theorem generate_slotsSound (h : integral.generate target options = .ok kernel)
    (htables : ∀ entry ∈ integral.integrands.entries, ∀ name ∈ entry.2.tableNames, ¬IsSlots name) :
    (∀ partition pointCount, ∃ values : List Expr,
      values.length = integral.slotCount partition pointCount ∧
        kernel.body.SlotsSound options (slotsName partition pointCount) values) ∧
      ∀ entry ∈ integral.integrands.entries, ∀ parts : CodeParts target integral entry.1 entry.2,
        ∀ s ∈ parts.ahead options, s.Everywhere fun _ t => ∀ e ∈ t.needs,
          e.Reads fun p => ∀ pointCount, p.root? ≠ some (slotsName .varying pointCount) := by
  refine ⟨fun partition pointCount => ?_, fun entry hentry parts =>
    parts.everywhere_ahead options (htables entry hentry)⟩
  obtain ⟨values, hcount, hchanges, htogether⟩ :=
    exists_slotStatements htables h partition pointCount
  refine ⟨values, hcount, hchanges, htogether, fun run hrun e he => ?_⟩
  refine (slotWritten_of_trace htables h run hrun e he).mono fun p hp hroot => ?_
  rw [hcount]
  exact hp partition pointCount hroot

theorem generate_slotsSound_clipped : ∃ kernel,
    clippedIntegral.generate cellTarget {} = .ok kernel ∧
      ∃ values : List Expr, values.length = 1 ∧
        kernel.body.SlotsSound {} (slotsName .varying 2) values := by
  have hnames : ∀ name ∈ clipped.tableNames, name.toList.head? = some 'F' := by decide
  have htables : ∀ entry ∈ clippedIntegral.integrands.entries, ∀ name ∈ entry.2.tableNames,
      ¬IsSlots name := by
    intro entry hentry name hname
    obtain rfl := List.mem_singleton.1 hentry
    exact not_isSlots (hnames name hname) (by decide)
  obtain ⟨values, hcount, hsound⟩ := (generate_slotsSound generate_clipped htables).1 .varying 2
  exact ⟨clippedKernel, generate_clipped, values, hcount, hsound⟩

end Integral

end ElementKernel
