import ElementKernel.Kernel.Generation
import ElementKernel.Proofs.Execution.Blocks

/-!
# Code of an integrand

The piecewise partition is computed once, before the loop over the points.  What it computes does
not depend on the point, so the varying partition reads the same values at every point.
-/

namespace ElementKernel

open Execution
open Kernel (PartitionState)

theorem ModifiedTerminal.expansionName?_of_zeros (t : ModifiedTerminal) {range : TableRange}
    (h : range.type = .zeros) : t.expansionName? (some range) = none := by
  unfold expansionName?
  split <;> simp_all

theorem Kernel.range_mem_of_mem_axes {block : DofBlock} {contribution : BlockContribution}
    {axis : Axis} (h : axis ∈ axes block contribution) : axis.range ∈ contribution.ranges := by
  obtain ⟨⟨parts, k⟩, hmem, rfl⟩ := List.mem_map.1 h
  have hparts := List.mem_of_getElem? (List.mem_zipIdx_iff_getElem?.1 hmem)
  exact (List.of_mem_zip (List.of_mem_zip hparts).2).1

namespace Setting

variable {K : Type} [Field K] {S : Setting K} {L L' M : Locals K} {point size : Nat}
  {partition : Partition}

/-! ## Values that do not depend on the point -/

theorem tableEntry_eq {range : TableRange} (hconstant : range.type.isVarying = false)
    (hzeros : range.type ≠ .zeros) (restriction : Option Restriction) (point dof : Nat) :
    S.tableEntry range restriction point dof = S.tableEntry range restriction 0 dof := by
  unfold tableEntry TableRange.pointAt
  cases htype : range.type <;> simp_all [TableType.isVarying]

theorem terminalValue_eq {t : ModifiedTerminal} {range? : Option TableRange}
    (hweight : t.terminal ≠ .quadratureWeight)
    (hconstant : ∀ range, range? = some range → range.type.isVarying = false) (point : Nat) :
    S.terminalValue t range? point = S.terminalValue t range? 0 := by
  unfold terminalValue
  split
  · rfl
  next hzeros =>
    cases range? with
    | none => cases hterminal : t.terminal <;> simp_all
    | some range =>
        have hexpanded : ∀ f, S.expanded t range point f = S.expanded t range 0 f := by
          intro f
          refine Finset.sum_congr rfl fun dof _ => ?_
          rw [tableEntry_eq (hconstant range rfl) (by simpa using hzeros)]
        have htype : range.type ≠ .quadrature := by
          intro htype
          have hvarying := hconstant range rfl
          simp [htype, TableType.isVarying] at hvarying
        cases hterminal : t.terminal <;> simp_all

/-- Nodes that have been computed do not depend on the point. -/
def Constant (S : Setting K) (accesses : Accesses) : Prop :=
  ∀ id e, (id, e) ∈ accesses → ∀ point, S.nodeValue point id = S.nodeValue 0 id

theorem Constant.visit {state next : PartitionState} {slots : String} {id : NodeId}
    {node : GraphNode} (h : S.Constant state.accesses)
    (hnode : S.integrand.graph.get? id = some node)
    (hterminal : ∀ t, node = .terminal t → t.terminal ≠ .quadratureWeight ∧
      ∀ range, S.integrand.rangeOf id = some range → range.type.isVarying = false)
    (hvisit : Kernel.visit S.target S.pointCount slots S.integrand state (id, node) = .ok next) :
    S.Constant next.accesses := by
  have hcons : ∀ e, (∀ point, S.nodeValue point id = S.nodeValue 0 id) →
      S.Constant ((id, e) :: state.accesses) := by
    rintro e hid k e' (_ | ⟨_, hmem⟩)
    · exact hid
    · exact h k e' hmem
  cases node with
  | terminal t =>
      obtain ⟨access, -, hvisit⟩ := bind_eq_ok.1 hvisit
      obtain ⟨definitions, -, hvisit⟩ := bind_eq_ok.1 hvisit
      cases hvisit
      obtain ⟨hweight, hconstant⟩ := hterminal t rfl
      refine hcons access fun point => ?_
      rw [nodeValue_terminal hnode, nodeValue_terminal hnode, terminalValue_eq hweight hconstant]
  | operator op operands =>
      obtain ⟨arguments, e, harguments, -, hnext⟩ := Kernel.visitOperator_eq_ok hvisit
      have hoperand : ∀ operand ∈ operands, ∃ e, operand < id ∧ (operand, e) ∈ state.accesses := by
        intro operand hmem
        obtain ⟨e, -, he⟩ := exists_mem_of_mapM_left harguments hmem
        exact ⟨e, Kernel.operandAccess_eq_ok he⟩
      have hid : ∀ point, S.nodeValue point id = S.nodeValue 0 id := by
        intro point
        have hlt : ∀ operand ∈ operands, operand < id := fun operand hmem =>
          (hoperand operand hmem).choose_spec.1
        rw [nodeValue_operator hnode hlt, nodeValue_operator hnode hlt]
        congr 1
        refine List.map_congr_left fun operand hmem => ?_
        obtain ⟨e, -, he⟩ := hoperand operand hmem
        exact h operand e he point
      obtain ⟨-, rfl⟩ | ⟨-, rfl⟩ := hnext
      · exact hcons e hid
      · exact hcons _ hid

/-! ## What consistency provides -/

theorem atPoint_of_one (hone : S.pointCount = 1) (hpoint : point = 0) : S.AtPoint L point := by
  rw [AtPoint, Kernel.pointIndex, if_pos hone, hpoint]
  exact index_signed 0

namespace Consistent

variable (h : S.Consistent)

include h

/-- The piecewise nodes do not depend on the point. -/
theorem constant {state : PartitionState}
    (hstate : Kernel.partitionState S.target S.pointCount S.integrand .piecewise [] = .ok state) :
    S.Constant state.accesses := by
  have hfold : ∀ (rest : List (NodeId × GraphNode)) (before : PartitionState),
      (∀ entry ∈ rest, entry ∈ S.integrand.partitionNodes .piecewise) →
      S.Constant before.accesses →
      rest.foldlM (Kernel.visit S.target S.pointCount
        (Kernel.slotsName .piecewise S.pointCount) S.integrand) before = .ok state →
      S.Constant state.accesses := by
    intro rest
    induction rest with
    | nil =>
        rintro before - hbefore hrest
        cases hrest
        exact hbefore
    | cons entry rest ih =>
        intro before hnodes hbefore hrest
        obtain ⟨id, node⟩ := entry
        rw [List.foldlM_cons] at hrest
        obtain ⟨next, hnext, hrest⟩ := bind_eq_ok.1 hrest
        have hmem := hnodes _ List.mem_cons_self
        refine ih next (fun other hother => hnodes other (List.mem_cons_of_mem _ hother))
          (hbefore.visit (Integrand.mem_partitionNodes_iff.1 hmem).1 ?_ hnext) hrest
        rintro t rfl
        exact ⟨h.noWeight id t hmem, h.constantRanges id t hmem⟩
  exact hfold _ _ (fun _ hmem => hmem) (fun _ _ hmem => absurd hmem List.not_mem_nil) hstate

theorem readable (hearly : ¬S.ReadsEarly) (hstands : S.Stands partition L point) {id : NodeId}
    {t : ModifiedTerminal} (hmem : (id, .terminal t) ∈ S.integrand.partitionNodes partition) :
    S.ReadableAt L point t (S.integrand.rangeOf id) := by
  refine ⟨h.noArgument partition id t hmem, fun hweight => ?_, fun range hrange htype => ?_,
    fun range hrange hname => h.tables partition id t hmem range hrange hname point
      hstands.inRounds, fun range hrange hname hlt hpiecewise hfixed => ?_⟩
  · cases partition with
    | piecewise => exact absurd hweight (h.noWeight id t hmem)
    | varying => exact ⟨hstands.inRounds, hstands.atPoint rfl⟩
  · cases partition with
    | piecewise =>
        have hconstant := h.constantRanges id t hmem range hrange
        simp [htype, TableType.isVarying] at hconstant
    | varying => exact hstands.atPoint rfl
  · cases partition with
    | varying => exact hstands.atPoint rfl
    | piecewise =>
        have hconstant := h.constantRanges id t hmem range hrange
        have hzeros : range.type ≠ .zeros := fun hzeros => by
          rw [t.expansionName?_of_zeros hzeros] at hname
          cases hname
        have hones : range.type = .ones := by
          cases htype : range.type <;> simp_all [TableType.isVarying]
        by_cases hone : S.pointCount = 1
        · exact atPoint_of_one hone (Nat.lt_one_iff.1 hstands.inRounds)
        · exact absurd ⟨hone, id, t, range, hmem, hrange, hones, hlt, hname⟩ hearly

theorem axesConsistent : ∀ entry ∈ S.integrand.contributions.get partition,
    ∀ contribution ∈ entry.2, S.AxesConsistent partition (Kernel.axes entry.1 contribution) := by
  intro entry hentry contribution hcontribution axis haxis
  refine ⟨h.axes partition entry hentry contribution hcontribution axis haxis, ?_⟩
  rintro rfl
  refine h.constantBlocks entry hentry contribution hcontribution axis.range ?_
  exact Kernel.range_mem_of_mem_axes haxis

end Consistent

/-! ## Names -/

/-- The counters of the loops inside of the loop over the points. -/
def innerCounters (S : Setting K) : List String :=
  "ic" :: (List.range S.integral.tensorShape.length).map fun axis => s!"ia{axis}"

theorem Consistent.nodup_own (h : S.Consistent) :
    (Kernel.tensorName :: "iq" :: (S.innerCounters ++ S.ownNames)).Nodup := by
  refine h.names.sublist ?_
  unfold Setting.names innerCounters Integral.counterNames
  refine .cons_cons _ (.cons _ (.cons _ ?_))
  rw [List.append_assoc, List.append_assoc]
  refine List.sublist_append_of_sublist_right ?_
  refine .cons_cons _ (.cons_cons _ ?_)
  exact (List.Sublist.refl _).append (List.sublist_append_of_sublist_right (.refl _))

theorem Consistent.ready (h : S.Consistent)
    (hfree : ∀ name ∈ S.innerCounters ++ Kernel.slotsName partition S.pointCount ::
      S.integrand.variables partition, L name = none) : S.Ready partition L where
  hidden name hmem := by
    refine hfree name ?_
    unfold innerCounters
    obtain rfl | hmem := List.mem_cons.1 hmem
    · simp
    · exact List.mem_append_right _ hmem
  nodup := by
    refine h.nodup_own.sublist (.cons_cons _ (.cons _ (.cons_cons _ ?_)))
    refine List.sublist_append_of_sublist_right ?_
    unfold ownNames
    cases partition with
    | piecewise => exact .cons_cons _ (.cons _ (List.sublist_append_left _ _))
    | varying => exact .cons _ (.cons_cons _ (List.sublist_append_right _ _))

theorem mem_ownNames {name : String}
    (h : name ∈ Kernel.slotsName partition S.pointCount :: S.integrand.variables partition) :
    name ∈ S.ownNames := by
  unfold ownNames
  cases partition <;> simp only [List.mem_cons, List.mem_append] at h ⊢ <;> tauto

theorem Consistent.counter_notMem (h : S.Consistent) {name : String}
    (hmem : name ∈ S.innerCounters) :
    name ∉ Kernel.slotsName partition S.pointCount :: S.integrand.variables partition := by
  have hnodup := (List.nodup_cons.1 (List.nodup_cons.1 h.nodup_own).2).2
  exact fun hown => (List.nodup_append.1 hnodup).2.2 name hmem name (mem_ownNames hown) rfl

theorem Consistent.ne_iq (h : S.Consistent) {name : String}
    (hmem : name ∈ S.innerCounters ++ S.ownNames) : name ≠ "iq" := by
  rintro rfl
  exact (List.nodup_cons.1 (List.nodup_cons.1 h.nodup_own).2).1 hmem

/-- What the piecewise partition declares is not used by anything else. -/
theorem Consistent.notMem_piecewise (h : S.Consistent) {name : String}
    (hmem : name ∈ "iq" :: (S.innerCounters ++ Kernel.slotsName .varying S.pointCount ::
      S.integrand.variables .varying)) :
    name ∉ Kernel.slotsName .piecewise S.pointCount :: S.integrand.variables .piecewise := by
  have hperm : ("iq" :: (S.innerCounters ++ S.ownNames)).Perm
      (("iq" :: (S.innerCounters ++ Kernel.slotsName .varying S.pointCount ::
        S.integrand.variables .varying)) ++
        Kernel.slotsName .piecewise S.pointCount :: S.integrand.variables .piecewise) := by
    refine List.perm_iff_count.2 fun other => ?_
    simp only [ownNames, List.count_append, List.count_cons]
    omega
  have hnodup := hperm.nodup_iff.1 (List.nodup_cons.1 h.nodup_own).2
  exact fun hother => (List.nodup_append.1 hnodup).2.2 name hmem name hother rfl

/-! ## The loop over the points -/

/-- What is visible at a point.  A single point has no counter. -/
def localsAt (S : Setting K) (L : Locals K) (point : Nat) : Locals K :=
  if S.pointCount = 1 then L else L.set "iq" (.number (word point))

theorem atPoint_localsAt (L : Locals K) (hpoint : point < S.pointCount) :
    S.AtPoint (S.localsAt L point) point := by
  by_cases hone : S.pointCount = 1
  · exact atPoint_of_one hone (by omega)
  · rw [localsAt, AtPoint, Kernel.pointIndex, if_neg hone, if_neg hone]
    exact index_symbol Locals.set_same

theorem adds_quadratureLoop (body : List Stmt) {f : Nat → List Nat → K} (hiq : L "iq" = none)
    (hbody : ∀ point < S.pointCount, ∃ M δ,
      Runs S.data.toInterpretation S.integral.tensorShape.prod (S.localsAt L point) body M δ ∧
        (S.localsAt L point).Extends M ∧
        ∀ js p, position S.integral.tensorShape js = some p → δ p = f point js) :
    S.Adds L (Kernel.quadratureLoop S.pointCount body)
      fun js => ∑ point ∈ Finset.range S.pointCount, f point js := by
  unfold Kernel.quadratureLoop
  split
  next hempty =>
    refine ⟨0, Runs.nil, fun js p hp => (Finset.sum_eq_zero fun point hpoint => ?_).symm⟩
    obtain ⟨M, δ, hrun, -, hδ⟩ := hbody point (Finset.mem_range.1 hpoint)
    rw [List.isEmpty_iff.1 hempty] at hrun
    rw [← hδ js p hp, (hrun.result_unique Runs.nil).2, Pi.zero_apply]
  next =>
    split
    next hone =>
      obtain ⟨M, δ, hrun, hextends, hδ⟩ := hbody 0 (by omega)
      rw [localsAt, if_pos hone] at hrun hextends
      refine ⟨δ, (Runs.comment _).cons_zero (hrun.scope hextends), fun js p hp => ?_⟩
      simp only [hδ js p hp, hone, Finset.sum_range_one]
    next hone =>
      simp only [localsAt, if_neg hone] at hbody
      rw [Kernel.pointIndex, if_neg hone, Finset.range_eq_Ico]
      exact Adds.loop (by decide) hiq fun point _ hpoint => hbody point hpoint

/-! ## The whole integrand -/

theorem Consistent.length_partitionNodes_le (h : S.Consistent) (partition : Partition) :
    (S.integrand.partitionNodes partition).length ≤ Word.limit := by
  refine (List.length_filter_le _ _).trans ?_
  rw [← List.length_map (f := Prod.fst), ExpressionGraph.map_fst_entries, List.length_range]
  exact h.nodeCount

/-- The nodes of a partition are computed and its blocks are added. -/
theorem runs_stage (alignment : Option Nat) {accesses : Accesses} {state : PartitionState}
    {updates : List Stmt} (h : S.Consistent) (hearly : ¬S.ReadsEarly) (hfit : S.integrand.TablesFit)
    (hlimit : S.integral.tensorShape.prod ≤ Word.limit) (hprovides : S.Provides L)
    (hfree : ∀ name ∈ S.innerCounters ++ Kernel.slotsName partition S.pointCount ::
      S.integrand.variables partition, L name = none)
    (hstands : S.Stands partition L point)
    (haccesses : ∀ id e, (id, e) ∈ accesses → ∀ M, L.Extends M →
      value S.data.toInterpretation M e = some (S.nodeValue point id))
    (hstate : Kernel.partitionState S.target S.pointCount S.integrand partition accesses =
      .ok state)
    (hupdates : Kernel.blockCode S.target S.integral S.pointCount S.integrand partition
      state.accesses = .ok updates) :
    ∃ L', Runs S.data.toInterpretation S.integral.tensorShape.prod L
        (state.statements partition (Kernel.slotsName partition S.pointCount) alignment) L' 0 ∧
      S.Adds L' updates (S.partitionValue partition point) ∧ L.Extends L' ∧
      (∀ name, L name = none → name ∉ Kernel.slotsName partition S.pointCount ::
        S.integrand.variables partition → L' name = none) ∧
      ∀ id e, (id, e) ∈ state.accesses → ∀ M, L'.Extends M →
        value S.data.toInterpretation M e = some (S.nodeValue point id) := by
  obtain ⟨L', hrun, hextends, hhidden, hreads⟩ := runs_partition
    S.integral.tensorShape.prod alignment haccesses (h.ready hfree) hprovides hfit
    (fun id t hmem => h.readable hearly hstands hmem) (h.length_partitionNodes_le _) hstate
  have hready : S.BlocksReady partition state.accesses L' point := by
    refine ⟨hprovides.extend hextends, hfit, hstands.extend hextends, hreads,
      fun axis haxis => ?_, ?_, hlimit⟩
    · have hmem : s!"ia{axis}" ∈ S.innerCounters :=
        List.mem_cons_of_mem _ (List.mem_map_of_mem (List.mem_range.2 haxis))
      exact hhidden _ (hfree _ (List.mem_append_left _ hmem)) (h.counter_notMem hmem)
    · have hnodup := (List.nodup_cons.1 (List.nodup_cons.1 h.nodup_own).2).2
      exact (List.nodup_cons.1 (List.nodup_append.1 hnodup).1).2
  exact ⟨L', hrun, adds_blocks hready h.axesConsistent hupdates, hextends, hhidden, hreads⟩

/-- The code of an integrand adds its values. -/
theorem runs_integrand {options : KernelOptions} {code : List Stmt} {operators : List Operator}
    (h : S.Consistent) (hearly : ¬S.ReadsEarly) (hfit : S.integrand.TablesFit)
    (hlimit : S.integral.tensorShape.prod ≤ Word.limit) (hprovides : S.Provides L)
    (hfree : ∀ name ∈ "iq" :: (S.innerCounters ++ S.ownNames), L name = none)
    (hcode : Kernel.integrandCode S.target options S.integral S.pointCount S.integrand =
      .ok (code, operators)) :
    ∃ L' δ, Runs S.data.toInterpretation S.integral.tensorShape.prod L code L' δ ∧ L.Extends L' ∧
      ∀ js p, position S.integral.tensorShape js = some p → δ p = S.integrandValue js := by
  obtain ⟨piecewise, hpiecewise, hcode⟩ := bind_eq_ok.1 hcode
  obtain ⟨piecewiseUpdates, hpiecewiseUpdates, hcode⟩ := bind_eq_ok.1 hcode
  obtain ⟨varying, hvarying, hcode⟩ := bind_eq_ok.1 hcode
  obtain ⟨updates, hupdates, hcode⟩ := bind_eq_ok.1 hcode
  cases hcode
  have hinner : ∀ partition, ∀ name ∈ S.innerCounters ++
      Kernel.slotsName partition S.pointCount :: S.integrand.variables partition,
      name ∈ S.innerCounters ++ S.ownNames := fun partition name hmem =>
    List.mem_append.2 ((List.mem_append.1 hmem).imp_right mem_ownNames)
  have hstands : S.Stands .piecewise L 0 := ⟨Nat.one_pos, fun hvarying => nomatch hvarying⟩
  obtain ⟨L₁, hrun, ⟨δ, hadds, hδ⟩, hextends, hhidden, hreads⟩ := runs_stage options.alignment
    h hearly hfit hlimit hprovides
    (fun name hmem => hfree name (List.mem_cons_of_mem _ (hinner _ name hmem))) hstands
    (fun id e hmem => absurd hmem List.not_mem_nil) hpiecewise hpiecewiseUpdates
  have hfree₁ : ∀ name ∈ "iq" :: (S.innerCounters ++ Kernel.slotsName .varying S.pointCount ::
      S.integrand.variables .varying), L₁ name = none := by
    intro name hmem
    refine hhidden name (hfree name ?_) (h.notMem_piecewise hmem)
    exact List.mem_cons.2 ((List.mem_cons.1 hmem).imp_right (hinner _ name))
  have hloop := adds_quadratureLoop (S := S)
    (Stmt.commented [s!"Quadrature loop body setup (num_points={S.pointCount})"]
      (varying.statements .varying (Kernel.slotsName .varying S.pointCount) options.alignment) ++
      updates) (f := S.partitionValue .varying) (hfree₁ "iq" List.mem_cons_self) ?_
  · obtain ⟨ε, hloop, hε⟩ := hloop
    refine ⟨L₁, _, (hrun.append_zero hadds).append hloop, hextends, fun js p hp => ?_⟩
    rw [Pi.add_apply, hδ js p hp, hε js p hp, integrandValue]
  · intro point hpoint
    have hextends₁ : L₁.Extends (S.localsAt L₁ point) := by
      unfold localsAt
      split
      · exact .refl L₁
      · exact Locals.extends_set (hfree₁ "iq" List.mem_cons_self) _
    have hfree₂ : ∀ name ∈ S.innerCounters ++ Kernel.slotsName .varying S.pointCount ::
        S.integrand.variables .varying, S.localsAt L₁ point name = none := by
      intro name hmem
      unfold localsAt
      split
      · exact hfree₁ name (List.mem_cons_of_mem _ hmem)
      · rw [Locals.set_of_ne (h.ne_iq (hinner _ name hmem))]
        exact hfree₁ name (List.mem_cons_of_mem _ hmem)
    have hreads₂ : ∀ id e, (id, e) ∈ piecewise.accesses → ∀ M,
        (S.localsAt L₁ point).Extends M →
        value S.data.toInterpretation M e = some (S.nodeValue point id) := by
      intro id e hmem M hM
      rw [h.constant hpiecewise id e hmem]
      exact hreads id e hmem M (hextends₁.trans hM)
    obtain ⟨L₂, hrun, ⟨ε, hadds, hε⟩, hextends₂, -, -⟩ := runs_stage options.alignment
      h hearly hfit hlimit ((hprovides.extend hextends).extend hextends₁) hfree₂
      ⟨hpoint, fun _ => atPoint_localsAt L₁ hpoint⟩ hreads₂ hvarying hupdates
    exact ⟨L₂, ε, (hrun.commented _).append_zero hadds, hextends₂, hε⟩

end Setting

end ElementKernel
