import ElementKernel.Kernel.PartitionCode
import ElementKernel.Proofs.Execution.Operators
import ElementKernel.Proofs.Execution.Terminals

/-!
# Code of a partition

The nodes of a partition are visited in order.  `Computed` says what the code made so far does: its
definitions leave the variables of the terminals visible, its assignments fill the slots one after
the other, and whatever has been computed is read by its expression.
-/

namespace ElementKernel

open Execution
open Kernel (PartitionState)

namespace Kernel

theorem operandAccess_eq_ok {accesses : Accesses} {id operand : NodeId} {e : Expr}
    (h : operandAccess accesses id operand = .ok e) :
    operand < id ∧ (operand, e) ∈ accesses := by
  unfold operandAccess at h
  split at h
  · cases h
  next hlt =>
    split at h
    next e' hlookup =>
      cases h
      obtain ⟨before, after, haccesses, -⟩ := List.lookup_eq_some_iff.1 hlookup
      exact ⟨Nat.lt_of_not_le hlt, by simp [haccesses]⟩
    · cases h

/-- A condition is written into its uses, and any other operator is assigned to the next slot. -/
theorem visitOperator_eq_ok {target : Target} {slots : String} {state next : PartitionState}
    {id : NodeId} {op : Operator} {operands : List NodeId}
    (h : visitOperator target slots state id op operands = .ok next) :
    ∃ arguments e, operands.mapM (operandAccess state.accesses id) = .ok arguments ∧
      op.expression arguments target.dialect = .ok e ∧
      (op.isCondition = true ∧ next = { state with
          accesses := (id, e) :: state.accesses
          operators := op :: state.operators } ∨
        op.isCondition = false ∧ next = { state with
          accesses :=
            (id, .entry (.symbol slots) (.int state.assignments.length)) :: state.accesses
          operators := op :: state.operators
          assignments := state.assignments ++
            [.assign (.entry (.symbol slots) (.int state.assignments.length)) e] }) := by
  unfold visitOperator at h
  split at h
  · cases h
  next arguments harguments =>
    split at h
    · cases h
    next e he =>
      refine ⟨arguments, e, harguments, he, ?_⟩
      split at h
      next hcondition =>
        cases h
        exact .inl ⟨hcondition, rfl⟩
      next hcondition =>
        cases h
        exact .inr ⟨by simpa using hcondition, rfl⟩

end Kernel

/-- The array of slots holds the values that have been assigned to it. -/
def Execution.Holds {K : Type} (M : Locals K) (slots : String) (entries : List K) : Prop :=
  ∀ k v, entries[k]? = some v → ∃ count entry, M slots = some (.array false [count] entry) ∧
    k < count ∧ entry k = some v

theorem Execution.Holds.set {K : Type} {M : Locals K} {slots : String} {entries : List K}
    {count : Nat} (h : entries.length ≤ count) :
    Holds (M.set slots (.array false [count] fun k => entries[k]?)) slots entries :=
  fun _ _ hk =>
    ⟨count, _, Locals.set_same, (List.getElem?_eq_some_iff.1 hk).1.trans_le h, hk⟩

theorem Execution.Holds.left {K : Type} {M : Locals K} {slots : String} {first second : List K}
    (h : Holds M slots (first ++ second)) : Holds M slots first := fun k v hk =>
  h k v (List.getElem?_append_left (List.getElem?_eq_some_iff.1 hk).1 ▸ hk)

theorem Execution.update_entries {K : Type} (entries : List K) (v : K) :
    Function.update (fun k => entries[k]?) entries.length (some v) =
      fun k => (entries ++ [v])[k]? := by
  funext k
  by_cases hk : k = entries.length
  · subst hk
    simp
  · rw [Function.update_of_ne hk]
    obtain hlt | hgt := Nat.lt_or_gt_of_ne hk
    · rw [List.getElem?_append_left hlt]
    · rw [List.getElem?_eq_none (Nat.le_of_lt hgt),
        List.getElem?_eq_none (by rw [List.length_append]; exact hgt)]

namespace Setting

variable {K : Type} [Field K] {S : Setting K} {L L' M : Locals K} {point size : Nat}
  {slots : String} {partition : Partition} {state next : PartitionState}

theorem nodeValue_operator {id : NodeId} {op : Operator} {operands : List NodeId}
    (hnode : S.integrand.graph.get? id = some (.operator op operands))
    (hlt : ∀ operand ∈ operands, operand < id) :
    S.nodeValue point id = S.data.operate op (operands.map (S.nodeValue point)) := by
  rw [nodeValue, hnode]
  simp only
  congr 1
  exact List.map_congr_left fun operand hmem => if_pos (hlt operand hmem)

theorem nodeValue_terminal {id : NodeId} {t : ModifiedTerminal}
    (hnode : S.integrand.graph.get? id = some (.terminal t)) :
    S.nodeValue point id = S.terminalValue t (S.integrand.rangeOf id) point := by
  rw [nodeValue, hnode]

theorem value_slot {entries : List K} {k : Nat} {v : K} (h : Holds M slots entries)
    (hk : entries[k]? = some v) (hlimit : k < Word.limit) :
    value S.data.toInterpretation M (.entry (.symbol slots) (.int k)) = some v := by
  obtain ⟨count, entry, hcell, hlt, hentry⟩ := h k v hk
  have hplace := place_entry slots (index_natCast (L := M) k)
  rw [Expr.entry] at hplace ⊢
  rw [value_access hplace hcell]
  simp [Cell.read, toNat_word hlimit, position, hlt, hentry]

/-! ## Visits -/

/-- What the code of the nodes in `done` does where `L` is visible.  Its definitions leave `L'`
visible, and its assignments give the slots the values `entries`. -/
structure Computed (S : Setting K) (size point : Nat) (slots : String) (L : Locals K)
    (done : List (NodeId × GraphNode)) (state : PartitionState) (L' : Locals K)
    (entries : List K) : Prop where
  runs : Runs S.data.toInterpretation size L state.definitions L' 0
  grows : L.Extends L'
  hidden : ∀ name, L name = none → name ∉ done.flatMap S.integrand.variablesOf → L' name = none
  assigned : entries.length = state.assignments.length
  bounded : entries.length ≤ done.length
  assigns : ∀ M count, L'.Extends M → M slots = some (.array false [count] fun _ => none) →
    entries.length ≤ count → count ≤ Word.limit →
    Runs S.data.toInterpretation size M state.assignments
      (M.set slots (.array false [count] fun k => entries[k]?)) 0
  reads : ∀ id e, (id, e) ∈ state.accesses → ∀ M, L'.Extends M → Holds M slots entries →
    value S.data.toInterpretation M e = some (S.nodeValue point id)

/-- Before any node is visited there are only the nodes of an earlier partition to read. -/
theorem Computed.start (size : Nat) (slots : String) {accesses : Accesses}
    (h : ∀ id e, (id, e) ∈ accesses → ∀ M, L.Extends M →
      value S.data.toInterpretation M e = some (S.nodeValue point id)) :
    S.Computed size point slots L [] { accesses } L [] where
  runs := Runs.nil
  grows := .refl L
  hidden _ hname _ := hname
  assigned := rfl
  bounded := Nat.le_refl _
  assigns M count _ hcell _ _ := by
    have hsame : M.set slots (.array false [count] fun k => ([] : List K)[k]?) = M := by
      funext name
      by_cases hname : name = slots
      · subst hname
        simp [hcell]
      · rw [Locals.set_of_ne hname]
    rw [hsame]
    exact Runs.nil
  reads id e hmem M hM _ := h id e hmem M hM

/-- The names that the code of a partition declares or counts with are free. -/
structure Ready (S : Setting K) (partition : Partition) (L : Locals K) : Prop where
  hidden : ∀ name ∈ "ic" :: Kernel.slotsName partition S.pointCount ::
    S.integrand.variables partition, L name = none
  nodup : (Kernel.tensorName :: "ic" :: Kernel.slotsName partition S.pointCount ::
    S.integrand.variables partition).Nodup

namespace Ready

variable {done rest : List (NodeId × GraphNode)} {id : NodeId} {node : GraphNode}

theorem of_mem_variables (h : S.Ready partition L) {name : String}
    (hmem : name ∈ S.integrand.variables partition) :
    L name = none ∧ name ≠ Kernel.tensorName ∧ name ≠ "ic" ∧
      name ≠ Kernel.slotsName partition S.pointCount := by
  obtain ⟨htensor, hcounter, hslots, -⟩ : Kernel.tensorName ∉ _ ∧ "ic" ∉ _ ∧
      Kernel.slotsName partition S.pointCount ∉ S.integrand.variables partition ∧ _ := by
    have hnodup := h.nodup
    rwa [List.nodup_cons, List.nodup_cons, List.nodup_cons] at hnodup
  refine ⟨h.hidden name (by simp [hmem]), ?_, ?_, ?_⟩
  · rintro rfl
    exact htensor (by simp [hmem])
  · rintro rfl
    exact hcounter (by simp [hmem])
  · rintro rfl
    exact hslots hmem

theorem slots_ne (h : S.Ready partition L) :
    Kernel.slotsName partition S.pointCount ≠ Kernel.tensorName := by
  intro heq
  exact (List.nodup_cons.1 h.nodup).1 (by simp [heq])

theorem notMem_done (h : S.Ready partition L)
    (hsplit : S.integrand.partitionNodes partition = done ++ (id, node) :: rest) {name : String}
    (hname : name ∈ S.integrand.variablesOf (id, node)) :
    name ∈ S.integrand.variables partition ∧
      name ∉ done.flatMap S.integrand.variablesOf := by
  have hvariables : S.integrand.variables partition =
      done.flatMap S.integrand.variablesOf ++
        (S.integrand.variablesOf (id, node) ++ rest.flatMap S.integrand.variablesOf) := by
    rw [Integrand.variables, hsplit, List.flatMap_append, List.flatMap_cons]
  have hnodup := (List.nodup_cons.1 (List.nodup_cons.1 (List.nodup_cons.1 h.nodup).2).2).2
  rw [hvariables] at hnodup ⊢
  refine ⟨by simp [hname], fun hdone => ?_⟩
  exact (List.nodup_append.1 hnodup).2.2 name hdone name (by simp [hname]) rfl

end Ready

namespace Computed

variable {done rest : List (NodeId × GraphNode)} {entries : List K} {id : NodeId}

/-- The slots and the counter of the loops are free where the definitions have run. -/
theorem hidden_of_ready (h : S.Computed size point slots L done state L' entries)
    (hready : S.Ready partition L) (hsplit : S.integrand.partitionNodes partition = done ++ rest) :
    L' "ic" = none ∧ L' (Kernel.slotsName partition S.pointCount) = none := by
  have hdone : ∀ name ∈ done.flatMap S.integrand.variablesOf,
      name ∈ S.integrand.variables partition := fun name hmem => by
    rw [Integrand.variables, hsplit, List.flatMap_append]
    exact List.mem_append_left _ hmem
  refine ⟨h.hidden _ (hready.hidden _ (by simp)) fun hmem => ?_,
    h.hidden _ (hready.hidden _ (by simp)) fun hmem => ?_⟩
  · exact (hready.of_mem_variables (hdone _ hmem)).2.2.1 rfl
  · exact (hready.of_mem_variables (hdone _ hmem)).2.2.2 rfl

theorem visitTerminal {t : ModifiedTerminal}
    (h : S.Computed size point slots L done state L' entries) (hready : S.Ready partition L)
    (hsplit : S.integrand.partitionNodes partition = done ++ (id, .terminal t) :: rest)
    (hnode : S.integrand.graph.get? id = some (.terminal t)) (hprovides : S.Provides L)
    (hfit : S.integrand.TablesFit) (hreadable : S.ReadableAt L point t (S.integrand.rangeOf id))
    (hvisit : Kernel.visitTerminal S.target S.pointCount (S.integrand.rangeOf id) state id t =
      .ok next) :
    ∃ L'', S.Computed size point slots L (done ++ [(id, .terminal t)]) next L'' entries := by
  obtain ⟨access, haccess, hvisit⟩ := bind_eq_ok.1 hvisit
  obtain ⟨definitions, hdefinitions, hvisit⟩ := bind_eq_ok.1 hvisit
  rw [liftM_eq_ok] at hdefinitions
  cases hvisit
  cases hname : t.expansionName? (S.integrand.rangeOf id) with
  | none =>
      obtain rfl := definitions_of_expansionName_none haccess hname hdefinitions
      refine ⟨L', ?_, h.grows, fun name hfree hmem => h.hidden name hfree fun hdone => hmem ?_,
        h.assigned, ?_, h.assigns, ?_⟩
      · simpa using h.runs
      · rw [List.flatMap_append]
        exact List.mem_append_left _ hdone
      · exact h.bounded.trans (by simp)
      · rintro k e (_ | ⟨_, hmem⟩) M hM hholds
        · rw [nodeValue_terminal hnode]
          have hextends := h.grows.trans hM
          exact value_access_terminal (hprovides.extend hextends) haccess hname
            (hreadable.extend hextends)
        · exact h.reads k e hmem M hM hholds
  | some name =>
      have hown : name ∈ S.integrand.variablesOf (id, .terminal t) := by
        simp [Integrand.variablesOf, hname]
      obtain ⟨hvariable, hnew⟩ := hready.notMem_done hsplit hown
      obtain ⟨hfree, htensor, hcounter, -⟩ := hready.of_mem_variables hvariable
      have hhidden := h.hidden name hfree hnew
      have hextends := Locals.extends_set hhidden
        (.scalar (S.terminalValue t (S.integrand.rangeOf id) point))
      have hrun := runs_definitions size (hprovides.extend h.grows) hfit haccess hname
        hdefinitions (hreadable.extend h.grows) hhidden htensor
        (h.hidden_of_ready hready hsplit).1 hcounter
      refine ⟨_, h.runs.append_zero hrun, h.grows.trans hextends, fun other hother hmem => ?_,
        h.assigned, h.bounded.trans (by simp), fun M count hM => h.assigns M count
          (hextends.trans hM), ?_⟩
      · rw [List.flatMap_append, List.flatMap_singleton, List.mem_append, not_or] at hmem
        have hne : other ≠ name := by
          rintro rfl
          exact hmem.2 hown
        rw [Locals.set_of_ne hne]
        exact h.hidden other hother hmem.1
      · rintro k e (_ | ⟨_, hmem⟩) M hM hholds
        · obtain ⟨-, -, -, -, rfl, -⟩ := expansion_of_name haccess hname hdefinitions point
          rw [nodeValue_terminal hnode]
          exact value_symbol (hM _ _ Locals.set_same)
        · exact h.reads k e hmem M (hextends.trans hM) hholds

theorem values_operands (h : S.Computed size point slots L done state L' entries)
    {operands : List NodeId} {arguments : List Expr}
    (harguments : operands.mapM (Kernel.operandAccess state.accesses id) = .ok arguments)
    (hM : L'.Extends M) (hholds : Holds M slots entries) :
    values S.data.toInterpretation M arguments = some (operands.map (S.nodeValue point)) ∧
      ∀ operand ∈ operands, operand < id := by
  have hforall := mapM_eq_ok.1 harguments
  refine ⟨values_eq_some.2 ?_, fun operand hmem => ?_⟩
  · rw [List.forall₂_map_right_iff]
    exact hforall.flip.imp fun e operand he =>
      h.reads operand e (Kernel.operandAccess_eq_ok he).2 M hM hholds
  · obtain ⟨e, -, he⟩ := exists_mem_of_mapM_left harguments hmem
    exact (Kernel.operandAccess_eq_ok he).1

theorem visitOperator {op : Operator} {operands : List NodeId}
    (h : S.Computed size point (Kernel.slotsName partition S.pointCount) L done state L' entries)
    (hready : S.Ready partition L)
    (hsplit : S.integrand.partitionNodes partition = done ++ (id, .operator op operands) :: rest)
    (hnode : S.integrand.graph.get? id = some (.operator op operands))
    (hlimit : done.length < Word.limit)
    (hvisit : Kernel.visitOperator S.target (Kernel.slotsName partition S.pointCount) state id op
      operands = .ok next) :
    ∃ entries', S.Computed size point (Kernel.slotsName partition S.pointCount) L
      (done ++ [(id, .operator op operands)]) next L' entries' := by
  obtain ⟨arguments, e, harguments, he, hnext⟩ := Kernel.visitOperator_eq_ok hvisit
  have hvalue : ∀ M, L'.Extends M → Holds M (Kernel.slotsName partition S.pointCount) entries →
      value S.data.toInterpretation M e = some (S.nodeValue point id) := by
    intro M hM hholds
    obtain ⟨hvalues, hlt⟩ := h.values_operands harguments hM hholds
    rw [nodeValue_operator hnode hlt]
    exact value_expression he hvalues
  have hhidden : ∀ name, L name = none → name ∉ (done ++ [(id, GraphNode.operator op operands)]
      ).flatMap S.integrand.variablesOf → L' name = none := fun name hfree hmem =>
    h.hidden name hfree fun hdone => hmem (by
      rw [List.flatMap_append]
      exact List.mem_append_left _ hdone)
  obtain ⟨-, rfl⟩ | ⟨-, rfl⟩ := hnext
  · refine ⟨entries, h.runs, h.grows, hhidden, h.assigned, h.bounded.trans (by simp),
      h.assigns, ?_⟩
    rintro k e' (_ | ⟨_, hmem⟩) M hM hholds
    · exact hvalue M hM hholds
    · exact h.reads k e' hmem M hM hholds
  · have hassigned := h.assigned
    refine ⟨entries ++ [S.nodeValue point id], h.runs, h.grows, hhidden, ?_, ?_,
      fun M count hM hcell hlength hcount => ?_, ?_⟩
    · rw [List.length_append, List.length_append, hassigned]
      rfl
    · rw [List.length_append, List.length_append]
      exact Nat.add_le_add_right h.bounded 1
    · rw [List.length_append, List.length_singleton] at hlength
      refine (h.assigns M count hM hcell (by omega) hcount).append_zero ?_
      have hextends : L'.Extends (M.set (Kernel.slotsName partition S.pointCount)
          (.array false [count] fun k => entries[k]?)) := by
        intro name cell hname
        rw [Locals.set_of_ne, hM name cell hname]
        rintro rfl
        rw [(h.hidden_of_ready hready hsplit).2] at hname
        cases hname
      have htoNat : (word state.assignments.length).toNat = entries.length := by
        rw [toNat_word (by omega), hassigned]
      have hassign := Runs.assignEntry (D := S.data.toInterpretation) size
        Locals.set_same hready.slots_ne (index_natCast state.assignments.length) (by omega)
        (hvalue _ hextends (Holds.set (by omega)))
      rwa [htoNat, Locals.set_set, update_entries] at hassign
    · rintro k e' (_ | ⟨_, hmem⟩) M hM hholds
      · refine value_slot hholds ?_ ?_
        · rw [← hassigned, List.getElem?_concat_length]
        · have := h.bounded
          omega
      · exact h.reads k e' hmem M hM hholds.left

theorem visitAll (h : S.Computed size point (Kernel.slotsName partition S.pointCount) L done state
      L' entries) (hready : S.Ready partition L) (hprovides : S.Provides L)
    (hfit : S.integrand.TablesFit)
    (hsplit : S.integrand.partitionNodes partition = done ++ rest)
    (hreadable : ∀ id t, (id, .terminal t) ∈ S.integrand.partitionNodes partition →
      S.ReadableAt L point t (S.integrand.rangeOf id))
    (hlimit : (S.integrand.partitionNodes partition).length ≤ Word.limit)
    (hvisit : rest.foldlM (Kernel.visit S.target S.pointCount
      (Kernel.slotsName partition S.pointCount) S.integrand) state = .ok next) :
    ∃ L'' entries', S.Computed size point (Kernel.slotsName partition S.pointCount) L
      (S.integrand.partitionNodes partition) next L'' entries' := by
  induction rest generalizing done state L' entries with
  | nil =>
      cases hvisit
      rw [hsplit, List.append_nil]
      exact ⟨L', entries, h⟩
  | cons entry rest ih =>
      obtain ⟨id, node⟩ := entry
      rw [List.foldlM_cons] at hvisit
      obtain ⟨middle, hmiddle, hrest⟩ := bind_eq_ok.1 hvisit
      have hmem : (id, node) ∈ S.integrand.partitionNodes partition := by simp [hsplit]
      have hnode := (Integrand.mem_partitionNodes_iff.1 hmem).1
      have hsplit' : S.integrand.partitionNodes partition = done ++ [(id, node)] ++ rest := by
        rw [hsplit, List.append_assoc, List.singleton_append]
      cases node with
      | terminal t =>
          obtain ⟨L'', hnext⟩ := h.visitTerminal hready hsplit hnode hprovides hfit
            (hreadable id t hmem) hmiddle
          exact ih hnext hsplit' hrest
      | operator op operands =>
          have hlt : done.length < Word.limit := by
            rw [hsplit, List.length_append, List.length_cons] at hlimit
            omega
          obtain ⟨entries', hnext⟩ := h.visitOperator hready hsplit hnode hlt hmiddle
          exact ih hnext hsplit' hrest

end Computed

/-- The code of a partition declares its slots and the variables of its terminals, and afterwards
every node that has been computed is read by its expression. -/
theorem runs_partition (size : Nat) (alignment : Option Nat) {accesses : Accesses}
    (haccesses : ∀ id e, (id, e) ∈ accesses → ∀ M, L.Extends M →
      value S.data.toInterpretation M e = some (S.nodeValue point id))
    (hready : S.Ready partition L) (hprovides : S.Provides L) (hfit : S.integrand.TablesFit)
    (hreadable : ∀ id t, (id, .terminal t) ∈ S.integrand.partitionNodes partition →
      S.ReadableAt L point t (S.integrand.rangeOf id))
    (hlimit : (S.integrand.partitionNodes partition).length ≤ Word.limit)
    (hstate : Kernel.partitionState S.target S.pointCount S.integrand partition accesses =
      .ok state) :
    ∃ L', Runs S.data.toInterpretation size L
        (state.statements partition (Kernel.slotsName partition S.pointCount) alignment) L' 0 ∧
      L.Extends L' ∧
      (∀ name, L name = none → name ∉ Kernel.slotsName partition S.pointCount ::
        S.integrand.variables partition → L' name = none) ∧
      ∀ id e, (id, e) ∈ state.accesses → ∀ M, L'.Extends M →
        value S.data.toInterpretation M e = some (S.nodeValue point id) := by
  obtain ⟨L', entries, h⟩ := (Computed.start size _ haccesses).visitAll hready hprovides
    hfit (List.nil_append _).symm hreadable hlimit hstate
  have hall : S.integrand.partitionNodes partition =
    S.integrand.partitionNodes partition ++ [] := (List.append_nil _).symm
  have hslots := (h.hidden_of_ready hready hall).2
  unfold PartitionState.statements
  split
  next hempty =>
    have hentries : entries = [] := by
      rw [List.isEmpty_iff] at hempty
      exact List.length_eq_zero_iff.1 (h.assigned.trans (by rw [hempty]; rfl))
    refine ⟨L', Runs.commented _ (by simpa using h.runs), h.grows,
      fun name hfree hmem =>
        h.hidden name hfree fun hvariable => hmem (List.mem_cons_of_mem _ hvariable),
      fun id e hmem M hM => h.reads id e hmem M hM ?_⟩
    subst hentries
    intro k v hk
    simp at hk
  next hne =>
    have hlength : entries.length ≤ state.assignments.length := h.assigned.le
    have hdeclare := Runs.array (D := S.data.toInterpretation) size
      { name := Kernel.slotsName partition S.pointCount, sizes := [state.assignments.length],
        alignment } hslots hready.slots_ne
    have hassign := h.assigns _ _ (Locals.extends_set hslots _) Locals.set_same hlength
      (h.assigned ▸ h.bounded.trans hlimit)
    rw [Locals.set_set] at hassign
    have hextends := Locals.extends_set hslots
      (.array false [state.assignments.length] fun k => entries[k]?)
    refine ⟨_, Runs.commented _ (h.runs.append_zero (hdeclare.cons_zero hassign)),
      h.grows.trans hextends, fun name hfree hmem => ?_,
      fun id e hmem M hM => h.reads id e hmem M (hextends.trans hM) ?_⟩
    · rw [List.mem_cons, not_or] at hmem
      rw [Locals.set_of_ne hmem.1]
      exact h.hidden name hfree hmem.2
    · intro k v hk
      exact ⟨_, _, hM _ _ Locals.set_same,
        (List.getElem?_eq_some_iff.1 hk).1.trans_le hlength, hk⟩

end Setting

end ElementKernel
