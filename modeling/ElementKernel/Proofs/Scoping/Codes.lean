import ElementKernel.Proofs.Execution.Correctness
import ElementKernel.Proofs.Scoping.Names

/-!
# Parts of a kernel

A kernel consists of tables, the reset of the element tensor and one code for each integrand.  The
code of an integrand computes the nodes of both partitions and adds their contributions.
-/

namespace ElementKernel

namespace Kernel

/-! ## Nodes and contributions -/

theorem visitTerminal_eq_ok {target : Target} {pointCount : Nat} {range? : Option TableRange}
    {state next : PartitionState} {id : NodeId} {t : ModifiedTerminal}
    (h : visitTerminal target pointCount range? state id t = .ok next) :
    ∃ e definitions, target.access t range? pointCount = .ok e ∧
      target.definitions t range? pointCount e = .ok definitions ∧
      next = { state with
        accesses := (id, e) :: state.accesses
        definitions := state.definitions ++ definitions } := by
  obtain ⟨e, he, h⟩ := bind_eq_ok.1 h
  obtain ⟨definitions, hdefinitions, h⟩ := bind_eq_ok.1 h
  cases h
  exact ⟨e, definitions, he, liftM_eq_ok.1 hdefinitions, rfl⟩

/-- A slot of an array. -/
def slot (array : String) (k : Nat) : Expr := .entry (.symbol array) (.int k)

/-- The array that holds so many slots. -/
def slotArray (options : KernelOptions) (array : String) (count : Nat) : ArrayDecl where
  name := array
  sizes := [count]
  alignment := options.alignment

theorem reads_slot {P : Expr → Prop} {array : String} {k : Nat} (h : P (slot array k)) :
    (slot array k).Reads P :=
  Expr.reads_access.2 ⟨h, List.forall_mem_singleton.2 Expr.reads_int⟩

/-- The value of an operator reads what the operands read. -/
theorem reads_operator {P : Expr → Prop} {accesses : Accesses} {id : NodeId} {op : Operator}
    {operands : List NodeId} {arguments : List Expr} {dialect : Dialect} {e : Expr}
    (haccesses : ∀ access ∈ accesses, access.2.Reads P)
    (harguments : operands.mapM (operandAccess accesses id) = .ok arguments)
    (h : op.expression arguments dialect = .ok e) : e.Reads P := by
  refine Operator.reads_expression (fun argument hmem => ?_) h
  obtain ⟨operand, -, hoperand⟩ := exists_mem_of_mapM_right harguments hmem
  exact haccesses _ (operandAccess_eq_ok hoperand).2

/-- A statement that declares the variable of a terminal or sums it up. -/
def IsDefinition (pointCount : Nat) (integrand : Integrand) (partition : Partition) (s : Stmt) :
    Prop :=
  ∃ id t name, (id, .terminal t) ∈ integrand.partitionNodes partition ∧
    t.expansionName? (integrand.rangeOf id) = some name ∧
    (s = .declare name (.float 0) ∨ ∃ past value,
      s = .forRange Target.expansionIndex 0 past [.assignAdd (.symbol name) value] ∧
        value.Reads fun p => p = .symbol "ic" ∨ t.Reading (integrand.rangeOf id) pointCount p)

/-- An assignment to a slot whose value reads what satisfies `P`. -/
def IsAssignment (P : Expr → Prop) (array : String) (s : Stmt) : Prop :=
  ∃ k value, s = .assign (slot array k) value ∧ value.Reads P

theorem mem_definitions {target : Target} {pointCount : Nat} {integrand : Integrand}
    {partition : Partition} {accesses : Accesses} {state : PartitionState}
    (h : partitionState target pointCount integrand partition accesses = .ok state) :
    ∀ s ∈ state.definitions, IsDefinition pointCount integrand partition s := by
  refine foldlM_eq_ok_induction (P := fun _ (state : PartitionState) =>
    ∀ s ∈ state.definitions, IsDefinition pointCount integrand partition s)
    h (List.forall_mem_nil _) ?_
  rintro done ⟨id, t | ⟨op, operands⟩⟩ rest state next hsplit hdefined hvisit
  · obtain ⟨e, definitions, he, hdefinitions, rfl⟩ := visitTerminal_eq_ok hvisit
    have hnode : (id, .terminal t) ∈ integrand.partitionNodes partition := by simp [hsplit]
    refine List.forall_mem_append.2 ⟨hdefined, ?_⟩
    obtain ⟨-, rfl⟩ | ⟨name, past, value, hname, rfl, hvalue⟩ :=
      Target.definitions_eq_ok he hdefinitions
    · exact List.forall_mem_nil _
    · exact List.forall_mem_cons.2 ⟨⟨id, t, name, hnode, hname, .inl rfl⟩,
        List.forall_mem_singleton.2 ⟨id, t, name, hnode, hname, .inr ⟨past, value, rfl, hvalue⟩⟩⟩
  · obtain ⟨arguments, e, -, -, ⟨-, rfl⟩ | ⟨-, rfl⟩⟩ := visitOperator_eq_ok hvisit
    · exact hdefined
    · exact hdefined

/-- Nodes read what their terminals refer to and the slots of their operands. -/
theorem reads_partitionState {target : Target} {pointCount : Nat} {integrand : Integrand}
    {partition : Partition} {accesses : Accesses} {state : PartitionState} {P : Expr → Prop}
    (h : partitionState target pointCount integrand partition accesses = .ok state)
    (haccesses : ∀ access ∈ accesses, access.2.Reads P)
    (hterminals : ∀ id t p, (id, .terminal t) ∈ integrand.partitionNodes partition →
      t.Reading (integrand.rangeOf id) pointCount p → P p)
    (hslots : ∀ k, P (slot (slotsName partition pointCount) k)) :
    (∀ access ∈ state.accesses, access.2.Reads P) ∧
      ∀ s ∈ state.assignments, IsAssignment P (slotsName partition pointCount) s := by
  refine foldlM_eq_ok_induction (P := fun _ (state : PartitionState) =>
    (∀ access ∈ state.accesses, access.2.Reads P) ∧
      ∀ s ∈ state.assignments, IsAssignment P (slotsName partition pointCount) s)
    h ⟨haccesses, List.forall_mem_nil _⟩ ?_
  rintro done ⟨id, t | ⟨op, operands⟩⟩ rest state next hsplit ⟨hreads, hassigned⟩ hvisit
  · obtain ⟨e, definitions, he, hdefinitions, rfl⟩ := visitTerminal_eq_ok hvisit
    have hnode : (id, .terminal t) ∈ integrand.partitionNodes partition := by simp [hsplit]
    have hread := (Target.reads_access he).mono fun p hp => hterminals id t p hnode hp
    exact ⟨List.forall_mem_cons.2 ⟨hread, hreads⟩, hassigned⟩
  · obtain ⟨arguments, e, harguments, he, hnext⟩ := visitOperator_eq_ok hvisit
    have hvalue := reads_operator hreads harguments he
    obtain ⟨-, rfl⟩ | ⟨-, rfl⟩ := hnext
    · exact ⟨List.forall_mem_cons.2 ⟨hvalue, hreads⟩, hassigned⟩
    · refine ⟨List.forall_mem_cons.2 ⟨reads_slot (hslots _), hreads⟩, ?_⟩
      exact List.forall_mem_append.2
        ⟨hassigned, List.forall_mem_singleton.2 ⟨_, e, rfl, hvalue⟩⟩

/-- What a partition assigns to are the slots of its array. -/
theorem exists_slot_of_mem {target : Target} {pointCount : Nat} {integrand : Integrand}
    {partition : Partition} {accesses : Accesses} {state : PartitionState}
    (h : partitionState target pointCount integrand partition accesses = .ok state) :
    ∀ s ∈ state.assignments,
      ∃ k value, s = .assign (slot (slotsName partition pointCount) k) value := by
  intro s hs
  obtain ⟨-, hassigned⟩ := reads_partitionState (P := fun _ => True) h
    (fun _ _ _ _ _ => trivial) (fun _ _ _ _ _ => trivial) fun _ => trivial
  obtain ⟨k, value, rfl, -⟩ := hassigned s hs
  exact ⟨k, value, rfl⟩

/-- The update of the element tensor by a contribution. -/
def update (position : Expr) (factors : List Expr) : Stmt :=
  .assignAdd (.entry tensor position) (if factors.isEmpty then .float 1 else .product factors)

/-- The loops over the axes around an update. -/
def nest (pointCount : Nat) (axes : List Axis) (update : Stmt) : Stmt :=
  axes.foldr (fun axis body => axis.loop pointCount body) update

variable {target : Target} {integral : Integral} {pointCount : Nat} {integrand : Integrand}
  {accesses : Accesses} {block : DofBlock} {contribution : BlockContribution}

theorem contributionCode_eq_ok {code : Stmt}
    (h : contributionCode target integral pointCount integrand accesses block contribution =
      .ok code) :
    ∃ scalar tables position, (axes block contribution).length = integral.tensorShape.length ∧
      block.length = integral.tensorShape.length ∧
      scalarFactors integrand accesses contribution.factor = .ok scalar ∧
      (axes block contribution).mapM (axisFactors target pointCount integrand block) =
        .ok tables ∧
      flatIndex ((axes block contribution).map (·.index pointCount)) integral.tensorShape =
        .ok position ∧
      code = nest pointCount (axes block contribution)
        (update position (scalar ++ tables.flatten)) := by
  unfold contributionCode at h
  dsimp only at h
  split at h
  · cases h
  next hranks =>
    obtain ⟨hblock, hranks⟩ := not_or.1 hranks
    obtain ⟨harguments, hrank⟩ := not_or.1 hranks
    rw [ne_eq, not_not] at hblock harguments hrank
    split at h
    · cases h
    next scalar hscalar =>
      obtain ⟨tables, htables, h⟩ := bind_eq_ok.1 h
      obtain ⟨position, hposition, h⟩ := bind_eq_ok.1 h
      cases h
      exact ⟨scalar, tables, position, (length_axes hblock harguments).trans hrank.symm,
        hblock.trans hrank.symm, hscalar, htables, liftM_eq_ok.1 hposition, rfl⟩

/-- An axis contributes the entry of a table that covers its block, unless its table is known. -/
theorem axisFactors_eq_ok {axis : Axis} {factors : List Expr}
    (h : axisFactors target pointCount integrand block axis = .ok factors) :
    (axis.range.type = .quadrature ∨ axis.range.type = .ones) ∧ factors = [] ∨
      ∃ t e, axis.range.type ≠ .quadrature ∧ axis.range.type ≠ .ones ∧
        axis.range.type ≠ .zeros ∧ (axis.range.first, axis.range.past) = axis.bounds ∧
        integrand.arguments[axis.argument]? = some t ∧
        target.access t (some axis.range) pointCount = .ok e ∧ factors = [e] := by
  unfold axisFactors at h
  dsimp only at h
  split at h
  next hknown =>
    cases h
    exact .inl ⟨hknown, rfl⟩
  next hread =>
    obtain ⟨hquadrature, hones⟩ := not_or.1 hread
    split at h
    · cases h
    next hbounds =>
      split at h
      · cases h
      next hzeros =>
        split at h
        · cases h
        next t ht =>
          obtain ⟨e, he, h⟩ := bind_eq_ok.1 h
          cases h
          exact .inr ⟨t, e, hquadrature, hones, hzeros, not_not.1 hbounds, ht, he, rfl⟩

theorem scalarFactors_eq_ok {factor : NodeId} {factors : List Expr}
    (h : scalarFactors integrand accesses factor = .ok factors) :
    ∀ e ∈ factors, (factor, e) ∈ accesses := by
  unfold scalarFactors at h
  split at h
  · cases h
    nofun
  · split at h
    next e hlookup =>
      cases h
      obtain ⟨before, after, haccesses, -⟩ := List.lookup_eq_some_iff.1 hlookup
      exact List.forall_mem_singleton.2 (by simp [haccesses])
    next => cases h

/-- A contribution reads its factor, the counters of its axes and their tables. -/
theorem reads_contributionCode {P : Expr → Prop} {code : Stmt}
    (h : contributionCode target integral pointCount integrand accesses block contribution =
      .ok code)
    (haccesses : ∀ access ∈ accesses, access.2.Reads P)
    (haxes : ∀ axis ∈ axes block contribution, (axis.index pointCount).Reads P)
    (htables : ∀ axis ∈ axes block contribution, ∀ t, axis.range.type ≠ .quadrature →
      axis.range.type ≠ .ones → integrand.arguments[axis.argument]? = some t →
        ∀ p, t.Reading (some axis.range) pointCount p → P p) :
    ∃ position factors, code = nest pointCount (axes block contribution) (update position factors) ∧
      position.Reads P ∧ ∀ e ∈ factors, e.Reads P := by
  obtain ⟨scalar, tables, position, -, -, hscalar, hfactors, hposition, rfl⟩ :=
    contributionCode_eq_ok h
  refine ⟨position, _, rfl, reads_flatIndex (List.forall_mem_map.2 haxes) hposition,
    List.forall_mem_append.2 ⟨fun e he => ?_, fun e he => ?_⟩⟩
  · exact haccesses _ (scalarFactors_eq_ok hscalar e he)
  · obtain ⟨factors, hmem, he⟩ := List.mem_flatten.1 he
    obtain ⟨axis, haxis, hmem⟩ := exists_mem_of_mapM_right hfactors hmem
    obtain ⟨-, rfl⟩ | ⟨t, e', hquadrature, hones, -, -, ht, haccess, rfl⟩ := axisFactors_eq_ok hmem
    · cases he
    · obtain rfl := List.mem_singleton.1 he
      exact (Target.reads_access haccess).mono (htables axis haxis t hquadrature hones ht)

theorem mem_blockCode {partition : Partition} {updates : List Stmt}
    (h : blockCode target integral pointCount integrand partition accesses = .ok updates)
    {s : Stmt} (hs : s ∈ updates) :
    ∃ entry ∈ integrand.contributions.get partition, ∃ contribution ∈ entry.2,
      contributionCode target integral pointCount integrand accesses entry.1 contribution =
        .ok s := by
  obtain ⟨codes, hcodes, h⟩ := bind_eq_ok.1 h
  cases h
  obtain ⟨code, hcode, hs⟩ := List.mem_flatten.1 hs
  obtain ⟨entry, hentry, hcode⟩ := exists_mem_of_mapM_right hcodes hcode
  obtain ⟨contribution, hcontribution, hs⟩ := exists_mem_of_mapM_right hcode hs
  exact ⟨entry, List.mem_mergeSort.1 hentry, contribution, hcontribution, hs⟩

theorem exists_mem_blockCode {partition : Partition} {updates : List Stmt}
    (h : blockCode target integral pointCount integrand partition accesses = .ok updates)
    {entry : BlockEntry} (hentry : entry ∈ integrand.contributions.get partition)
    (hcontribution : contribution ∈ entry.2) :
    ∃ s ∈ updates, contributionCode target integral pointCount integrand accesses entry.1
      contribution = .ok s := by
  obtain ⟨codes, hcodes, h⟩ := bind_eq_ok.1 h
  cases h
  obtain ⟨code, hmem, hcode⟩ := exists_mem_of_mapM_left hcodes (List.mem_mergeSort.2 hentry)
  obtain ⟨s, hs, hcode⟩ := exists_mem_of_mapM_left hcode hcontribution
  exact ⟨s, List.mem_flatten.2 ⟨code, hmem, hs⟩, hcode⟩

/-! ## Integrands -/

/-- The states and updates that the code of an integrand is put together from. -/
structure CodeParts (target : Target) (integral : Integral) (pointCount : Nat)
    (integrand : Integrand) where
  state : Partition → PartitionState
  updates : Partition → List Stmt
  piecewise_eq : partitionState target pointCount integrand .piecewise [] = .ok (state .piecewise)
  varying_eq : partitionState target pointCount integrand .varying (state .piecewise).accesses =
    .ok (state .varying)
  updates_eq : ∀ partition, blockCode target integral pointCount integrand partition
    (state partition).accesses = .ok (updates partition)

namespace CodeParts

variable (parts : CodeParts target integral pointCount integrand)

/-- What can be read where a partition starts. -/
def start : Partition → Accesses
  | .piecewise => []
  | .varying => (parts.state .piecewise).accesses

theorem state_eq (partition : Partition) :
    partitionState target pointCount integrand partition (parts.start partition) =
      .ok (parts.state partition) := by
  cases partition with
  | piecewise => exact parts.piecewise_eq
  | varying => exact parts.varying_eq

variable (options : KernelOptions)

/-- The statements that compute the nodes of a partition. -/
def statements (partition : Partition) : List Stmt :=
  (parts.state partition).statements partition (slotsName partition pointCount) options.alignment

/-- What stands in front of the quadrature loop. -/
def ahead : List Stmt := parts.statements options .piecewise ++ parts.updates .piecewise

/-- The body of the quadrature loop. -/
def loopBody : List Stmt :=
  Stmt.commented [s!"Quadrature loop body setup (num_points={pointCount})"]
    (parts.statements options .varying) ++ parts.updates .varying

def code : List Stmt := parts.ahead options ++ quadratureLoop pointCount (parts.loopBody options)

/-- The array of the slots of a partition. -/
def slots (partition : Partition) : ArrayDecl :=
  slotArray options (slotsName partition pointCount) (parts.state partition).assignments.length

variable {parts options}

theorem mem_statements {partition : Partition} {s : Stmt}
    (h : s ∈ parts.statements options partition) :
    s = .comment s!"Unstructured {partition.name} computations" ∨
      s ∈ (parts.state partition).definitions ∨ s = .array (parts.slots options partition) ∨
        s ∈ (parts.state partition).assignments := by
  obtain ⟨text, htext, rfl⟩ | hs := Stmt.mem_commented h
  · exact .inl (congrArg Stmt.comment (List.mem_singleton.1 htext))
  · obtain hs | hs := List.mem_append.1 hs
    · exact .inr (.inl hs)
    · split at hs
      · cases hs
      · exact .inr (.inr (List.mem_cons.1 hs))

end CodeParts

theorem exists_parts {options : KernelOptions} {code : List Stmt} {operators : List Operator}
    (h : integrandCode target options integral pointCount integrand = .ok (code, operators)) :
    ∃ parts : CodeParts target integral pointCount integrand, code = parts.code options ∧
      operators = (parts.state .varying).operators ++ (parts.state .piecewise).operators := by
  obtain ⟨piecewise, hpiecewise, h⟩ := bind_eq_ok.1 h
  obtain ⟨piecewiseUpdates, hpiecewiseUpdates, h⟩ := bind_eq_ok.1 h
  obtain ⟨varying, hvarying, h⟩ := bind_eq_ok.1 h
  obtain ⟨varyingUpdates, hvaryingUpdates, h⟩ := bind_eq_ok.1 h
  cases h
  refine ⟨{
    state := fun | .piecewise => piecewise | .varying => varying
    updates := fun | .piecewise => piecewiseUpdates | .varying => varyingUpdates
    piecewise_eq := hpiecewise
    varying_eq := hvarying
    updates_eq := ?_ }, rfl, rfl⟩
  rintro (_ | _)
  · exact hpiecewiseUpdates
  · exact hvaryingUpdates

/-! ### Loops -/

/-- The loop over the points, inside of which the blocks of a partition stand. -/
def pointLoops (partition : Partition) (pointCount : Nat) : List Loop :=
  if partition = .varying ∧ pointCount ≠ 1 then [⟨.symbol "iq", 0, pointCount⟩] else []

/-- The loops over axes. -/
def axisLoops (pointCount : Nat) (axes : List Axis) : List Loop :=
  (axes.filter (·.range.type ≠ .quadrature)).map fun axis =>
    ⟨axis.index pointCount, axis.bounds.1, axis.bounds.2⟩

/-- What holds of a statement inside of the loops over axes, and of these loops, holds everywhere in
their nest. -/
theorem everywhere_nest {P : List Loop → Stmt → Prop} (axes : List Axis) {s : Stmt}
    (hloop : ∀ loops (axis : Axis) first past body,
      P loops (.forRange (axis.index pointCount) first past body))
    (h : s.Everywhere fun loops t => P (axisLoops pointCount axes ++ loops) t) :
    (nest pointCount axes s).Everywhere P := by
  induction axes generalizing P with
  | nil => exact h
  | cons axis rest ih =>
      show (axis.loop pointCount (nest pointCount rest s)).Everywhere P
      unfold Axis.loop
      split
      next htype =>
        refine ih hloop ?_
        simpa [axisLoops, htype] using h
      next htype =>
        refine Stmt.everywhere_forRange.2 ⟨hloop _ _ _ _ _, List.forall_mem_singleton.2 ?_⟩
        refine ih (fun loops => hloop _) ?_
        simpa [axisLoops, htype] using h

/-- The comments on the code inside of the loop over the points. -/
def loopComments (pointCount : Nat) : List String :=
  [s!"Quadrature loop body setup (num_points={pointCount})", "Only 1 quadrature point, no loop"]

/-- What holds of the statements and updates of both partitions, inside of the loop over the points
if there is one, holds in the code of an integrand. -/
theorem CodeParts.everywhere_code {P : List Loop → Stmt → Prop} {options : KernelOptions}
    (parts : CodeParts target integral pointCount integrand)
    (hcomment : ∀ loops, ∀ text ∈ loopComments pointCount, P loops (.comment text))
    (hscope : ∀ body, P [] (.scope body))
    (hloop : ∀ past body, P [] (.forRange (pointIndex pointCount) 0 past body))
    (hparts : ∀ partition, ∀ s ∈ parts.statements options partition ++ parts.updates partition,
      s.Everywhere fun loops t => P (pointLoops partition pointCount ++ loops) t) :
    ∀ s ∈ parts.code options, s.Everywhere P := by
  have hbody : ∀ s ∈ parts.loopBody options,
      s.Everywhere fun loops t => P (pointLoops .varying pointCount ++ loops) t := by
    obtain ⟨hstatements, hupdates⟩ := List.forall_mem_append.1 (hparts .varying)
    refine List.forall_mem_append.2 ⟨fun s hs => ?_, hupdates⟩
    obtain ⟨text, htext, rfl⟩ | hs := Stmt.mem_commented hs
    · exact Stmt.everywhere_comment.2 (hcomment _ text (List.mem_append_left _ htext))
    · exact hstatements s hs
  refine List.forall_mem_append.2 ⟨?_, ?_⟩
  · have hpiecewise := hparts .piecewise
    simpa [pointLoops, ahead] using hpiecewise
  · unfold quadratureLoop
    split
    · exact List.forall_mem_nil _
    · split
      next hone =>
        refine List.forall_mem_cons.2 ⟨Stmt.everywhere_comment.2 (hcomment _ _ ?_), ?_⟩
        · exact List.mem_append_right [_] List.mem_cons_self
        refine List.forall_mem_singleton.2 (Stmt.everywhere_scope.2 ⟨hscope _, ?_⟩)
        simpa [pointLoops, hone] using hbody
      next hcount =>
        refine List.forall_mem_singleton.2 (Stmt.everywhere_forRange.2 ⟨hloop _ _, ?_⟩)
        simpa [pointLoops, pointIndex, hcount] using hbody

end Kernel

/-! ## Kernels -/

namespace Integral

open Kernel

variable {integral : Integral} {target : Target} {options : KernelOptions}
  {kernel : GeneratedKernel}

/-- The code of an integrand with its parts. -/
def HasCode (integral : Integral) (target : Target) (options : KernelOptions)
    (entry : Nat × Integrand) (code : List Stmt) : Prop :=
  ∃ parts : CodeParts target integral entry.1 entry.2, code = parts.code options

theorem exists_codes (h : integral.generate target options = .ok kernel) :
    ∃ rules reset codes, quadratureTables options integral = .ok rules ∧
      tensorReset integral = .ok reset ∧
      List.Forall₂ (integral.HasCode target options) integral.integrands.entries codes ∧
      kernel.body =
        .list (rules ++ elementTables options integral ++ reset ++ joinCodes codes) := by
  obtain ⟨rules, reset, codes, -, hrules, hreset, hcodes, hbody⟩ := generate_eq_ok h
  refine ⟨rules, reset, codes.map (·.1), hrules, hreset, ?_, hbody⟩
  refine List.forall₂_map_right_iff.2 ((mapM_eq_ok.1 hcodes).imp ?_)
  rintro entry ⟨code, operators⟩ hcode
  obtain ⟨parts, rfl, -⟩ := exists_parts hcode
  exact ⟨parts, rfl⟩

end Integral

/-! ## Tables and reset -/

namespace Kernel

variable {integral : Integral} {options : KernelOptions} {s : Stmt}

/-- A table of the weights or of the points of a rule. -/
def IsRuleTable (options : KernelOptions) (pointCount : Nat) (rule : QuadratureRule) (s : Stmt) :
    Prop :=
  ∃ name ∈ ruleNames pointCount, ∃ sizes, ∃ values ∈ [rule.weights, rule.flattenedPoints],
    s = tableDecl options name sizes values

theorem sublist_ite_tableDecl {c : Prop} [Decidable c] (options : KernelOptions) (name : String)
    (sizes : List Nat) (values : List Float) :
    (Stmt.declaredNames (if c then [tableDecl options name sizes values] else [])).Sublist
      [name] := by
  split
  · exact List.Sublist.refl _
  · exact List.nil_sublist _

theorem mem_ruleTables {pointCount : Nat} {rule : QuadratureRule} {integrand : Integrand}
    {tables : List Stmt} (h : ruleTables options pointCount rule integrand = .ok tables) :
    (∀ s ∈ tables, IsRuleTable options pointCount rule s) ∧
      (Stmt.declaredNames tables).Sublist (ruleNames pointCount) := by
  obtain rfl := ruleTables_eq_ok h
  refine ⟨List.forall_mem_append.2 ⟨fun s hs => ?_, fun s hs => ?_⟩, ?_⟩
  · obtain ⟨-, hs⟩ := List.mem_ite_nil_right.1 hs
    exact ⟨_, List.mem_cons_self, _, _, List.mem_cons_self, List.mem_singleton.1 hs⟩
  · obtain ⟨-, hs⟩ := List.mem_ite_nil_right.1 hs
    exact ⟨_, List.mem_cons_of_mem _ List.mem_cons_self, _, _,
      List.mem_cons_of_mem _ List.mem_cons_self, List.mem_singleton.1 hs⟩
  · rw [Stmt.declaredNames_append]
    exact (sublist_ite_tableDecl _ _ _ _).append (sublist_ite_tableDecl _ _ _ _)

theorem mem_registeredTables {registered : Nat × QuadratureRule} {tables : List Stmt}
    (h : registeredTables options integral registered = .ok tables) :
    (∀ s ∈ tables, IsRuleTable options registered.1 registered.2 s) ∧
      (Stmt.declaredNames tables).Sublist (ruleNames registered.1) := by
  obtain ⟨-, ⟨-, rfl⟩ | ⟨integrand, -, h⟩⟩ := registeredTables_eq_ok h
  · exact ⟨nofun, List.nil_sublist _⟩
  · exact mem_ruleTables h

theorem sublist_of_registeredTables {registered : List (Nat × QuadratureRule)}
    {tables : List (List Stmt)}
    (h : List.Forall₂ (fun entry code => registeredTables options integral entry = .ok code)
      registered tables) :
    (tables.flatMap Stmt.declaredNames).Sublist (registered.flatMap (ruleNames ·.1)) := by
  induction h with
  | nil => exact List.Sublist.refl _
  | cons hfirst _ ih => exact (mem_registeredTables hfirst).2.append ih

/-- Behind their comment, the quadrature tables are those of the rules. -/
theorem exists_rule_of_mem {rules : List Stmt}
    (h : quadratureTables options integral = .ok rules) (hs : s ∈ rules) :
    s = .comment "Section for quadrature weights and points" ∨
      ∃ registered ∈ integral.rules.entries, IsRuleTable options registered.1 registered.2 s := by
  obtain ⟨-, rfl⟩ | ⟨-, tables, htables, rfl⟩ := quadratureTables_eq_ok h
  · cases hs
  · obtain ⟨text, htext, rfl⟩ | hs := Stmt.mem_commented hs
    · exact .inl (congrArg Stmt.comment (List.mem_singleton.1 htext))
    · obtain ⟨table, htable, hs⟩ := List.mem_flatten.1 hs
      obtain ⟨registered, hregistered, htable⟩ := exists_mem_of_mapM_right htables htable
      exact .inr ⟨registered, hregistered, (mem_registeredTables htable).1 s hs⟩

theorem mem_quadratureTables {rules : List Stmt}
    (h : quadratureTables options integral = .ok rules) :
    (∀ s ∈ rules, (∃ text, s = .comment text) ∨ ∃ decl, s = .array decl) ∧
      (Stmt.declaredNames rules).Sublist (integral.rules.keys.flatMap ruleNames) := by
  constructor
  · intro s hs
    obtain rfl | ⟨registered, -, name, -, sizes, values, -, rfl⟩ := exists_rule_of_mem h hs
    · exact .inl ⟨_, rfl⟩
    · exact .inr ⟨_, rfl⟩
  · obtain ⟨-, rfl⟩ | ⟨-, tables, htables, rfl⟩ := quadratureTables_eq_ok h
    · exact List.nil_sublist _
    · rw [Stmt.declaredNames_commented, Stmt.declaredNames_flatten, OrderedMap.keys,
        List.flatMap_map]
      exact sublist_of_registeredTables (mapM_eq_ok.1 htables)

theorem mem_elementTables (hs : s ∈ elementTables options integral) :
    (∃ text, s = .comment text) ∨ ∃ decl, s = .array decl := by
  obtain ⟨text, -, rfl⟩ | hs := Stmt.mem_commented hs
  · exact .inl ⟨text, rfl⟩
  · obtain ⟨entry, -, hs⟩ := List.mem_flatMap.1 hs
    obtain ⟨text, -, rfl⟩ | hs := Stmt.mem_commented hs
    · exact .inl ⟨text, rfl⟩
    · obtain ⟨table, -, rfl⟩ := List.mem_map.1 hs
      exact .inr ⟨_, rfl⟩

theorem declaredNames_elementTables (options : KernelOptions) (integral : Integral) :
    Stmt.declaredNames (elementTables options integral) =
      integral.integrands.entries.flatMap (·.2.tables.keys) := by
  rw [elementTables, Stmt.declaredNames_commented, List.flatMap_def, Stmt.declaredNames_flatten,
    List.flatMap_map]
  refine List.flatMap_congr fun entry _ => ?_
  show Stmt.declaredNames (integrandTables options entry.1 entry.2) = _
  rw [integrandTables, Stmt.declaredNames_commented]
  exact Stmt.declaredNames_map_array (fun table : String × ElementTable =>
    { ArrayDecl.table table.1 table.2.shape.toList table.2.values with
      alignment := options.alignment }) entry.2.tables.entries

theorem forall_mem_tables {P : Stmt → Prop} {rules : List Stmt}
    (hrules : quadratureTables options integral = .ok rules)
    (hcomment : ∀ text, P (.comment text)) (harray : ∀ decl, P (.array decl)) :
    ∀ s ∈ rules ++ elementTables options integral, P s := by
  intro s hs
  have hcases : (∃ text, s = .comment text) ∨ ∃ decl, s = .array decl :=
    (List.mem_append.1 hs).elim ((mem_quadratureTables hrules).1 s) mem_elementTables
  obtain ⟨text, rfl⟩ | ⟨decl, rfl⟩ := hcases
  · exact hcomment text
  · exact harray decl

theorem forall_mem_tensorReset {P : Stmt → Prop} {reset : List Stmt}
    (h : tensorReset integral = .ok reset) (hcomment : ∀ text, P (.comment text))
    (hassign : P (.assign (.entry tensor (.int 0)) (.float 0)))
    (hfill : ∀ size, P (.zeroFill tensor size)) : ∀ s ∈ reset, P s := by
  obtain ⟨size, -, h⟩ := bind_eq_ok.1 h
  cases h
  refine List.forall_mem_cons.2 ⟨hcomment _, List.forall_mem_singleton.2 ?_⟩
  split
  · exact hassign
  · exact hfill size

/-! ## Places in a kernel -/

theorem forall_mem_joinCodes {P : Stmt → Prop} {codes : List (List Stmt)}
    (hcodes : ∀ code ∈ codes, ∀ s ∈ code, P s) (hscope : ∀ code ∈ codes, P (.scope code)) :
    ∀ s ∈ joinCodes codes, P s := by
  unfold joinCodes
  split
  · exact List.forall_mem_map.2 hscope
  · exact List.forall_mem_flatten.2 hcodes

theorem mem_placedAll_joinCodes {codes : List (List Stmt)} {code : List Stmt} (hcode : code ∈ codes)
    {place : List Loop × Stmt} (h : place ∈ Stmt.placedAll code) :
    place ∈ Stmt.placedAll (joinCodes codes) := by
  unfold joinCodes
  split
  · refine Stmt.mem_placedAll.2 ⟨.scope code, List.mem_map_of_mem hcode, ?_⟩
    rw [Stmt.placed]
    exact List.mem_cons_of_mem _ h
  · obtain ⟨s, hs, hplace⟩ := Stmt.mem_placedAll.1 h
    exact Stmt.mem_placedAll.2 ⟨s, List.mem_flatten.2 ⟨code, hcode, hs⟩, hplace⟩

end Kernel

namespace Integral

open Kernel

variable {integral : Integral} {target : Target} {options : KernelOptions}
  {kernel : GeneratedKernel}

/-- What holds of the tables, of the reset and of every code holds everywhere in the kernel. -/
theorem everywhere_body {P : List Loop → Stmt → Prop}
    (h : integral.generate target options = .ok kernel)
    (hlist : ∀ body, P [] (.list body))
    (htables : ∀ rules reset, quadratureTables options integral = .ok rules →
      tensorReset integral = .ok reset →
      ∀ s ∈ rules ++ elementTables options integral ++ reset, s.Everywhere P)
    (hcodes : ∀ entry ∈ integral.integrands.entries,
      ∀ parts : CodeParts target integral entry.1 entry.2,
        P [] (.scope (parts.code options)) ∧ ∀ s ∈ parts.code options, s.Everywhere P) :
    kernel.body.Everywhere P := by
  obtain ⟨rules, reset, codes, hrules, hreset, hforall, hbody⟩ := exists_codes h
  rw [hbody]
  refine Stmt.everywhere_list.2 ⟨hlist _, List.forall_mem_append.2
    ⟨htables rules reset hrules hreset, forall_mem_joinCodes ?_ ?_⟩⟩
  · intro code hcode
    obtain ⟨entry, hentry, parts, rfl⟩ := exists_of_forall₂_right hforall hcode
    exact (hcodes entry hentry parts).2
  · intro code hcode
    obtain ⟨entry, hentry, parts, rfl⟩ := exists_of_forall₂_right hforall hcode
    exact Stmt.everywhere_scope.2 (hcodes entry hentry parts)

theorem exists_placed_code (h : integral.generate target options = .ok kernel)
    {entry : Nat × Integrand} (hentry : entry ∈ integral.integrands.entries) :
    ∃ parts : CodeParts target integral entry.1 entry.2,
      ∀ place ∈ Stmt.placedAll (parts.code options), place ∈ kernel.body.placed := by
  obtain ⟨rules, reset, codes, -, -, hforall, hbody⟩ := exists_codes h
  obtain ⟨code, hcode, parts, rfl⟩ := exists_of_forall₂_left hforall hentry
  refine ⟨parts, fun place hplace => ?_⟩
  rw [hbody, Stmt.placed, Stmt.placedAll_append]
  exact List.mem_cons_of_mem _ (List.mem_append_right _ (mem_placedAll_joinCodes hcode hplace))

/-! ### A kernel with both partitions -/

def constantRange : TableRange := ⟨"FE1", 0, 2, .fixed⟩

def pointRange : TableRange := ⟨"FE2", 0, 2, .quadrature⟩

def shiftedRange : TableRange := ⟨"FE1", 2, 4, .fixed⟩

/-- A coefficient on an interval that is clipped at the volume, tested with one function for each
point, with linear functions and with constants. -/
def clipped : Integrand where
  graph := ⟨[.terminal { terminal := .quadratureWeight }, .terminal { terminal := .coefficient 0 },
    .terminal { terminal := .cellVolume }, .operator .lt [1, 2], .operator .conditional [3, 1, 2],
    .operator .product [0, 4]]⟩
  partitions := [some .varying, some .piecewise, some .piecewise, some .piecewise,
    some .piecewise, some .varying]
  tableRanges := [none, some constantRange, none, none, none, none]
  arguments := [{ terminal := .argument 0 }]
  contributions := {
    piecewise := [([(2, 4)], [⟨[0], 4, [shiftedRange]⟩])]
    varying := [([(0, 2)], [⟨[0], 5, [pointRange]⟩, ⟨[0], 5, [hatRange]⟩])] }
  tables := OrderedMap.ofList [("FE0", hatTable), ("FE1", ⟨⟨1, 1, 2⟩, [0.5, 0.5]⟩)]
  needWeights := true

def clippedIntegral : Integral where
  type := .cell
  tensorShape := [4]
  rules := OrderedMap.ofList [(2, twoPointRule)]
  integrands := OrderedMap.ofList [(2, clipped)]

def clippedKernel : GeneratedKernel :=
  (clippedIntegral.generate cellTarget {}).toOption.get (by decide +kernel)

theorem generate_clipped : clippedIntegral.generate cellTarget {} = .ok clippedKernel :=
  eq_ok_get _

theorem mem_clipped_terminals {partition : Partition} {id : NodeId} {t : ModifiedTerminal}
    (h : (id, .terminal t) ∈ clipped.partitionNodes partition) :
    partition = .varying ∧ id = 0 ∧ t = { terminal := .quadratureWeight } ∨
      partition = .piecewise ∧ (id = 1 ∧ t = { terminal := .coefficient 0 } ∨
        id = 2 ∧ t = { terminal := .cellVolume }) := by
  cases partition with
  | piecewise =>
      have hmem : (id, GraphNode.terminal t) ∈ [(1, .terminal { terminal := .coefficient 0 }),
        (2, .terminal { terminal := .cellVolume }), (3, .operator .lt [1, 2]),
        (4, .operator .conditional [3, 1, 2])] := h
      simpa using hmem
  | varying =>
      have hmem : (id, GraphNode.terminal t) ∈ [(0, .terminal { terminal := .quadratureWeight }),
        (5, .operator .product [0, 4])] := h
      simpa using hmem

end Integral

end ElementKernel
