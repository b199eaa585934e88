import ElementKernel.Proofs.Requirements.Terminals

/-!
# Words of the code of an integrand

The code of an integrand is put together from terminals, operators and indices.  A foreign name in
it comes from the function of an operator, from the name of a table or from a literal.
-/

namespace ElementKernel

open Kernel

/-- The functions and methods that compute an operator. -/
def Operator.functions (op : Operator) : Dialect → List String
  | .c => op.function?.toList
  | .rust =>
      op.method?.toList ++
        match op with
        | .erf => ["libm::erf"]
        | .besselJ => ["libm::jn"]
        | .besselY => ["libm::yn"]
        | _ => []

def GraphNode.literals : GraphNode → List Float
  | .terminal t => t.terminal.literals
  | .operator .. => []

/-- The numbers of an integrand: literals of its graph and its arguments, and values of tables. -/
def Integrand.literals (integrand : Integrand) : List Float :=
  integrand.graph.nodes.flatMap GraphNode.literals ++
    integrand.arguments.flatMap (·.terminal.literals) ++
      integrand.tables.entries.flatMap (·.2.values)

/-- Nothing in an integrand brings a name into the code. -/
structure Integrand.Avoids (integrand : Integrand) (dialect : Dialect) (name : String) : Prop where
  functions : ∀ partition id op operands,
    (id, .operator op operands) ∈ integrand.partitionNodes partition →
      ∀ function ∈ op.functions dialect, Lacks name function
  tables : ∀ table ∈ integrand.tableNames, Lacks name table
  /-- Only one of the languages has macros, and there all literals are finite. -/
  literals : name ∈ floatMacros → dialect = .c ∧ ∀ x ∈ integrand.literals, ¬x.isNaN ∧ ¬x.isInf

theorem Integrand.Avoids.literals_of {integrand : Integrand} {dialect : Dialect} {name : String}
    (h : integrand.Avoids dialect name) {literals : List Float}
    (hliterals : ∀ x ∈ literals, x ∈ integrand.literals) :
    name ∈ floatMacros → dialect = .c ∧ ∀ x ∈ literals, ¬x.isNaN ∧ ¬x.isInf :=
  fun hmacro => ⟨(h.literals hmacro).1, fun x hx => (h.literals hmacro).2 x (hliterals x hx)⟩

theorem Integrand.mem_literals_of_terminal {integrand : Integrand} {partition : Partition}
    {id : NodeId} {t : ModifiedTerminal}
    (h : (id, .terminal t) ∈ integrand.partitionNodes partition) :
    ∀ x ∈ t.terminal.literals, x ∈ integrand.literals := by
  intro x hx
  have hnode := List.mem_of_getElem? (ExpressionGraph.mem_entries_iff.1 (List.mem_filter.1 h).1)
  refine List.mem_append_left _ (List.mem_append_left _ ?_)
  exact List.mem_flatMap.2 ⟨_, hnode, hx⟩

theorem Integrand.mem_literals_of_argument {integrand : Integrand} {number : Nat}
    {t : ModifiedTerminal} (h : integrand.arguments[number]? = some t) :
    ∀ x ∈ t.terminal.literals, x ∈ integrand.literals := by
  intro x hx
  refine List.mem_append_left _ (List.mem_append_right _ ?_)
  exact List.mem_flatMap.2 ⟨t, List.mem_of_getElem? h, hx⟩

variable {name : String} (hname : name ∈ foreignNames)

include hname

/-! ## Operators -/

namespace Operator

variable {op : Operator} {operands : List Expr} {e : Expr} {r : Renderer}

theorem lacks_shared? (hoperands : ∀ o ∈ operands, Lacks name (r.expr o))
    (h : op.shared? operands = some e) : Lacks name (r.expr e) := by
  unfold shared? at h
  split at h
  · cases h
    exact r.lacks_sum hname hoperands
  · cases h
    exact r.lacks_product hname hoperands
  · cases h
    obtain ⟨ha, hb⟩ := List.forall_mem_cons.1 hoperands
    exact r.lacks_quotient hname ha (hb _ List.mem_cons_self)
  · cases h
    exact r.lacks_not hname (hoperands _ List.mem_cons_self)
  · cases h
    obtain ⟨hc, hvalues⟩ := List.forall_mem_cons.1 hoperands
    obtain ⟨ht, hf⟩ := List.forall_mem_cons.1 hvalues
    exact r.lacks_conditional hname hc ht (hf _ List.mem_cons_self)
  · obtain ⟨logic, -, rfl⟩ := Option.map_eq_some_iff.1 h
    obtain ⟨ha, hb⟩ := List.forall_mem_cons.1 hoperands
    exact r.lacks_logic hname ha (hb _ List.mem_cons_self)
  · cases h

/-- An operator is written as a function of its language, and otherwise with marks only. -/
theorem lacks_expression (hoperands : ∀ o ∈ operands, Lacks name (r.expr o))
    (hfunctions : ∀ function ∈ op.functions r.dialect, Lacks name function)
    (hmacros : name ∈ floatMacros → r.dialect = .c)
    (h : op.expression operands r.dialect = .ok e) : Lacks name (r.expr e) := by
  -- Bessel functions take an integer for their order.
  have hbessel : ∀ {order x : Expr}, (∀ o ∈ [order, x], Lacks name (r.expr o)) →
      ∀ o ∈ [order.cast "i32", x], Lacks name (r.expr o) := by
    intro order x hoperands
    obtain ⟨horder, hx⟩ := List.forall_mem_cons.1 hoperands
    exact List.forall_mem_cons.2
      ⟨r.lacks_cast hname horder (lacks_plain hname (by decide)), hx⟩
  unfold expression at h
  split at h
  · cases h
  · split at h
    next e' hcall =>
      cases h
      cases hdialect : r.dialect with
      | c =>
          rw [hdialect] at hcall hfunctions
          unfold call? at hcall
          dsimp only at hcall
          split at hcall
          next function hfunction =>
            cases hcall
            refine r.lacks_call hname (hfunctions function ?_) hoperands
            exact Option.mem_toList.2 hfunction
          next => exact lacks_shared? hname hoperands hcall
      | rust =>
          rw [hdialect] at hcall hfunctions
          unfold call? at hcall
          dsimp only at hcall
          split at hcall
          next hmethod _ =>
            cases hcall
            obtain ⟨hreceiver, hrest⟩ := List.forall_mem_cons.1 hoperands
            refine r.lacks_method hname hreceiver (fun x _ hmacro => ?_) ?_ hrest
            · rw [hmacros hmacro] at hdialect
              cases hdialect
            · exact hfunctions _ (List.mem_append_left _ (Option.mem_toList.2 hmethod))
          next =>
            cases hcall
            exact r.lacks_call hname (hfunctions "libm::erf" (by decide)) hoperands
          next =>
            cases hcall
            have hfunction := hfunctions "libm::jn" (by decide)
            exact r.lacks_call hname hfunction (hbessel hoperands)
          next =>
            cases hcall
            have hfunction := hfunctions "libm::yn" (by decide)
            exact r.lacks_call hname hfunction (hbessel hoperands)
          next => exact lacks_shared? hname hoperands hcall
    next => cases h

end Operator

/-! ## Indices -/

namespace Kernel

variable {r : Renderer} {e : Expr}

theorem lacks_flattenOuter {outer : List (Expr × Nat)} {flat : Expr} {stride : Nat}
    (houter : ∀ entry ∈ outer, Lacks name (r.expr entry.1)) (hflat : Lacks name (r.expr flat))
    (h : flattenOuter outer flat stride = .ok e) : Lacks name (r.expr e) := by
  induction outer generalizing flat stride with
  | nil =>
      cases h
      exact hflat
  | cons entry outer ih =>
      obtain ⟨hentry, houter⟩ := List.forall_mem_cons.1 houter
      obtain ⟨next, -, h⟩ := bind_eq_ok.1 h
      refine ih houter (r.lacks_sum hname ?_) h
      refine List.forall_mem_cons.2 ⟨?_, List.forall_mem_singleton.2 hflat⟩
      split
      · exact hentry
      · exact r.lacks_product hname (List.forall_mem_cons.2
          ⟨r.lacks_expr_int hname _, List.forall_mem_singleton.2 hentry⟩)

theorem lacks_flatIndex {indices : List Expr} {shape : List Nat}
    (hindices : ∀ index ∈ indices, Lacks name (r.expr index))
    (h : flatIndex indices shape = .ok e) : Lacks name (r.expr e) := by
  obtain ⟨-, -, h⟩ := bind_eq_ok.1 h
  have hentries : ∀ entry ∈ (indices.zip shape).reverse, Lacks name (r.expr entry.1) :=
    fun entry hentry => hindices _ (List.of_mem_zip (List.mem_reverse.1 hentry)).1
  split at h
  · cases h
    exact r.lacks_expr_int hname 0
  next hzip =>
    rw [hzip] at hentries
    obtain ⟨hlast, houter⟩ := List.forall_mem_cons.1 hentries
    exact lacks_flattenOuter hname houter hlast h

/-! ## Nodes -/

variable {target : Target} {integral : Integral} {pointCount : Nat} {integrand : Integrand}
  {partition : Partition} {accesses : Accesses}

/-- The name stands nowhere in what a partition has computed so far. -/
structure StateLacks (r : Renderer) (name : String) (state : PartitionState) : Prop where
  accesses : ∀ access ∈ state.accesses, Lacks name (r.expr access.2)
  definitions : ∀ s ∈ state.definitions, r.LacksIn name s
  assignments : ∀ s ∈ state.assignments, r.LacksIn name s

theorem lacks_slot (k : Nat) : Lacks name (r.expr (slot (slotsName partition pointCount) k)) :=
  r.lacks_access hname (Renderer.lacks_symbol (lacks_slotsName hname partition pointCount))
    (List.forall_mem_singleton.2 (r.lacks_expr_int hname k))

/-- Node by node, a partition takes names from terminals and operators only. -/
theorem lacks_partitionState {state : PartitionState}
    (h : partitionState target pointCount integrand partition accesses = .ok state)
    (havoids : integrand.Avoids target.dialect name)
    (haccesses : ∀ access ∈ accesses, Lacks name (target.renderer.expr access.2)) :
    StateLacks target.renderer name state := by
  refine foldlM_eq_ok_induction (P := fun _ state => StateLacks target.renderer name state) h
    ⟨haccesses, List.forall_mem_nil _, List.forall_mem_nil _⟩ ?_
  rintro done ⟨id, t | ⟨op, operands⟩⟩ rest state next hsplit hlacks hvisit
  · obtain ⟨e, definitions, he, hdefinitions, rfl⟩ := visitTerminal_eq_ok hvisit
    have hnode : (id, .terminal t) ∈ integrand.partitionNodes partition := by simp [hsplit]
    have htables : ∀ range ∈ integrand.rangeOf id, Lacks name range.table := fun range hrange =>
      havoids.tables _ (Integrand.mem_tableNames_of_rangeOf hrange)
    have hread := Target.lacks_terminal hname he htables
      (havoids.literals_of (Integrand.mem_literals_of_terminal hnode))
    refine ⟨List.forall_mem_cons.2 ⟨hread, hlacks.accesses⟩,
      List.forall_mem_append.2 ⟨hlacks.definitions, ?_⟩, hlacks.assignments⟩
    exact Target.lacks_definitions hname hread htables hdefinitions
  · obtain ⟨arguments, e, harguments, he, hnext⟩ := visitOperator_eq_ok hvisit
    have hnode : (id, .operator op operands) ∈ integrand.partitionNodes partition := by
      simp [hsplit]
    have hvalue : Lacks name (target.renderer.expr e) := by
      refine Operator.lacks_expression hname (fun argument hmem => ?_)
        (havoids.functions partition id op operands hnode)
        (fun hmacro => (havoids.literals hmacro).1) he
      obtain ⟨operand, -, hoperand⟩ := exists_mem_of_mapM_right harguments hmem
      exact hlacks.accesses (operand, argument) (operandAccess_eq_ok hoperand).2
    obtain ⟨-, rfl⟩ | ⟨-, rfl⟩ := hnext
    · exact ⟨List.forall_mem_cons.2 ⟨hvalue, hlacks.accesses⟩, hlacks.definitions,
        hlacks.assignments⟩
    · have hslot : Lacks name (target.renderer.expr
          (slot (slotsName partition pointCount) state.assignments.length)) :=
        lacks_slot hname _
      refine ⟨List.forall_mem_cons.2 ⟨hslot, hlacks.accesses⟩, hlacks.definitions, ?_⟩
      exact List.forall_mem_append.2 ⟨hlacks.assignments,
        List.forall_mem_singleton.2 (Stmt.everywhere_assign.2 ⟨hslot, hvalue⟩)⟩

/-! ## Contributions -/

theorem lacks_index (axis : Axis) : Lacks name (target.renderer.expr (axis.index pointCount)) := by
  unfold Axis.index
  split
  · exact Target.lacks_pointIndex hname
  · exact Target.lacks_axisIndex hname axis.position

/-- A contribution takes names from its factor and from the tables of its axes. -/
theorem lacks_contributionCode {entry : BlockEntry}
    (hentry : entry ∈ integrand.contributions.get partition) {contribution : BlockContribution}
    (hcontribution : contribution ∈ entry.2) {code : Stmt}
    (h : contributionCode target integral pointCount integrand accesses entry.1 contribution =
      .ok code)
    (havoids : integrand.Avoids target.dialect name)
    (haccesses : ∀ access ∈ accesses, Lacks name (target.renderer.expr access.2)) :
    target.renderer.LacksIn name code := by
  obtain ⟨scalar, tables, position, -, -, hscalar, htables, hposition, rfl⟩ :=
    contributionCode_eq_ok h
  have hindex : Lacks name (target.renderer.expr position) :=
    lacks_flatIndex hname (List.forall_mem_map.2 fun axis _ => lacks_index hname axis) hposition
  have hfactors : ∀ e ∈ scalar ++ tables.flatten, Lacks name (target.renderer.expr e) := by
    refine List.forall_mem_append.2 ⟨fun e he => ?_, fun e he => ?_⟩
    · exact haccesses (contribution.factor, e) (scalarFactors_eq_ok hscalar e he)
    · obtain ⟨factors, hmem, he⟩ := List.mem_flatten.1 he
      obtain ⟨axis, haxis, hmem⟩ := exists_mem_of_mapM_right htables hmem
      obtain ⟨-, rfl⟩ | ⟨t, e', -, -, -, -, ht, haccess, rfl⟩ := axisFactors_eq_ok hmem
      · cases he
      · obtain rfl := List.mem_singleton.1 he
        refine Target.lacks_terminal hname haccess ?_
          (havoids.literals_of (Integrand.mem_literals_of_argument ht))
        rintro range ⟨⟩
        exact havoids.tables _ (Integrand.mem_tableNames_of_axis hentry hcontribution haxis)
  refine everywhere_nest _ (fun _ axis _ _ _ => lacks_index hname axis)
    (Stmt.everywhere_assignAdd.2 ⟨?_, ?_⟩)
  · exact Target.lacks_entry hname (Renderer.lacks_symbol (lacks_plain hname (by decide))) hindex
  · split
    · exact Target.lacks_small hname (.inr rfl)
    · exact Renderer.lacks_product hname hfactors

/-! ## The code of an integrand -/

namespace CodeParts

variable (parts : CodeParts target integral pointCount integrand) {options : KernelOptions}

theorem lacks_state (havoids : integrand.Avoids target.dialect name) (partition : Partition) :
    StateLacks target.renderer name (parts.state partition) := by
  have hpiecewise := lacks_partitionState hname parts.piecewise_eq havoids (List.forall_mem_nil _)
  cases partition with
  | piecewise => exact hpiecewise
  | varying => exact lacks_partitionState hname parts.varying_eq havoids hpiecewise.accesses

theorem lacks_statements (havoids : integrand.Avoids target.dialect name) (partition : Partition) :
    ∀ s ∈ parts.statements options partition, target.renderer.LacksIn name s := by
  have hstate := parts.lacks_state hname havoids partition
  intro s hs
  obtain rfl | hs | rfl | hs := mem_statements hs
  · refine Stmt.everywhere_comment.2 (lacks_plain hname ?_)
    cases partition <;> decide
  · exact hstate.definitions s hs
  · refine Stmt.everywhere_array.2 ?_
    exact Renderer.lacks_arrayDecl hname (lacks_slotsName hname partition pointCount) nofun
  · exact hstate.assignments s hs

theorem lacks_updates (havoids : integrand.Avoids target.dialect name) (partition : Partition) :
    ∀ s ∈ parts.updates partition, target.renderer.LacksIn name s := by
  have hstate := parts.lacks_state hname havoids partition
  intro s hs
  obtain ⟨entry, hentry, contribution, hcontribution, hs⟩ :=
    mem_blockCode (parts.updates_eq partition) hs
  exact lacks_contributionCode hname hentry hcontribution hs havoids hstate.accesses

/-- The code of an integrand lacks every name that the integrand avoids. -/
theorem lacks_code (havoids : integrand.Avoids target.dialect name) :
    ∀ s ∈ parts.code options, target.renderer.LacksIn name s := by
  refine parts.everywhere_code (fun _ => ?_) (fun _ => trivial)
    (fun _ _ => Target.lacks_pointIndex hname) fun partition => List.forall_mem_append.2
      ⟨parts.lacks_statements hname havoids partition, parts.lacks_updates hname havoids partition⟩
  refine List.forall_mem_cons.2 ⟨?_, List.forall_mem_singleton.2 (lacks_plain hname (by decide))⟩
  show Lacks name ("Quadrature loop body setup (num_points=" ++ toString pointCount ++ ")")
  rw [lacks_before hname (by decide), lacks_after hname (by decide)]
  exact Renderer.lacks_nat hname pointCount

end CodeParts

end Kernel

end ElementKernel
