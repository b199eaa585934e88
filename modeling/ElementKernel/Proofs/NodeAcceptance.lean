import ElementKernel.Proofs.Acceptable

/-!
# Exact acceptance of expression graphs

The nodes of a partition can be turned into code exactly when each of them is acceptable and the
language has its operator, which C always has.  What the list of accesses contains when a node is
visited has to be matched with the markers of the nodes before it; `Accessible` is the invariant
that does so.
-/

namespace ElementKernel

open Kernel

variable {dialect : Dialect} {type : IntegralType} {options : TargetOptions} {pointCount : Nat}

/-! ## Terminals -/

namespace Target

theorem argumentAccess_of_some (target : Target) (t : ModifiedTerminal) (number : Nat)
    (range : TableRange) (pointCount : Nat) :
    ∃ e, target.argumentAccess t number (some range) pointCount = .ok e := by
  unfold argumentAccess
  dsimp only
  split
  · exact ⟨_, rfl⟩
  · exact ⟨_, rfl⟩

theorem length_decides (range : TableRange) :
    (range.length).Decides (range.first ≤ range.past) :=
  Word.sub_decides range.past range.first

theorem length_eq_ok {range : TableRange} {n : Nat} (h : range.length = .ok n) :
    range.first ≤ range.past ∧ n = range.past - range.first := by
  unfold TableRange.length Word.sub at h
  split at h
  next hle =>
    cases h
    exact ⟨hle, rfl⟩
  next => cases h

theorem coefficientAccess_decides (t : ModifiedTerminal) (number : Nat)
    (range? : Option TableRange) (pointCount : Nat) :
    (coefficientAccess t number range? pointCount).Decides
      (∀ range, range? = some range → range.type = .ones → range.first ≤ range.past) := by
  cases range? with
  | none => exact (Checked.Decides.pure _).congr (by simp)
  | some range =>
      unfold coefficientAccess
      dsimp only
      split
      next hones =>
        have hfree : ∀ n, (if n = 1 then
              Pure.pure (coefficientValue number (.int (Word.signed range.first)))
            else Pure.pure (Expr.symbol (t.variableName s!"w{number}")) :
              Checked Expr).Decides True := by
          intro n
          split <;> exact .pure _
        exact ((length_decides range).bindFree hfree).congr (by simp [hones])
      next hquadrature => exact (Checked.Decides.pure _).congr (by simp [hquadrature])
      next hones _ =>
        exact (Checked.Decides.pure _).congr (by simpa using fun h => (hones h).elim)

theorem access_of_zeros {target : Target} {t : ModifiedTerminal} {range : TableRange}
    (h : range.type = .zeros) : target.access t (some range) pointCount = .ok (.float 0) := by
  simp [access, h, pure, Except.pure]

/-- Terminals other than coefficients are read without any computation of sizes. -/
theorem access_decides (t : ModifiedTerminal) (range? : Option TableRange) (pointCount : Nat) :
    (access ⟨dialect, type, options⟩ t range? pointCount).Decides (t.Readable type range?)
      (∀ range, range? = some range → range.type = .ones →
        (∃ number, t.terminal = .coefficient number) → range.first ≤ range.past) := by
  by_cases hzeros : ∃ range, range? = some range ∧ range.type = .zeros
  · obtain ⟨range, rfl, hzeros⟩ := hzeros
    rw [access_of_zeros hzeros]
    exact (Attempt.Decides.pure _).congr (by simp [ModifiedTerminal.Readable, hzeros])
      (by simp [hzeros])
  · have hany : range?.any (·.type = .zeros) = false := by
      cases range? <;> simp_all
    unfold access
    rw [hany]
    cases hterminal : t.terminal with
    | argument number =>
        cases range? with
        | none =>
            exact .reject _ (by simp [ModifiedTerminal.Readable, hterminal])
        | some range =>
            obtain ⟨e, he⟩ :=
              argumentAccess_of_some ⟨dialect, type, options⟩ t number range pointCount
            simp only [he]
            exact (Attempt.Decides.pure e).congr
              (by simp [ModifiedTerminal.Readable, hterminal]) (by simp)
    | coefficient number =>
        exact (Attempt.Decides.lift (coefficientAccess_decides t number range? pointCount)).congr
          (by simp [ModifiedTerminal.Readable, hterminal]) (by simp)
    | spatialCoordinate =>
        cases range? with
        | some range =>
            exact (Attempt.Decides.pure _).congr
              (by simp [ModifiedTerminal.Readable, hterminal]) (by simp)
        | none =>
            by_cases hvertex : type = .vertex
            · subst hvertex
              exact (Attempt.Decides.pure _).congr
                (by simp [ModifiedTerminal.Readable, hterminal]) (by simp)
            · have hreject : ¬t.Readable type none := by
                simp [ModifiedTerminal.Readable, hterminal, hvertex]
              cases type with
              | vertex => exact absurd rfl hvertex
              | _ => exact .reject _ hreject
    | jacobian =>
        cases range? with
        | some range =>
            exact (Attempt.Decides.pure _).congr
              (by simp [ModifiedTerminal.Readable, hterminal]) (by simp)
        | none => exact .reject _ (by simp [ModifiedTerminal.Readable, hterminal])
    | facetNormal =>
        have hreadable : t.Readable type range? ↔
            type = .exteriorFacet ∨ type = .interiorFacet := by
          simp [ModifiedTerminal.Readable, hterminal, hzeros]
        rw [hreadable]
        cases type with
        | exteriorFacet => exact (Attempt.Decides.pure _).congr (by simp) (by simp)
        | interiorFacet => exact (Attempt.Decides.pure _).congr (by simp) (by simp)
        | _ => exact .reject _ (by simp)
    | int value =>
        cases dialect with
        | c | rust =>
            exact (Attempt.Decides.pure _).congr
              (by simp [ModifiedTerminal.Readable, hterminal]) (by simp)
    | cellVolume | quadratureWeight | float | zero =>
        exact (Attempt.Decides.pure _).congr
          (by simp [ModifiedTerminal.Readable, hterminal]) (by simp)

theorem expansion_decides (target : Target) (name : String) (t : ModifiedTerminal)
    (range : TableRange) (pointCount : Nat) (dofs : Expr → Expr) :
    (target.expansion name t range pointCount dofs).Decides (range.first ≤ range.past) :=
  (length_decides range).bindFree fun _ => .pure _

/-- A coefficient with a table is read at the point, at its only degree of freedom, or from its
variable. -/
theorem coefficientAccess_cases {t : ModifiedTerminal} {number : Nat} {range : TableRange}
    {e : Expr} (h : coefficientAccess t number (some range) pointCount = .ok e) :
    (range.type = .quadrature ∧ e = coefficientValue number
        (.add (pointIndex pointCount) (.int (Word.signed range.first)))) ∨
      (range.type = .ones ∧ range.past - range.first = 1 ∧
        e = coefficientValue number (.int (Word.signed range.first))) ∨
      (range.type ≠ .quadrature ∧ ¬(range.type = .ones ∧ range.past - range.first = 1) ∧
        e = .symbol (t.variableName s!"w{number}")) := by
  unfold coefficientAccess at h
  dsimp only at h
  split at h
  next hones =>
    obtain ⟨n, hn, h⟩ := bind_eq_ok.1 h
    obtain ⟨-, rfl⟩ := length_eq_ok hn
    split at h
    next hone =>
      cases h
      exact .inr (.inl ⟨hones, hone, rfl⟩)
    next hone =>
      cases h
      exact .inr (.inr ⟨by simp [hones], by simp [hone], rfl⟩)
  next hquadrature =>
    cases h
    exact .inl ⟨hquadrature, rfl⟩
  next hones hquadrature =>
    cases h
    exact .inr (.inr ⟨hquadrature, fun h => hones h.1, rfl⟩)

/-- What a terminal with a table that is not zero is read by, as far as it may be expanded. -/
theorem access_cases {target : Target} {t : ModifiedTerminal} {range : TableRange} {e : Expr}
    (h : target.access t (some range) pointCount = .ok e) (hzeros : range.type ≠ .zeros) :
    match t.terminal with
    | .coefficient number => coefficientAccess t number (some range) pointCount = .ok e
    | .spatialCoordinate => e = .symbol (t.variableName "x")
    | .jacobian => e = .symbol (t.variableName "J")
    | _ => True := by
  unfold access at h
  rw [if_neg (by simpa using hzeros)] at h
  cases hterminal : t.terminal with
  | coefficient number => simpa [hterminal] using h
  | spatialCoordinate =>
      rw [hterminal] at h
      exact (Except.ok.inj h).symm
  | jacobian =>
      rw [hterminal] at h
      exact (Except.ok.inj h).symm
  | _ => trivial

theorem ne_zeros_of_access {target : Target} {t : ModifiedTerminal} {range : TableRange}
    {name : String} (h : target.access t (some range) pointCount = .ok (.symbol name)) :
    range.type ≠ .zeros := by
  intro hzeros
  rw [access_of_zeros hzeros] at h
  cases h

theorem definitions_decides {t : ModifiedTerminal} {range? : Option TableRange} {e : Expr}
    {target : Target} (h : target.access t range? pointCount = .ok e) :
    (target.definitions t range? pointCount e).Decides (t.ExpansionFits range?) := by
  unfold definitions
  split
  next name range number hterminal =>
    have hzeros := ne_zeros_of_access h
    have hcases := access_cases h hzeros
    rw [hterminal] at hcases
    obtain ⟨-, he⟩ | ⟨-, -, he⟩ | ⟨hquadrature, -⟩ := coefficientAccess_cases hcases
    · cases he
    · cases he
    · exact (expansion_decides ..).congr
        (by simp [ModifiedTerminal.ExpansionFits, hterminal, hzeros, hquadrature])
  next name range hterminal =>
    have hzeros := ne_zeros_of_access h
    exact (expansion_decides ..).congr
      (by simp [ModifiedTerminal.ExpansionFits, hterminal, hzeros])
  next name range hterminal =>
    have hzeros := ne_zeros_of_access h
    exact (expansion_decides ..).congr
      (by simp [ModifiedTerminal.ExpansionFits, hterminal, hzeros])
  next hcoefficient hcoordinate hjacobian =>
    -- A terminal that is not read as a variable is not expanded.
    refine (Checked.Decides.pure _).congr (iff_of_true trivial ?_)
    rintro range rfl hzeros
    have hcases := access_cases h hzeros
    cases hterminal : t.terminal with
    | coefficient number =>
        rw [hterminal] at hcases
        obtain ⟨hquadrature, -⟩ | ⟨-, hone, -⟩ | ⟨-, -, he⟩ := coefficientAccess_cases hcases
        · exact .inl hquadrature
        · exact .inr (by omega)
        · exact absurd hterminal (hcoefficient _ _ _ he rfl)
    | spatialCoordinate =>
        rw [hterminal] at hcases
        exact absurd hterminal (hcoordinate _ _ hcases rfl)
    | jacobian =>
        rw [hterminal] at hcases
        exact absurd hterminal (hjacobian _ _ hcases rfl)
    | _ => trivial

end Target

namespace Kernel

theorem visitTerminal_decides (t : ModifiedTerminal) (range? : Option TableRange)
    (state : PartitionState) (id : NodeId) :
    (visitTerminal ⟨dialect, type, options⟩ pointCount range? state id t).Decides
      (t.Readable type range?) (t.ExpansionFits range?) := by
  refine ((Target.access_decides t range? pointCount).bind fun e he =>
    (Attempt.Decides.lift (Target.definitions_decides he)).bindFree fun _ => .pure _).congr
      (and_iff_left trivial) ⟨And.right, fun h => ⟨?_, h⟩⟩
  rintro range rfl hones ⟨number, hnumber⟩
  have hfits := h range rfl (by simp [hones])
  simpa [hnumber, hones] using hfits

/-! ## Operators -/

theorem operandAccess_isOk_iff (accesses : Accesses) (id operand : NodeId) :
    (∃ e, operandAccess accesses id operand = .ok e) ↔
      operand < id ∧ ∃ e, accesses.lookup operand = some e := by
  unfold operandAccess
  split
  next h => simp [Nat.not_lt.2 h]
  next h => cases hlookup : accesses.lookup operand <;> simp [Nat.not_le.1 h]

end Kernel

namespace Operator

theorem exists_shared? (op : Operator) (operands : List Expr) (h : operands.length = op.arity)
    (hfunction : op.function? = none) : ∃ e, op.shared? operands = some e := by
  cases op with
  | sum | product => exact ⟨_, rfl⟩
  | division | eq | ne | lt | le | gt | ge | andCondition | orCondition =>
      obtain ⟨a, b, rfl⟩ := List.length_eq_two.1 h
      exact ⟨_, rfl⟩
  | notCondition =>
      obtain ⟨a, rfl⟩ := List.length_eq_one_iff.1 h
      exact ⟨_, rfl⟩
  | conditional =>
      obtain ⟨a, b, c, rfl⟩ := List.length_eq_three.1 h
      exact ⟨_, rfl⟩
  | _ => cases hfunction

theorem exists_call?_c (op : Operator) (operands : List Expr) (h : operands.length = op.arity) :
    ∃ e, op.call? operands .c = some e := by
  unfold call?
  dsimp only
  split
  · exact ⟨_, rfl⟩
  next hfunction => exact exists_shared? op operands h hfunction

theorem exists_call?_rust (op : Operator) (operands : List Expr)
    (h : operands.length = op.arity) (hsupported : op.Supported .rust) :
    ∃ e, op.call? operands .rust = some e := by
  cases op with
  | besselI => exact absurd rfl hsupported.1
  | besselK => exact absurd rfl hsupported.2
  | abs | sqrt | exp | ln | cos | sin | tan | acos | asin | atan | cosh | sinh | tanh | erf =>
      obtain ⟨a, rfl⟩ := List.length_eq_one_iff.1 h
      exact ⟨_, rfl⟩
  | power | atan2 | minValue | maxValue | besselJ | besselY =>
      obtain ⟨a, b, rfl⟩ := List.length_eq_two.1 h
      exact ⟨_, rfl⟩
  | sum | product => exact exists_shared? _ operands h rfl
  | division | eq | ne | lt | le | gt | ge | andCondition | orCondition | notCondition
  | conditional => exact exists_shared? _ operands h rfl

theorem exists_call?_iff (op : Operator) (operands : List Expr)
    (h : operands.length = op.arity) :
    (∃ e, op.call? operands dialect = some e) ↔ op.Supported dialect := by
  cases dialect with
  | c => exact iff_of_true (exists_call?_c op operands h) trivial
  | rust =>
      refine ⟨?_, exists_call?_rust op operands h⟩
      rintro ⟨e, he⟩
      constructor
      · rintro rfl
        obtain ⟨a, b, rfl⟩ := List.length_eq_two.1 h
        cases he
      · rintro rfl
        obtain ⟨a, b, rfl⟩ := List.length_eq_two.1 h
        cases he

theorem expression_isOk_iff (op : Operator) (operands : List Expr) :
    (∃ e, op.expression operands dialect = .ok e) ↔
      operands.length = op.arity ∧ op.Supported dialect := by
  unfold expression
  split
  next h => simp [h]
  next h =>
    have hlength := not_not.1 h
    rw [and_iff_right hlength, ← exists_call?_iff op operands hlength]
    cases op.call? operands dialect <;> simp

end Operator

namespace Kernel

variable {slots : String} {integrand : Integrand} {state : PartitionState} {id : NodeId}

theorem visitOperator_decides {known : NodeId → Prop} (op : Operator) (operands : List NodeId)
    (hknown : ∀ o < id, (∃ e, state.accesses.lookup o = some e) ↔ known o) :
    (visitOperator ⟨dialect, type, options⟩ slots state id op operands).Decides
      ((operands.length = op.arity ∧ ∀ o ∈ operands, o < id ∧ known o) ∧ op.Supported dialect)
      True := by
  have hoperands : (∃ arguments, operands.mapM (operandAccess state.accesses id) = .ok arguments) ↔
      ∀ o ∈ operands, o < id ∧ known o := by
    rw [exists_mapM_eq_ok]
    refine forall₂_congr fun o _ => ?_
    rw [operandAccess_isOk_iff]
    exact and_congr_right fun ho => hknown o ho
  unfold visitOperator
  split
  next reason hreason =>
    refine .reject _ fun h => ?_
    obtain ⟨arguments, harguments⟩ := hoperands.2 h.1.2
    rw [hreason] at harguments
    cases harguments
  next arguments harguments =>
    have hlength : arguments.length = operands.length :=
      (mapM_eq_ok.1 harguments).length_eq.symm
    have hexpression : (∃ e, op.expression arguments dialect = .ok e) ↔ _ :=
      Operator.expression_isOk_iff op arguments
    split
    next e he => exact .reject _ fun h => by simp [he, hlength, h.1.1, h.2] at hexpression
    next value hvalue =>
      obtain ⟨harity, hsupported⟩ := hexpression.1 ⟨value, hvalue⟩
      have hvalid : (operands.length = op.arity ∧ ∀ o ∈ operands, o < id ∧ known o) ∧
          op.Supported dialect :=
        ⟨⟨hlength ▸ harity, hoperands.1 ⟨arguments, harguments⟩⟩, hsupported⟩
      dsimp only
      split
      · exact (Attempt.Decides.pure _).congr (iff_of_true trivial hvalid) Iff.rfl
      · exact (Attempt.Decides.pure _).congr (iff_of_true trivial hvalid) Iff.rfl

/-! ## Partitions -/

theorem visit_decides {partition : Partition} (node : NodeId × GraphNode)
    (hknown : ∀ o < node.1,
      (∃ e, state.accesses.lookup o = some e) ↔ integrand.Computed partition o) :
    (visit ⟨dialect, type, options⟩ pointCount slots integrand state node).Decides
      (integrand.NodeAcceptable type partition node ∧ Integrand.NodeSupported dialect node)
      (integrand.NodeFits node) := by
  obtain ⟨id, t | ⟨op, operands⟩⟩ := node
  · exact (visitTerminal_decides t (integrand.rangeOf id) state id).congr
      (and_iff_left trivial).symm Iff.rfl
  · exact visitOperator_decides op operands hknown

theorem accesses_of_visit {target : Target} {node : NodeId × GraphNode} {next : PartitionState}
    (h : visit target pointCount slots integrand state node = .ok next) :
    ∃ e, next.accesses = (node.1, e) :: state.accesses := by
  obtain ⟨id, t | ⟨op, operands⟩⟩ := node
  · obtain ⟨e, -, h⟩ := bind_eq_ok.1 h
    obtain ⟨definitions, -, h⟩ := bind_eq_ok.1 h
    cases h
    exact ⟨e, rfl⟩
  · simp only [visit, visitOperator] at h
    split at h
    · cases h
    · split at h
      · cases h
      · split at h
        · cases h
          exact ⟨_, rfl⟩
        · cases h
          exact ⟨_, rfl⟩

end Kernel

namespace ExpressionGraph

theorem map_fst_entries (graph : ExpressionGraph) :
    graph.entries.map Prod.fst = List.range graph.size := by
  simp [entries, size, List.map_map, Function.comp_def, List.range_eq_range']

theorem mem_entries_iff {graph : ExpressionGraph} {id : NodeId} {node : GraphNode} :
    (id, node) ∈ graph.entries ↔ graph.get? id = some node := by
  simp [entries, get?, List.mem_zipIdx_iff_getElem?]

end ExpressionGraph

namespace Integrand

variable {partition : Partition}

theorem mem_partitionNodes_iff {integrand : Integrand} {id : NodeId} {node : GraphNode} :
    (id, node) ∈ integrand.partitionNodes partition ↔
      integrand.graph.get? id = some node ∧ integrand.Marked partition id := by
  simp [partitionNodes, ExpressionGraph.mem_entries_iff, Marked]

theorem partitionNodes_ascending (integrand : Integrand) (partition : Partition) :
    (integrand.partitionNodes partition).Pairwise fun a b => a.1 < b.1 := by
  apply List.Pairwise.filter
  have hrange := List.pairwise_lt_range (n := integrand.graph.size)
  rw [← ExpressionGraph.map_fst_entries, List.pairwise_map] at hrange
  exact hrange

/-- Markers stand only at nodes, once there are as many markers as nodes. -/
theorem DataComplete.exists_node {integrand : Integrand} (h : integrand.DataComplete)
    {id : NodeId} (hid : integrand.Marked partition id) :
    ∃ node, (id, node) ∈ integrand.partitionNodes partition := by
  obtain ⟨hlt, -⟩ := List.getElem?_eq_some_iff.1 hid
  rw [h.partitions] at hlt
  exact ⟨_, mem_partitionNodes_iff.2 ⟨List.getElem?_eq_getElem hlt, hid⟩⟩

end Integrand

namespace Kernel

variable {slots : String} {integrand : Integrand} {partition : Partition}

/-- While nodes are still to be visited, the computed nodes outside of them are accessible. -/
def Accessible (integrand : Integrand) (partition : Partition)
    (rest : List (NodeId × GraphNode)) (accesses : Accesses) : Prop :=
  ∀ o, (∀ node ∈ rest, o ≠ node.1) →
    ((∃ e, accesses.lookup o = some e) ↔ integrand.Computed partition o)

theorem Accessible.step {node : NodeId × GraphNode} {rest : List (NodeId × GraphNode)}
    {accesses : Accesses} {e : Expr}
    (h : Accessible integrand partition (node :: rest) accesses)
    (hnode : integrand.Computed partition node.1) :
    Accessible integrand partition rest ((node.1, e) :: accesses) := by
  intro o ho
  by_cases hnew : o = node.1
  · subst hnew
    simp [hnode]
  · rw [List.lookup_cons, beq_false_of_ne hnew]
    exact h o (List.forall_mem_cons.2 ⟨hnew, ho⟩)

theorem foldlM_visit_decides (nodes : List (NodeId × GraphNode)) (state : PartitionState)
    (hascending : nodes.Pairwise fun a b => a.1 < b.1)
    (hcomputed : ∀ node ∈ nodes, integrand.Computed partition node.1)
    (haccessible : Accessible integrand partition nodes state.accesses) :
    (nodes.foldlM (visit ⟨dialect, type, options⟩ pointCount slots integrand) state).Decides
      (∀ node ∈ nodes, integrand.NodeAcceptable type partition node ∧
        Integrand.NodeSupported dialect node)
      (∀ node ∈ nodes, integrand.NodeFits node) := by
  induction nodes generalizing state with
  | nil => exact (Attempt.Decides.pure state).congr (by simp) (by simp)
  | cons node rest ih =>
      rw [List.pairwise_cons] at hascending
      rw [List.forall_mem_cons] at hcomputed
      have hknown : ∀ o < node.1,
          (∃ e, state.accesses.lookup o = some e) ↔ integrand.Computed partition o := by
        intro o ho
        refine haccessible o (List.forall_mem_cons.2 ⟨Nat.ne_of_lt ho, fun other hother => ?_⟩)
        exact Nat.ne_of_lt (Nat.lt_trans ho (hascending.1 other hother))
      have hrest : ∀ next, visit ⟨dialect, type, options⟩ pointCount slots integrand state node =
          .ok next →
          (rest.foldlM (visit ⟨dialect, type, options⟩ pointCount slots integrand) next).Decides
            (∀ node ∈ rest, integrand.NodeAcceptable type partition node ∧
              Integrand.NodeSupported dialect node)
            (∀ node ∈ rest, integrand.NodeFits node) := by
        intro next hnext
        obtain ⟨e, he⟩ := accesses_of_visit hnext
        exact ih next hascending.2 hcomputed.2 (he ▸ haccessible.step hcomputed.1)
      rw [List.foldlM_cons]
      exact ((visit_decides node hknown).bind hrest).congr
        (by rw [List.forall_mem_cons]) List.forall_mem_cons.symm

/-- After all visits exactly the computed nodes are accessible. -/
theorem accessible_of_foldlM_visit {target : Target} (nodes : List (NodeId × GraphNode))
    {state final : PartitionState}
    (hcomputed : ∀ node ∈ nodes, integrand.Computed partition node.1)
    (haccessible : Accessible integrand partition nodes state.accesses)
    (h : nodes.foldlM (visit target pointCount slots integrand) state = .ok final) :
    Accessible integrand partition [] final.accesses := by
  induction nodes generalizing state with
  | nil =>
      cases h
      exact haccessible
  | cons node rest ih =>
      rw [List.forall_mem_cons] at hcomputed
      rw [List.foldlM_cons] at h
      obtain ⟨next, hnext, h⟩ := bind_eq_ok.1 h
      obtain ⟨e, he⟩ := accesses_of_visit hnext
      exact ih hcomputed.2 (he ▸ haccessible.step hcomputed.1) h

theorem accessible_nil (h : integrand.DataComplete) :
    Accessible integrand .piecewise (integrand.partitionNodes .piecewise) [] := by
  intro o ho
  refine iff_of_false (by simp) fun hmarked => ?_
  obtain ⟨node, hnode⟩ := h.exists_node hmarked
  exact ho _ hnode rfl

/-- What the piecewise nodes leave accessible is what the varying nodes start from. -/
theorem Accessible.varying {accesses : Accesses} (h : integrand.DataComplete)
    (haccessible : Accessible integrand .piecewise [] accesses) :
    Accessible integrand .varying (integrand.partitionNodes .varying) accesses := by
  intro o ho
  rw [haccessible o (by simp)]
  refine ⟨Or.inl, fun hcomputed => hcomputed.resolve_right fun hmarked => ?_⟩
  obtain ⟨node, hnode⟩ := h.exists_node hmarked
  exact ho _ hnode rfl

theorem computed_of_mem_partitionNodes {node : NodeId × GraphNode}
    (h : node ∈ integrand.partitionNodes partition) : integrand.Computed partition node.1 := by
  have hmarked := (Integrand.mem_partitionNodes_iff.1 h).2
  cases partition with
  | piecewise => exact hmarked
  | varying => exact .inr hmarked

theorem partitionState_decides {accesses : Accesses}
    (haccessible : Accessible integrand partition (integrand.partitionNodes partition) accesses) :
    (partitionState ⟨dialect, type, options⟩ pointCount integrand partition accesses).Decides
      (∀ node ∈ integrand.partitionNodes partition,
        integrand.NodeAcceptable type partition node ∧ Integrand.NodeSupported dialect node)
      (∀ node ∈ integrand.partitionNodes partition, integrand.NodeFits node) :=
  foldlM_visit_decides _ _ (integrand.partitionNodes_ascending partition)
    (fun _ h => computed_of_mem_partitionNodes h) haccessible

theorem accessible_of_partitionState {target : Target} {accesses : Accesses}
    {state : PartitionState}
    (haccessible : Accessible integrand partition (integrand.partitionNodes partition) accesses)
    (h : partitionState target pointCount integrand partition accesses = .ok state) :
    Accessible integrand partition [] state.accesses :=
  accessible_of_foldlM_visit _ (fun _ h => computed_of_mem_partitionNodes h) haccessible h

end Kernel

end ElementKernel
