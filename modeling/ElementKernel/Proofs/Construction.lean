import ElementKernel.Proofs.NodeAcceptance

/-!
# Construction of integrands

An integrand is built by calls that change its graph, its markers and its table ranges in place, one
list after the other.  A call can be refused, and then what it has changed by that time stays
changed.  The main result says what any sequence of calls leaves behind, with refused calls anywhere
in between: `build_wellFormed`.
-/

namespace ElementKernel

/-- A computation that changes an integrand in place and that can be refused on the way. -/
abbrev Construction := ExceptT Inconsistency (StateM Integrand)

namespace Construction

/-- Adds a node to the graph and returns the position at which it is stored. -/
def pushNode (node : GraphNode) : Construction NodeId := do
  modify fun integrand => { integrand with graph := integrand.graph.push node }
  return (← get).graph.size - 1

def mark (partition : Option Partition) : Construction Unit :=
  modify fun integrand => { integrand with partitions := integrand.partitions ++ [partition] }

def recordRange (range : Option TableRange) : Construction Unit :=
  modify fun integrand => { integrand with tableRanges := integrand.tableRanges ++ [range] }

def addTerminal (terminal : ModifiedTerminal) (partition : Option Partition)
    (range : Option TableRange) : Construction NodeId := do
  mark partition
  recordRange range
  pushNode (.terminal terminal)

def addOperator (op : Operator) (operands : List NodeId) (partition : Option Partition) :
    Construction NodeId := do
  liftExcept ((← get).graph.checkOperands op operands)
  let id ← pushNode (.operator op operands)
  mark partition
  recordRange none
  return id

end Construction

/-- A call that adds a node. -/
inductive NodeCall where
  | terminal (t : ModifiedTerminal) (partition : Option Partition) (range : Option TableRange)
  | operator (op : Operator) (operands : List NodeId) (partition : Option Partition)
  deriving Repr

namespace NodeCall

def node : NodeCall → GraphNode
  | .terminal t _ _ => .terminal t
  | .operator op operands _ => .operator op operands

def partition : NodeCall → Option Partition
  | .terminal _ marker _ | .operator _ _ marker => marker

/-- The table range that is passed for the node.  Operators have none. -/
def range : NodeCall → Option TableRange
  | .terminal _ _ tableRange => tableRange
  | .operator .. => none

/-- The operands are as many as the operator takes, and all of them are ids of a graph with so many
nodes. -/
def Fits (size : Nat) : NodeCall → Prop
  | .terminal .. => True
  | .operator op operands _ => operands.length = op.arity ∧ ∀ operand ∈ operands, operand < size

def perform : NodeCall → Construction NodeId
  | .terminal t marker tableRange => Construction.addTerminal t marker tableRange
  | .operator op operands marker => Construction.addOperator op operands marker

/-- The answer to a call and the integrand after it. -/
def on (call : NodeCall) (integrand : Integrand) : Except Inconsistency NodeId × Integrand :=
  call.perform.run.run integrand

/-- Calls one after the other: their answers, and the integrand after the last. -/
def build : List NodeCall → Integrand → List (Except Inconsistency NodeId) × Integrand
  | [], integrand => ([], integrand)
  | call :: calls, integrand =>
      let (answer, next) := call.on integrand
      let (answers, last) := build calls next
      (answer :: answers, last)

/-- The calls that were not refused. -/
def accepted (calls : List NodeCall) (answers : List (Except Inconsistency NodeId)) :
    List NodeCall :=
  ((calls.zip answers).filter fun answered => answered.2.isOk).map Prod.fst

end NodeCall

theorem ExpressionGraph.checkOperands_eq_ok_iff (graph : ExpressionGraph) (op : Operator)
    (operands : List NodeId) : graph.checkOperands op operands = .ok () ↔
      operands.length = op.arity ∧ ∀ operand ∈ operands, operand < graph.size := by
  unfold checkOperands
  split
  next hcount => exact iff_of_false nofun fun h => hcount h.1
  next hcount =>
    rw [not_not] at hcount
    split
    next missing hmissing =>
      refine iff_of_false nofun fun h => ?_
      have hlate : graph.size ≤ missing := by simpa using List.find?_some hmissing
      exact absurd (h.2 missing (List.mem_of_find?_eq_some hmissing)) (Nat.not_lt.2 hlate)
    next hnone =>
      refine iff_of_true rfl ⟨hcount, fun operand hoperand => ?_⟩
      simpa using List.find?_eq_none.1 hnone operand hoperand

namespace NodeCall

/-! ## Single calls -/

theorem on_terminal (t : ModifiedTerminal) (marker : Option Partition)
    (tableRange : Option TableRange) (integrand : Integrand) :
    on (.terminal t marker tableRange) integrand =
      (.ok integrand.graph.size, integrand.pushTerminal t marker tableRange) := by
  have hid := integrand.graph.size_push (.terminal t)
  show (Except.ok ((integrand.graph.push (.terminal t)).size - 1), _) = _
  rw [hid]
  rfl

theorem on_operator (op : Operator) (operands : List NodeId) (marker : Option Partition)
    (integrand : Integrand) :
    on (.operator op operands marker) integrand =
      match integrand.pushOperator op operands marker with
      | .ok next => (.ok integrand.graph.size, next)
      | .error reason => (.error reason, integrand) := by
  have hid := integrand.graph.size_push (.operator op operands)
  -- The operands are looked at before anything is changed.
  show ((do
      liftExcept (integrand.graph.checkOperands op operands)
      let id ← Construction.pushNode (.operator op operands)
      Construction.mark marker
      Construction.recordRange none
      return id : Construction NodeId).run).run integrand = _
  unfold Integrand.pushOperator
  cases integrand.graph.checkOperands op operands with
  | error reason => rfl
  | ok =>
      show (Except.ok ((integrand.graph.push (.operator op operands)).size - 1), _) = _
      rw [hid]
      rfl

/-- A call that does not fit is refused and changes nothing. -/
theorem on_cases (call : NodeCall) (integrand : Integrand) :
    (call.Fits integrand.graph.size ∧ ∃ next : Integrand,
      call.on integrand = (.ok integrand.graph.size, next) ∧
      next.graph = integrand.graph.push call.node ∧
      next.partitions = integrand.partitions ++ [call.partition] ∧
      next.tableRanges = integrand.tableRanges ++ [call.range]) ∨
    (¬call.Fits integrand.graph.size ∧
      ∃ reason, call.on integrand = (.error reason, integrand)) := by
  cases call with
  | terminal t marker tableRange =>
      exact Or.inl ⟨trivial, _, on_terminal t marker tableRange integrand, rfl, rfl, rfl⟩
  | operator op operands marker =>
      have hiff := integrand.graph.checkOperands_eq_ok_iff op operands
      rw [on_operator, Integrand.pushOperator]
      cases hcheck : integrand.graph.checkOperands op operands with
      | ok => exact Or.inl ⟨hiff.1 hcheck, _, rfl, rfl, rfl, rfl⟩
      | error reason =>
          refine Or.inr ⟨fun hfits => ?_, reason, rfl⟩
          rw [hiff.2 hfits] at hcheck
          cases hcheck

theorem on_operator_refused_iff (op : Operator) (operands : List NodeId)
    (marker : Option Partition) (integrand : Integrand) :
    (∃ reason, (on (.operator op operands marker) integrand).1 = .error reason) ↔
      operands.length ≠ op.arity ∨ ∃ operand ∈ operands, integrand.graph.get? operand = none := by
  have hmissing : ∀ operand, integrand.graph.get? operand = none ↔
      ¬operand < integrand.graph.size := fun operand =>
    List.getElem?_eq_none_iff.trans Nat.not_lt.symm
  have hfits : (operands.length ≠ op.arity ∨
      ∃ operand ∈ operands, integrand.graph.get? operand = none) ↔
        ¬Fits integrand.graph.size (.operator op operands marker) := by
    simp only [Fits, hmissing, not_and_or, not_forall, exists_prop]
  rw [hfits]
  obtain ⟨hfit, next, hon, -⟩ | ⟨hunfit, reason, hon⟩ := on_cases (.operator op operands marker)
    integrand
  · rw [hon]
    exact iff_of_false nofun (not_not_intro hfit)
  · rw [hon]
    exact iff_of_true ⟨reason, rfl⟩ hunfit

theorem on_unchanged {call : NodeCall} {integrand : Integrand} {reason : Inconsistency}
    (h : (on call integrand).1 = .error reason) : (on call integrand).2 = integrand := by
  obtain ⟨-, next, hon, -⟩ | ⟨-, refused, hon⟩ := on_cases call integrand
  · rw [hon] at h
    cases h
  · rw [hon]

end NodeCall

/-! ## Sequences of calls -/

/-- The three lists of the integrand hold the data of the calls, and every call fitted when the
calls before it were stored. -/
structure Integrand.Stores (integrand : Integrand) (calls : List NodeCall) : Prop where
  nodes : integrand.graph.nodes = calls.map NodeCall.node
  partitions : integrand.partitions = calls.map NodeCall.partition
  tableRanges : integrand.tableRanges = calls.map NodeCall.range
  fits : ∀ (id : Nat) (call : NodeCall), calls[id]? = some call → call.Fits id

namespace Integrand.Stores

variable {integrand next : Integrand} {stored : List NodeCall} {call : NodeCall}

theorem empty : Integrand.Stores {} [] := ⟨rfl, rfl, rfl, nofun⟩

theorem size_eq (h : integrand.Stores stored) : integrand.graph.size = stored.length := by
  rw [ExpressionGraph.size, h.nodes, List.length_map]

theorem push (h : integrand.Stores stored) (hfits : call.Fits integrand.graph.size)
    (hgraph : next.graph = integrand.graph.push call.node)
    (hpartitions : next.partitions = integrand.partitions ++ [call.partition])
    (htableRanges : next.tableRanges = integrand.tableRanges ++ [call.range]) :
    next.Stores (stored ++ [call]) where
  nodes := by rw [hgraph, ExpressionGraph.push, h.nodes, List.map_append, List.map_singleton]
  partitions := by rw [hpartitions, h.partitions, List.map_append, List.map_singleton]
  tableRanges := by rw [htableRanges, h.tableRanges, List.map_append, List.map_singleton]
  fits id other hother := by
    rw [h.size_eq] at hfits
    rw [List.getElem?_append] at hother
    split at hother
    next => exact h.fits id other hother
    next hlate =>
      obtain ⟨hid, rfl⟩ : id = stored.length ∧ call = other := by
        obtain ⟨hlt, hsame⟩ := List.getElem?_eq_some_iff.1 hother
        rw [List.length_singleton] at hlt
        exact ⟨by omega, by simpa using hsame⟩
      rwa [hid]

/-- A call that is not refused answers the number of nodes before it. -/
theorem on (h : integrand.Stores stored) {id : NodeId} (hok : (call.on integrand).1 = .ok id) :
    id = integrand.graph.size ∧ (call.on integrand).2.Stores (stored ++ [call]) := by
  obtain ⟨hfits, next, hon, hgraph, hpartitions, htableRanges⟩ | ⟨-, refused, hon⟩ :=
    call.on_cases integrand
  · rw [hon] at hok ⊢
    exact ⟨(Except.ok.inj hok).symm, h.push hfits hgraph hpartitions htableRanges⟩
  · rw [hon] at hok
    cases hok

/-- Calls add the data of those that are not refused. -/
theorem build (h : integrand.Stores stored) (calls : List NodeCall) :
    (NodeCall.build calls integrand).2.Stores
      (stored ++ NodeCall.accepted calls (NodeCall.build calls integrand).1) := by
  induction calls generalizing integrand stored with
  | nil => simpa [NodeCall.build, NodeCall.accepted] using h
  | cons call calls ih =>
      rw [NodeCall.build]
      obtain ⟨hfits, next, hon, hgraph, hpartitions, htableRanges⟩ | ⟨-, reason, hon⟩ :=
        call.on_cases integrand
      · have hrest := ih (h.push hfits hgraph hpartitions htableRanges)
        rw [hon]
        rw [List.append_assoc, List.singleton_append] at hrest
        exact hrest
      · rw [hon]
        exact ih h

theorem operand_lt (h : integrand.Stores stored) {id : NodeId} {op : Operator}
    {operands : List NodeId} (hnode : integrand.graph.get? id = some (.operator op operands)) :
    ∀ operand ∈ operands, operand < id := by
  rw [ExpressionGraph.get?, h.nodes, List.getElem?_map] at hnode
  obtain ⟨call, hcall, hnode⟩ := Option.map_eq_some_iff.1 hnode
  have hfits := h.fits id call hcall
  cases call with
  | terminal => cases hnode
  | operator =>
      cases hnode
      exact hfits.2

end Integrand.Stores

namespace Integrand

theorem map_fst_partitionNodes (integrand : Integrand) (partition : Partition) :
    (integrand.partitionNodes partition).map Prod.fst =
      (List.range integrand.graph.size).filter
        fun id => integrand.partitions[id]? = some (some partition) := by
  rw [partitionNodes, ← ExpressionGraph.map_fst_entries, List.filter_map]
  rfl

end Integrand

namespace NodeCall

/-- After any calls, a further call is refused exactly if it is an operator whose operands are not
as many as it takes or are not all in the graph.  Refused, it changes nothing; otherwise it answers
the number of nodes before it.  The nodes, markers and table ranges are those of the calls that were
not refused, in their order, so that every operand precedes its node. -/
theorem build_wellFormed (calls : List NodeCall) :
    let stored := accepted calls (build calls {}).1
    let integrand := (build calls {}).2
    (∀ op operands marker,
      (∃ reason, (on (.operator op operands marker) integrand).1 = .error reason) ↔
        operands.length ≠ op.arity ∨
          ∃ operand ∈ operands, integrand.graph.get? operand = none) ∧
    (∀ t marker tableRange, ∃ id, (on (.terminal t marker tableRange) integrand).1 = .ok id) ∧
    (∀ call reason, (on call integrand).1 = .error reason → (on call integrand).2 = integrand) ∧
    (∀ call id, (on call integrand).1 = .ok id → id = integrand.graph.size ∧
      (on call integrand).2.Stores (stored ++ [call])) ∧
    (∀ id op operands, integrand.graph.get? id = some (.operator op operands) →
      ∀ operand ∈ operands, operand < id) ∧
    (integrand.partitions.length = integrand.graph.size ∧
      integrand.tableRanges.length = integrand.graph.size) ∧
    (integrand.graph.nodes = stored.map node ∧ integrand.partitions = stored.map partition ∧
      integrand.tableRanges = stored.map range) ∧
    ∀ marker, (integrand.partitionNodes marker).map Prod.fst =
        (List.range integrand.graph.size).filter
          (fun id => integrand.partitions[id]? = some (some marker)) ∧
      ∀ entry ∈ integrand.partitionNodes marker,
        integrand.graph.get? entry.1 = some entry.2 := by
  intro stored integrand
  have hstores : integrand.Stores stored := by
    simpa using Integrand.Stores.empty.build calls
  refine ⟨fun op operands marker => on_operator_refused_iff op operands marker integrand,
    fun t marker tableRange => ?_, fun call reason h => on_unchanged h,
    fun call id h => hstores.on h, fun id op operands h => hstores.operand_lt h, ⟨?_, ?_⟩,
    ⟨hstores.nodes, hstores.partitions, hstores.tableRanges⟩, fun marker =>
      ⟨integrand.map_fst_partitionNodes marker, fun entry hentry =>
        (Integrand.mem_partitionNodes_iff.1 hentry).1⟩⟩
  · rw [on_terminal]
    exact ⟨_, rfl⟩
  · rw [hstores.partitions, List.length_map, hstores.size_eq]
  · rw [hstores.tableRanges, List.length_map, hstores.size_eq]

end NodeCall

end ElementKernel
