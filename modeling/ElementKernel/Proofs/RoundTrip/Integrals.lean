import ElementKernel.Interchange.Integrand
import ElementKernel.Proofs.RoundTrip.Elements

/-!
# Integrals are given back

An integral with finite numbers is restored from its JSON form, whatever its graph, partitions,
ranges, contributions, tables and rules are and whether or not they agree with each other.  The
sizes that reading checks against the machine word, which are the keys of maps and the numbers of
matrix entries, have to fit the word.
-/

namespace ElementKernel

open JsonFormat

/-! ## Formats without floating-point numbers -/

instance : Faithful Operator :=
  ⟨fun op => named_restores (by decide) (Operator.mem_all op)⟩

instance : Faithful TableType :=
  ⟨fun type => named_restores (by decide) (TableType.mem_all type)⟩

instance : Faithful Partition :=
  ⟨fun partition => named_restores (by decide) (by cases partition <;> decide)⟩

instance : NonNull Partition := ⟨fun _ => nofun⟩

instance : Faithful Restriction :=
  ⟨fun restriction => named_restores (by decide) (by cases restriction <;> decide)⟩

instance : NonNull Restriction := ⟨fun _ => nofun⟩

instance : Faithful IntegralType :=
  ⟨fun type => named_restores (by decide) (IntegralType.mem_all type)⟩

instance : Faithful TableRange where
  restored range := by
    refine record_restores (by decide) rfl ?_
    simp [required]

instance : NonNull TableRange := ⟨fun _ => nofun⟩

instance : Faithful TableShape where
  restored shape := by
    have hread := decode_encode (shape.entities, shape.points, shape.dofs)
    exact bind_eq_ok.2 ⟨_, hread, rfl⟩

instance : Faithful BlockContribution where
  restored contribution := by
    refine record_restores (by decide) rfl ?_
    simp [required]

instance : Faithful BlockContributions where
  restored contributions := by
    refine record_restores (by decide) rfl ?_
    simp [required]

/-! ## Floating-point numbers -/

def AllFinite (numbers : List Float) : Prop := ∀ x ∈ numbers, x.isFinite

instance (numbers : List Float) : Decidable (AllFinite numbers) :=
  inferInstanceAs (Decidable (∀ x ∈ numbers, x.isFinite))

theorem AllFinite.restored {numbers : List Float} (h : AllFinite numbers) : Restored numbers :=
  restored_list fun x hx => restored_float (h x hx)

theorem AllFinite.of_mem_flatMap {α : Type} {xs : List α} {floats : α → List Float}
    (h : AllFinite (xs.flatMap floats)) {x : α} (hx : x ∈ xs) : AllFinite (floats x) :=
  fun y hy => h y (List.mem_flatMap.2 ⟨x, hx, hy⟩)

theorem AllFinite.left {xs ys : List Float} (h : AllFinite (xs ++ ys)) : AllFinite xs :=
  fun x hx => h x (List.mem_append_left ys hx)

theorem AllFinite.right {xs ys : List Float} (h : AllFinite (xs ++ ys)) : AllFinite ys :=
  fun x hx => h x (List.mem_append_right xs hx)

/-! ## Graphs -/

def Terminal.floats : Terminal → List Float
  | .float value => [value]
  | _ => []

theorem Terminal.restored {terminal : Terminal} (h : AllFinite terminal.floats) :
    Restored terminal := by
  cases terminal with
  | spatialCoordinate | jacobian | facetNormal | cellVolume | quadratureWeight | zero => rfl
  | argument number | coefficient number => rfl
  | int value =>
      change Terminal.int <$> decode (encode value) = _
      rw [decode_encode, map_ok]
  | float value =>
      have hvalue : decode (encode value) = .ok value := restored_float (h value List.mem_cons_self)
      change Terminal.float <$> decode (encode value) = _
      rw [hvalue, map_ok]

def ModifiedTerminal.floats (t : ModifiedTerminal) : List Float := t.terminal.floats

theorem ModifiedTerminal.restored {t : ModifiedTerminal} (h : AllFinite t.floats) :
    Restored t := by
  have hterminal : decode (encode t.terminal) = .ok t.terminal := Terminal.restored h
  refine record_restores (by decide) rfl ?_
  simp [required, ifPresent, hterminal]

def GraphNode.floats : GraphNode → List Float
  | .terminal t => t.floats
  | .operator _ _ => []

theorem GraphNode.restored {node : GraphNode} (h : AllFinite node.floats) : Restored node := by
  cases node with
  | terminal t =>
      have ht : decode (encode t) = .ok t := ModifiedTerminal.restored h
      change GraphNode.terminal <$> decode (encode t) = _
      rw [ht, map_ok]
  | operator op operands =>
      have hmembers : JsonValue.members? ["op", "operands"]
          (.object [("op", encode op), ("operands", encode operands)]) =
            some [some (encode op), some (encode operands)] :=
        members?_object (by decide) rfl
      refine bind_eq_ok.2 ⟨("Operator", _), rfl, ?_⟩
      refine bind_eq_ok.2 ⟨_, congrArg liftM hmembers, ?_⟩
      simp [required]

def ExpressionGraph.floats (graph : ExpressionGraph) : List Float :=
  graph.nodes.flatMap GraphNode.floats

theorem ExpressionGraph.restored {graph : ExpressionGraph} (h : AllFinite graph.floats) :
    Restored graph := by
  have hnodes : decode (encode graph.nodes) = .ok graph.nodes :=
    restored_list fun _ hnode => GraphNode.restored (h.of_mem_flatMap hnode)
  refine record_restores (by decide) rfl ?_
  simp [required, hnodes]

/-! ## Tables and rules -/

theorem ElementTable.restored {table : ElementTable} (h : AllFinite table.values) :
    Restored table := by
  have hvalues : decode (encode table.values) = .ok table.values := h.restored
  refine record_restores (by decide) rfl ?_
  simp [required, hvalues]

theorem PointMatrix.restored {m : PointMatrix} (h : AllFinite m.entries)
    (hsize : m.entries.length < Word.limit) : Restored m := by
  have htriple : decode (encode (m.entries, m.rows, m.columns)) =
      .ok (m.entries, m.rows, m.columns) :=
    restored_triple h.restored (decode_encode _) (decode_encode _)
  have hmul : Word.mul m.rows m.columns = .ok (m.rows * m.columns) :=
    Word.fit_eq_ok_iff.2 ⟨rfl, m.length_entries ▸ hsize⟩
  refine bind_eq_ok.2 ⟨_, htriple, bind_eq_ok.2 ⟨_, liftM_eq_ok.2 hmul, ?_⟩⟩
  exact dif_pos m.length_entries

namespace QuadratureRule

def floats (rule : QuadratureRule) : List Float := rule.points.entries ++ rule.weights

theorem restored {rule : QuadratureRule} (h : AllFinite rule.floats)
    (hsize : rule.points.entries.length < Word.limit) : Restored rule := by
  have hpoints : decode (encode rule.points) = .ok rule.points :=
    PointMatrix.restored h.left hsize
  have hweights : decode (encode rule.weights) = .ok rule.weights := h.right.restored
  refine record_restores (by decide) rfl ?_
  simp [required, hpoints, hweights]

end QuadratureRule

/-! ## Integrals -/

namespace Integrand

def floats (integrand : Integrand) : List Float :=
  integrand.graph.floats ++ integrand.arguments.flatMap ModifiedTerminal.floats ++
    integrand.tables.entries.flatMap fun entry => entry.2.values

theorem restored {integrand : Integrand} (h : AllFinite integrand.floats) :
    Restored integrand := by
  have hgraph : decode (encode integrand.graph) = .ok integrand.graph :=
    ExpressionGraph.restored h.left.left
  have harguments : decode (encode integrand.arguments) = .ok integrand.arguments :=
    restored_list fun _ hargument =>
      ModifiedTerminal.restored (h.left.right.of_mem_flatMap hargument)
  have htables : decode (encode integrand.tables) = .ok integrand.tables :=
    restored_lexical fun _ hentry => ElementTable.restored (h.right.of_mem_flatMap hentry)
  refine record_restores (by decide) rfl ?_
  simp [required, hgraph, harguments, htables]

end Integrand

namespace Integral

def floats (integral : Integral) : List Float :=
  (integral.rules.entries.flatMap fun entry => entry.2.floats) ++
    integral.integrands.entries.flatMap fun entry => entry.2.floats

/-- The sizes that are checked when an integral is read fit the machine word. -/
structure KeysFit (integral : Integral) : Prop where
  rules : ∀ key ∈ integral.rules.keys, key < Word.limit
  integrands : ∀ key ∈ integral.integrands.keys, key < Word.limit
  points : ∀ entry ∈ integral.rules.entries, entry.2.points.entries.length < Word.limit

theorem restored {integral : Integral} (h : AllFinite integral.floats) (hfits : integral.KeysFit) :
    Restored integral := by
  have hrules : decode (encode integral.rules) = .ok integral.rules :=
    restored_numbered hfits.rules fun entry hentry =>
      QuadratureRule.restored (h.left.of_mem_flatMap hentry) (hfits.points entry hentry)
  have hintegrands : decode (encode integral.integrands) = .ok integral.integrands :=
    restored_numbered hfits.integrands fun entry hentry =>
      Integrand.restored (h.right.of_mem_flatMap hentry)
  have hmembers : JsonValue.members?
      ["expr_irs", "integral_type", "quadrature_rules", "tensor_shape"]
      (.object [("integral_type", encode integral.type),
        ("tensor_shape", encode integral.tensorShape),
        ("quadrature_rules", encode integral.rules),
        ("expr_irs", encode integral.integrands)]) =
      some [some (encode integral.integrands), some (encode integral.type),
        some (encode integral.rules), some (encode integral.tensorShape)] := by
    simp [JsonValue.members?, List.lookup_cons]
  refine record_of_members hmembers ?_
  simp [ofMembers, hrules, hintegrands]

end Integral

/-- What is written as JSON is read back: integrals with finite numbers, elements of any nesting and
arenas of indices. -/
theorem restored_from_json :
    (∀ integral : Integral, AllFinite integral.floats → integral.KeysFit →
      decode (encode integral) = .ok integral) ∧
      (∀ element : ElementDescriptor, decode (encode element) = .ok element) ∧
      ∀ arena : IndexArena, decode (encode arena) = .ok arena :=
  ⟨fun _ => Integral.restored, decode_encode, decode_encode⟩

/-- One half times the first of two basis functions, by a rule with one point. -/
def halfIntegral : Integral where
  type := .cell
  tensorShape := [2]
  rules := OrderedMap.ofList [(1, ⟨PointMatrix.ofRows 1 [[0.5]], [1]⟩)]
  integrands := OrderedMap.ofList [(1, {
    graph := ⟨[.terminal { terminal := .float 0.5 }, .terminal { terminal := .quadratureWeight },
      .operator .product [0, 1]]⟩
    partitions := [some .piecewise, none, some .varying]
    tableRanges := [none, none, none]
    arguments := [{ terminal := .argument 0, restriction := some .plus }]
    contributions := { varying := [([(0, 1)], [⟨[0], 2, [⟨"FE0", 0, 1, .varying⟩]⟩])] }
    tables := OrderedMap.ofList [("FE0", ⟨⟨1, 1, 2⟩, [0.5, 0.25]⟩)]
    needWeights := true })]

theorem restored_from_json_half :
    AllFinite halfIntegral.floats ∧ halfIntegral.KeysFit ∧
      decode (encode halfIntegral) = .ok halfIntegral := by
  have hfinite : AllFinite halfIntegral.floats := by decide +kernel
  have hfits : halfIntegral.KeysFit := ⟨by decide, by decide, by decide +kernel⟩
  exact ⟨hfinite, hfits, restored_from_json.1 halfIntegral hfinite hfits⟩

end ElementKernel
