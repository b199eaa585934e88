import ElementKernel.Proofs.Scoping.Codes

/-!
# Declared names

Tables, slots and variables are declared in the block that uses them.  No name is declared twice in
a block, as long as the tables of different integrands have different names and the terminals of a
partition have different variables.
-/

namespace ElementKernel

open Kernel

/-- No block of the tree declares a name twice. -/
def Stmt.DeclaresOnce (body : Stmt) : Prop :=
  ∀ block, body.HasBlock block → (block.filterMap Stmt.declaredName?).Nodup

/-- The terminals of a partition in topological order. -/
def Integrand.terminals (integrand : Integrand) (partition : Partition) : List ModifiedTerminal :=
  (integrand.partitionNodes partition).filterMap fun
    | (_, .terminal t) => some t
    | (_, .operator ..) => none

/-- The names that a kernel gives to its own arrays and variables. -/
def IsOwnName (name : String) : Prop :=
  (∃ pointCount, name ∈ ruleNames pointCount) ∨
    (∃ partition pointCount, name = slotsName partition pointCount) ∨
      ∃ (t : ModifiedTerminal) (range? : Option TableRange), t.expansionName? range? = some name

theorem IsOwnName.head {name : String} (h : IsOwnName name) :
    name.toList.head? ∈ [some 'w', some 'p', some 's', some 'x', some 'J'] := by
  obtain ⟨pointCount, hrule⟩ | ⟨partition, pointCount, rfl⟩ | ⟨t, range?, hname⟩ := h
  · obtain rfl | rfl := List.mem_pair.1 hrule
    · simp [head_weightsName]
    · simp [head_pointsName]
  · simp [head_slotsName]
  · obtain h | h | h := ModifiedTerminal.head_expansionName hname <;> simp [h]

/-- The terminals of a partition are told apart by their variables, and tables from everything that
a kernel names itself. -/
structure Integral.NamesDiffer (integral : Integral) : Prop where
  /-- The terminals of a partition differ, derivative counts that are all zero left aside. -/
  terminals : ∀ entry ∈ integral.integrands.entries, ∀ partition,
    ((entry.2.terminals partition).map ModifiedTerminal.normalized).Nodup
  derivatives : ∀ entry ∈ integral.integrands.entries, ∀ partition,
    ∀ t ∈ entry.2.terminals partition, ∀ count ∈ t.localDerivatives, count < 10
  tables : ∀ entry ∈ integral.integrands.entries, ∀ name ∈ entry.2.tables.keys, ¬IsOwnName name

/-- Different integrands have no table name in common. -/
def Integral.TablesDiffer (integral : Integral) : Prop :=
  integral.integrands.entries.Pairwise fun entry other =>
    entry.2.tables.keys.Disjoint other.2.tables.keys

/-! ## Blocks -/

namespace Stmt

/-- The names in the block of every loop and scope of the tree are distinct. -/
def DistinctInside (s : Stmt) : Prop :=
  s.Everywhere fun _ t => ∀ body, t.block? = some body → (declaredNames body).Nodup

theorem DistinctInside.declaresOnce {s : Stmt} (h : s.DistinctInside)
    (hown : (s.direct.filterMap declaredName?).Nodup) : s.DeclaresOnce := by
  rintro block (rfl | ⟨loops, t, body, ht, hbody, rfl⟩)
  · exact hown
  · exact h _ ht body hbody

theorem declaredNames_eq_nil {xs : List Stmt}
    (h : ∀ s ∈ xs, s.direct.filterMap declaredName? = []) : declaredNames xs = [] := by
  induction xs with
  | nil => rfl
  | cons s rest ih =>
      obtain ⟨hs, hrest⟩ := List.forall_mem_cons.1 h
      rw [declaredNames_cons, hs, ih hrest, List.nil_append]

end Stmt

/-! ## Variables -/

namespace Integrand

/-- Different terminals of a partition have different variables. -/
theorem nodup_variables {integrand : Integrand} {partition : Partition}
    (hterminals : ((integrand.terminals partition).map ModifiedTerminal.normalized).Nodup)
    (hderivatives : ∀ t ∈ integrand.terminals partition, ∀ count ∈ t.localDerivatives, count < 10) :
    (integrand.variables partition).Nodup := by
  have hpairwise := List.pairwise_filterMap.1 (List.pairwise_map.1 hterminals)
  refine List.nodup_flatMap.2 ⟨fun node _ => ?_, ?_⟩
  · obtain ⟨id, t | ⟨op, operands⟩⟩ := node
    · show (t.expansionName? (integrand.rangeOf id)).toList.Nodup
      cases t.expansionName? (integrand.rangeOf id) with
      | none => exact List.nodup_nil
      | some name => exact List.nodup_singleton name
    · exact List.nodup_nil
  · refine hpairwise.imp_of_mem fun {first second} hfirst hsecond hne name hname hname' => ?_
    obtain ⟨id, t | ⟨op, operands⟩⟩ := first
    · obtain ⟨id', t' | ⟨op, operands⟩⟩ := second
      · have hmem : t ∈ integrand.terminals partition := List.mem_filterMap.2 ⟨_, hfirst, rfl⟩
        have hmem' : t' ∈ integrand.terminals partition := List.mem_filterMap.2 ⟨_, hsecond, rfl⟩
        exact hne t rfl t' rfl (ModifiedTerminal.normalized_eq_of_expansionName
          (Option.mem_toList.1 hname) (Option.mem_toList.1 hname') (hderivatives t hmem)
          (hderivatives t' hmem'))
      · cases hname'
    · cases hname

theorem exists_of_mem_variables {integrand : Integrand} {partition : Partition} {name : String}
    (h : name ∈ integrand.variables partition) :
    ∃ (t : ModifiedTerminal) (range? : Option TableRange), t.expansionName? range? = some name := by
  obtain ⟨⟨id, t | ⟨op, operands⟩⟩, -, hname⟩ := List.mem_flatMap.1 h
  · exact ⟨t, _, Option.mem_toList.1 hname⟩
  · cases hname

end Integrand

namespace Kernel

variable {target : Target} {integral : Integral} {options : KernelOptions} {pointCount : Nat}
  {integrand : Integrand} {partition : Partition} {accesses : Accesses} {state : PartitionState}

theorem declaredNames_definitions
    (h : partitionState target pointCount integrand partition accesses = .ok state) :
    Stmt.declaredNames state.definitions = integrand.variables partition := by
  refine foldlM_eq_ok_induction (P := fun done (state : PartitionState) =>
    Stmt.declaredNames state.definitions = done.flatMap integrand.variablesOf) h rfl ?_
  rintro done ⟨id, t | ⟨op, operands⟩⟩ rest state next - hdone hvisit
  · obtain ⟨e, definitions, he, hdefinitions, rfl⟩ := visitTerminal_eq_ok hvisit
    rw [Stmt.declaredNames_append, hdone, List.flatMap_append]
    congr 1
    obtain ⟨hname, rfl⟩ | ⟨name, past, value, hname, rfl, -⟩ :=
      Target.definitions_eq_ok he hdefinitions
    · simp [Integrand.variablesOf, hname, Stmt.declaredNames, Stmt.directAll]
    · simp [Integrand.variablesOf, hname, Stmt.declaredNames, Stmt.directAll, Stmt.direct,
        Stmt.declaredName?]
  · obtain ⟨arguments, e, -, -, hnext⟩ := visitOperator_eq_ok hvisit
    have hnone : (done ++ [(id, GraphNode.operator op operands)]).flatMap integrand.variablesOf =
        done.flatMap integrand.variablesOf := by
      simp [Integrand.variablesOf]
    obtain ⟨-, rfl⟩ | ⟨-, rfl⟩ := hnext
    · rw [hnone, hdone]
    · rw [hnone, hdone]

/-- Definitions of a partition open no block with declarations. -/
theorem distinctInside_definitions
    (h : partitionState target pointCount integrand partition accesses = .ok state) :
    ∀ s ∈ state.definitions, s.DistinctInside := by
  intro s hs
  obtain ⟨id, t, name, -, -, rfl | ⟨past, value, rfl, -⟩⟩ := mem_definitions h s hs
  · exact Stmt.everywhere_declare.2 nofun
  · refine Stmt.everywhere_forRange.2 ⟨?_, ?_⟩
    · rintro body ⟨⟩
      exact List.nodup_nil
    · exact List.forall_mem_singleton.2 (Stmt.everywhere_assignAdd.2 nofun)

/-! ## Updates -/

theorem declaredNames_nest (axes : List Axis) (position : Expr) (factors : List Expr) :
    (nest pointCount axes (update position factors)).direct.filterMap Stmt.declaredName? = [] := by
  induction axes with
  | nil => rfl
  | cons axis rest ih =>
      show (axis.loop pointCount (nest pointCount rest _)).direct.filterMap _ = []
      unfold Axis.loop
      split
      · exact ih
      · rfl

theorem distinctInside_nest (axes : List Axis) (position : Expr) (factors : List Expr) :
    (nest pointCount axes (update position factors)).DistinctInside := by
  induction axes with
  | nil => exact Stmt.everywhere_assignAdd.2 nofun
  | cons axis rest ih =>
      show (axis.loop pointCount (nest pointCount rest _)).DistinctInside
      unfold Axis.loop
      split
      · exact ih
      · refine Stmt.everywhere_forRange.2 ⟨?_, List.forall_mem_singleton.2 ih⟩
        rintro body ⟨⟩
        rw [Stmt.declaredNames_cons, declaredNames_nest]
        exact List.nodup_nil

/-! ## Integrands -/

namespace CodeParts

variable (parts : CodeParts target integral pointCount integrand) (options)

theorem exists_nest {s : Stmt} (h : s ∈ parts.updates partition) :
    ∃ axes position factors, s = nest pointCount axes (update position factors) := by
  obtain ⟨entry, -, contribution, -, hcode⟩ := mem_blockCode (parts.updates_eq partition) h
  obtain ⟨scalar, tables, position, -, -, -, -, -, rfl⟩ := contributionCode_eq_ok hcode
  exact ⟨_, _, _, rfl⟩

theorem declaredNames_updates (partition : Partition) :
    Stmt.declaredNames (parts.updates partition) = [] := by
  refine Stmt.declaredNames_eq_nil fun s hs => ?_
  obtain ⟨axes, position, factors, rfl⟩ := parts.exists_nest hs
  exact declaredNames_nest axes position factors

theorem distinctInside_updates (partition : Partition) :
    ∀ s ∈ parts.updates partition, s.DistinctInside := by
  intro s hs
  obtain ⟨axes, position, factors, rfl⟩ := parts.exists_nest hs
  exact distinctInside_nest axes position factors

/-- The names that the statements of a partition may declare. -/
def ownNames (integrand : Integrand) (pointCount : Nat) (partition : Partition) : List String :=
  integrand.variables partition ++ [slotsName partition pointCount]

theorem declaredNames_statements (partition : Partition) :
    (Stmt.declaredNames (parts.statements options partition)).Sublist
      (ownNames integrand pointCount partition) := by
  have hassignments : Stmt.declaredNames (parts.state partition).assignments = [] := by
    refine Stmt.declaredNames_eq_nil fun s hs => ?_
    obtain ⟨k, value, rfl⟩ := exists_slot_of_mem (parts.state_eq partition) s hs
    rfl
  unfold statements PartitionState.statements
  rw [Stmt.declaredNames_commented, Stmt.declaredNames_append,
    declaredNames_definitions (parts.state_eq partition)]
  refine (List.Sublist.refl _).append ?_
  split
  · exact List.nil_sublist _
  · rw [Stmt.declaredNames_cons, hassignments]
    exact List.Sublist.refl _

theorem distinctInside_statements (partition : Partition) :
    ∀ s ∈ parts.statements options partition, s.DistinctInside := by
  intro s hs
  obtain rfl | hs | rfl | hs := mem_statements hs
  · exact Stmt.everywhere_comment.2 nofun
  · exact distinctInside_definitions (parts.state_eq partition) s hs
  · exact Stmt.everywhere_array.2 nofun
  · obtain ⟨k, value, rfl⟩ := exists_slot_of_mem (parts.state_eq partition) s hs
    exact Stmt.everywhere_assign.2 nofun

theorem declaredNames_loopBody : (Stmt.declaredNames (parts.loopBody options)).Sublist
    (ownNames integrand pointCount .varying) := by
  rw [loopBody, Stmt.declaredNames_append, Stmt.declaredNames_commented, declaredNames_updates,
    List.append_nil]
  exact parts.declaredNames_statements options .varying

/-- The quadrature loop is a block of its own. -/
theorem declaredNames_code : (Stmt.declaredNames (parts.code options)).Sublist
    (ownNames integrand pointCount .piecewise) := by
  have hloop : Stmt.declaredNames (quadratureLoop pointCount (parts.loopBody options)) = [] := by
    unfold quadratureLoop
    split
    · rfl
    · split <;> rfl
  rw [code, ahead, Stmt.declaredNames_append, Stmt.declaredNames_append, declaredNames_updates,
    hloop, List.append_nil, List.append_nil]
  exact parts.declaredNames_statements options .piecewise

theorem distinctInside_code (hvarying : (ownNames integrand pointCount .varying).Nodup) :
    ∀ s ∈ parts.code options, s.DistinctInside := by
  have hbody : ∀ s ∈ parts.loopBody options, s.DistinctInside := by
    refine List.forall_mem_append.2 ⟨fun s hs => ?_, parts.distinctInside_updates .varying⟩
    obtain ⟨text, -, rfl⟩ | hs := Stmt.mem_commented hs
    · exact Stmt.everywhere_comment.2 nofun
    · exact parts.distinctInside_statements options .varying s hs
  have hnodup := hvarying.sublist (parts.declaredNames_loopBody options)
  refine List.forall_mem_append.2 ⟨List.forall_mem_append.2
    ⟨parts.distinctInside_statements options .piecewise,
      parts.distinctInside_updates .piecewise⟩, ?_⟩
  unfold quadratureLoop
  split
  · exact List.forall_mem_nil _
  · split
    · refine List.forall_mem_cons.2 ⟨Stmt.everywhere_comment.2 nofun, ?_⟩
      refine List.forall_mem_singleton.2 (Stmt.everywhere_scope.2 ⟨?_, hbody⟩)
      rintro body ⟨⟩
      exact hnodup
    · refine List.forall_mem_singleton.2 (Stmt.everywhere_forRange.2 ⟨?_, hbody⟩)
      rintro body ⟨⟩
      exact hnodup

end CodeParts

end Kernel

/-! ## Kernels -/

namespace Integral

variable {integral : Integral} {target : Target} {options : KernelOptions}
  {kernel : GeneratedKernel}

theorem NamesDiffer.nodup_ownNames (h : integral.NamesDiffer) {entry : Nat × Integrand}
    (hentry : entry ∈ integral.integrands.entries) (partition : Partition) :
    (CodeParts.ownNames entry.2 entry.1 partition).Nodup := by
  refine List.nodup_append.2 ⟨Integrand.nodup_variables (h.terminals entry hentry partition)
    (h.derivatives entry hentry partition), List.nodup_singleton _, ?_⟩
  rintro name hname _ hslots rfl
  obtain rfl := List.mem_singleton.1 hslots
  obtain ⟨t, range?, hvariable⟩ := Integrand.exists_of_mem_variables hname
  exact ModifiedTerminal.ne_of_expansionName hvariable (underscore_notMem_slotsName _ _) rfl

theorem NamesDiffer.nodup_tables (h : integral.NamesDiffer) (hdisjoint : integral.TablesDiffer) :
    (integral.rules.keys.flatMap ruleNames ++
      integral.integrands.entries.flatMap (·.2.tables.keys)).Nodup := by
  refine List.nodup_append.2 ⟨nodup_flatMap_ruleNames integral.rules.nodup_keys,
    List.nodup_flatMap.2 ⟨fun entry _ => entry.2.tables.nodup_keys, hdisjoint⟩, ?_⟩
  rintro name hrule _ htable rfl
  obtain ⟨pointCount, -, hrule⟩ := List.mem_flatMap.1 hrule
  obtain ⟨entry, hentry, htable⟩ := List.mem_flatMap.1 htable
  exact h.tables entry hentry name htable (.inl ⟨pointCount, hrule⟩)

theorem NamesDiffer.disjoint_ownNames (h : integral.NamesDiffer) (pointCount : Nat)
    (integrand : Integrand) (partition : Partition) :
    List.Disjoint (integral.rules.keys.flatMap ruleNames ++
      integral.integrands.entries.flatMap (·.2.tables.keys))
        (CodeParts.ownNames integrand pointCount partition) := by
  intro name htop hown
  obtain hrule | htable := List.mem_append.1 htop
  · obtain ⟨count, -, hrule⟩ := List.mem_flatMap.1 hrule
    obtain hvariable | hslots := List.mem_append.1 hown
    · obtain ⟨t, range?, hname⟩ := Integrand.exists_of_mem_variables hvariable
      have hletters := underscore_notMem_ruleNames count name hrule
      exact ModifiedTerminal.ne_of_expansionName hname hletters rfl
    · obtain rfl := List.mem_singleton.1 hslots
      obtain hweights | hpoints := List.mem_pair.1 hrule
      · exact ne_of_heads (head_slotsName partition pointCount) (head_weightsName count)
          (by decide) hweights
      · exact ne_of_heads (head_slotsName partition pointCount) (head_pointsName count)
          (by decide) hpoints
  · obtain ⟨entry, hentry, htable⟩ := List.mem_flatMap.1 htable
    refine h.tables entry hentry name htable (.inr ?_)
    obtain hvariable | hslots := List.mem_append.1 hown
    · exact .inr (Integrand.exists_of_mem_variables hvariable)
    · exact .inl ⟨partition, pointCount, List.mem_singleton.1 hslots⟩

theorem declaredNames_joinCodes (codes : List (List Stmt)) :
    Stmt.declaredNames (joinCodes codes) = [] ∨
      ∃ code ∈ codes, Stmt.declaredNames (joinCodes codes) = Stmt.declaredNames code := by
  unfold joinCodes
  split
  · refine .inl (Stmt.declaredNames_eq_nil (List.forall_mem_map.2 fun code _ => rfl))
  next hfew =>
    match codes with
    | [] => exact .inl rfl
    | [code] => exact .inr ⟨code, List.mem_cons_self, by simp⟩
    | _ :: _ :: _ => simp at hfew

theorem declaredNames_tensorReset {reset : List Stmt} (h : tensorReset integral = .ok reset) :
    Stmt.declaredNames reset = [] := by
  exact Stmt.declaredNames_eq_nil
    (forall_mem_tensorReset h (fun _ => rfl) rfl fun _ => rfl)

theorem NamesDiffer.nodup_body (hnames : integral.NamesDiffer)
    (hdisjoint : integral.TablesDiffer) (h : integral.generate target options = .ok kernel) :
    (kernel.body.direct.filterMap Stmt.declaredName?).Nodup := by
  obtain ⟨rules, reset, codes, hrules, hreset, hforall, hbody⟩ := exists_codes h
  have htables := (mem_quadratureTables hrules).2.append
    (List.Sublist.refl (integral.integrands.entries.flatMap (·.2.tables.keys)))
  rw [hbody]
  show (Stmt.declaredNames _).Nodup
  rw [Stmt.declaredNames_append, Stmt.declaredNames_append, Stmt.declaredNames_append,
    declaredNames_tensorReset hreset, List.append_nil, declaredNames_elementTables]
  obtain hnone | ⟨code, hcode, hnames'⟩ := declaredNames_joinCodes codes
  · rw [hnone, List.append_nil]
    exact (hnames.nodup_tables hdisjoint).sublist htables
  · obtain ⟨entry, hentry, parts, rfl⟩ := exists_of_forall₂_right hforall hcode
    rw [hnames']
    refine List.Nodup.sublist (htables.append (parts.declaredNames_code options)) ?_
    exact List.nodup_append'.2 ⟨hnames.nodup_tables hdisjoint,
      hnames.nodup_ownNames hentry .piecewise, hnames.disjoint_ownNames _ _ _⟩

/-- No name is declared twice in a block of a kernel. -/
theorem generate_declaresOnce (h : integral.generate target options = .ok kernel)
    (hnames : integral.NamesDiffer) (hdisjoint : integral.TablesDiffer) :
    kernel.body.DeclaresOnce := by
  have hcode : ∀ entry ∈ integral.integrands.entries,
      ∀ parts : CodeParts target integral entry.1 entry.2,
        (∀ body, (Stmt.scope (parts.code options)).block? = some body →
          (Stmt.declaredNames body).Nodup) ∧
        ∀ s ∈ parts.code options, s.DistinctInside := by
    intro entry hentry parts
    refine ⟨?_, parts.distinctInside_code options (hnames.nodup_ownNames hentry .varying)⟩
    rintro body ⟨⟩
    exact (hnames.nodup_ownNames hentry .piecewise).sublist (parts.declaredNames_code options)
  refine Stmt.DistinctInside.declaresOnce (everywhere_body h nofun ?_ hcode)
    (hnames.nodup_body hdisjoint h)
  intro rules reset hrules hreset
  have hcomment : ∀ text, (Stmt.comment text).DistinctInside := fun _ =>
    Stmt.everywhere_comment.2 nofun
  exact List.forall_mem_append.2 ⟨
    forall_mem_tables hrules hcomment fun _ => Stmt.everywhere_array.2 nofun,
    forall_mem_tensorReset hreset hcomment (Stmt.everywhere_assign.2 nofun) fun _ =>
      Stmt.everywhere_zeroFill.2 nofun⟩

/-! ### Kernels for two numbers of points -/

def midpointRule : QuadratureRule := ⟨.ofRows 1 [[0.5]], [1]⟩

/-- The load vector with linear functions in a table of the given name. -/
def loadWith (name : String) (table : ElementTable) : Integrand :=
  { load with
    tableRanges := [none, some ⟨name, 0, 2, .uniform⟩, none]
    contributions := { varying := [([(0, 2)], [⟨[0], 2, [⟨name, 0, 2, .uniform⟩]⟩])] }
    tables := OrderedMap.ofList [(name, table)] }

/-- The load vector by a rule with one point and by a rule with two points. -/
def loadTwice (name name' : String) : Integral where
  type := .cell
  tensorShape := [2]
  rules := OrderedMap.ofList [(1, midpointRule), (2, twoPointRule)]
  integrands := OrderedMap.ofList
    [(1, loadWith name ⟨⟨1, 1, 2⟩, [0.5, 0.5]⟩), (2, loadWith name' hatTable)]

theorem mem_terminals_loadWith (name : String) (table : ElementTable) (partition : Partition) :
    (loadWith name table).terminals partition = [] ∨
      (loadWith name table).terminals partition =
        [{ terminal := .quadratureWeight }, { terminal := .coefficient 0 }] := by
  cases partition with
  | piecewise => exact .inl rfl
  | varying => exact .inr rfl

theorem namesDiffer_loadTwice {name name' : String} (h : name.toList.head? = some 'F')
    (h' : name'.toList.head? = some 'F') : (loadTwice name name').NamesDiffer := by
  have hentries : ∀ entry ∈ (loadTwice name name').integrands.entries,
      ∃ name table, name.toList.head? = some 'F' ∧ entry.2 = loadWith name table := by
    intro entry hentry
    obtain rfl | rfl := List.mem_pair.1 hentry
    · exact ⟨_, _, h, rfl⟩
    · exact ⟨_, _, h', rfl⟩
  refine ⟨fun entry hentry partition => ?_, fun entry hentry partition => ?_,
    fun entry hentry => ?_⟩ <;> obtain ⟨name, table, hname, hentry⟩ := hentries entry hentry <;>
    rw [hentry]
  · obtain hnone | hsome := mem_terminals_loadWith name table partition
    · rw [hnone]
      exact List.nodup_nil
    · rw [hsome]
      simp [ModifiedTerminal.normalized]
  · obtain hnone | hsome := mem_terminals_loadWith name table partition
    · rw [hnone]
      nofun
    · rw [hsome]
      simp
  · intro other hother hown
    obtain rfl := List.mem_singleton.1 hother
    have hhead := hown.head
    rw [hname] at hhead
    exact absurd hhead (by decide)

theorem generate_declaresOnce_load : ∃ kernel,
    (loadTwice "FE0" "FE1").generate cellTarget {} = .ok kernel ∧ kernel.body.DeclaresOnce := by
  have hkernel := eq_ok_get (x := (loadTwice "FE0" "FE1").generate cellTarget {})
    (by decide +kernel)
  have hdisjoint : (loadTwice "FE0" "FE1").TablesDiffer := by
    refine List.pairwise_pair.2 fun name hname hname' => ?_
    obtain rfl := List.mem_singleton.1 hname
    exact absurd (List.mem_singleton.1 hname') (by decide)
  exact ⟨_, hkernel, generate_declaresOnce hkernel (namesDiffer_loadTwice rfl rfl) hdisjoint⟩

/-- A coefficient twice in front of the loop, the second time with derivative counts that are
zero. -/
def sameVariable : Integral where
  type := .cell
  tensorShape := []
  rules := OrderedMap.ofList [(2, twoPointRule)]
  integrands := OrderedMap.ofList [(2, {
    graph := ⟨[.terminal { terminal := .coefficient 0 },
      .terminal { terminal := .coefficient 0, localDerivatives := [0, 0] }]⟩
    partitions := [some .piecewise, some .piecewise]
    tableRanges := [some constantRange, some constantRange]
    tables := OrderedMap.ofList [("FE1", ⟨⟨1, 1, 2⟩, [0.5, 0.5]⟩)] })]

/-- A kernel on which the names of the outermost block can be seen to repeat. -/
theorem not_declaresOnce {integral : Integral}
    (h : ((integral.generate cellTarget {}).toOption.any fun kernel =>
      !decide (kernel.body.direct.filterMap Stmt.declaredName?).Nodup) = true) :
    ¬∀ kernel, integral.generate cellTarget {} = .ok kernel → kernel.body.DeclaresOnce := by
  obtain ⟨kernel, hkernel, hfound⟩ := exists_eq_ok_of_any h
  intro honce
  have hnodup := honce kernel hkernel _ (.inl rfl)
  simp [hnodup] at hfound

/-- No two nodes of an integrand load one terminal in one partition. -/
def TerminalsDiffer (integral : Integral) : Prop :=
  ∀ entry ∈ integral.integrands.entries, ∀ partition, (entry.2.terminals partition).Nodup

theorem terminalsDiffer_sameVariable : sameVariable.TerminalsDiffer := by
  intro entry hentry partition
  obtain rfl := List.mem_singleton.1 hentry
  cases partition with
  | varying => exact List.nodup_nil
  | piecewise =>
      refine List.nodup_cons.2 ⟨fun hmem => ?_, List.nodup_singleton _⟩
      exact nomatch congrArg ModifiedTerminal.localDerivatives (List.mem_singleton.1 hmem)

/-- Two integrands with a table of one name, and two different terminals with one variable. -/
theorem not_generate_declaresOnce :
    ((loadTwice "FE0" "FE0").TerminalsDiffer ∧
      ¬∀ kernel, (loadTwice "FE0" "FE0").generate cellTarget {} = .ok kernel →
        kernel.body.DeclaresOnce) ∧
    (sameVariable.TerminalsDiffer ∧
      ¬∀ kernel, sameVariable.generate cellTarget {} = .ok kernel → kernel.body.DeclaresOnce) := by
  refine ⟨⟨fun entry hentry partition => ?_, not_declaresOnce (by decide +kernel)⟩,
    terminalsDiffer_sameVariable, not_declaresOnce (by decide +kernel)⟩
  exact ((namesDiffer_loadTwice rfl rfl).terminals entry hentry partition).of_map _

end Integral

end ElementKernel
