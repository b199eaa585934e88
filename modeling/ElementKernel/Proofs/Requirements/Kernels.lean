import ElementKernel.Proofs.PointCounts
import ElementKernel.Proofs.Requirements.Integrands

/-!
# Requirements of a kernel

What a kernel requires is derived from the names of its operators alone.  Every function that an
operator is computed by is brought in that way.  The macros for numbers that are not finite do not
belong to any operator, so they are covered only if all numbers of the integral are finite.
-/

namespace ElementKernel

open Kernel

/-- The numbers that are written into a kernel. -/
def Integral.literals (integral : Integral) : List Float :=
  integral.rules.entries.flatMap (fun entry => entry.2.weights ++ entry.2.flattenedPoints) ++
    integral.integrands.entries.flatMap (·.2.literals)

/-- The memory functions are brought in anyway, and all other names for some operators only. -/
theorem Dialect.mem_providers {dialect : Dialect} {name requirement : String}
    (h : (name, requirement) ∈ dialect.providers) :
    name ∈ foreignNames ∧ (name ∈ floatMacros → dialect = .c) ∨
      dialect = .c ∧ requirement = "#include <cstring>" := by
  have hall : ∀ dialect ∈ [Dialect.c, .rust], ∀ provider ∈ dialect.providers,
      provider.1 ∈ foreignNames ∧ (provider.1 ∈ floatMacros → dialect = .c) ∨
        dialect = .c ∧ provider.2 = "#include <cstring>" := by
    decide
  have hdialect : dialect ∈ [Dialect.c, .rust] := by cases dialect <;> decide
  exact hall dialect hdialect _ h

/-! ## Operators -/

theorem Operator.mem_requirements (op : Operator) {dialect : Dialect} {name requirement : String}
    (hprovider : (name, requirement) ∈ dialect.providers) {function : String}
    (hfunction : function ∈ op.functions dialect) (hname : name ∈ words function) :
    requirement ∈ requirements dialect [op.name] := by
  have hall : ∀ op ∈ Operator.all, ∀ dialect ∈ [Dialect.c, .rust],
      ∀ provider ∈ dialect.providers, ∀ function ∈ op.functions dialect,
        provider.1 ∈ words function → provider.2 ∈ requirements dialect [op.name] := by
    decide +kernel
  have hdialect : dialect ∈ [Dialect.c, .rust] := by cases dialect <;> decide
  exact hall op op.mem_all dialect hdialect _ hprovider function hfunction hname

namespace Kernel

theorem requirements_mono {dialect : Dialect} {operators others : List String}
    (h : operators ⊆ others) {requirement : String}
    (hrequired : requirement ∈ requirements dialect operators) :
    requirement ∈ requirements dialect others := by
  have hite : ∀ (names : List String) (provided : String),
      requirement ∈ (if names.any (operators.contains ·) then [provided] else []) →
        requirement ∈ if names.any (others.contains ·) then [provided] else [] := by
    intro names provided hmem
    have hany : names.any (operators.contains ·) := by
      by_contra hnone
      rw [if_neg hnone] at hmem
      cases hmem
    have hothers : names.any (others.contains ·) := by
      simp only [List.any_eq_true, List.contains_iff_mem] at hany ⊢
      obtain ⟨name, hname, hused⟩ := hany
      exact ⟨name, hname, h hused⟩
    rw [if_pos hany] at hmem
    rwa [if_pos hothers]
  cases dialect with
  | c =>
      obtain hrequired | hrequired := List.mem_append.1 hrequired
      · obtain hspecial | hmath := List.mem_append.1 hrequired
        · exact List.mem_append_left _ (List.mem_append_left _ (hite _ _ hspecial))
        · exact List.mem_append_left _ (List.mem_append_right _ (hite _ _ hmath))
      · exact List.mem_append_right _ hrequired
  | rust => exact hite _ _ hrequired

theorem mem_operators_of_node {target : Target} {pointCount : Nat} {integrand : Integrand}
    {partition : Partition} {accesses : Accesses} {state : PartitionState}
    (h : partitionState target pointCount integrand partition accesses = .ok state) :
    ∀ id op operands, (id, .operator op operands) ∈ integrand.partitionNodes partition →
      op ∈ state.operators := by
  refine foldlM_eq_ok_induction (P := fun done (state : PartitionState) =>
    ∀ id op operands, (id, GraphNode.operator op operands) ∈ done → op ∈ state.operators)
    h nofun ?_
  rintro done ⟨id, t | ⟨op, operands⟩⟩ rest state next - hdone hvisit id' op' operands' hmem
  · obtain ⟨e, definitions, -, -, rfl⟩ := visitTerminal_eq_ok hvisit
    obtain hmem | hmem := List.mem_append.1 hmem
    · exact hdone id' op' operands' hmem
    · cases List.mem_singleton.1 hmem
  · have hoperators : next.operators = op :: state.operators := by
      obtain ⟨arguments, e, -, -, ⟨-, rfl⟩ | ⟨-, rfl⟩⟩ := visitOperator_eq_ok hvisit
      · rfl
      · rfl
    rw [hoperators]
    obtain hmem | hmem := List.mem_append.1 hmem
    · exact List.mem_cons_of_mem _ (hdone id' op' operands' hmem)
    · cases List.mem_singleton.1 hmem
      exact List.mem_cons_self

end Kernel

namespace Integral

variable {integral : Integral} {target : Target} {options : KernelOptions}
  {kernel : GeneratedKernel}

/-- A kernel reports the operators of all nodes that it computes. -/
theorem mem_operators (h : integral.generate target options = .ok kernel)
    {entry : Nat × Integrand} (hentry : entry ∈ integral.integrands.entries)
    {partition : Partition} {id : NodeId} {op : Operator} {operands : List NodeId}
    (hnode : (id, .operator op operands) ∈ entry.2.partitionNodes partition) :
    op.name ∈ kernel.operators := by
  obtain ⟨-, -, rules, reset, codes, -, -, hcodes, -, hoperators⟩ := generate_eq_ok_iff.1 h
  obtain ⟨⟨code, operators⟩, hmem, hcode⟩ := exists_of_forall₂_left hcodes hentry
  obtain ⟨parts, -, rfl⟩ := exists_parts hcode
  have hop := mem_operators_of_node (parts.state_eq partition) id op operands hnode
  rw [hoperators]
  refine mem_operatorNames.2 ⟨op, List.mem_flatMap.2 ⟨_, hmem, ?_⟩, rfl⟩
  cases partition with
  | piecewise => exact List.mem_append_right _ hop
  | varying => exact List.mem_append_left _ hop

/-! ## Kernels -/

section

variable {name : String} (hname : name ∈ foreignNames)

include hname

theorem lacks_tableDecl {table : String} (htable : Lacks name table) (sizes : List Nat)
    {values : List Float} (hvalues : name ∈ floatMacros → ∀ x ∈ values, ¬x.isNaN ∧ ¬x.isInf) :
    target.renderer.LacksIn name (tableDecl options table sizes values) := by
  refine Stmt.everywhere_array.2 (Renderer.lacks_arrayDecl hname htable ?_)
  rintro values ⟨⟩ x hx
  have hfloat := Renderer.lacks_float (r := target.renderer) hname
    (fun hmacro => hvalues hmacro x hx) "" (by decide)
  rwa [String.append_empty] at hfloat

theorem lacks_quadratureTables {rules : List Stmt}
    (h : quadratureTables options integral = .ok rules)
    (hliterals : name ∈ floatMacros → ∀ x ∈ integral.literals, ¬x.isNaN ∧ ¬x.isInf) :
    ∀ s ∈ rules, target.renderer.LacksIn name s := by
  intro s hs
  obtain rfl | ⟨registered, hregistered, table, htable, sizes, values, hvalues, rfl⟩ :=
    exists_rule_of_mem h hs
  · exact Stmt.everywhere_comment.2 (lacks_plain hname (by decide))
  · refine lacks_tableDecl hname ?_ sizes fun hmacro x hx => hliterals hmacro x ?_
    · obtain rfl | rfl := List.mem_pair.1 htable
      · exact lacks_numbered hname "weights" registered.1 (by decide)
      · exact lacks_numbered hname "points" registered.1 (by decide)
    · refine List.mem_append_left _ (List.mem_flatMap.2 ⟨registered, hregistered, ?_⟩)
      obtain rfl | rfl := List.mem_pair.1 hvalues
      · exact List.mem_append_left _ hx
      · exact List.mem_append_right _ hx

theorem lacks_elementTables
    (htables : ∀ entry ∈ integral.integrands.entries, ∀ table ∈ entry.2.tableNames,
      Lacks name table)
    (hliterals : name ∈ floatMacros → ∀ x ∈ integral.literals, ¬x.isNaN ∧ ¬x.isInf) :
    ∀ s ∈ elementTables options integral, target.renderer.LacksIn name s := by
  intro s hs
  obtain ⟨text, htext, rfl⟩ | hs := Stmt.mem_commented hs
  · refine Stmt.everywhere_comment.2 (lacks_plain hname ?_)
    obtain rfl | rfl := List.mem_pair.1 htext
    · decide
    · decide
  · obtain ⟨entry, hentry, hs⟩ := List.mem_flatMap.1 hs
    obtain ⟨text, htext, rfl⟩ | hs := Stmt.mem_commented hs
    · obtain rfl := List.mem_singleton.1 htext
      refine Stmt.everywhere_comment.2 ?_
      show Lacks name ("Definitions of " ++ toString entry.2.tables.entries.length ++
        " tables for " ++ toString entry.1 ++ " quadrature points")
      rw [lacks_before hname (by decide), lacks_between hname (by decide),
        lacks_after hname (by decide)]
      exact ⟨Renderer.lacks_nat hname _, Renderer.lacks_nat hname _⟩
    · obtain ⟨table, htable, rfl⟩ := List.mem_map.1 hs
      refine lacks_tableDecl hname (htables entry hentry _ ?_) _ fun hmacro x hx =>
        hliterals hmacro x ?_
      · exact List.mem_append_left _ (List.mem_append_left _ (List.mem_map_of_mem htable))
      · refine List.mem_append_right _ (List.mem_flatMap.2 ⟨entry, hentry, ?_⟩)
        exact List.mem_append_right _ (List.mem_flatMap.2 ⟨table, htable, hx⟩)

theorem lacks_tensorReset {reset : List Stmt} (h : tensorReset integral = .ok reset) :
    ∀ s ∈ reset, target.renderer.LacksIn name s := by
  have htensor : Lacks name (target.renderer.expr tensor) :=
    Renderer.lacks_symbol (lacks_plain hname (by decide))
  obtain ⟨size, -, h⟩ := bind_eq_ok.1 h
  cases h
  refine List.forall_mem_cons.2 ⟨Stmt.everywhere_comment.2 (lacks_plain hname (by decide)),
    List.forall_mem_singleton.2 ?_⟩
  split
  · exact Stmt.everywhere_assign.2 ⟨Target.lacks_entry hname htensor
      (Renderer.lacks_expr_int hname 0), Target.lacks_small hname (.inl rfl)⟩
  · exact Stmt.everywhere_zeroFill.2 htensor

/-- A kernel lacks a name that none of its integrands brings in. -/
theorem lacks_body (h : integral.generate target options = .ok kernel)
    (havoids : ∀ entry ∈ integral.integrands.entries, entry.2.Avoids target.dialect name)
    (hliterals : name ∈ floatMacros → ∀ x ∈ integral.literals, ¬x.isNaN ∧ ¬x.isInf) :
    target.renderer.LacksIn name kernel.body := by
  refine everywhere_body h (fun _ => trivial) ?_ fun entry hentry parts =>
    ⟨trivial, parts.lacks_code hname (havoids entry hentry)⟩
  intro rules reset hrules hreset
  exact List.forall_mem_append.2 ⟨List.forall_mem_append.2
    ⟨lacks_quadratureTables hname hrules hliterals,
      lacks_elementTables hname (fun entry hentry => (havoids entry hentry).tables) hliterals⟩,
    lacks_tensorReset hname hreset⟩

end

/-- What brings in a name that a kernel writes is reported for its operators, if the name is not
taken from a table and stands for no number that is not finite. -/
theorem generate_requirements (h : integral.generate target options = .ok kernel)
    {name requirement text : String}
    (hprovider : (name, requirement) ∈ target.dialect.providers)
    (htables : ∀ entry ∈ integral.integrands.entries, ∀ table ∈ entry.2.tableNames,
      Lacks name table)
    (hliterals : name ∈ floatMacros → ∀ x ∈ integral.literals, ¬x.isNaN ∧ ¬x.isInf)
    (htext : target.renderer.stmt kernel.body = .ok text) (hwritten : name ∈ words text) :
    requirement ∈ requirements target.dialect kernel.operators := by
  by_contra hmissing
  obtain ⟨hname, hmacros⟩ | ⟨hdialect, rfl⟩ := Dialect.mem_providers hprovider
  · have havoids : ∀ entry ∈ integral.integrands.entries,
        entry.2.Avoids target.dialect name := by
      refine fun entry hentry => ⟨fun partition id op operands hnode function hfunction hmem => ?_,
        htables entry hentry, fun hmacro => ⟨hmacros hmacro, fun x hx => ?_⟩⟩
      · refine hmissing (requirements_mono ?_ (op.mem_requirements hprovider hfunction hmem))
        exact List.cons_subset.2 ⟨mem_operators h hentry hnode, List.nil_subset _⟩
      · refine hliterals hmacro x (List.mem_append_right _ ?_)
        exact List.mem_flatMap.2 ⟨entry, hentry, hx⟩
    obtain ⟨_, -, htext⟩ := bind_eq_ok.1 htext
    cases htext
    refine lacks_intercalate hname (by decide) ?_ hwritten
    exact Renderer.lacks_lines hname _ (lacks_body hname h havoids hliterals) 0
  · rw [hdialect] at hmissing
    exact hmissing (List.mem_append_right _ List.mem_cons_self)

/-- The root of the volume of the cell, which is a function of the standard library. -/
def rootOfVolume : Integral where
  type := .cell
  tensorShape := []
  rules := OrderedMap.ofList [(2, twoPointRule)]
  integrands := OrderedMap.ofList [(2, {
    graph := ⟨[.terminal { terminal := .cellVolume }, .operator .sqrt [0]]⟩
    partitions := [some .piecewise, some .piecewise]
    tableRanges := [none, none]
    contributions := { piecewise := [([], [⟨[], 1, []⟩])] }
    tables := OrderedMap.ofList [] })]

theorem generate_requirements_root : ∃ kernel text,
    rootOfVolume.generate cellTarget {} = .ok kernel ∧
    cellTarget.renderer.stmt kernel.body = .ok text ∧ "std" ∈ words text ∧
    "#include <cmath>" ∈ requirements .c kernel.operators := by
  obtain ⟨kernel, hkernel, htext⟩ := exists_eq_ok_of_any
    (x := rootOfVolume.generate cellTarget {})
    (p := fun kernel => (cellTarget.renderer.stmt kernel.body).toOption.any ("std" ∈ words ·))
    (by decide +kernel)
  obtain ⟨text, htext, hwritten⟩ := exists_eq_ok_of_any htext
  have hprovider : ("std", "#include <cmath>") ∈ cellTarget.dialect.providers := by decide
  have hmem : "std" ∈ words text := of_decide_eq_true hwritten
  exact ⟨kernel, text, hkernel, htext, hmem,
    generate_requirements hkernel hprovider (by decide) (by decide) htext hmem⟩

/-- An infinite factor, and no operator. -/
def infiniteFactor : Integral where
  type := .cell
  tensorShape := []
  rules := OrderedMap.ofList [(2, twoPointRule)]
  integrands := OrderedMap.ofList [(2, {
    graph := ⟨[.terminal { terminal := .float (1 / 0) }]⟩
    partitions := [some .piecewise]
    tableRanges := [none]
    contributions := { piecewise := [([], [⟨[], 0, []⟩])] }
    tables := OrderedMap.ofList [] })]

/-- An infinite number is written with a macro that nothing brings in. -/
theorem not_generate_requirements : ¬∀ kernel text,
    infiniteFactor.generate cellTarget {} = .ok kernel →
    cellTarget.renderer.stmt kernel.body = .ok text →
    ∀ provider ∈ Dialect.c.providers, provider.1 ∈ words text →
      provider.2 ∈ requirements .c kernel.operators := by
  obtain ⟨kernel, hkernel, hfound⟩ := exists_eq_ok_of_any
    (x := infiniteFactor.generate cellTarget {})
    (p := fun kernel =>
      decide ("#include <cmath>" ∉ requirements .c kernel.operators) &&
        (cellTarget.renderer.stmt kernel.body).toOption.any ("INFINITY" ∈ words ·))
    (by decide +kernel)
  obtain ⟨hmissing, htext⟩ := Bool.and_eq_true_iff.1 hfound
  obtain ⟨text, htext, hwritten⟩ := exists_eq_ok_of_any htext
  intro hrequired
  exact of_decide_eq_true hmissing (hrequired kernel text hkernel htext
    ("INFINITY", "#include <cmath>") (by decide) (of_decide_eq_true hwritten))

end Integral

end ElementKernel
