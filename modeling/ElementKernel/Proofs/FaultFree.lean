import ElementKernel.Proofs.Acceptance
import Mathlib.Algebra.BigOperators.Group.List.Basic
import Mathlib.Data.List.Sublists

/-!
# Generation without faults

Any two parts of an integral may contradict each other, since reading one from JSON checks nothing.
Generation reports what it finds and does not fault, as long as the products of its sizes stay in
the word.  There is one exception: the length of a range that ends before it begins is computed
without a check, where a terminal is expanded in the table of the range.
-/

namespace ElementKernel

open Kernel

/-! ## Bounded products -/

/-- The product of any of the numbers, in order, fits a signed word. -/
def ProductsBounded (sizes : List Nat) : Prop :=
  ∀ part : List Nat, part.Sublist sizes → part.prod < 2 ^ 63

instance (sizes : List Nat) : Decidable (ProductsBounded sizes) :=
  decidable_of_iff (∀ part ∈ sizes.sublists, part.prod < 2 ^ 63) <| by
    simp only [List.mem_sublists, ProductsBounded]

namespace ProductsBounded

variable {sizes : List Nat}

theorem lt_limit (h : ProductsBounded sizes) {part : List Nat} (hpart : part.Sublist sizes) :
    part.prod < Word.limit :=
  (h part hpart).trans (by decide)

theorem productFits (h : ProductsBounded sizes) : Word.ProductFits 1 sizes :=
  Word.productFits_of_prefixes fun part hpart => by
    rw [Nat.one_mul]
    exact h.lt_limit hpart.sublist

theorem stridesFit (h : ProductsBounded sizes) : StridesFit sizes := by
  unfold StridesFit
  split
  next => trivial
  next size outer hreverse =>
    refine Word.productFits_of_prefixes fun part hpart => ?_
    have hsublist : (size :: part).reverse.Sublist sizes := by
      rw [← List.reverse_reverse sizes, hreverse, List.reverse_sublist]
      exact hpart.sublist.cons_cons size
    have hlt := h.lt_limit hsublist
    rwa [List.prod_reverse, List.prod_cons] at hlt

end ProductsBounded

namespace Integral

/-- The products of the shape of the element tensor, of the shapes of tables, and of numbers of
points with dimensions of rules stay in the word. -/
structure SizesBounded (integral : Integral) : Prop where
  tensor : ProductsBounded integral.tensorShape
  tables : ∀ entry ∈ integral.integrands.entries, ∀ table ∈ entry.2.tables.entries,
    ProductsBounded table.2.shape.toList
  points : ∀ entry ∈ integral.rules.entries, ProductsBounded [entry.1, entry.2.dimension]

/-- Where a terminal is expanded in a table, its range does not end before it begins. -/
def RangesForward (integral : Integral) : Prop :=
  ∀ entry ∈ integral.integrands.entries, ∀ partition,
    ∀ node ∈ entry.2.partitionNodes partition, entry.2.NodeFits node

theorem SizesBounded.sizesFit {integral : Integral} (h : integral.SizesBounded)
    (hforward : integral.RangesForward) : integral.SizesFit where
  tables entry hentry table htable := (h.tables entry hentry table htable).productFits
  points _ entry hentry _ _ _ _ := by
    simpa using (h.points entry hentry).lt_limit (List.Sublist.refl _)
  tensor := h.tensor.productFits
  partitions entry hentry partition :=
    ⟨hforward entry hentry partition, fun _ _ _ _ => h.tensor.stridesFit⟩

end Integral

/-! ## Reading by position -/

theorem Integrand.DataComplete.lt_length_tableRanges {integrand : Integrand}
    (h : integrand.DataComplete) {partition : Partition} {node : NodeId × GraphNode}
    (hnode : node ∈ integrand.partitionNodes partition) :
    node.1 < integrand.tableRanges.length := by
  obtain ⟨hget, -⟩ := Integrand.mem_partitionNodes_iff.1 hnode
  obtain ⟨hlt, -⟩ := List.getElem?_eq_some_iff.1 hget
  rw [h.ranges]
  exact hlt

/-- An axis of a contribution of the right rank has its places in the block and among the ranges and
arguments. -/
theorem Kernel.exists_axis {block : DofBlock} {contribution : BlockContribution}
    (hblock : block.length = contribution.ranges.length)
    (harguments : contribution.arguments.length = contribution.ranges.length) {k : Nat}
    (hk : k < contribution.ranges.length) :
    ∃ bounds range argument, block[k]? = some bounds ∧ contribution.ranges[k]? = some range ∧
      contribution.arguments[k]? = some argument ∧
      (axes block contribution)[k]? = some ⟨k, bounds, range, argument⟩ := by
  have hbounds := List.getElem?_eq_getElem (hblock ▸ hk)
  have hrange := List.getElem?_eq_getElem hk
  have hargument := List.getElem?_eq_getElem (harguments ▸ hk)
  have hzip : (block.zip (contribution.ranges.zip contribution.arguments))[k]? =
      some (block[k], contribution.ranges[k], contribution.arguments[k]) :=
    List.getElem?_zip_eq_some.2 ⟨hbounds, List.getElem?_zip_eq_some.2 ⟨hrange, hargument⟩⟩
  refine ⟨_, _, _, hbounds, hrange, hargument, ?_⟩
  simp only [axes, List.getElem?_map, List.getElem?_zipIdx, hzip, Option.map_some, Nat.zero_add]

theorem Operator.eq_of_call?_eq_none {op : Operator} {operands : List Expr} {dialect : Dialect}
    (harity : operands.length = op.arity) (h : op.call? operands dialect = none) :
    dialect = .rust ∧ (op = .besselI ∨ op = .besselK) := by
  have hunsupported : ¬op.Supported dialect := by
    rw [← exists_call?_iff op operands harity, h]
    simp
  cases dialect with
  | c => exact absurd trivial hunsupported
  | rust =>
      refine ⟨rfl, ?_⟩
      by_contra hne
      exact hunsupported (not_or.1 hne)

/-! ## Generation -/

namespace Integral

/-- Generation in either language returns a kernel or an error, for any integral whose products of
sizes are bounded and whose expanded ranges end after they begin.  What it reads by position is
there: the table range of a node it visits, and the parts of an axis once the rank of the
contribution has been checked.  An operator with as many operands as it takes has no expression only
if the language lacks it. -/
theorem generate_faultFree (integral : Integral) (hsizes : integral.SizesBounded)
    (hforward : integral.RangesForward) (target : Target) (kernelOptions : KernelOptions) :
    ((∃ kernel, integral.generate target kernelOptions = .ok kernel) ∨
      ∃ e, integral.generate target kernelOptions = .error (.error e)) ∧
    (∀ entry ∈ integral.integrands.entries, checkIntegrand entry.2 = .ok () →
      ∀ partition, ∀ node ∈ entry.2.partitionNodes partition,
        node.1 < entry.2.tableRanges.length) ∧
    (∀ (block : DofBlock) (contribution : BlockContribution),
      block.length = contribution.ranges.length →
      contribution.arguments.length = contribution.ranges.length →
      ∀ k < contribution.ranges.length, ∃ bounds range argument,
        block[k]? = some bounds ∧ contribution.ranges[k]? = some range ∧
          contribution.arguments[k]? = some argument ∧
          (axes block contribution)[k]? = some ⟨k, bounds, range, argument⟩) ∧
    ∀ (op : Operator) (operands : List Expr), operands.length = op.arity →
      op.call? operands target.dialect = none →
      target.dialect = .rust ∧ (op = .besselI ∨ op = .besselK) := by
  have hdecides := generate_decides_in target.dialect integral target.integralType target.options
    kernelOptions
  refine ⟨?_, ?_, fun block contribution hblock harguments k => exists_axis hblock harguments,
    fun op operands => Operator.eq_of_call?_eq_none⟩
  · rcases hcase : integral.generate target kernelOptions with (f | e) | kernel
    · exact absurd (hsizes.sizesFit hforward) (hdecides.fault f hcase).2
    · exact .inr ⟨e, rfl⟩
    · exact .inl ⟨kernel, rfl⟩
  · intro entry _ hchecked partition node hnode
    have hdata := (entry.2.validate_decides.ok _ (mapError_eq_ok.1 hchecked)).1
    exact hdata.lt_length_tableRanges hnode

/-- A coefficient that is summed up over a range of a table with three basis functions. -/
def expanded (first past : Nat) : Integral where
  type := .cell
  tensorShape := []
  rules := OrderedMap.ofList [(1, ⟨PointMatrix.ofRows 1 [[0.5]], [1]⟩)]
  integrands := OrderedMap.ofList [(1, {
    graph := ⟨[.terminal { terminal := .coefficient 0 }]⟩
    partitions := [some .piecewise]
    tableRanges := [some ⟨"FE0", first, past, .fixed⟩]
    contributions := { piecewise := [([], [⟨[], 0, []⟩])] }
    tables := OrderedMap.ofList [("FE0", ⟨⟨1, 1, 3⟩, [0.5, 0.25, 0.25]⟩)] })]

theorem sizesBounded_expanded (first past : Nat) : (expanded first past).SizesBounded where
  tensor := (by decide : ProductsBounded [])
  tables := by
    intro entry hentry table htable
    obtain rfl := List.mem_singleton.1 hentry
    obtain rfl := List.mem_singleton.1 htable
    decide
  points := by
    intro entry hentry
    obtain rfl := List.mem_singleton.1 hentry
    decide

theorem generate_faultFree_expanded :
    (expanded 1 3).SizesBounded ∧ (expanded 1 3).RangesForward ∧
      ∀ dialect, ∀ f, (expanded 1 3).generate ⟨dialect, .cell, {}⟩ {} ≠ .error (.fault f) := by
  have hforward : (expanded 1 3).RangesForward := by
    intro entry hentry partition node hnode
    obtain rfl := List.mem_singleton.1 hentry
    cases partition with
    | varying => cases hnode
    | piecewise =>
        obtain rfl := List.mem_singleton.1 hnode
        rintro range ⟨⟩ -
        exact .inr (by decide)
  refine ⟨sizesBounded_expanded 1 3, hforward, fun dialect f hfault => ?_⟩
  obtain ⟨kernel, hkernel⟩ | ⟨e, he⟩ := ((expanded 1 3).generate_faultFree
    (sizesBounded_expanded 1 3) hforward ⟨dialect, .cell, {}⟩ {}).1
  · rw [hkernel] at hfault
    cases hfault
  · rw [he] at hfault
    cases hfault

/-- A range that ends before it begins makes generation fault in both languages. -/
theorem not_generate_faultFree :
    (expanded 3 1).SizesBounded ∧
      ∀ dialect, (expanded 3 1).generate ⟨dialect, .cell, {}⟩ {} = .error (.fault .overflow) := by
  refine ⟨sizesBounded_expanded 3 1, fun dialect => ?_⟩
  cases dialect with
  | c => rfl
  | rust => rfl

end Integral

end ElementKernel
