import ElementKernel.Proofs.Scoping.Placement

/-!
# Reads of argument tables

Along an axis, the element tensor is indexed by the counter of that axis, and the table of the
argument is read at the counter that has the number of the argument.  Where both numbers agree,
every value of the table is added to the entry that it belongs to.  Nothing checks that they do.
-/

namespace ElementKernel

open Kernel
open Execution (Locals index word)

/-- In every round of the loops, a factor reads the table of an axis at the degree of freedom at
which the axis is indexed, counted from the start of its range. -/
def ReadsOwnDof (axis : Axis) (pointCount : Nat) (loops : List Loop) (factor : Expr) : Prop :=
  ∃ entity point dof, factor = .access (.symbol axis.range.table) [entity, point, dof] ∧
    ∀ {K : Type} (L : Locals K), InRound L loops → ∃ k < axis.range.past - axis.range.first,
      index L dof = some (word k) ∧
        index L (axis.index pointCount) = some (word (axis.range.first + k))

namespace Kernel

variable {target : Target} {integral : Integral} {pointCount : Nat} {integrand : Integrand}
  {partition : Partition} {block : DofBlock} {contribution : BlockContribution}

/-- The update of a contribution stands inside of the loops over its axes. -/
theorem mem_placed_nest (axes : List Axis) (position : Expr) (factors : List Expr) :
    (axisLoops pointCount axes, update position factors) ∈
      (nest pointCount axes (update position factors)).placed := by
  induction axes with
  | nil => exact Stmt.mem_placed_self _
  | cons axis rest ih =>
      show _ ∈ (axis.loop pointCount (nest pointCount rest _)).placed
      unfold Axis.loop
      split
      next htype => simpa [axisLoops, htype] using ih
      next htype =>
        rw [Stmt.placed, Stmt.placedAll, Stmt.placedAll, List.append_nil]
        refine List.mem_cons_of_mem _ (List.mem_map.2 ⟨_, ih, ?_⟩)
        simp [axisLoops, htype]

/-- An axis contributes the value of its argument at its own degree of freedom, if the argument has
the number of the axis. -/
theorem readsOwnDof_axisFactors {axes : List Axis} {axis : Axis} {factors : List Expr}
    {t : ModifiedTerminal} (haxis : axis ∈ axes)
    (h : axisFactors target pointCount integrand block axis = .ok factors)
    (hquadrature : axis.range.type ≠ .quadrature) (hones : axis.range.type ≠ .ones)
    (ht : integrand.arguments[axis.argument]? = some t)
    (hnumber : t.terminal = .argument axis.position) :
    ∃ factor ∈ factors, ReadsOwnDof axis pointCount
      (pointLoops partition pointCount ++ axisLoops pointCount axes) factor := by
  obtain ⟨htype, -⟩ | ⟨t', e, -, -, hzeros, hbounds, ht', haccess, rfl⟩ := axisFactors_eq_ok h
  · obtain htype | htype := htype
    · exact absurd htype hquadrature
    · exact absurd htype hones
  · obtain rfl := Option.some.inj (ht'.symm.trans ht)
    obtain rfl := Target.argument_access_eq_ok hnumber hzeros hquadrature hones haccess
    refine ⟨_, List.mem_singleton_self _, _, _, _, rfl, fun L hround => ?_⟩
    obtain ⟨i, hfirst, hpast, hindex⟩ :=
      exists_span_of_round haxis (fun htype => absurd htype hquadrature) hround
    rw [Axis.span, if_neg hquadrature, ← hbounds] at hfirst hpast
    -- The loop runs over the range of the table, so the difference does not wrap around.
    have hdof := Execution.index_sub hindex (Execution.index_signed axis.range.first)
    rw [← Execution.word_sub hfirst, Axis.index, if_neg hquadrature] at hdof
    refine ⟨i - axis.range.first, Nat.sub_lt_sub_right hfirst hpast, hdof, ?_⟩
    rw [Nat.add_sub_cancel' hfirst]
    exact hindex

end Kernel

namespace Integral

variable {integral : Integral} {target : Target} {options : KernelOptions}
  {kernel : GeneratedKernel}

/-- Every contribution is an update of the element tensor at the indices of its axes.  The table of
an axis whose argument has its number is read inside of its range, at the degree of freedom that is
updated. -/
theorem generate_readsOwnDof (h : integral.generate target options = .ok kernel)
    {entry : Nat × Integrand} (hentry : entry ∈ integral.integrands.entries)
    {partition : Partition} {blockEntry : BlockEntry}
    (hblock : blockEntry ∈ entry.2.contributions.get partition)
    {contribution : BlockContribution} (hcontribution : contribution ∈ blockEntry.2) :
    ∃ accesses position factors,
      contributionCode target integral entry.1 entry.2 accesses blockEntry.1 contribution =
        .ok (nest entry.1 (axes blockEntry.1 contribution) (update position factors)) ∧
      (pointLoops partition entry.1 ++ axisLoops entry.1 (axes blockEntry.1 contribution),
        update position factors) ∈ kernel.body.placed ∧
      flatIndex ((axes blockEntry.1 contribution).map (·.index entry.1)) integral.tensorShape =
        .ok position ∧
      ∀ k axis t, (axes blockEntry.1 contribution)[k]? = some axis →
        axis.range.type ≠ .quadrature → axis.range.type ≠ .ones →
        entry.2.arguments[axis.argument]? = some t → t.terminal = .argument k →
        ∃ factor ∈ factors, ReadsOwnDof axis entry.1
          (pointLoops partition entry.1 ++ axisLoops entry.1 (axes blockEntry.1 contribution))
          factor := by
  obtain ⟨parts, hplaced⟩ := exists_placed_code h hentry
  obtain ⟨code, hcode, hplace⟩ := parts.exists_placed_contribution hblock hcontribution
  obtain ⟨scalar, tables, position, -, -, -, htables, hposition, rfl⟩ :=
    contributionCode_eq_ok hcode
  refine ⟨_, position, _, hcode, ?_, hposition, ?_⟩
  · exact kernel.body.placed_trans (hplaced _ hplace) (mem_placed_nest _ position _)
  · intro k axis t hget hquadrature hones ht hnumber
    have haxis := List.mem_of_getElem? hget
    obtain ⟨own, hown, hfactors⟩ := exists_mem_of_mapM_left htables haxis
    rw [← Setting.position_of_getElem? hget] at hnumber
    obtain ⟨factor, hfactor, hreads⟩ :=
      readsOwnDof_axisFactors haxis hfactors hquadrature hones ht hnumber
    exact ⟨factor, List.mem_append_right _ (List.mem_flatten.2 ⟨own, hown, hfactor⟩), hreads⟩

/-- The degrees of freedom from two to four of a table of their own. -/
theorem generate_readsOwnDof_clipped : ∃ kernel position factors,
    clippedIntegral.generate cellTarget {} = .ok kernel ∧
    ([⟨axisIndex 0, 2, 4⟩], update position factors) ∈ kernel.body.placed ∧
    ∃ factor ∈ factors,
      ReadsOwnDof ⟨0, (2, 4), shiftedRange, 0⟩ 2 [⟨axisIndex 0, 2, 4⟩] factor := by
  have hentry : (2, clipped) ∈ clippedIntegral.integrands.entries := List.mem_cons_self
  have hblock : ([(2, 4)], [⟨[0], 4, [shiftedRange]⟩]) ∈ clipped.contributions.get .piecewise :=
    List.mem_cons_self
  obtain ⟨-, position, factors, -, hplace, -, hreads⟩ :=
    generate_readsOwnDof generate_clipped hentry hblock List.mem_cons_self
  refine ⟨clippedKernel, position, factors, generate_clipped, hplace, ?_⟩
  exact hreads 0 _ _ rfl (by decide) (by decide) rfl rfl

/-- The second argument along the first axis and the first one along the second axis. -/
def swappedArguments : Integral where
  type := .cell
  tensorShape := [2, 3]
  rules := OrderedMap.ofList [(2, twoPointRule)]
  integrands := OrderedMap.ofList [(2, {
    graph := ⟨[.terminal { terminal := .cellVolume }]⟩
    partitions := [some .piecewise]
    tableRanges := [none]
    arguments := [{ terminal := .argument 0 }, { terminal := .argument 1 }]
    contributions := { piecewise :=
      [([(0, 2), (0, 3)], [⟨[1, 0], 0, [⟨"FE0", 0, 2, .fixed⟩, ⟨"FE1", 0, 3, .fixed⟩]⟩])] }
    tables := OrderedMap.ofList
      [("FE0", ⟨⟨1, 1, 2⟩, [0.25, 0.75]⟩), ("FE1", ⟨⟨1, 1, 3⟩, [0.25, 0.5, 0.25]⟩)] })]

/-- An update that reads each of two tables at the counter of the other one. -/
def readsSwapped : List Loop × Stmt → Bool
  | ([⟨.symbol "ia0", 0, 2⟩, ⟨.symbol "ia1", 0, 3⟩],
      .assignAdd (.access (.symbol "A") [_]) (.product [.symbol _,
        .access (.symbol "FE0") [_, _, .symbol "ia1"],
        .access (.symbol "FE1") [_, _, .symbol "ia0"]])) => true
  | _ => false

/-- The table of the first axis is read behind its end, at the counter of the second axis. -/
theorem not_generate_readsOwnDof : ¬∀ kernel,
    swappedArguments.generate cellTarget {} = .ok kernel →
      ∀ loops position factors, (loops, .assignAdd (.entry tensor position) (.product factors)) ∈
        kernel.body.placed → ∃ factor ∈ factors,
          ReadsOwnDof ⟨0, (0, 2), ⟨"FE0", 0, 2, .fixed⟩, 1⟩ 2 loops factor := by
  have hfound : ((swappedArguments.generate cellTarget {}).toOption.any fun kernel =>
      kernel.body.placed.any readsSwapped) = true := by
    decide +kernel
  obtain ⟨kernel, hkernel, hfound⟩ := exists_eq_ok_of_any hfound
  obtain ⟨⟨loops, s⟩, hmem, hmatch⟩ := List.any_eq_true.1 hfound
  intro hreads
  unfold readsSwapped at hmatch
  split at hmatch
  next position volume entity point entity' point' heq =>
    cases heq
    obtain ⟨factor, hfactor, _, _, dof, hread, hround⟩ := hreads kernel hkernel _ _ _ hmem
    rw [hread] at hfactor
    -- The last round of the loop over the second axis has no value in the table of the first one.
    let last : Locals Unit := fun name => some (.number (word (if name = "ia1" then 2 else 0)))
    obtain ⟨k, hk, hdof, -⟩ := hround last (List.forall_mem_cons.2 ⟨⟨0, le_rfl, by decide, rfl⟩,
      List.forall_mem_singleton.2 ⟨2, by decide, by decide, rfl⟩⟩)
    obtain ⟨-, -, rfl⟩ : _ ∧ _ ∧ dof = .symbol "ia1" := by simpa using hfactor
    rw [Execution.index_symbol (i := word 2) rfl] at hdof
    have hlimit : 2 < Word.limit := by decide
    have hlast := congrArg BitVec.toNat (Option.some.inj hdof)
    rw [Execution.toNat_word hlimit, Execution.toNat_word (hk.trans hlimit)] at hlast
    exact absurd hlast hk.ne'
  next => cases hmatch

end Integral

end ElementKernel
