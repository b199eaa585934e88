import ElementKernel.Proofs.Execution.Positions
import ElementKernel.Proofs.Scoping.Codes

/-!
# Contributions inside of their blocks

The update of the element tensor by a contribution is made once in every round of the loops around
it.  A loop over an axis runs over the bounds of the block.  An axis with a quadrature table has no
loop and is indexed by the point, so it stays inside of the block only if the points are numbers of
degrees of freedom of the block, which nothing checks.
-/

namespace ElementKernel

open Kernel
open Execution (Locals index rowMajor word)

/-- What a tree adds to, each with the loops around the addition. -/
def Stmt.additions (s : Stmt) : List (List Loop × Expr) :=
  s.placed.filterMap fun
    | (loops, .assignAdd target _) => some (loops, target)
    | _ => none

/-- The counters have the values of some round of the loops. -/
def InRound {K : Type} (L : Locals K) (loops : List Loop) : Prop :=
  ∀ loop ∈ loops, ∃ i, loop.first ≤ i ∧ i < loop.past ∧ index L loop.index = some (word i)

/-- In every round of the loops around it, an addition is made to the entry of the element tensor
whose multi-index lies in the block. -/
def InsideBlock (shape : List Nat) (block : DofBlock) (addition : List Loop × Expr) : Prop :=
  ∃ position, addition.2 = .entry tensor position ∧
    ∀ {K : Type} (L : Locals K), InRound L addition.1 → ∃ multiIndex,
      List.Forall₂ (fun bounds i => bounds.1 ≤ i ∧ i < bounds.2) block multiIndex ∧
        index L position = some (word (rowMajor shape multiIndex))

theorem Stmt.additions_forRange (index : Expr) (first past : Nat) (s : Stmt) :
    (forRange index first past [s]).additions =
      s.additions.map fun addition => (⟨index, first, past⟩ :: addition.1, addition.2) := by
  rw [additions, additions, placed, placedAll, placedAll, List.append_nil, List.filterMap_cons,
    List.filterMap_map, List.map_filterMap]
  refine List.filterMap_congr fun entry _ => ?_
  obtain ⟨loops, t⟩ := entry
  cases t <;> rfl

namespace Kernel

variable {target : Target} {integral : Integral} {options : KernelOptions} {pointCount : Nat}
  {integrand : Integrand} {partition : Partition} {block : DofBlock}
  {contribution : BlockContribution}

/-- The first of the numbers that index an axis and the one past their last. -/
def Axis.span (axis : Axis) (pointCount : Nat) : Nat × Nat :=
  if axis.range.type = .quadrature then (0, pointCount) else axis.bounds

/-- Every point of a partition is a degree of freedom of the axis. -/
structure Axis.HoldsPoints (axis : Axis) (partition : Partition) (pointCount : Nat) : Prop where
  first : axis.bounds.1 = 0
  past : pointCount ≤ axis.bounds.2
  /-- A current point is only there inside of the quadrature loop. -/
  point : partition = .piecewise → pointCount = 1

/-! ## Loops -/

/-- A contribution makes one addition, inside of the loops over its axes. -/
theorem additions_nest (axes : List Axis) (position : Expr) (factors : List Expr) :
    (nest pointCount axes (update position factors)).additions =
      [(axisLoops pointCount axes, .entry tensor position)] := by
  induction axes with
  | nil => rfl
  | cons axis rest ih =>
      show (axis.loop pointCount (nest pointCount rest _)).additions = _
      unfold Axis.loop
      split
      next htype => simpa [axisLoops, htype] using ih
      next htype => simp [Stmt.additions_forRange, ih, axisLoops, htype]

/-- In every round, an axis is indexed by a number that it spans. -/
theorem exists_span_of_round {K : Type} {L : Locals K} {axes : List Axis} {axis : Axis}
    (haxis : axis ∈ axes)
    (hpoint : axis.range.type = .quadrature → partition = .piecewise → pointCount = 1)
    (hround : InRound L (pointLoops partition pointCount ++ axisLoops pointCount axes)) :
    ∃ i, (axis.span pointCount).1 ≤ i ∧ i < (axis.span pointCount).2 ∧
      index L (axis.index pointCount) = some (word i) := by
  by_cases htype : axis.range.type = .quadrature
  · rw [Axis.span, Axis.index, if_pos htype, if_pos htype, pointIndex]
    split
    next hone => exact ⟨0, le_rfl, by omega, Execution.index_signed 0⟩
    next hcount =>
      have hloop : (⟨.symbol "iq", 0, pointCount⟩ : Loop) ∈ pointLoops partition pointCount := by
        cases partition with
        | piecewise => exact absurd (hpoint htype rfl) hcount
        | varying => simp [pointLoops, hcount]
      exact hround _ (List.mem_append_left _ hloop)
  · have hloop : (⟨axis.index pointCount, axis.bounds.1, axis.bounds.2⟩ : Loop) ∈
        axisLoops pointCount axes :=
      List.mem_map.2 ⟨axis, List.mem_filter.2 ⟨haxis, by simpa using htype⟩, rfl⟩
    rw [Axis.span, if_neg htype]
    exact hround _ (List.mem_append_right _ hloop)

/-- In every round, an axis is indexed by a degree of freedom of its block. -/
theorem exists_index_of_round {K : Type} {L : Locals K} {axes : List Axis} {axis : Axis}
    (haxis : axis ∈ axes)
    (hpoints : axis.range.type = .quadrature → axis.HoldsPoints partition pointCount)
    (hround : InRound L (pointLoops partition pointCount ++ axisLoops pointCount axes)) :
    ∃ i, (axis.bounds.1 ≤ i ∧ i < axis.bounds.2) ∧
      index L (axis.index pointCount) = some (word i) := by
  obtain ⟨i, hfirst, hpast, hvalue⟩ :=
    exists_span_of_round haxis (fun htype => (hpoints htype).point) hround
  refine ⟨i, ?_, hvalue⟩
  unfold Axis.span at hfirst hpast
  split at hfirst
  next htype =>
    rw [if_pos htype] at hpast
    exact ⟨by simp [(hpoints htype).first], hpast.trans_le (hpoints htype).past⟩
  next htype =>
    rw [if_neg htype] at hpast
    exact ⟨hfirst, hpast⟩

/-! ## Contributions -/

theorem map_bounds_axes (h : (axes block contribution).length = block.length) :
    (axes block contribution).map Axis.bounds = block := by
  have hlength : block.length ≤ (contribution.ranges.zip contribution.arguments).length := by
    simp only [axes, List.length_map, List.length_zipIdx, List.length_zip] at h ⊢
    omega
  calc (axes block contribution).map Axis.bounds
      = ((block.zip (contribution.ranges.zip contribution.arguments)).zipIdx.map Prod.fst).map
          Prod.fst := by rw [axes, List.map_map, List.map_map]; rfl
    _ = block := by rw [List.zipIdx_map_fst, List.map_fst_zip hlength]

/-- The addition by a contribution is made inside of its block. -/
theorem insideBlock_contributionCode {accesses : Accesses} {code : Stmt}
    (h : contributionCode target integral pointCount integrand accesses block contribution =
      .ok code)
    (hpoints : ∀ axis ∈ axes block contribution, axis.range.type = .quadrature →
      axis.HoldsPoints partition pointCount) :
    ∃ addition, code.additions = [addition] ∧ InsideBlock integral.tensorShape block
      (pointLoops partition pointCount ++ addition.1, addition.2) := by
  obtain ⟨scalar, tables, position, haxes, hblock, -, -, hposition, rfl⟩ :=
    contributionCode_eq_ok h
  refine ⟨_, additions_nest _ position _, position, rfl, fun L hround => ?_⟩
  choose! dof hinside hindex using fun axis haxis =>
    exists_index_of_round haxis (hpoints axis haxis) hround
  refine ⟨(axes block contribution).map dof, ?_, Execution.index_flatIndex_rowMajor ?_ hposition⟩
  · have hforall : List.Forall₂ (fun bounds i => bounds.1 ≤ i ∧ i < bounds.2)
        ((axes block contribution).map Axis.bounds) ((axes block contribution).map dof) := by
      rw [List.forall₂_map_left_iff, List.forall₂_map_right_iff]
      exact List.forall₂_same.2 hinside
    rwa [map_bounds_axes (haxes.trans hblock.symm)] at hforall
  · rw [List.forall₂_map_left_iff, List.forall₂_map_right_iff]
    exact List.forall₂_same.2 hindex

/-! ## Places of contributions -/

namespace CodeParts

/-- Every contribution has its code in that of the integrand, inside of the loop over the points if
its partition varies over them. -/
theorem exists_placed_contribution (parts : CodeParts target integral pointCount integrand)
    {entry : BlockEntry} (hentry : entry ∈ integrand.contributions.get partition)
    (hcontribution : contribution ∈ entry.2) :
    ∃ code, contributionCode target integral pointCount integrand (parts.state partition).accesses
        entry.1 contribution = .ok code ∧
      (pointLoops partition pointCount, code) ∈ Stmt.placedAll (parts.code options) := by
  obtain ⟨code, hcode, heq⟩ :=
    exists_mem_blockCode (parts.updates_eq partition) hentry hcontribution
  refine ⟨code, heq, ?_⟩
  rw [CodeParts.code, Stmt.placedAll_append]
  cases partition with
  | piecewise =>
      refine List.mem_append_left _ (Stmt.mem_placedAll.2 ⟨code, ?_, Stmt.mem_placed_self code⟩)
      exact List.mem_append_right _ hcode
  | varying =>
      have hbody : code ∈ parts.loopBody options := List.mem_append_right _ hcode
      have hplace : ([], code) ∈ Stmt.placedAll (parts.loopBody options) :=
        Stmt.mem_placedAll.2 ⟨code, hbody, Stmt.mem_placed_self code⟩
      refine List.mem_append_right _ ?_
      unfold quadratureLoop
      split
      next hempty =>
        rw [List.isEmpty_iff.1 hempty] at hbody
        cases hbody
      next =>
        split
        next hone => simp [Stmt.placedAll, Stmt.placed, pointLoops, hone, hplace]
        next hcount => simp [Stmt.placedAll, Stmt.placed, pointLoops, pointIndex, hcount, hplace]

end CodeParts

end Kernel

namespace Integral

variable {integral : Integral} {target : Target} {options : KernelOptions}
  {kernel : GeneratedKernel}

/-- Every contribution is added inside of its block in every round of the loops around it, where the
points that index an axis are degrees of freedom of the block. -/
theorem generate_insideBlock (h : integral.generate target options = .ok kernel)
    {entry : Nat × Integrand} (hentry : entry ∈ integral.integrands.entries)
    {partition : Partition} {blockEntry : BlockEntry}
    (hblock : blockEntry ∈ entry.2.contributions.get partition)
    {contribution : BlockContribution} (hcontribution : contribution ∈ blockEntry.2)
    (hpoints : ∀ axis ∈ axes blockEntry.1 contribution, axis.range.type = .quadrature →
      axis.HoldsPoints partition entry.1) :
    ∃ accesses code addition,
      contributionCode target integral entry.1 entry.2 accesses blockEntry.1 contribution =
        .ok code ∧
      (pointLoops partition entry.1, code) ∈ kernel.body.placed ∧
      code.additions = [addition] ∧
      InsideBlock integral.tensorShape blockEntry.1
        (pointLoops partition entry.1 ++ addition.1, addition.2) := by
  obtain ⟨parts, hplaced⟩ := exists_placed_code h hentry
  obtain ⟨code, hcode, hplace⟩ := parts.exists_placed_contribution hblock hcontribution
  obtain ⟨addition, haddition, hinside⟩ := insideBlock_contributionCode hcode hpoints
  exact ⟨_, code, addition, hcode, hplaced _ hplace, haddition, hinside⟩

theorem generate_insideBlock_clipped : ∃ kernel accesses code addition,
    clippedIntegral.generate cellTarget {} = .ok kernel ∧
    contributionCode cellTarget clippedIntegral 2 clipped accesses [(0, 2)]
      ⟨[0], 5, [pointRange]⟩ = .ok code ∧
    (pointLoops .varying 2, code) ∈ kernel.body.placed ∧ code.additions = [addition] ∧
    InsideBlock [4] [(0, 2)] (pointLoops .varying 2 ++ addition.1, addition.2) := by
  have hentry : (2, clipped) ∈ clippedIntegral.integrands.entries := List.mem_cons_self
  have hblock : ([(0, 2)], [⟨[0], 5, [pointRange]⟩, ⟨[0], 5, [hatRange]⟩]) ∈
      clipped.contributions.get .varying := List.mem_cons_self
  obtain ⟨accesses, code, addition, hrest⟩ :=
    generate_insideBlock generate_clipped hentry hblock List.mem_cons_self (by
      intro axis haxis _
      obtain rfl := List.mem_singleton.1 haxis
      exact ⟨rfl, le_rfl, nofun⟩)
  exact ⟨clippedKernel, accesses, code, addition, generate_clipped, hrest⟩

/-- A block of a mixed element that starts behind the degrees of freedom of another one. -/
def shiftedPoints : Integral where
  type := .cell
  tensorShape := [5]
  rules := OrderedMap.ofList [(2, twoPointRule)]
  integrands := OrderedMap.ofList [(2, {
    graph := ⟨[.terminal { terminal := .quadratureWeight }]⟩
    partitions := [some .varying]
    tableRanges := [none]
    tables := OrderedMap.ofList []
    arguments := [{ terminal := .argument 0 }]
    contributions := { varying := [([(3, 5)], [⟨[0], 0, [⟨"FE0", 3, 5, .quadrature⟩]⟩])] }
    needWeights := true })]

/-- An addition to the element tensor at every one of the two points. -/
def isAtPoints : List Loop × Expr → Bool
  | ([⟨.symbol "iq", 0, 2⟩], .access (.symbol "A") [.symbol "iq"]) => true
  | _ => false

/-- The points are taken for degrees of freedom, although those of the block start at three. -/
theorem not_generate_insideBlock : ¬∀ kernel, shiftedPoints.generate cellTarget {} = .ok kernel →
    ∀ addition ∈ kernel.body.additions, InsideBlock [5] [(3, 5)] addition := by
  have hfound : ((shiftedPoints.generate cellTarget {}).toOption.any fun kernel =>
      kernel.body.additions.any isAtPoints) = true := by
    decide +kernel
  obtain ⟨kernel, hkernel, hfound⟩ := exists_eq_ok_of_any hfound
  obtain ⟨addition, hmem, hmatch⟩ := List.any_eq_true.1 hfound
  intro hinside
  unfold isAtPoints at hmatch
  split at hmatch
  next =>
    obtain ⟨position, hposition, hround⟩ := hinside kernel hkernel _ hmem
    cases hposition
    -- The first point is not a degree of freedom of the block.
    let first : Locals Unit := fun _ => some (.number (word 0))
    obtain ⟨multiIndex, hblock, hindex⟩ := hround first
      (List.forall_mem_singleton.2 ⟨0, le_rfl, by decide, rfl⟩)
    obtain ⟨i, rest, hbounds, hrest, rfl⟩ := List.forall₂_cons_left_iff.1 hblock
    obtain rfl := List.forall₂_nil_left_iff.1 hrest
    have hword : word 0 = word (rowMajor [5] [i]) := by
      rw [Execution.index_symbol (i := word 0) rfl] at hindex
      exact Option.some.inj hindex
    have hzero : (word 0).toNat = (word i).toNat := by
      simpa [rowMajor] using congrArg BitVec.toNat hword
    have hlimit : 5 < Word.limit := by decide
    rw [Execution.toNat_word (by omega), Execution.toNat_word (by omega)] at hzero
    omega
  next => cases hmatch

end Integral

end ElementKernel
