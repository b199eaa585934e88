import ElementKernel.Proofs.Scoping.Order
import ElementKernel.Proofs.Scoping.Placement

/-!
# Writes to the element tensor

A kernel writes to the element tensor in its reset and in the updates by its contributions.  An
update is made at the row-major position of a multi-index, which lies inside of the tensor if the
index of every axis does.  The index of an axis runs over the bounds of its block or over the
points, and neither of them is compared with the shape of the tensor.
-/

namespace ElementKernel

open Kernel
open Execution (Locals index rowMajor word)

/-- In every round of the loops, a statement writes to entries of the element tensor only that are
below the given number of entries. -/
def WritesInside (size : Nat) (loops : List Loop) : Stmt → Prop
  | .assign target _ | .assignAdd target _ =>
      target.root? = some tensorName → ∃ position, target = .entry tensor position ∧
        ∀ {K : Type} (L : Locals K), InRound L loops →
          ∃ p, index L position = some p ∧ p.toNat < size
  | .zeroFill array count => array.root? = some tensorName → array = tensor ∧ count ≤ size
  | _ => True

namespace Kernel

variable {target : Target} {integral : Integral} {options : KernelOptions} {pointCount : Nat}
  {integrand : Integrand} {partition : Partition} {block : DofBlock}
  {contribution : BlockContribution} {size : Nat}

/-- All numbers that index an axis of a contribution are those of entries of the element tensor. -/
structure Axis.FitsTensor (axis : Axis) (shape : List Nat) (partition : Partition)
    (pointCount : Nat) : Prop where
  inside : ∀ size ∈ shape[axis.position]?, ∀ i, (axis.span pointCount).1 ≤ i →
    i < (axis.span pointCount).2 → i < size
  /-- A current point is only there inside of the quadrature loop. -/
  point : axis.range.type = .quadrature → partition = .piecewise → pointCount = 1

/-! ## Positions -/

/-- The position of an update lies in the element tensor if the index of every axis does. -/
theorem position_lt_of_round {position : Expr}
    (hlength : (axes block contribution).length = integral.tensorShape.length)
    (hfits : ∀ axis ∈ axes block contribution,
      axis.FitsTensor integral.tensorShape partition pointCount)
    (hposition : flatIndex ((axes block contribution).map (·.index pointCount))
      integral.tensorShape = .ok position)
    (hsize : integral.tensorSize = .ok size) {K : Type} (L : Locals K)
    (hround : InRound L
      (pointLoops partition pointCount ++ axisLoops pointCount (axes block contribution))) :
    ∃ p, index L position = some p ∧ p.toNat < size := by
  choose! dof hfirst hpast hindex using fun axis haxis =>
    exists_span_of_round haxis (hfits axis haxis).point hround
  have hinside : List.Forall₂ (· < ·) ((axes block contribution).map dof) integral.tensorShape := by
    refine List.forall₂_iff_get.2 ⟨by simpa using hlength, fun k hk hk' => ?_⟩
    have haxis := List.getElem?_eq_getElem (hlength ▸ hk')
    have hmem := List.mem_of_getElem? haxis
    have hentry := Setting.position_of_getElem? haxis
    rw [List.get_eq_getElem, List.get_eq_getElem, List.getElem_map]
    refine (hfits _ hmem).inside _ ?_ _ (hfirst _ hmem) (hpast _ hmem)
    rw [hentry]
    exact List.getElem?_eq_getElem hk'
  obtain ⟨p, hp⟩ := Execution.exists_position hinside
  obtain ⟨rfl, hlimit⟩ := integral.prod_tensorShape hsize
  have hlt := Execution.position_lt hp
  refine ⟨word p, Execution.index_flatIndex ?_ hp hposition, ?_⟩
  · rw [List.forall₂_map_left_iff, List.forall₂_map_right_iff]
    exact List.forall₂_same.2 hindex
  · rwa [Execution.toNat_word (hlt.trans_le hlimit)]

/-! ## Statements -/

theorem writesInside_tensorReset {reset : List Stmt} (h : tensorReset integral = .ok reset)
    (hsize : integral.tensorSize = .ok size) :
    ∀ s ∈ reset, s.Everywhere (WritesInside size) := by
  obtain ⟨size', hsize', h⟩ := bind_eq_ok.1 h
  obtain rfl := Except.ok.inj (hsize'.symm.trans hsize)
  cases h
  refine List.forall_mem_cons.2 ⟨Stmt.everywhere_comment.2 trivial, ?_⟩
  refine List.forall_mem_singleton.2 ?_
  split
  next hone =>
    refine Stmt.everywhere_assign.2 fun _ => ⟨.int 0, rfl, fun L _ => ⟨_, rfl, ?_⟩⟩
    simp [hone]
  next => exact Stmt.everywhere_zeroFill.2 fun _ => ⟨rfl, le_rfl⟩

namespace CodeParts

variable (parts : CodeParts target integral pointCount integrand)

/-- Variables and slots are not the element tensor. -/
theorem writesInside_statements (outer : List Loop) :
    ∀ s ∈ parts.statements options partition,
      s.Everywhere fun loops t => WritesInside size (outer ++ loops) t := by
  have hroot : ∀ {name : String} {c : Char}, name.toList.head? = some c → c ≠ 'A' →
      some name ≠ some tensorName :=
    fun hname hc heq => ne_of_heads hname (d := 'A') rfl hc (Option.some.inj heq)
  intro s hs
  obtain rfl | hs | rfl | hs := mem_statements hs
  · exact Stmt.everywhere_comment.2 trivial
  · obtain ⟨id, t, name, -, hname, rfl | ⟨past, value, rfl, -⟩⟩ :=
      mem_definitions (parts.state_eq partition) s hs
    · exact Stmt.everywhere_declare.2 trivial
    · refine Stmt.everywhere_forRange.2 ⟨trivial, List.forall_mem_singleton.2 ?_⟩
      refine Stmt.everywhere_assignAdd.2 fun htensor => absurd htensor ?_
      obtain hhead | hhead | hhead := ModifiedTerminal.head_expansionName hname
      · exact hroot hhead (by decide)
      · exact hroot hhead (by decide)
      · exact hroot hhead (by decide)
  · exact Stmt.everywhere_array.2 trivial
  · obtain ⟨k, value, rfl⟩ := exists_slot_of_mem (parts.state_eq partition) s hs
    refine Stmt.everywhere_assign.2 fun htensor => absurd htensor ?_
    exact hroot (head_slotsName partition pointCount) (by decide)

theorem writesInside_updates (hsize : integral.tensorSize = .ok size)
    (hfits : ∀ entry ∈ integrand.contributions.get partition, ∀ contribution ∈ entry.2,
      ∀ axis ∈ axes entry.1 contribution,
        axis.FitsTensor integral.tensorShape partition pointCount) :
    ∀ s ∈ parts.updates partition, s.Everywhere fun loops t =>
      WritesInside size (pointLoops partition pointCount ++ loops) t := by
  intro s hs
  obtain ⟨entry, hentry, contribution, hcontribution, hs⟩ :=
    mem_blockCode (parts.updates_eq partition) hs
  obtain ⟨scalar, tables, position, haxes, -, -, -, hposition, rfl⟩ := contributionCode_eq_ok hs
  refine everywhere_nest _ (fun _ _ _ _ _ => trivial) (Stmt.everywhere_assignAdd.2 fun _ => ?_)
  rw [List.append_nil]
  have hcontribution := hfits entry hentry contribution hcontribution
  exact ⟨position, rfl, position_lt_of_round haxes hcontribution hposition hsize⟩

end CodeParts

end Kernel

namespace Integral

variable {integral : Integral} {target : Target} {options : KernelOptions}
  {kernel : GeneratedKernel}

/-- The axes of every contribution are indexed inside of the element tensor. -/
def BlocksFit (integral : Integral) : Prop :=
  ∀ entry ∈ integral.integrands.entries, ∀ partition,
    ∀ blockEntry ∈ entry.2.contributions.get partition, ∀ contribution ∈ blockEntry.2,
      ∀ axis ∈ axes blockEntry.1 contribution,
        axis.FitsTensor integral.tensorShape partition entry.1

/-- A kernel writes inside of the element tensor only, in every round of its loops, if the axes of
its contributions are indexed inside of it. -/
theorem generate_writesInside (h : integral.generate target options = .ok kernel)
    (hfits : integral.BlocksFit) :
    ∃ size, integral.tensorSize = .ok size ∧ kernel.body.Everywhere (WritesInside size) := by
  obtain ⟨rules, reset, codes, -, hreset, -, -⟩ := exists_codes h
  obtain ⟨size, hsize, -⟩ := bind_eq_ok.1 hreset
  refine ⟨size, hsize, everywhere_body h (fun _ => trivial) ?_ ?_⟩
  · intro rules reset hrules hreset
    exact List.forall_mem_append.2 ⟨
      forall_mem_tables hrules (fun _ => Stmt.everywhere_comment.2 trivial)
        fun _ => Stmt.everywhere_array.2 trivial,
      writesInside_tensorReset hreset hsize⟩
  · intro entry hentry parts
    refine ⟨trivial, parts.everywhere_code (fun _ _ _ => trivial) (fun _ => trivial)
      (fun _ _ => trivial) fun partition => List.forall_mem_append.2 ⟨?_, ?_⟩⟩
    · exact parts.writesInside_statements _
    · exact parts.writesInside_updates hsize (hfits entry hentry partition)

/-- Along its one axis, the clipped integral has blocks of two of four degrees of freedom and two
points. -/
theorem blocksFit_clipped : clippedIntegral.BlocksFit := by
  intro entry hentry partition blockEntry hblock contribution hcontribution axis haxis
  obtain rfl := List.mem_singleton.1 hentry
  cases partition with
  | piecewise =>
      obtain rfl := List.mem_singleton.1 hblock
      obtain rfl := List.mem_singleton.1 hcontribution
      obtain rfl := List.mem_singleton.1 haxis
      constructor
      · rintro size ⟨⟩ i - hi
        exact hi
      · nofun
  | varying =>
      obtain rfl := List.mem_singleton.1 hblock
      constructor
      · obtain rfl | rfl := List.mem_pair.1 hcontribution
        all_goals
          obtain rfl := List.mem_singleton.1 haxis
          rintro size ⟨⟩ i - hi
          exact hi.trans (by decide)
      · nofun

theorem generate_writesInside_clipped : ∃ kernel size,
    clippedIntegral.generate cellTarget {} = .ok kernel ∧
    clippedIntegral.tensorSize = .ok size ∧ kernel.body.Everywhere (WritesInside size) := by
  obtain ⟨size, hsize, hinside⟩ := generate_writesInside generate_clipped blocksFit_clipped
  exact ⟨clippedKernel, size, generate_clipped, hsize, hinside⟩

/-- A block of five degrees of freedom and a table that covers it, for an element tensor with two
entries. -/
def wideBlock : Integral where
  type := .cell
  tensorShape := [2]
  rules := OrderedMap.ofList [(2, twoPointRule)]
  integrands := OrderedMap.ofList [(2, {
    graph := ⟨[.terminal { terminal := .cellVolume }]⟩
    partitions := [some .piecewise]
    tableRanges := [none]
    arguments := [{ terminal := .argument 0 }]
    contributions := { piecewise := [([(0, 5)], [⟨[0], 0, [⟨"FE0", 0, 5, .fixed⟩]⟩])] }
    tables := OrderedMap.ofList [("FE0", ⟨⟨1, 1, 5⟩, [0.5, 0.5, 0.5, 0.5, 0.5]⟩)] })]

/-- An update of every one of five entries. -/
def updatesFive : List Loop × Stmt → Bool
  | ([⟨.symbol "ia0", 0, 5⟩], .assignAdd (.access (.symbol "A") [.symbol "ia0"]) _) => true
  | _ => false

/-- The loop over an axis runs behind the end of the element tensor. -/
theorem not_generate_writesInside : ¬∀ kernel size,
    wideBlock.generate cellTarget {} = .ok kernel → wideBlock.tensorSize = .ok size →
      kernel.body.Everywhere (WritesInside size) := by
  have hfound : ((wideBlock.generate cellTarget {}).toOption.any fun kernel =>
      kernel.body.placed.any updatesFive) = true := by
    decide +kernel
  obtain ⟨kernel, hkernel, hfound⟩ := exists_eq_ok_of_any hfound
  obtain ⟨⟨loops, s⟩, hmem, hmatch⟩ := List.any_eq_true.1 hfound
  intro hinside
  have hwrites := hinside kernel 2 hkernel rfl _ hmem
  unfold updatesFive at hmatch
  split at hmatch
  next value heq =>
    cases heq
    obtain ⟨position, hposition, hround⟩ := hwrites rfl
    cases hposition
    -- The last round of the loop writes to the fifth entry.
    let last : Locals Unit := fun _ => some (.number (word 4))
    obtain ⟨p, hp, hlt⟩ := hround last
      (List.forall_mem_singleton.2 ⟨4, by decide, by decide, rfl⟩)
    rw [Execution.index_symbol (i := word 4) rfl] at hp
    cases hp
    exact absurd hlt (by decide)
  next => cases hmatch

end Integral

end ElementKernel
