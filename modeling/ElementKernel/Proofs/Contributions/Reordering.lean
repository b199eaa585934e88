import ElementKernel.Proofs.Contributions.Insertion
import ElementKernel.Proofs.Execution.Correctness
import Mathlib.Data.List.Nodup

/-!
# Order of contributions

A kernel adds the contributions of a partition block by block in ascending order.  The order in which
an integrand lists distinct blocks does not show in its kernel, while the order of the contributions
to a block does.
-/

namespace ElementKernel

open Kernel

/-! ## Sorting -/

namespace BlockEntry

/-- Entries of distinct blocks are sorted in one way only. -/
theorem mergeSort_eq_of_perm {entries entries' : List BlockEntry} (h : entries.Perm entries')
    (hdistinct : (entries.map Prod.fst).Nodup) :
    entries.mergeSort (fun a b => (a.1.order b.1).isLE) =
      entries'.mergeSort fun a b => (a.1.order b.1).isLE := by
  have hle (a b : BlockEntry) : (a.1.order b.1).isLE = true ↔ a.1.key ≤ b.1.key := by
    rw [Ordering.isLE_iff_ne_gt]
    exact (DofBlock.compares_order _ _).ne_gt
  have hsorted (entries : List BlockEntry) :
      (entries.mergeSort fun a b => (a.1.order b.1).isLE).Pairwise fun a b => a.1.key ≤ b.1.key := by
    refine (List.pairwise_mergeSort ?_ ?_ entries).imp fun h => (hle _ _).1 h
    · intro a b c hab hbc
      exact (hle a c).2 (((hle a b).1 hab).trans ((hle b c).1 hbc))
    · intro a b
      rw [Bool.or_eq_true, hle, hle]
      exact le_total _ _
  refine List.Perm.eq_of_pairwise (fun a b ha hb hab hba => ?_) (hsorted entries) (hsorted entries')
    ((List.mergeSort_perm _ _).trans (h.trans (List.mergeSort_perm _ _).symm))
  have hblock := DofBlock.key_inj (le_antisymm hab hba)
  exact List.inj_on_of_nodup_map hdistinct (List.mem_mergeSort.1 ha)
    (h.mem_iff.2 (List.mem_mergeSort.1 hb)) hblock

end BlockEntry

/-! ## Integrands -/

/-- The integrand lists each block once in a partition. -/
def Integrand.BlocksDistinct (integrand : Integrand) : Prop :=
  ∀ partition, ((integrand.contributions.get partition).map Prod.fst).Nodup

/-- The integrands differ in the order of their blocks only. -/
def Integrand.ReordersTo (integrand other : Integrand) : Prop :=
  ∃ contributions, other = { integrand with contributions } ∧
    ∀ partition, (integrand.contributions.get partition).Perm (contributions.get partition)

namespace Integral

/-- Every integrand lists each block once in a partition. -/
def BlocksDistinct (integral : Integral) : Prop :=
  ∀ entry ∈ integral.integrands.entries, entry.2.BlocksDistinct

/-- Integrands for one number of points that differ in the order of their blocks only. -/
def Reordered (entry entry' : Nat × Integrand) : Prop :=
  entry.1 = entry'.1 ∧ entry.2.ReordersTo entry'.2

/-- The integrals differ in the order of blocks only. -/
def ReordersTo (integral other : Integral) : Prop :=
  ∃ integrands, other = { integral with integrands } ∧
    List.Forall₂ Reordered integral.integrands.entries integrands.entries

end Integral

namespace Kernel

variable {target : Target} {options : KernelOptions} {integral : Integral}
  {integrands : OrderedMap Nat Integrand} {pointCount : Nat} {integrand integrand' : Integrand}

theorem blockCode_reorder (h : integrand.ReordersTo integrand')
    (hdistinct : integrand.BlocksDistinct) (partition : Partition) (accesses : Accesses) :
    blockCode target { integral with integrands } pointCount integrand' partition accesses =
      blockCode target integral pointCount integrand partition accesses := by
  obtain ⟨contributions, rfl, hperm⟩ := h
  unfold blockCode
  rw [BlockEntry.mergeSort_eq_of_perm (hperm partition) (hdistinct partition)]
  rfl

theorem integrandCode_reorder (h : integrand.ReordersTo integrand')
    (hdistinct : integrand.BlocksDistinct) :
    integrandCode target options { integral with integrands } pointCount integrand' =
      integrandCode target options integral pointCount integrand := by
  unfold integrandCode
  simp only [blockCode_reorder h hdistinct]
  -- Nothing else looks at the contributions.
  obtain ⟨contributions, rfl, -⟩ := h
  rfl

theorem ruleTables_reorder (h : integrand.ReordersTo integrand') (rule : QuadratureRule) :
    ruleTables options pointCount rule integrand' = ruleTables options pointCount rule integrand := by
  obtain ⟨contributions, rfl, -⟩ := h
  rfl

/-! ## Integrals -/

theorem lookup_reorder {entries entries' : List (Nat × Integrand)}
    (h : List.Forall₂ Integral.Reordered entries entries') (n : Nat) :
    Option.Rel Integrand.ReordersTo (entries.lookup n) (entries'.lookup n) := by
  induction h with
  | nil => exact .none
  | @cons entry entry' _ _ hentry _ ih =>
      obtain ⟨k, integrand⟩ := entry
      obtain ⟨k', integrand'⟩ := entry'
      obtain ⟨rfl, hreorders⟩ := hentry
      rw [List.lookup_cons, List.lookup_cons]
      dsimp only
      cases n == k with
      | true => exact .some hreorders
      | false => exact ih

theorem map_reorder {α : Type} {entries entries' : List (Nat × Integrand)}
    (h : List.Forall₂ Integral.Reordered entries entries') {f g : Nat × Integrand → α}
    (hsame : ∀ entry ∈ entries, ∀ integrand, entry.2.ReordersTo integrand →
      f (entry.1, integrand) = g entry) : entries'.map f = entries.map g := by
  induction h with
  | nil => rfl
  | @cons entry entry' _ _ hentry _ ih =>
      obtain ⟨k', integrand'⟩ := entry'
      obtain ⟨rfl, hreorders⟩ := hentry
      obtain ⟨hfirst, hrest⟩ := List.forall_mem_cons.1 hsame
      rw [List.map_cons, List.map_cons, hfirst integrand' hreorders, ih hrest]

section

variable (h : List.Forall₂ Integral.Reordered integral.integrands.entries integrands.entries)

include h

theorem keys_reorder : integrands.keys = integral.integrands.keys :=
  map_reorder h fun _ _ _ _ => rfl

theorem registeredTables_reorder :
    registeredTables options { integral with integrands } = registeredTables options integral := by
  funext ⟨pointCount, rule⟩
  unfold registeredTables OrderedMap.get?
  dsimp only
  split
  · rfl
  · have hfound := lookup_reorder h pointCount
    generalize integral.integrands.entries.lookup pointCount = found at hfound ⊢
    generalize integrands.entries.lookup pointCount = found' at hfound ⊢
    cases hfound with
    | none => rfl
    | some hreorders =>
        show liftM (ruleTables options pointCount rule _) = liftM _
        rw [ruleTables_reorder hreorders]

theorem quadratureTables_reorder :
    quadratureTables options { integral with integrands } = quadratureTables options integral := by
  unfold quadratureTables
  dsimp only
  rw [keys_reorder h, registeredTables_reorder h]

theorem elementTables_reorder :
    elementTables options { integral with integrands } = elementTables options integral := by
  unfold elementTables
  dsimp only
  rw [List.flatMap_def, List.flatMap_def, map_reorder h]
  rintro entry - _ ⟨contributions, rfl, -⟩
  rfl

end

end Kernel

namespace Integral

theorem generate_reorder {integral other : Integral} (h : integral.ReordersTo other)
    (hdistinct : integral.BlocksDistinct) (target : Target) (options : KernelOptions) :
    other.generate target options = integral.generate target options := by
  obtain ⟨integrands, rfl, h⟩ := h
  have hchecks : (integrands.entries.forM fun entry => checkIntegrand entry.2) =
      integral.integrands.entries.forM fun entry => checkIntegrand entry.2 := by
    refine forM_eq_of_map_eq (map_reorder h ?_)
    rintro entry - _ ⟨contributions, rfl, -⟩
    rfl
  have hcodes : (integrands.entries.mapM fun entry =>
      integrandCode target options { integral with integrands } entry.1 entry.2) =
        integral.integrands.entries.mapM fun entry =>
          integrandCode target options integral entry.1 entry.2 := by
    refine mapM_eq_of_map_eq (map_reorder h fun entry hentry _ hreorders => ?_)
    exact integrandCode_reorder hreorders (hdistinct entry hentry)
  unfold generate
  dsimp only
  split
  · rfl
  · simp only [hchecks, hcodes, quadratureTables_reorder h, elementTables_reorder h]
    rfl

end Integral

/-! ## Insertion and generation -/

namespace BlockContributions

/-- Insertions lose nothing and keep the order: in each partition the blocks ascend strictly, a block
is there exactly if something has been inserted into it, and it has the contributions that have been
inserted, in that order.  So what is left depends on the insertions into each block only, and of
distinct blocks the kernel does not see the order. -/
theorem kept_in_order :
    (∀ (insertions : List Insertion) (partition : Partition),
      ((ofInsertions insertions).get partition).Pairwise
        (fun entry other => entry.1.key < other.1.key) ∧
      ∀ entry, entry ∈ (ofInsertions insertions).get partition ↔
        entry.2 = Insertion.added insertions partition entry.1 ∧ entry.2 ≠ []) ∧
    (∀ first second : List Insertion, ofInsertions first = ofInsertions second ↔
      ∀ partition block,
        Insertion.added first partition block = Insertion.added second partition block) ∧
    ∀ integral other : Integral, integral.BlocksDistinct → integral.ReordersTo other →
      ∀ (target : Target) (options : KernelOptions),
        other.generate target options = integral.generate target options := by
  refine ⟨fun insertions partition => ?_, fun first second => ?_, ?_⟩
  · have hgroups := groups_ofInsertions insertions partition
    exact ⟨hgroups.ascending, hgroups.mem_iff⟩
  · rw [ofInsertions_eq_iff]
    exact forall_congr' fun partition => funext_iff
  · intro integral other hdistinct hreorders target options
    exact Integral.generate_reorder hreorders hdistinct target options

/-- The volume of a cell, added to a block of a vector. -/
def volume (first past : Nat) : BlockContribution := ⟨[0], 0, [⟨"FE0", first, past, .ones⟩]⟩

/-- A vector with four entries that the volume of a cell is added to. -/
def volumes (contributions : BlockContributions) : Integral where
  type := .cell
  tensorShape := [4]
  rules := OrderedMap.ofList [(2, Integral.twoPointRule)]
  integrands := OrderedMap.ofList [(2, {
    graph := ⟨[.terminal { terminal := .cellVolume }]⟩
    partitions := [some .piecewise]
    tableRanges := [none]
    arguments := [{ terminal := .argument 0 }]
    contributions
    tables := OrderedMap.ofList [] })]

/-- Two insertions into one block, with one into another partition before or behind the second, and
two blocks that are listed in both orders. -/
theorem kept_in_order_volumes :
    ofInsertions [⟨.piecewise, [(0, 2)], volume 0 2⟩, ⟨.varying, [(0, 1)], volume 0 1⟩,
        ⟨.piecewise, [(0, 2)], volume 1 2⟩] =
      ofInsertions [⟨.piecewise, [(0, 2)], volume 0 2⟩, ⟨.piecewise, [(0, 2)], volume 1 2⟩,
        ⟨.varying, [(0, 1)], volume 0 1⟩] ∧
    (volumes { piecewise := [([(2, 4)], [volume 2 4]), ([(0, 2)], [volume 0 2])] }).generate
        Integral.cellTarget {} =
      (volumes { piecewise := [([(0, 2)], [volume 0 2]), ([(2, 4)], [volume 2 4])] }).generate
        Integral.cellTarget {} := by
  obtain ⟨-, hequal, hgenerate⟩ := kept_in_order
  refine ⟨(hequal _ _).2 fun partition block => ?_, hgenerate _ _ ?_ ?_ _ _⟩
  · cases partition <;> simp [Insertion.added, List.filter_cons]
  · intro entry hentry partition
    obtain rfl := List.mem_singleton.1 hentry
    cases partition with
    | piecewise =>
        show [[(0, 2)], [(2, 4)]].Nodup
        decide
    | varying => exact List.nodup_nil
  · refine ⟨_, rfl, .cons ⟨rfl, _, rfl, fun partition => ?_⟩ .nil⟩
    cases partition with
    | piecewise => exact List.Perm.swap _ _ _
    | varying => exact List.Perm.refl _

end BlockContributions

end ElementKernel
