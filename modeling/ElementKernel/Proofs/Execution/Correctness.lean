import ElementKernel.Proofs.Acceptance
import ElementKernel.Proofs.Execution.Visibility

/-!
# Correctness of kernels

A kernel declares its tables, resets the element tensor and adds the values of the integrands one
after the other.  Run from any contents of the tensor, it ends with the entries that the integral
describes.
-/

namespace ElementKernel

open Execution

/-! ## Several codes -/

namespace Execution

variable {K : Type} [Field K] {D : Interpretation K} {size : Nat} {L : Locals K}

/-- The code adds `δ` and keeps what was visible before. -/
def AddsExtending (D : Interpretation K) (size : Nat) (L : Locals K) (code : List Stmt)
    (δ : Nat → K) : Prop :=
  ∃ L', Runs D size L code L' δ ∧ L.Extends L'

theorem runs_scopes {codes : List (List Stmt)} {δs : List (Nat → K)}
    (h : List.Forall₂ (AddsExtending D size L) codes δs) :
    Runs D size L (codes.map .scope) L δs.sum := by
  induction h with
  | nil => exact Runs.nil
  | cons hfirst _ ih =>
      obtain ⟨L', hrun, hextends⟩ := hfirst
      rw [List.map_cons, List.sum_cons]
      exact (hrun.scope hextends).append ih

theorem runs_joinCodes {codes : List (List Stmt)} {δs : List (Nat → K)}
    (h : List.Forall₂ (AddsExtending D size L) codes δs) :
    ∃ L', Runs D size L (Kernel.joinCodes codes) L' δs.sum := by
  unfold Kernel.joinCodes
  split
  next => exact ⟨L, runs_scopes h⟩
  next hfew =>
    cases h with
    | nil => exact ⟨L, Runs.nil⟩
    | cons hfirst hrest =>
        cases hrest with
        | nil =>
            obtain ⟨L', hrun, -⟩ := hfirst
            exact ⟨L', by simpa using hrun⟩
        | cons => simp at hfew

end Execution

/-! ## Reset -/

/-- A product that fits the word after every factor is a machine word or one. -/
theorem Word.ProductFits.foldl_le {a : Nat} {xs : List Nat} (h : Word.ProductFits a xs)
    (ha : a ≤ Word.limit) : xs.foldl (· * ·) a ≤ Word.limit := by
  induction xs generalizing a with
  | nil => exact ha
  | cons x xs ih => exact ih h.2 h.1.le

theorem Integral.prod_tensorShape {integral : Integral} {n : Nat}
    (h : integral.tensorSize = .ok n) :
    n = integral.tensorShape.prod ∧ integral.tensorShape.prod ≤ Word.limit := by
  have hfits := (Word.product_decides integral.tensorShape).ok n h
  rw [List.prod_eq_foldl]
  exact ⟨Word.product_eq_ok h, hfits.foldl_le (by decide)⟩

/-- The reset sets the entries of the element tensor to zero and changes nothing else. -/
theorem Kernel.exec_tensorReset_eq {K : Type} [Field K] (D : Interpretation K)
    {integral : Integral} {reset : List Stmt} (hreset : tensorReset integral = .ok reset)
    (L : Locals K) (T : Nat → K) :
    execAll D integral.tensorShape.prod reset ⟨L, T⟩ =
      some ⟨L, fun p => if p < integral.tensorShape.prod then 0 else T p⟩ := by
  obtain ⟨size, hsize, hreset⟩ := bind_eq_ok.1 hreset
  cases hreset
  obtain ⟨rfl, -⟩ := Integral.prod_tensorShape hsize
  generalize integral.tensorShape.prod = size
  split
  next hone =>
    -- A single entry is assigned.
    subst hone
    have hplace := place_entry (L := L) tensorName (index_int 0)
    rw [Expr.entry] at hplace
    have hupdate : Function.update T 0 0 = fun p => if p < 1 then 0 else T p := by
      funext p
      simp [Function.update_apply]
    simp [execAll, exec, destination?, Expr.entry, tensor, hplace, position, State.store,
      D.literal_zero, hupdate]
  next => simp [execAll, exec, tensor]

theorem Kernel.exec_tensorReset {K : Type} [Field K] (D : Interpretation K) {integral : Integral}
    {reset : List Stmt} (hreset : tensorReset integral = .ok reset) (L : Locals K) (T : Nat → K) :
    ∃ T', execAll D integral.tensorShape.prod reset ⟨L, T⟩ = some ⟨L, T'⟩ ∧
      ∀ p < integral.tensorShape.prod, T' p = 0 :=
  ⟨_, exec_tensorReset_eq D hreset L T, fun _ hp => if_pos hp⟩

/-! ## Integrals -/

namespace Integral

variable {K : Type} [Field K]

/-- All integrands are consistent. -/
def Consistent (integral : Integral) (target : Target) (D : KernelData K) : Prop :=
  ∀ entry ∈ integral.integrands.entries,
    Setting.Consistent ⟨D, target, integral, entry.1, entry.2⟩

/-- Some integrand has a terminal that is read too early. -/
def ReadsEarly (integral : Integral) (target : Target) (D : KernelData K) : Prop :=
  ∃ entry ∈ integral.integrands.entries,
    Setting.ReadsEarly ⟨D, target, integral, entry.1, entry.2⟩

/-- The parts of a kernel that is generated. -/
theorem generate_eq_ok {integral : Integral} {target : Target} {options : KernelOptions}
    {kernel : GeneratedKernel} (h : integral.generate target options = .ok kernel) :
    ∃ rules reset codes, (∀ entry ∈ integral.integrands.entries, entry.2.TablesFit) ∧
      Kernel.quadratureTables options integral = .ok rules ∧
      Kernel.tensorReset integral = .ok reset ∧
      (integral.integrands.entries.mapM fun entry =>
        Kernel.integrandCode target options integral entry.1 entry.2) = .ok codes ∧
      kernel.body = .list (rules ++ Kernel.elementTables options integral ++ reset ++
        Kernel.joinCodes (codes.map (·.1))) := by
  unfold generate at h
  split at h
  · cases h
  next =>
    obtain ⟨_, hchecks, h⟩ := bind_eq_ok.1 h
    obtain ⟨rules, hrules, h⟩ := bind_eq_ok.1 h
    obtain ⟨reset, hreset, h⟩ := bind_eq_ok.1 h
    obtain ⟨codes, hcodes, h⟩ := bind_eq_ok.1 h
    cases h
    have hcheck := Attempt.Decides.forM fun (entry : Nat × Integrand)
      (_ : entry ∈ integral.integrands.entries) =>
        entry.2.validate_decides.mapError KernelError.malformed
    obtain ⟨hdata, hfits⟩ := hcheck.ok _ hchecks
    refine ⟨rules, reset, codes, fun entry hentry => ?_, hrules, liftM_eq_ok.1 hreset, hcodes, rfl⟩
    intro name table htable
    have hmem := OrderedMap.get?_eq_some_iff.1 htable
    exact ⟨(hdata entry hentry).tables _ hmem, hfits entry hentry _ hmem⟩

end Integral

theorem exists_forall₂_of_forall₂ {α β γ : Type} {P : α → γ → Prop} {Q : β → γ → Prop}
    {xs : List α} {ys : List β} (h : List.Forall₂ (fun x y => ∃ z, P x z ∧ Q y z) xs ys) :
    ∃ zs, List.Forall₂ P xs zs ∧ List.Forall₂ Q ys zs := by
  induction h with
  | nil => exact ⟨[], .nil, .nil⟩
  | cons hxy _ ih =>
      obtain ⟨z, hx, hy⟩ := hxy
      obtain ⟨zs, hxs, hys⟩ := ih
      exact ⟨z :: zs, .cons hx hxs, .cons hy hys⟩

theorem sum_apply_of_forall₂ {α K : Type} [Field K] {value : α → K} {xs : List α}
    {δs : List (Nat → K)} {p : Nat} (h : List.Forall₂ (fun x δ => δ p = value x) xs δs) :
    δs.sum p = (xs.map value).sum := by
  induction h with
  | nil => rfl
  | cons hfirst _ ih => rw [List.sum_cons, List.map_cons, List.sum_cons, Pi.add_apply, ih, hfirst]

namespace Integral

variable {K : Type} [Field K]

namespace Consistent

variable {integral : Integral} {target : Target} {D : KernelData K}
  (h : integral.Consistent target D)

include h

theorem nodup_tableNames : integral.tableNames.Nodup := by
  cases hentries : integral.integrands.entries with
  | nil => simp [tableNames, hentries]
  | cons entry rest =>
      have hS := h entry (by simp [hentries])
      refine hS.names.sublist ?_
      unfold Setting.names
      refine .cons _ (.cons _ (.cons _ ?_))
      exact .trans (List.sublist_append_right _ _) (List.sublist_append_left _ _)

theorem free_table {name : String}
    (hname : name ∈ (Kernel.tableEntries D.toInterpretation integral).map Prod.fst) :
    D.inputs target integral name = none ∧ name ≠ Kernel.tensorName := by
  obtain ⟨entry, hentry, -⟩ := List.mem_flatMap.1
    (Kernel.mem_tableNames (List.mem_append_right ((D.weightInputs integral).map Prod.fst) hname))
  have hnodup := (List.nodup_append.1 (h entry hentry).nodup_visible).1
  obtain ⟨htensor, hnodup⟩ := List.nodup_cons.1 hnodup
  rw [Setting.visibleEntries, List.map_append] at htensor hnodup
  refine ⟨Locals.setAll_of_notMem fun hinput => ?_, ?_⟩
  · exact (List.nodup_append.1 hnodup).2.2 name hinput name hname rfl
  · rintro rfl
    exact htensor (List.mem_append_right _ hname)

end Consistent

/-- The codes of the integrands add up to the entries of the element tensor. -/
theorem adds_codes {integral : Integral} {target : Target} {options : KernelOptions}
    {D : KernelData K} (hconsistent : integral.Consistent target D)
    (hearly : ¬integral.ReadsEarly target D)
    (hfit : ∀ entry ∈ integral.integrands.entries, entry.2.TablesFit)
    (hlimit : integral.tensorShape.prod ≤ Word.limit) {rules : List Stmt}
    (hrules : Kernel.quadratureTables options integral = .ok rules)
    {codes : List (List Stmt × List Operator)}
    (hcodes : (integral.integrands.entries.mapM fun entry =>
      Kernel.integrandCode target options integral entry.1 entry.2) = .ok codes) :
    ∃ δs, List.Forall₂
        (AddsExtending D.toInterpretation integral.tensorShape.prod (D.visible target integral))
        (codes.map (·.1)) δs ∧
      ∀ js p, position integral.tensorShape js = some p →
        δs.sum p = D.tensorEntry target integral js := by
  have hadds : List.Forall₂ (fun entry (code : List Stmt × List Operator) => ∃ δ : Nat → K,
      (∀ js p, position integral.tensorShape js = some p →
        δ p = Setting.integrandValue ⟨D, target, integral, entry.1, entry.2⟩ js) ∧
      AddsExtending D.toInterpretation integral.tensorShape.prod (D.visible target integral)
        code.1 δ) integral.integrands.entries codes := by
    obtain ⟨hlength, hgenerated⟩ := List.forall₂_iff_zip.1 (mapM_eq_ok.1 hcodes)
    refine List.forall₂_iff_zip.2 ⟨hlength, fun {entry code} hpair => ?_⟩
    have hmem := (List.of_mem_zip hpair).1
    have hS := hconsistent entry hmem
    obtain ⟨L', δ, hrun, hextends, hδ⟩ := Setting.runs_integrand hS
      (fun h => hearly ⟨entry, hmem, h⟩) (hfit entry hmem) hlimit
      (hS.provides hmem hrules) (fun _ hname => hS.visible_own hname) (hgenerated hpair)
    exact ⟨δ, hδ, L', hrun, hextends⟩
  obtain ⟨δs, hvalues, hruns⟩ := exists_forall₂_of_forall₂ hadds
  refine ⟨δs, List.forall₂_map_left_iff.2 hruns, fun js p hp => ?_⟩
  exact sum_apply_of_forall₂ (hvalues.imp fun _ _ hvalue => hvalue js p hp)

/-- A generated kernel runs from any contents of the element tensor and leaves the entries that the
integral describes. -/
theorem generate_correct (D : KernelData K) (target : Target) (options : KernelOptions)
    (integral : Integral) (kernel : GeneratedKernel)
    (hgenerate : integral.generate target options = .ok kernel)
    (hconsistent : integral.Consistent target D) (hearly : ¬integral.ReadsEarly target D)
    (T : Nat → K) :
    ∃ final, exec D.toInterpretation integral.tensorShape.prod kernel.body
        ⟨D.inputs target integral, T⟩ = some final ∧
      ∀ js p, position integral.tensorShape js = some p →
        final.tensor p = D.tensorEntry target integral js := by
  obtain ⟨rules, reset, codes, hfit, hrules, hreset, hcodes, hbody⟩ := generate_eq_ok hgenerate
  obtain ⟨size, hsize, -⟩ := bind_eq_ok.1 hreset
  obtain ⟨-, hlimit⟩ := prod_tensorShape hsize
  obtain ⟨δs, hadds, hvalues⟩ :=
    adds_codes hconsistent hearly hfit hlimit hrules hcodes
  obtain ⟨T', hzero, hT'⟩ := Kernel.exec_tensorReset D.toInterpretation hreset
    (D.visible target integral) T
  obtain ⟨L', hrun⟩ := runs_joinCodes hadds
  have htables : Runs D.toInterpretation integral.tensorShape.prod (D.inputs target integral)
      (rules ++ Kernel.elementTables options integral) (D.visible target integral) 0 := by
    have hnodup := hconsistent.nodup_tableNames
    have hdistinct := (List.nodup_append.1 (Kernel.nodup_tableEntries (D := D) hnodup)).2.1
    refine Kernel.declares_tables hrules _ (fun name hname => ?_) hdistinct
    exact hconsistent.free_table hname
  refine ⟨⟨L', T' + δs.sum⟩, ?_, fun js p hp => ?_⟩
  · rw [hbody, exec, execAll_append, execAll_append, htables, add_zero]
    simp only [Option.bind_some]
    rw [hzero, Option.bind_some, hrun]
  · show (T' + δs.sum) p = _
    rw [Pi.add_apply, hT' p (position_lt hp), zero_add, hvalues js p hp]

/-! ### A kernel that runs -/

/-- The exact value of a binary64 number. -/
def exactValue (x : Float) : ℚ :=
  let magnitude := (Binary.ofFloat x).toFraction
  (if signBit x then -1 else 1) * mkRat magnitude.numerator magnitude.denominator

/-- Rational inputs with the coefficient values 1, 3, 5, …. -/
def sampleData : KernelData ℚ where
  literal := exactValue
  literal_zero := by decide +kernel
  literal_one := by decide +kernel
  operator _ _ := 0
  coefficient _ dof := 1 + 2 * dof.toNat
  coordinate i := i.toNat
  normal _ _ := 1
  volume _ := 1
  facet _ := 0
  vertex := 0
  weight _ _ := 1

def cellTarget : Target := ⟨.c, .cell, {}⟩

def twoPointRule : QuadratureRule := ⟨.ofRows 1 [[0.25], [0.75]], [0.5, 0.5]⟩

def hatTable : ElementTable := ⟨⟨1, 2, 2⟩, [0.75, 0.25, 0.25, 0.75]⟩

def hatRange : TableRange := ⟨"FE0", 0, 2, .uniform⟩

/-- A load vector with a linear coefficient on an interval. -/
def load : Integrand where
  graph := ⟨[.terminal { terminal := .quadratureWeight }, .terminal { terminal := .coefficient 0 },
    .operator .product [0, 1]]⟩
  partitions := [some .varying, some .varying, some .varying]
  tableRanges := [none, some hatRange, none]
  arguments := [{ terminal := .argument 0 }]
  contributions := { varying := [([(0, 2)], [⟨[0], 2, [hatRange]⟩])] }
  tables := OrderedMap.ofList [("FE0", hatTable)]
  needWeights := true

def loadIntegral : Integral where
  type := .cell
  tensorShape := [2]
  rules := OrderedMap.ofList [(2, twoPointRule)]
  integrands := OrderedMap.ofList [(2, load)]

def loadSetting : Setting ℚ := ⟨sampleData, cellTarget, loadIntegral, 2, load⟩

theorem loadSetting_covers (point : Nat) (hpoint : point < 2) :
    loadSetting.Covers hatRange none point := fun _ hdof =>
  ⟨hatTable, rfl, Nat.one_pos, hpoint, hdof, fun htype => nomatch htype⟩

theorem mem_load_nodes {partition : Partition} {entry : NodeId × GraphNode}
    (h : entry ∈ load.partitionNodes partition) :
    partition = .varying ∧ (entry = (0, .terminal { terminal := .quadratureWeight }) ∨
      entry = (1, .terminal { terminal := .coefficient 0 }) ∨
        entry = (2, .operator .product [0, 1])) := by
  cases partition with
  | piecewise => cases h
  | varying =>
      refine ⟨rfl, ?_⟩
      have hmem : entry ∈ [(0, .terminal { terminal := .quadratureWeight }),
        (1, .terminal { terminal := .coefficient 0 }), (2, .operator .product [0, 1])] := h
      simpa using hmem

theorem loadSetting_consistent : loadSetting.Consistent where
  pointCount := by decide
  nodeCount := by decide
  names := by decide +kernel
  noArgument partition id t h := by
    obtain ⟨-, h | h | h⟩ := mem_load_nodes h <;> cases h <;> simp
  noWeight id t h := nomatch (mem_load_nodes h).1
  constantRanges id t h := nomatch (mem_load_nodes h).1
  constantBlocks entry h := nomatch h
  tables partition id t h range hrange _ := by
    obtain ⟨rfl, h | h | h⟩ := mem_load_nodes h <;> cases h <;> cases hrange
    exact loadSetting_covers
  axes partition entry hentry contribution hcontribution axis haxis := by
    cases partition with
    | piecewise => cases hentry
    | varying =>
        obtain rfl := List.mem_singleton.1 hentry
        obtain rfl := List.mem_singleton.1 hcontribution
        obtain rfl : axis = ⟨0, (0, 2), hatRange, 0⟩ := List.mem_singleton.1 haxis
        refine ⟨?_, fun htype => (nomatch htype), ?_⟩
        · rintro size ⟨⟩
          exact le_rfl
        · rintro - - t ⟨⟩
          exact ⟨rfl, loadSetting_covers⟩

/-- With the coefficient values 1 and 3, the entries of the load vector are 7/8 and 9/8. -/
theorem generate_correct_load : ∃ kernel final,
    loadIntegral.generate cellTarget {} = .ok kernel ∧
      exec sampleData.toInterpretation 2 kernel.body
        ⟨sampleData.inputs cellTarget loadIntegral, fun _ => 7⟩ = some final ∧
      final.tensor 0 = 7 / 8 ∧ final.tensor 1 = 9 / 8 := by
  have hok : (loadIntegral.generate cellTarget {}).isOk = true := by decide +kernel
  cases hgenerate : loadIntegral.generate cellTarget {} with
  | error failure =>
      rw [hgenerate] at hok
      cases hok
  | ok kernel =>
      have hconsistent : loadIntegral.Consistent cellTarget sampleData := by
        intro entry hentry
        obtain rfl := List.mem_singleton.1 hentry
        exact loadSetting_consistent
      have hearly : ¬loadIntegral.ReadsEarly cellTarget sampleData := by
        rintro ⟨entry, hentry, -, id, t, range, hmem, -⟩
        obtain rfl := List.mem_singleton.1 hentry
        exact nomatch (mem_load_nodes hmem).1
      obtain ⟨final, hrun, hfinal⟩ := generate_correct sampleData cellTarget {} loadIntegral kernel
        hgenerate hconsistent hearly fun _ => 7
      refine ⟨kernel, final, rfl, hrun, ?_, ?_⟩
      · rw [hfinal [0] 0 rfl]
        decide +kernel
      · rw [hfinal [1] 1 rfl]
        decide +kernel

/-! ### A kernel that does not run -/

def onesRange : TableRange := ⟨"FE0", 0, 2, .ones⟩

def onesTable : ElementTable := ⟨⟨1, 2, 2⟩, [1, 1, 1, 1]⟩

/-- The integral of the sum of two coefficient values, which is computed in front of the loop over
the points. -/
def total : Integrand where
  graph := ⟨[.terminal { terminal := .quadratureWeight }, .terminal { terminal := .coefficient 0 },
    .operator .product [0, 1]]⟩
  partitions := [some .varying, some .piecewise, some .varying]
  tableRanges := [none, some onesRange, none]
  contributions := { varying := [([], [⟨[], 2, []⟩])] }
  tables := OrderedMap.ofList [("FE0", onesTable)]
  needWeights := true

def totalIntegral : Integral where
  type := .cell
  tensorShape := []
  rules := OrderedMap.ofList [(2, twoPointRule)]
  integrands := OrderedMap.ofList [(2, total)]

def totalSetting : Setting ℚ := ⟨sampleData, cellTarget, totalIntegral, 2, total⟩

theorem mem_total_nodes {partition : Partition} {entry : NodeId × GraphNode}
    (h : entry ∈ total.partitionNodes partition) :
    entry = (1, .terminal { terminal := .coefficient 0 }) ∨
      partition = .varying ∧ (entry = (0, .terminal { terminal := .quadratureWeight }) ∨
        entry = (2, .operator .product [0, 1])) := by
  cases partition with
  | piecewise => exact .inl (List.mem_singleton.1 h)
  | varying =>
      have hmem : entry ∈ [(0, .terminal { terminal := .quadratureWeight }),
        (2, .operator .product [0, 1])] := h
      exact .inr ⟨rfl, by simpa using hmem⟩

theorem totalSetting_consistent : totalSetting.Consistent where
  pointCount := by decide
  nodeCount := by decide
  names := by decide +kernel
  noArgument partition id t h := by
    obtain h | ⟨-, h | h⟩ := mem_total_nodes h <;> cases h <;> simp
  noWeight id t h := by
    obtain h | ⟨h, -⟩ := mem_total_nodes h <;> cases h
    simp
  constantRanges id t h range hrange := by
    obtain ⟨⟨⟩⟩ | ⟨⟨⟩, -⟩ := mem_total_nodes h
    cases hrange
    rfl
  constantBlocks entry h := nomatch h
  tables partition id t h range hrange _ point hpoint dof hdof := by
    obtain ⟨⟨⟩⟩ | ⟨-, ⟨⟨⟩⟩ | ⟨⟨⟩⟩⟩ := mem_total_nodes h <;> cases hrange
    have hinside : point < 2 := by
      cases partition with
      | piecewise => exact Nat.lt_succ_of_lt hpoint
      | varying => exact hpoint
    exact ⟨onesTable, rfl, Nat.one_pos, hinside, hdof, fun _ => by simp [onesTable]⟩
  axes partition entry hentry contribution hcontribution axis haxis := by
    cases partition with
    | piecewise => cases hentry
    | varying =>
        obtain rfl := List.mem_singleton.1 hentry
        obtain rfl := List.mem_singleton.1 hcontribution
        cases haxis

/-- A table of ones is looked up at the counter of the quadrature loop, in front of the loop. -/
theorem not_generate_correct_total : ¬∀ kernel,
    totalIntegral.generate cellTarget {} = .ok kernel →
      totalIntegral.Consistent cellTarget sampleData → ∃ final,
        exec sampleData.toInterpretation 1 kernel.body
          ⟨sampleData.inputs cellTarget totalIntegral, fun _ => 7⟩ = some final ∧
        ∀ js p, position [] js = some p →
          final.tensor p = sampleData.tensorEntry cellTarget totalIntegral js := by
  have hfails : ((totalIntegral.generate cellTarget {}).toOption.any fun kernel =>
      (exec sampleData.toInterpretation 1 kernel.body
        ⟨sampleData.inputs cellTarget totalIntegral, fun _ => 7⟩).isNone) = true := by
    decide +kernel
  intro hcorrect
  cases hgenerate : totalIntegral.generate cellTarget {} with
  | error failure =>
      rw [hgenerate] at hfails
      cases hfails
  | ok kernel =>
      have hconsistent : totalIntegral.Consistent cellTarget sampleData := by
        intro entry hentry
        obtain rfl := List.mem_singleton.1 hentry
        exact totalSetting_consistent
      obtain ⟨final, hrun, -⟩ := hcorrect kernel hgenerate hconsistent
      simp [hgenerate, Except.toOption, hrun] at hfails

end Integral

end ElementKernel
