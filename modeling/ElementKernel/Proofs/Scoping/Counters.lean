import ElementKernel.Proofs.Scoping.Codes

/-!
# Loop counters in scope

Counters are made by the loops over points, axes and degrees of freedom, but they are used wherever
a table type, an argument number or the number of points asks for them.  They are in scope when
these agree, which `Integrand.CountersMatch` says node by node and axis by axis.
-/

namespace ElementKernel

open Kernel

/-- Every counter that an expression of the tree reads belongs to a loop around its statement. -/
def Stmt.CountersInScope (body : Stmt) : Prop :=
  body.Everywhere fun loops s => ∀ e ∈ s.expressions, e.Reads fun p =>
    ∀ name, p = .symbol name → IsCounter name → ∃ loop ∈ loops, loop.index = .symbol name

/-- The nodes and blocks of an integrand only ask for counters that have a loop. -/
structure Integrand.CountersMatch (integrand : Integrand) (pointCount : Nat) : Prop where
  /-- Arguments are nodes only with a table that needs no counter of an axis. -/
  arguments : ∀ partition id t number,
    (id, .terminal t) ∈ integrand.partitionNodes partition → t.terminal = .argument number →
      ∃ range, integrand.rangeOf id = some range ∧
        (range.type = .zeros ∨ range.type = .quadrature ∨ range.type = .ones)
  /-- Nodes in front of the quadrature loop do not look at the current point. -/
  nodes : pointCount ≠ 1 → ∀ id t, (id, .terminal t) ∈ integrand.partitionNodes .piecewise →
    ¬t.LooksAtPoint (integrand.rangeOf id)
  /-- Nor do blocks in front of the loop. -/
  blocks : pointCount ≠ 1 → ∀ entry ∈ integrand.contributions.get .piecewise,
    ∀ contribution ∈ entry.2, ∀ axis ∈ axes entry.1 contribution,
      axis.range.type ≠ .quadrature ∧ (axis.range.type ≠ .ones →
        ∀ t, integrand.arguments[axis.argument]? = some t → ¬t.LooksAtPoint (some axis.range))
  /-- The argument that is read along an axis belongs to an axis with a loop. -/
  axes : ∀ partition, ∀ entry ∈ integrand.contributions.get partition,
    ∀ contribution ∈ entry.2, ∀ axis ∈ axes entry.1 contribution,
      axis.range.type ≠ .quadrature → axis.range.type ≠ .ones →
        ∀ t number, integrand.arguments[axis.argument]? = some t → t.terminal = .argument number →
          ∃ other ∈ axes entry.1 contribution, other.position = number ∧
            other.range.type ≠ .quadrature

/-! ## Counters that are free in code -/

/-- All counters in the expression are among the given ones. -/
def Expr.Scoped (free : List String) (e : Expr) : Prop :=
  e.Reads fun p => ∀ name, p = .symbol name → IsCounter name → name ∈ free

/-- All counters in the statement are among the given ones or belong to loops inside of it, which
are not loops over points. -/
def Stmt.Scoped (free : List String) (s : Stmt) : Prop :=
  s.Everywhere fun loops t => ∀ e ∈ t.expressions, e.Reads fun p =>
    ∀ name, p = .symbol name → IsCounter name →
      name ∈ free ∨ name ≠ "iq" ∧ ∃ loop ∈ loops, loop.index = .symbol name

namespace Stmt.Scoped

variable {free more : List String} {target value : Expr} {body : List Stmt} {s : Stmt}

theorem mono (h : s.Scoped free) (hmore : ∀ name ∈ free, name ∈ more) : s.Scoped more :=
  Everywhere.mono h fun _ _ ht e he => (ht e he).mono fun _ hp name hname hcounter =>
    (hp name hname hcounter).imp_left (hmore name)

theorem comment (text : String) : (Stmt.comment text).Scoped free := by
  simp [Scoped, expressions]

theorem array (decl : ArrayDecl) : (Stmt.array decl).Scoped free := by
  simp [Scoped, expressions]

theorem leaf (h : ∀ e ∈ s.expressions, e.Scoped free)
    (hleaf : ∀ P : List Loop → Stmt → Prop, s.Everywhere P ↔ P [] s) : s.Scoped free := by
  refine (hleaf _).2 fun e he => (h e he).mono fun p hp name hname hcounter => ?_
  exact .inl (hp name hname hcounter)

theorem declare (name : String) (h : value.Scoped free) : (Stmt.declare name value).Scoped free :=
  leaf (by simpa [expressions] using h) fun _ => everywhere_declare

theorem assign (htarget : target.Scoped free) (hvalue : value.Scoped free) :
    (Stmt.assign target value).Scoped free :=
  leaf (by simpa [expressions] using ⟨htarget, hvalue⟩) fun _ => everywhere_assign

theorem assignAdd (htarget : target.Scoped free) (hvalue : value.Scoped free) :
    (Stmt.assignAdd target value).Scoped free :=
  leaf (by simpa [expressions] using ⟨htarget, hvalue⟩) fun _ => everywhere_assignAdd

theorem forRange {name : String} (hname : name ≠ "iq") (first past : Nat)
    (h : ∀ t ∈ body, t.Scoped (name :: free)) :
    (Stmt.forRange (.symbol name) first past body).Scoped free := by
  refine everywhere_forRange.2 ⟨nofun, fun t ht => Everywhere.mono (h t ht) ?_⟩
  refine fun loops u hu e he => (hu e he).mono fun p hp counter hcounter hisCounter => ?_
  obtain hfree | ⟨hne, loop, hloop, hindex⟩ := hp counter hcounter hisCounter
  · obtain rfl | hfree := List.mem_cons.1 hfree
    · exact .inr ⟨hname, _, List.mem_cons_self, rfl⟩
    · exact .inl hfree
  · exact .inr ⟨hne, loop, List.mem_cons_of_mem _ hloop, hindex⟩

theorem scope (h : ∀ t ∈ body, t.Scoped free) : (Stmt.scope body).Scoped free :=
  everywhere_scope.2 ⟨nofun, h⟩

theorem countersInScope (h : s.Scoped []) : s.CountersInScope :=
  Everywhere.mono h fun _ _ ht e he => (ht e he).mono fun _ hp name hname hcounter =>
    ((hp name hname hcounter).resolve_left List.not_mem_nil).2

theorem countersInScope_forRange (first past : Nat) (h : ∀ t ∈ body, t.Scoped ["iq"]) :
    (Stmt.forRange (.symbol "iq") first past body).CountersInScope := by
  refine everywhere_forRange.2 ⟨nofun, fun t ht => Everywhere.mono (h t ht) ?_⟩
  refine fun loops u hu e he => (hu e he).mono fun p hp name hname hcounter => ?_
  obtain hpoint | ⟨-, loop, hloop, hindex⟩ := hp name hname hcounter
  · obtain rfl := List.mem_singleton.1 hpoint
    exact ⟨_, List.mem_cons_self, rfl⟩
  · exact ⟨loop, List.mem_cons_of_mem _ hloop, hindex⟩

end Stmt.Scoped

/-! ## Nodes -/

namespace Kernel

variable {target : Target} {integral : Integral} {options : KernelOptions} {pointCount : Nat}
  {integrand : Integrand} {partition : Partition} {free : List String}

/-- What a terminal refers to is in scope, when its point and its argument are. -/
theorem scoped_of_reading {t : ModifiedTerminal} {range? : Option TableRange} {p : Expr}
    (hpoint : pointCount ≠ 1 → t.LooksAtPoint range? → "iq" ∈ free)
    (haxis : ∀ number range, t.terminal = .argument number → range? = some range →
      range.type ≠ .zeros → range.type ≠ .quadrature → range.type ≠ .ones → s!"ia{number}" ∈ free)
    (h : t.Reading range? pointCount p) :
    ∀ name, p = .symbol name → IsCounter name → name ∈ free := by
  rintro name rfl hcounter
  cases h with
  | point hcount hlooks => exact hpoint hcount hlooks
  | axis h hrange hzeros hquadrature hones => exact haxis _ _ h hrange hzeros hquadrature hones
  | @scalar _ c hname hc =>
      have hne : c ≠ 'i' := by
        rintro rfl
        exact absurd hc (by decide)
      exact absurd hcounter (not_isCounter hname hne)

/-- The counter of the loop over the points is free in the code of a partition. -/
def PointIn (free : List String) (partition : Partition) (pointCount : Nat) : Prop :=
  partition = .varying → pointCount ≠ 1 → "iq" ∈ free

section

variable (hmatch : integrand.CountersMatch pointCount)
  (hpoint : PointIn free partition pointCount)

include hmatch hpoint

theorem scoped_of_node {id : NodeId} {t : ModifiedTerminal}
    (hnode : (id, .terminal t) ∈ integrand.partitionNodes partition) {p : Expr}
    (h : t.Reading (integrand.rangeOf id) pointCount p) :
    ∀ name, p = .symbol name → IsCounter name → name ∈ free := by
  refine scoped_of_reading (fun hcount hlooks => ?_)
    (fun number range hterminal hrange hzeros hquadrature hones => ?_) h
  · cases partition with
    | piecewise => exact absurd hlooks (hmatch.nodes hcount id t hnode)
    | varying => exact hpoint rfl hcount
  · obtain ⟨range', hrange', htype⟩ := hmatch.arguments partition id t number hnode hterminal
    obtain rfl := Option.some.inj (hrange.symm.trans hrange')
    simp [hzeros, hquadrature, hones] at htype

/-- The nodes of a partition only use counters that are free where it stands. -/
theorem scoped_partitionState {accesses : Accesses} {state : PartitionState}
    (haccesses : ∀ access ∈ accesses, access.2.Scoped free)
    (h : partitionState target pointCount integrand partition accesses = .ok state) :
    (∀ access ∈ state.accesses, access.2.Scoped free) ∧
      (∀ s ∈ state.definitions, s.Scoped free) ∧ ∀ s ∈ state.assignments, s.Scoped free := by
  obtain ⟨hreads, hassigned⟩ := reads_partitionState h haccesses
    (fun id t p hnode hp => scoped_of_node hmatch hpoint hnode hp) fun k => nofun
  refine ⟨hreads, fun s hs => ?_, fun s hs => ?_⟩
  · obtain ⟨id, t, name, hnode, hname, rfl | ⟨past, value, rfl, hvalue⟩⟩ := mem_definitions h s hs
    · exact .declare name Expr.reads_float
    · refine .forRange (by decide) 0 past (List.forall_mem_singleton.2 (.assignAdd ?_ ?_))
      · refine Expr.reads_symbol.2 fun other hother hcounter => ?_
        cases hother
        exact absurd hcounter (ModifiedTerminal.not_isCounter_of_expansionName hname)
      · refine hvalue.mono ?_
        rintro p (rfl | hp) other hother hcounter
        · cases hother
          exact List.mem_cons_self
        · exact List.mem_cons_of_mem _ (scoped_of_node hmatch hpoint hnode hp other hother hcounter)
  · obtain ⟨k, value, rfl, hvalue⟩ := hassigned s hs
    exact .assign (reads_slot nofun) hvalue

end

/-! ## Blocks -/

/-- The counters of the loops over axes. -/
def loopCounters (axes : List Axis) : List String :=
  (axes.filter (·.range.type ≠ .quadrature)).map fun axis => s!"ia{axis.position}"

theorem axis_ne_iq (axis : Nat) : s!"ia{axis}" ≠ "iq" := by
  intro h
  have hchars := congrArg String.toList h
  rw [String.toList_append] at hchars
  change 'i' :: 'a' :: _ = ['i', 'q'] at hchars
  cases hchars

theorem scoped_nest (axes : List Axis) {update : Stmt}
    (h : update.Scoped (loopCounters axes ++ free)) :
    (nest pointCount axes update).Scoped free := by
  induction axes generalizing free with
  | nil => exact h
  | cons axis rest ih =>
      show (axis.loop pointCount (nest pointCount rest update)).Scoped free
      unfold Axis.loop
      split
      next htype => exact ih (by simpa [loopCounters, htype] using h)
      next htype =>
        rw [Axis.index, if_neg htype]
        refine .forRange (axis_ne_iq axis.position) _ _ (List.forall_mem_singleton.2 (ih ?_))
        refine h.mono fun name hname => ?_
        simp only [loopCounters, List.filter_cons, htype, ne_eq, not_false_eq_true, decide_true,
          if_true, List.map_cons, List.mem_append, List.mem_cons] at hname ⊢
        tauto

section

variable {accesses : Accesses} {entry : BlockEntry} {contribution : BlockContribution}
  (hmatch : integrand.CountersMatch pointCount) (hpoint : PointIn free partition pointCount)
  (hentry : entry ∈ integrand.contributions.get partition) (hcontribution : contribution ∈ entry.2)

include hmatch hpoint hentry hcontribution

theorem scoped_index {axis : Axis} (haxis : axis ∈ axes entry.1 contribution) :
    (axis.index pointCount).Scoped (loopCounters (axes entry.1 contribution) ++ free) := by
  unfold Axis.index
  split
  next htype =>
    refine Target.reads_pointIndex fun hcount name hname _ => ?_
    cases hname
    cases partition with
    | piecewise =>
        obtain ⟨hquadrature, -⟩ := hmatch.blocks hcount entry hentry _ hcontribution axis haxis
        exact absurd htype hquadrature
    | varying => exact List.mem_append_right _ (hpoint rfl hcount)
  next htype =>
    refine Expr.reads_symbol.2 fun name hname _ => ?_
    cases hname
    refine List.mem_append_left _ (List.mem_map.2 ⟨axis, List.mem_filter.2 ⟨haxis, ?_⟩, rfl⟩)
    simpa using htype

/-- The table of an axis is read with counters of the loops around the contribution. -/
theorem scoped_of_axis {axis : Axis} (haxis : axis ∈ axes entry.1 contribution)
    {t : ModifiedTerminal} (hquadrature : axis.range.type ≠ .quadrature)
    (hones : axis.range.type ≠ .ones) (ht : integrand.arguments[axis.argument]? = some t) {p : Expr}
    (hp : t.Reading (some axis.range) pointCount p) : ∀ name, p = .symbol name → IsCounter name →
      name ∈ loopCounters (axes entry.1 contribution) ++ free := by
  refine scoped_of_reading (fun hcount hlooks => ?_) (fun number _ hterminal _ _ _ _ => ?_) hp
  · cases partition with
    | piecewise =>
        obtain ⟨-, hconstant⟩ := hmatch.blocks hcount entry hentry _ hcontribution axis haxis
        exact absurd hlooks (hconstant hones t ht)
    | varying => exact List.mem_append_right _ (hpoint rfl hcount)
  · obtain ⟨other, hother, rfl, htype⟩ := hmatch.axes partition entry hentry contribution
      hcontribution axis haxis hquadrature hones t number ht hterminal
    refine List.mem_append_left _ (List.mem_map.2 ⟨other, List.mem_filter.2 ⟨hother, ?_⟩, rfl⟩)
    simpa using htype

/-- A contribution only uses counters that are free where it stands. -/
theorem scoped_contributionCode {code : Stmt}
    (haccesses : ∀ access ∈ accesses, access.2.Scoped free)
    (h : contributionCode target integral pointCount integrand accesses entry.1 contribution =
      .ok code) : code.Scoped free := by
  obtain ⟨position, factors, rfl, hposition, hfactors⟩ := reads_contributionCode h
    (fun access hmem => (haccesses access hmem).mono fun p hp name hname hcounter =>
      List.mem_append_right _ (hp name hname hcounter))
    (fun axis haxis => scoped_index hmatch hpoint hentry hcontribution haxis)
    (fun axis haxis t hquadrature hones ht p hp =>
      scoped_of_axis hmatch hpoint hentry hcontribution haxis hquadrature hones ht hp)
  refine scoped_nest _ (.assignAdd ?_ ?_)
  · exact Expr.reads_access.2 ⟨nofun, List.forall_mem_singleton.2 hposition⟩
  · split
    · exact Expr.reads_float
    · exact Expr.reads_product.2 hfactors

end

/-! ## Integrands -/

namespace CodeParts

variable (parts : CodeParts target integral pointCount integrand)
  (hmatch : integrand.CountersMatch pointCount)

include hmatch

theorem scoped_accesses (partition : Partition) (hpoint : PointIn free partition pointCount) :
    (∀ access ∈ (parts.state partition).accesses, access.2.Scoped free) ∧
      (∀ s ∈ (parts.state partition).definitions, s.Scoped free) ∧
        ∀ s ∈ (parts.state partition).assignments, s.Scoped free := by
  have hahead : PointIn free .piecewise pointCount := nofun
  have hpiecewise :=
    scoped_partitionState hmatch hahead (List.forall_mem_nil _) parts.piecewise_eq
  cases partition with
  | piecewise => exact hpiecewise
  | varying => exact scoped_partitionState hmatch hpoint hpiecewise.1 parts.varying_eq

theorem scoped_statements {partition : Partition} (hpoint : PointIn free partition pointCount) :
    ∀ s ∈ parts.statements options partition, s.Scoped free := by
  obtain ⟨-, hdefinitions, hassignments⟩ := scoped_accesses parts hmatch partition hpoint
  intro s hs
  obtain rfl | hs | rfl | hs := mem_statements hs
  · exact .comment _
  · exact hdefinitions s hs
  · exact .array _
  · exact hassignments s hs

theorem scoped_updates {partition : Partition} (hpoint : PointIn free partition pointCount) :
    ∀ s ∈ parts.updates partition, s.Scoped free := by
  obtain ⟨haccesses, -, -⟩ := scoped_accesses parts hmatch partition hpoint
  intro s hs
  obtain ⟨entry, hentry, contribution, hcontribution, hs⟩ :=
    mem_blockCode (parts.updates_eq partition) hs
  exact scoped_contributionCode hmatch hpoint hentry hcontribution haccesses hs

/-- No counter is free in front of the quadrature loop. -/
theorem scoped_ahead : ∀ s ∈ parts.ahead options, s.Scoped [] :=
  List.forall_mem_append.2 ⟨scoped_statements parts hmatch nofun, scoped_updates parts hmatch nofun⟩

theorem scoped_loopBody (hpoint : PointIn free .varying pointCount) :
    ∀ s ∈ parts.loopBody options, s.Scoped free := by
  refine List.forall_mem_append.2 ⟨fun s hs => ?_, scoped_updates parts hmatch hpoint⟩
  obtain ⟨text, -, rfl⟩ | hs := Stmt.mem_commented hs
  · exact .comment text
  · exact scoped_statements parts hmatch hpoint s hs

theorem countersInScope_code : ∀ s ∈ parts.code options, s.CountersInScope := by
  refine List.forall_mem_append.2 ⟨fun s hs => (scoped_ahead parts hmatch s hs).countersInScope, ?_⟩
  unfold quadratureLoop
  split
  · nofun
  · split
    next hone =>
      have hbody : ∀ s ∈ parts.loopBody options, s.Scoped [] :=
        scoped_loopBody parts hmatch fun _ hcount => absurd hone hcount
      refine List.forall_mem_cons.2 ⟨(Stmt.Scoped.comment _).countersInScope, ?_⟩
      exact List.forall_mem_singleton.2 (Stmt.Scoped.scope hbody).countersInScope
    next hcount =>
      have hbody : ∀ s ∈ parts.loopBody options, s.Scoped ["iq"] :=
        scoped_loopBody parts hmatch fun _ _ => List.mem_singleton_self _
      rw [pointIndex, if_neg hcount]
      exact List.forall_mem_singleton.2 (Stmt.Scoped.countersInScope_forRange _ _ hbody)

end CodeParts

theorem scoped_tables {rules reset : List Stmt}
    (hrules : quadratureTables options integral = .ok rules)
    (hreset : tensorReset integral = .ok reset) :
    ∀ s ∈ rules ++ elementTables options integral ++ reset, s.Scoped [] := by
  have hentry : (Expr.entry tensor (.int 0)).Scoped [] :=
    Expr.reads_access.2 ⟨nofun, List.forall_mem_singleton.2 Expr.reads_int⟩
  refine List.forall_mem_append.2 ⟨forall_mem_tables hrules .comment .array,
    forall_mem_tensorReset hreset .comment (.assign hentry Expr.reads_float) fun size => ?_⟩
  refine Stmt.Scoped.leaf (List.forall_mem_singleton.2 ?_) fun _ => Stmt.everywhere_zeroFill
  refine Expr.reads_symbol.2 fun name hname hcounter => ?_
  cases hname
  exact absurd hcounter (not_isCounter (c := 'A') rfl (by decide))

end Kernel

namespace Integral

variable {integral : Integral} {target : Target} {options : KernelOptions}
  {kernel : GeneratedKernel}

/-- Every loop counter in a kernel is in scope.  In particular nothing in front of the quadrature
loop uses the counter of the points. -/
theorem generate_countersInScope (h : integral.generate target options = .ok kernel)
    (hmatch : ∀ entry ∈ integral.integrands.entries, entry.2.CountersMatch entry.1) :
    kernel.body.CountersInScope ∧
      ∀ entry ∈ integral.integrands.entries, ∀ parts : CodeParts target integral entry.1 entry.2,
        ∀ s ∈ parts.ahead options, s.Everywhere fun _ t => ∀ e ∈ t.expressions,
          e.Reads (· ≠ .symbol "iq") := by
  constructor
  · refine everywhere_body h nofun ?_ ?_
    · exact fun rules reset hrules hreset s hs =>
        (scoped_tables hrules hreset s hs).countersInScope
    · exact fun entry hentry parts =>
        ⟨nofun, parts.countersInScope_code (hmatch entry hentry)⟩
  · intro entry hentry parts s hs
    refine Stmt.Everywhere.mono (parts.scoped_ahead (hmatch entry hentry) s hs) ?_
    rintro loops t ht e he p hp hreading rfl
    obtain hfree | ⟨hne, -⟩ := ht e he _ hp hreading "iq" rfl (.inl rfl)
    · cases hfree
    · exact hne rfl

theorem clipped_countersMatch : clipped.CountersMatch 2 where
  arguments partition id t number h hterminal := by
    obtain ⟨-, -, rfl⟩ | ⟨-, ⟨-, rfl⟩ | ⟨-, rfl⟩⟩ := mem_clipped_terminals h <;> cases hterminal
  nodes _ id t h := by
    obtain ⟨⟨⟩, -⟩ | ⟨-, ⟨rfl, rfl⟩ | ⟨rfl, rfl⟩⟩ := mem_clipped_terminals h
    · rintro ⟨-, hvarying | ⟨hones, -⟩⟩
      · cases hvarying
      · cases hones
    · exact fun hweight => nomatch hweight
  blocks _ entry hentry contribution hcontribution axis haxis := by
    obtain rfl := List.mem_singleton.1 hentry
    obtain rfl := List.mem_singleton.1 hcontribution
    obtain rfl : axis = ⟨0, (2, 4), shiftedRange, 0⟩ := List.mem_singleton.1 haxis
    refine ⟨nofun, fun _ t ht => ?_⟩
    cases ht
    exact fun hlooks => nomatch hlooks.2.1
  axes partition entry hentry contribution hcontribution axis haxis hquadrature hones t number ht
      hterminal := by
    -- Every axis here is the first one, and so is the only argument.
    have hown : axis.position = 0 ∧ axis.argument = 0 := by
      cases partition with
      | piecewise =>
          obtain rfl := List.mem_singleton.1 hentry
          obtain rfl := List.mem_singleton.1 hcontribution
          obtain rfl := List.mem_singleton.1 haxis
          exact ⟨rfl, rfl⟩
      | varying =>
          obtain rfl := List.mem_singleton.1 hentry
          obtain rfl | rfl := List.mem_pair.1 hcontribution
          · obtain rfl := List.mem_singleton.1 haxis
            exact ⟨rfl, rfl⟩
          · obtain rfl := List.mem_singleton.1 haxis
            exact ⟨rfl, rfl⟩
    rw [hown.2] at ht
    cases ht
    cases hterminal
    exact ⟨axis, haxis, hown.1, hquadrature⟩

theorem generate_countersInScope_clipped : ∃ kernel,
    clippedIntegral.generate cellTarget {} = .ok kernel ∧ kernel.body.CountersInScope := by
  refine ⟨clippedKernel, generate_clipped, (generate_countersInScope generate_clipped ?_).1⟩
  intro entry hentry
  obtain rfl := List.mem_singleton.1 hentry
  exact clipped_countersMatch

/-- A weight that is marked as constant over the points. -/
def earlyWeight : Integral where
  type := .cell
  tensorShape := []
  rules := OrderedMap.ofList [(2, twoPointRule)]
  integrands := OrderedMap.ofList [(2, {
    graph := ⟨[.terminal { terminal := .quadratureWeight }]⟩
    partitions := [some .piecewise]
    tableRanges := [none]
    tables := OrderedMap.ofList []
    contributions := { piecewise := [([], [⟨[], 0, []⟩])] }
    needWeights := true })]

/-- An addition outside of all loops that looks up an entry at the counter of points. -/
def addsPointEntry : List Loop × Stmt → Bool
  | ([], .assignAdd _ (.product [.access (.symbol _) [.symbol "iq"]])) => true
  | _ => false

/-- Markers are trusted, and the weight is looked up at the point of a loop that is not there. -/
theorem not_generate_countersInScope : ¬∀ kernel,
    earlyWeight.generate cellTarget {} = .ok kernel → kernel.body.CountersInScope := by
  have hfound : ((earlyWeight.generate cellTarget {}).toOption.any fun kernel =>
      kernel.body.placed.any addsPointEntry) = true := by
    decide +kernel
  obtain ⟨kernel, hkernel, hfound⟩ := exists_eq_ok_of_any hfound
  obtain ⟨place, hplace, hmatch⟩ := List.any_eq_true.1 hfound
  intro hscope
  unfold addsPointEntry at hmatch
  split at hmatch
  next target array =>
    have hreads := hscope kernel hkernel _ hplace _ (List.mem_cons_of_mem _ List.mem_cons_self)
    obtain ⟨loop, hloop, -⟩ := hreads (.symbol "iq")
      (.operand List.mem_cons_self (.operand List.mem_cons_self .self)) trivial "iq" rfl (.inl rfl)
    cases hloop
  next => cases hmatch

end Integral

end ElementKernel
