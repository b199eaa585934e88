import ElementKernel.Kernel.BlockCode
import ElementKernel.Proofs.Execution.Terminals
import ElementKernel.Proofs.Scoping.Statements

/-!
# What generated expressions read

An inventory of the counters, variables and arrays that the code of a terminal refers to.  Operators
and flat indices only pass on what their operands read.
-/

namespace ElementKernel

open Kernel

/-! ## Names -/

/-- The names of loop counters. -/
def IsCounter (name : String) : Prop :=
  name = "iq" ∨ name = "ic" ∨ ∃ axis : Nat, name = s!"ia{axis}"

theorem IsCounter.head {name : String} (h : IsCounter name) : name.toList.head? = some 'i' := by
  obtain rfl | rfl | ⟨axis, rfl⟩ := h
  · rfl
  · rfl
  · rw [String.toList_append]
    rfl

theorem not_isCounter {name : String} {c : Char} (hname : name.toList.head? = some c)
    (hc : c ≠ 'i') : ¬IsCounter name :=
  fun hcounter => hc (Option.some.inj (hname.symm.trans hcounter.head))

/-- The first letters of facets, vertices, volumes and variables. -/
def Kernel.scalarLetters : List Char := ['f', 'v', 'w', 'x', 'J']

/-- The arrays that a kernel is called with, and the weights of its rule. -/
def Kernel.inputArrays (pointCount : Nat) : List String :=
  ["w", "coordinate_dofs", "n", "n_0", "n_1", weightsName pointCount]

namespace ModifiedTerminal

variable {t : ModifiedTerminal} {range? : Option TableRange} {name : String}

theorem head_variableName (t : ModifiedTerminal) {base : String} {c : Char}
    (h : base.toList.head? = some c) : (t.variableName base).toList.head? = some c := by
  obtain ⟨rest, hbase⟩ := List.head?_eq_some_iff.1 h
  simp only [variableName, String.toList_append, toString, hbase]
  rfl

/-- A variable is named after a coefficient, the coordinate or the Jacobian. -/
theorem head_expansionName (h : t.expansionName? range? = some name) :
    name.toList.head? = some 'w' ∨ name.toList.head? = some 'x' ∨
      name.toList.head? = some 'J' := by
  have hcoefficient (number : Nat) : (s!"w{number}").toList.head? = some 'w' := by
    rw [String.toList_append]
    rfl
  unfold expansionName? at h
  split at h
  next number _ _ =>
    split at h <;> cases h
    exact .inl (t.head_variableName (hcoefficient number))
  next =>
    split at h <;> cases h
    exact .inr (.inl (t.head_variableName rfl))
  next =>
    split at h <;> cases h
    exact .inr (.inr (t.head_variableName rfl))
  next => cases h

theorem not_isCounter_of_expansionName (h : t.expansionName? range? = some name) :
    ¬IsCounter name := by
  obtain hhead | hhead | hhead := head_expansionName h
  · exact not_isCounter hhead (by decide)
  · exact not_isCounter hhead (by decide)
  · exact not_isCounter hhead (by decide)

/-! ## Terminals -/

/-- Whether the code that reads the terminal looks at the current quadrature point.  It does so for
weights, for tables that vary and for tables of ones that are summed up. -/
def LooksAtPoint (t : ModifiedTerminal) : Option TableRange → Prop
  | none => t.terminal = .quadratureWeight
  | some range =>
      range.type ≠ .zeros ∧
        match t.terminal with
        | .quadratureWeight => True
        | .argument _ => range.type.isVarying ∧ range.type ≠ .quadrature
        | .coefficient _ | .spatialCoordinate | .jacobian =>
            range.type.isVarying ∨ range.type = .ones ∧ (t.expansionName? (some range)).isSome
        | _ => False

/-- What the code of a terminal refers to, apart from the counter of the loop that sums it up. -/
inductive Reading (t : ModifiedTerminal) (range? : Option TableRange) (pointCount : Nat) :
    Expr → Prop
  | point (hcount : pointCount ≠ 1) (h : t.LooksAtPoint range?) :
      Reading t range? pointCount (.symbol "iq")
  | axis {number : Nat} {range : TableRange} (h : t.terminal = .argument number)
      (hrange : range? = some range) (hzeros : range.type ≠ .zeros)
      (hquadrature : range.type ≠ .quadrature) (hones : range.type ≠ .ones) :
      Reading t range? pointCount (axisIndex number)
  | scalar {name : String} {c : Char} (hname : name.toList.head? = some c)
      (hc : c ∈ scalarLetters) : Reading t range? pointCount (.symbol name)
  | table {range : TableRange} {indices : List Expr} (hrange : range? = some range) :
      Reading t range? pointCount (.access (.symbol range.table) indices)
  | input {array : String} {indices : List Expr} (h : array ∈ inputArrays pointCount) :
      Reading t range? pointCount (.access (.symbol array) indices)
  | row {outer inner : List Expr} :
      Reading t range? pointCount (.access (.access (.symbol "w") outer) inner)

end ModifiedTerminal

open ModifiedTerminal (Reading)

namespace Target

variable {target : Target} {t : ModifiedTerminal} {range? : Option TableRange}
  {range : TableRange} {pointCount : Nat} {e : Expr}

theorem reads_pointIndex {P : Expr → Prop} (h : pointCount ≠ 1 → P (.symbol "iq")) :
    (pointIndex pointCount).Reads P := by
  unfold pointIndex
  split
  next => exact Expr.reads_int
  next hcount => exact Expr.reads_symbol.2 (h hcount)

theorem reads_entity (restriction : Option Restriction) :
    (target.entity restriction).Reads (Reading t range? pointCount) := by
  unfold entity
  split
  · exact Expr.reads_symbol.2 (.scalar (c := 'f') rfl (by decide))
  · refine Expr.reads_symbol.2 (.scalar (c := 'f') ?_ (by decide))
    rw [String.toList_append]
    rfl
  · exact Expr.reads_symbol.2 (.scalar (c := 'v') rfl (by decide))
  · exact Expr.reads_int

theorem reads_coordinate {P : Expr → Prop} {vertex : Expr} (hvertex : vertex.Reads P)
    (harray : ∀ indices, P (.access (.symbol "coordinate_dofs") indices)) (component : Nat) :
    (target.coordinate vertex component).Reads P := by
  refine Expr.reads_access.2 ⟨harray _, List.forall_mem_singleton.2 ?_⟩
  exact (Expr.reads_int.mul hvertex).add Expr.reads_int

theorem reads_coefficientValue {P : Expr → Prop} {dof : Expr} (hdof : dof.Reads P)
    (harray : ∀ indices, P (.access (.symbol "w") indices))
    (hrow : ∀ outer inner, P (.access (.access (.symbol "w") outer) inner)) (number : Nat) :
    (coefficientValue number dof).Reads P := by
  refine Expr.reads_access_access.2 ⟨hrow _ _, ?_, List.forall_mem_singleton.2 hdof⟩
  exact Expr.reads_access.2 ⟨harray _, List.forall_mem_singleton.2 Expr.reads_int⟩

theorem cellSymbol_eq (target : Target) (name : String) (restriction : Option Restriction) :
    target.cellSymbol name restriction = .symbol name ∨
      ∃ side : Restriction,
        target.cellSymbol name restriction = .symbol s!"{name}_{side.side}" := by
  unfold cellSymbol
  split
  · exact .inr ⟨_, rfl⟩
  · exact .inl rfl

/-- A table that is read at the current point varies or is a table of ones. -/
theorem reads_tableValue {P : Expr → Prop} (restriction : Option Restriction) {dof : Expr}
    (hreading : ∀ p, Reading t (some range) pointCount p → P p)
    (hpoint : range.type ≠ .piecewise → range.type ≠ .fixed → t.LooksAtPoint (some range))
    (hdof : dof.Reads P) : (target.tableValue range restriction pointCount dof).Reads P := by
  unfold tableValue
  refine Expr.reads_access.2 ⟨hreading _ (.table rfl), ?_⟩
  have hentity : (target.entity restriction).Reads P := (reads_entity restriction).mono hreading
  simp only [List.forall_mem_cons]
  refine ⟨?_, ?_, hdof, nofun⟩
  · split
    · exact Expr.reads_int
    · exact Expr.reads_int
    · exact hentity
  · split
    · exact Expr.reads_int
    · exact Expr.reads_int
    next hpiecewise hfixed =>
      exact reads_pointIndex fun hcount =>
        hreading _ (.point hcount (hpoint hpiecewise hfixed))

/-- The table of an expanded terminal is looked up at the point unless it is constant. -/
theorem looksAtPoint_of_expanded (hzeros : range.type ≠ .zeros)
    (hexpanded : (t.expansionName? (some range)).isSome) (hpiecewise : range.type ≠ .piecewise)
    (hfixed : range.type ≠ .fixed) : t.LooksAtPoint (some range) := by
  have hvarying : range.type.isVarying ∨
      range.type = .ones ∧ (t.expansionName? (some range)).isSome := by
    cases htype : range.type <;> simp_all [TableType.isVarying]
  refine ⟨hzeros, ?_⟩
  cases hterminal : t.terminal <;> simp_all [ModifiedTerminal.expansionName?]

theorem reads_coefficientAccess {number : Nat} (hterminal : t.terminal = .coefficient number)
    (hzeros : ∀ range ∈ range?, range.type ≠ .zeros)
    (h : coefficientAccess t number range? pointCount = .ok e) :
    e.Reads (Reading t range? pointCount) := by
  have hvalue : ∀ dof : Expr, dof.Reads (Reading t range? pointCount) →
      (coefficientValue number dof).Reads (Reading t range? pointCount) := fun dof hdof =>
    reads_coefficientValue hdof (fun _ => .input (by simp [inputArrays])) (fun _ _ => .row) number
  cases range? with
  | none =>
      cases h
      exact hvalue _ Expr.reads_int
  | some range =>
      obtain ⟨hquadrature, rfl⟩ | ⟨-, -, rfl⟩ | ⟨-, -, rfl⟩ := coefficientAccess_cases h
      · refine hvalue _ (Expr.Reads.add ?_ Expr.reads_int)
        refine reads_pointIndex fun hcount => .point hcount ⟨hzeros range rfl, ?_⟩
        simp [hterminal, hquadrature, TableType.isVarying]
      · exact hvalue _ Expr.reads_int
      · refine Expr.reads_symbol.2 (.scalar (c := 'w') ?_ (by decide))
        refine t.head_variableName ?_
        rw [String.toList_append]
        rfl

theorem reads_argumentAccess {number : Nat} (hterminal : t.terminal = .argument number)
    (hzeros : ∀ range ∈ range?, range.type ≠ .zeros)
    (h : target.argumentAccess t number range? pointCount = .ok e) :
    e.Reads (Reading t range? pointCount) := by
  unfold argumentAccess at h
  split at h
  · cases h
  next range =>
    split at h
    · cases h
      exact Expr.reads_float
    next hread =>
      cases h
      obtain ⟨hquadrature, hones⟩ := not_or.1 hread
      refine reads_tableValue t.restriction (fun _ h => h) (fun hpiecewise hfixed => ?_) ?_
      · refine ⟨hzeros range rfl, ?_⟩
        cases htype : range.type <;> simp_all [TableType.isVarying]
      · refine Expr.Reads.sub (Expr.reads_symbol.2 ?_) Expr.reads_int
        exact .axis hterminal rfl (hzeros range rfl) hquadrature hones

theorem reads_facetNormal (target : Target) (t : ModifiedTerminal) :
    (Expr.entry (target.cellSymbol "n" t.restriction) (.int (Word.signed t.component))).Reads
      (Reading t range? pointCount) := by
  obtain hname | ⟨side, hname⟩ := target.cellSymbol_eq "n" t.restriction
  · rw [hname]
    exact Expr.reads_access.2 ⟨.input (by simp [inputArrays]), by simp⟩
  · have hside : toString "n" ++ toString "_" ++ toString side.side ∈ ["n_0", "n_1"] := by
      cases side <;> decide
    rw [hname]
    refine Expr.reads_access.2 ⟨.input ?_, by simp⟩
    obtain h | h := List.mem_pair.1 hside
    · rw [h]
      simp [inputArrays]
    · rw [h]
      simp [inputArrays]

theorem reads_cellVolume (target : Target) (t : ModifiedTerminal) :
    (target.cellSymbol "volume" t.restriction).Reads (Reading t range? pointCount) := by
  obtain hname | ⟨side, hname⟩ := target.cellSymbol_eq "volume" t.restriction
  · rw [hname]
    exact Expr.reads_symbol.2 (.scalar (c := 'v') rfl (by decide))
  · rw [hname]
    refine Expr.reads_symbol.2 (.scalar (c := 'v') ?_ (by decide))
    cases side <;> decide

theorem reads_variable (t : ModifiedTerminal) {base : String} {c : Char}
    (hbase : base.toList.head? = some c) (hc : c ∈ scalarLetters) :
    (Expr.symbol (t.variableName base)).Reads (Reading t range? pointCount) :=
  Expr.reads_symbol.2 (.scalar (t.head_variableName hbase) hc)

/-- What the expression that reads a terminal refers to. -/
theorem reads_access (h : target.access t range? pointCount = .ok e) :
    e.Reads (Reading t range? pointCount) := by
  unfold access at h
  split at h
  · cases h
    exact Expr.reads_float
  next hzeros =>
    have hnonzero : ∀ range ∈ range?, range.type ≠ .zeros := by
      rintro range rfl
      simpa using hzeros
    split at h
    next number hterminal =>
      split at h
      next e' he =>
        cases h
        exact reads_argumentAccess hterminal hnonzero he
      next => cases h
    next hterminal => exact reads_coefficientAccess hterminal hnonzero (liftM_eq_ok.1 h)
    next =>
      split at h <;> cases h
      · exact reads_variable t rfl (by decide)
      · refine reads_coordinate ?_ (fun _ => .input (by simp [inputArrays])) t.component
        exact Expr.reads_symbol.2 (.scalar (c := 'v') rfl (by decide))
    next =>
      split at h <;> cases h
      exact reads_variable t rfl (by decide)
    next =>
      split at h <;> cases h
      · exact reads_facetNormal target t
      · exact reads_facetNormal target t
    next =>
      cases h
      exact reads_cellVolume target t
    next hterminal =>
      cases h
      refine Expr.reads_access.2 ⟨.input (by simp [inputArrays]), List.forall_mem_singleton.2 ?_⟩
      refine reads_pointIndex fun hcount => .point hcount ?_
      cases range? with
      | none => exact hterminal
      | some range => exact ⟨hnonzero range rfl, by simp [hterminal]⟩
    next =>
      cases h
      exact Expr.reads_float
    next =>
      split at h <;> cases h
      · exact Expr.reads_int
      · exact Expr.reads_float
    next =>
      cases h
      exact Expr.reads_float

/-- A terminal is defined by nothing or by a variable and a loop that sums it up. -/
theorem definitions_eq_ok {definitions : List Stmt}
    (haccess : target.access t range? pointCount = .ok e)
    (h : target.definitions t range? pointCount e = .ok definitions) :
    t.expansionName? range? = none ∧ definitions = [] ∨
      ∃ name past value, t.expansionName? range? = some name ∧
        definitions = [.declare name (.float 0),
          .forRange expansionIndex 0 past [.assignAdd (.symbol name) value]] ∧
        value.Reads fun p => p = .symbol "ic" ∨ Reading t range? pointCount p := by
  obtain ⟨hnone, hempty⟩ | ⟨name, range, dofs, hexpands⟩ := definitions_cases haccess
  · exact .inl ⟨hnone, (Except.ok.inj (hempty.symm.trans h)).symm⟩
  have hname := hexpands.named
  rw [hexpands.definitions] at h
  obtain ⟨past, -, hcode⟩ := bind_eq_ok.1 h
  cases hcode
  obtain rfl := hexpands.table
  have hcounter : expansionIndex.Reads
      (fun p => p = .symbol "ic" ∨ Reading t (some range) pointCount p) :=
    Expr.reads_symbol.2 (.inl rfl)
  have hdof := hcounter.add (Expr.reads_int (k := Word.signed range.first))
  -- The loop adds up entries of the table times what they are weighed with.
  refine .inr ⟨name, past, _, hname, rfl, Expr.reads_product.2 (List.forall_mem_cons.2
    ⟨?_, List.forall_mem_singleton.2 ?_⟩)⟩
  · cases hexpands.weighs with
    | coefficient =>
        exact reads_coefficientValue hdof (fun _ => .inr (.input (by simp [inputArrays])))
          (fun _ _ => .inr .row) _
    | spatialCoordinate =>
        exact reads_coordinate hdof (fun _ => .inr (.input (by simp [inputArrays]))) _
    | jacobian => exact reads_coordinate hdof (fun _ => .inr (.input (by simp [inputArrays]))) _
  · exact reads_tableValue t.restriction (fun _ h => .inr h)
      (looksAtPoint_of_expanded hexpands.nonzero (by simp [hname])) hcounter

end Target

/-! ## Operators -/

namespace Operator

variable {P : Expr → Prop} {op : Operator} {operands : List Expr} {e : Expr}

theorem reads_shared? (hoperands : ∀ o ∈ operands, o.Reads P) (h : op.shared? operands = some e) :
    e.Reads P := by
  unfold shared? at h
  split at h
  · cases h
    exact Expr.reads_sum.2 hoperands
  · cases h
    exact Expr.reads_product.2 hoperands
  · cases h
    exact Expr.reads_quotient.2 (by simpa using hoperands)
  · cases h
    exact Expr.reads_not.2 (by simpa using hoperands)
  · cases h
    exact Expr.reads_conditional.2 (by simpa using hoperands)
  · obtain ⟨logic, -, rfl⟩ := Option.map_eq_some_iff.1 h
    exact Expr.reads_logic.2 (by simpa using hoperands)
  · cases h

theorem reads_expression {dialect : Dialect} (hoperands : ∀ o ∈ operands, o.Reads P)
    (h : op.expression operands dialect = .ok e) : e.Reads P := by
  unfold expression at h
  split at h
  · cases h
  · split at h
    next e' hcall =>
      cases h
      unfold call? at hcall
      split at hcall
      · split at hcall
        · cases hcall
          exact Expr.reads_call.2 hoperands
        · exact reads_shared? hoperands hcall
      · split at hcall
        · cases hcall
          exact Expr.reads_method.2 (List.forall_mem_cons.1 hoperands)
        · cases hcall
          exact Expr.reads_call.2 hoperands
        · cases hcall
          exact Expr.reads_call.2 (by simpa using hoperands)
        · cases hcall
          exact Expr.reads_call.2 (by simpa using hoperands)
        · exact reads_shared? hoperands hcall
    next => cases h

end Operator

/-! ## Indices -/

namespace Kernel

variable {P : Expr → Prop} {e : Expr}

theorem reads_flattenOuter {outer : List (Expr × Nat)} {flat : Expr} {stride : Nat}
    (houter : ∀ entry ∈ outer, entry.1.Reads P) (hflat : flat.Reads P)
    (h : flattenOuter outer flat stride = .ok e) : e.Reads P := by
  induction outer generalizing flat stride with
  | nil =>
      cases h
      exact hflat
  | cons entry outer ih =>
      obtain ⟨hentry, houter⟩ := List.forall_mem_cons.1 houter
      obtain ⟨next, -, h⟩ := bind_eq_ok.1 h
      refine ih houter (Expr.reads_sum.2 ?_) h
      refine List.forall_mem_cons.2 ⟨?_, List.forall_mem_singleton.2 hflat⟩
      split
      · exact hentry
      · simpa using hentry

theorem reads_flatIndex {indices : List Expr} {shape : List Nat}
    (hindices : ∀ index ∈ indices, index.Reads P) (h : flatIndex indices shape = .ok e) :
    e.Reads P := by
  obtain ⟨-, -, h⟩ := bind_eq_ok.1 h
  have hentries : ∀ entry ∈ (indices.zip shape).reverse, entry.1.Reads P := fun entry hentry =>
    hindices _ (List.of_mem_zip (List.mem_reverse.1 hentry)).1
  split at h
  · cases h
    exact Expr.reads_int
  next hzip =>
    rw [hzip] at hentries
    obtain ⟨hlast, houter⟩ := List.forall_mem_cons.1 hentries
    exact reads_flattenOuter houter hlast h

end Kernel

end ElementKernel
