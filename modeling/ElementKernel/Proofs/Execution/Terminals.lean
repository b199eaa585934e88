import ElementKernel.Proofs.Execution.Inputs
import ElementKernel.Proofs.NodeAcceptance

/-!
# Reading terminals

A terminal is either read in place or summed up in a variable of its own beforehand.  In both cases
the expression that reads it has the value of the terminal.
-/

namespace ElementKernel

open Execution

/-! ## Definitions -/

namespace Target

variable {target : Target} {t : ModifiedTerminal} {range? : Option TableRange} {pointCount : Nat}
  {e : Expr}

/-- What the entries of a table are weighed with when a terminal is summed up over it. -/
inductive Weighs (target : Target) (t : ModifiedTerminal) (range : TableRange) :
    (Expr → Expr) → Prop
  | coefficient {number : Nat} : t.terminal = .coefficient number → range.type ≠ .quadrature →
      Weighs target t range (coefficientValue number)
  | spatialCoordinate : t.terminal = .spatialCoordinate →
      Weighs target t range (target.coordinate · t.component)
  | jacobian : t.terminal = .jacobian → Weighs target t range
      (target.coordinate · (t.component / max target.options.topologicalDimension 1))

/-- A terminal is read from a variable that it is summed up in. -/
structure Expands (target : Target) (t : ModifiedTerminal) (range? : Option TableRange)
    (pointCount : Nat) (e : Expr) (name : String) (range : TableRange) (dofs : Expr → Expr) :
    Prop where
  table : range? = some range
  nonzero : range.type ≠ .zeros
  named : t.expansionName? range? = some name
  access : e = .symbol name
  weighs : target.Weighs t range dofs
  definitions : target.definitions t range? pointCount e =
    target.expansion name t range pointCount dofs

/-- A terminal is read in place and needs no definitions, or it is summed up. -/
theorem definitions_cases (haccess : target.access t range? pointCount = .ok e) :
    (t.expansionName? range? = none ∧ target.definitions t range? pointCount e = .ok []) ∨
      ∃ name range dofs, target.Expands t range? pointCount e name range dofs := by
  obtain _ | range := range?
  · refine Or.inl ⟨?_, ?_⟩
    · cases hterminal : t.terminal <;> simp [ModifiedTerminal.expansionName?, hterminal]
    · cases e <;> rfl
  by_cases hzeros : range.type = .zeros
  · obtain rfl := Except.ok.inj ((access_of_zeros hzeros).symm.trans haccess)
    refine Or.inl ⟨?_, rfl⟩
    cases hterminal : t.terminal <;> simp [ModifiedTerminal.expansionName?, hterminal, hzeros]
  have hcases := access_cases haccess hzeros
  cases hterminal : t.terminal with
  | coefficient number =>
      rw [hterminal] at hcases
      obtain ⟨htype, rfl⟩ | ⟨htype, hone, rfl⟩ | ⟨hquadrature, hone, rfl⟩ :=
        coefficientAccess_cases hcases
      · exact Or.inl ⟨by simp [ModifiedTerminal.expansionName?, hterminal, htype], rfl⟩
      · exact Or.inl ⟨by simp [ModifiedTerminal.expansionName?, hterminal, htype, hone], rfl⟩
      · refine Or.inr ⟨_, range, _, rfl, hzeros, ?_, rfl, .coefficient hterminal hquadrature, ?_⟩
        · simp [ModifiedTerminal.expansionName?, hterminal, hzeros, hquadrature, hone]
        · simp only [definitions, hterminal]
  | spatialCoordinate =>
      rw [hterminal] at hcases
      obtain rfl := hcases
      refine Or.inr ⟨_, range, _, rfl, hzeros, ?_, rfl, .spatialCoordinate hterminal, ?_⟩
      · simp [ModifiedTerminal.expansionName?, hterminal, hzeros]
      · simp only [definitions, hterminal]
  | jacobian =>
      rw [hterminal] at hcases
      obtain rfl := hcases
      refine Or.inr ⟨_, range, _, rfl, hzeros, ?_, rfl, .jacobian hterminal, ?_⟩
      · simp [ModifiedTerminal.expansionName?, hterminal, hzeros]
      · simp only [definitions, hterminal]
  | _ =>
      refine Or.inl ⟨by simp [ModifiedTerminal.expansionName?, hterminal], ?_⟩
      cases e <;> simp [definitions, hterminal]

end Target

namespace Setting

variable {K : Type} [Field K] {S : Setting K} {L L' : Locals K} {t : ModifiedTerminal}
  {range? : Option TableRange} {point : Nat} {e : Expr} {definitions : List Stmt}

theorem AtPoint.extend (h : S.AtPoint L point) (hextends : L.Extends L') : S.AtPoint L' point := by
  unfold AtPoint Kernel.pointIndex at *
  by_cases hone : S.pointCount = 1
  · simpa [hone] using h
  · rw [if_neg hone] at h ⊢
    exact hextends.index_symbol h

/-! ## Terminals that are read in place -/

/-- What a terminal needs to be read at a point, apart from its inputs. -/
structure ReadableAt (S : Setting K) (L : Locals K) (point : Nat) (t : ModifiedTerminal)
    (range? : Option TableRange) : Prop where
  noArgument : ∀ number, t.terminal ≠ .argument number
  weight : t.terminal = .quadratureWeight → point < S.pointCount ∧ S.AtPoint L point
  quadrature : ∀ range, range? = some range → range.type = .quadrature → S.AtPoint L point
  covers : ∀ range, range? = some range → (t.expansionName? (some range)).isSome →
    S.Covers range t.restriction point
  looksUp : ∀ range, range? = some range → (t.expansionName? (some range)).isSome →
    range.first < range.past → range.type ≠ .piecewise → range.type ≠ .fixed → S.AtPoint L point

theorem ReadableAt.extend (h : S.ReadableAt L point t range?) (hextends : L.Extends L') :
    S.ReadableAt L' point t range? where
  noArgument := h.noArgument
  weight hweight := ⟨(h.weight hweight).1, (h.weight hweight).2.extend hextends⟩
  quadrature range hrange htype := (h.quadrature range hrange htype).extend hextends
  covers := h.covers
  looksUp range hrange hname hlt hpiecewise hfixed :=
    (h.looksUp range hrange hname hlt hpiecewise hfixed).extend hextends

theorem definitions_of_expansionName_none (haccess : S.target.access t range? S.pointCount = .ok e)
    (hname : t.expansionName? range? = none)
    (h : S.target.definitions t range? S.pointCount e = .ok definitions) : definitions = [] := by
  obtain ⟨-, hempty⟩ | ⟨name, range, dofs, hexpands⟩ := Target.definitions_cases haccess
  · exact (Except.ok.inj (hempty.symm.trans h)).symm
  · cases hname.symm.trans hexpands.named

theorem value_coefficient_terminal (h : S.Provides L) {number : Nat}
    (hterminal : t.terminal = .coefficient number)
    (haccess : Target.coefficientAccess t number range? S.pointCount = .ok e)
    (hname : t.expansionName? range? = none) (hzeros : ¬range?.any (·.type = .zeros))
    (hquadrature : ∀ range, range? = some range → range.type = .quadrature → S.AtPoint L point) :
    value S.data.toInterpretation L e = some (S.terminalValue t range? point) := by
  simp only [terminalValue, if_neg hzeros, hterminal]
  cases range? with
  | none =>
      cases haccess
      exact h.value_coefficient number (index_signed t.component)
  | some range =>
      have hzeros : range.type ≠ .zeros := by simpa using hzeros
      obtain ⟨htype, rfl⟩ | ⟨htype, hone, rfl⟩ | ⟨htype, hone, -⟩ :=
        Target.coefficientAccess_cases haccess
      · have hindex := index_add (hquadrature range rfl htype) (index_signed (L := L) range.first)
        rw [h.value_coefficient number hindex, ← word_add, Nat.add_comm point]
        simp [htype]
      · rw [h.value_coefficient number (index_signed range.first)]
        simp [htype, expanded, hone, tableEntry]
      · simp [ModifiedTerminal.expansionName?, hterminal, hzeros, htype, hone] at hname

theorem value_vertex_coordinate (h : S.Provides L) (htype : S.target.integralType = .vertex)
    (component : Nat) :
    value S.data.toInterpretation L (S.target.coordinate (.symbol "vertex") component) =
      some (S.data.coordinate (S.coordinateIndex S.data.vertex component)) := by
  have hentity := h.index_entity none
  rw [Target.entity, KernelData.entity, htype] at hentity
  exact h.value_coordinate component hentity

/-- A terminal that is read in place has its value wherever its inputs are visible. -/
theorem value_access_terminal (h : S.Provides L)
    (haccess : S.target.access t range? S.pointCount = .ok e)
    (hname : t.expansionName? range? = none) (hreadable : S.ReadableAt L point t range?) :
    value S.data.toInterpretation L e = some (S.terminalValue t range? point) := by
  unfold Target.access at haccess
  by_cases hzeros : range?.any (·.type = .zeros)
  · rw [if_pos hzeros] at haccess
    cases haccess
    unfold terminalValue
    rw [if_pos hzeros, value_float, S.data.literal_zero]
  · rw [if_neg hzeros] at haccess
    cases hterminal : t.terminal with
    | argument number => exact absurd hterminal (hreadable.noArgument number)
    | coefficient number =>
        rw [hterminal] at haccess
        exact value_coefficient_terminal h hterminal (liftM_eq_ok.1 haccess) hname hzeros
          hreadable.quadrature
    | spatialCoordinate =>
        simp only [hterminal] at haccess
        cases range? with
        | some range =>
            simp only [Option.any_some, decide_eq_true_eq] at hzeros
            simp [ModifiedTerminal.expansionName?, hterminal, hzeros] at hname
        | none =>
            simp only [terminalValue, if_neg hzeros, hterminal]
            split at haccess
            next hsome => cases hsome
            next htype =>
              cases haccess
              exact value_vertex_coordinate h htype t.component
            next => cases haccess
    | jacobian =>
        simp only [hterminal] at haccess
        cases range? with
        | some range =>
            simp only [Option.any_some, decide_eq_true_eq] at hzeros
            simp [ModifiedTerminal.expansionName?, hterminal, hzeros] at hname
        | none => cases haccess
    | facetNormal =>
        simp only [hterminal] at haccess
        simp only [terminalValue, if_neg hzeros, hterminal]
        split at haccess <;> cases haccess
        · exact h.value_normal t (Or.inl ‹_›)
        · exact h.value_normal t (Or.inr ‹_›)
    | cellVolume =>
        simp only [hterminal] at haccess
        cases haccess
        simp only [terminalValue, if_neg hzeros, hterminal]
        exact h.value_volume t.restriction
    | quadratureWeight =>
        simp only [hterminal] at haccess
        cases haccess
        obtain ⟨hpoint, hat⟩ := hreadable.weight hterminal
        simp only [terminalValue, if_neg hzeros, hterminal]
        exact h.value_weight hpoint hat
    | float x =>
        simp only [hterminal] at haccess
        cases haccess
        simp only [terminalValue, if_neg hzeros, hterminal]
        exact value_float x
    | int n =>
        simp only [hterminal] at haccess
        simp only [terminalValue, if_neg hzeros, hterminal]
        cases hdialect : S.target.dialect <;> simp only [hdialect] at haccess <;> cases haccess
        · exact value_int n.toInt
        · exact value_float (Float.ofInt n.toInt)
    | zero =>
        simp only [hterminal] at haccess
        cases haccess
        simp only [terminalValue, if_neg hzeros, hterminal]
        rw [value_float, S.data.literal_zero]

/-! ## Terminals that are summed up -/

theorem runs_expansion {name : String} {range : TableRange} {size : Nat} (h : S.Provides L)
    (hfit : S.integrand.TablesFit) (hcovers : S.Covers range t.restriction point)
    (hat : range.first < range.past → range.type ≠ .piecewise → range.type ≠ .fixed →
      S.AtPoint L point)
    (hname : L name = none) (htensor : name ≠ Kernel.tensorName) (hcounter : L "ic" = none)
    (hne : name ≠ "ic") {dofs : Expr → Expr} {f : Index → K}
    (hdofs : ∀ M, L.Extends M → ∀ dof i, index M dof = some i →
      value S.data.toInterpretation M (dofs dof) = some (f i))
    (hcode : S.target.expansion name t range S.pointCount dofs = .ok definitions) :
    Runs S.data.toInterpretation size L definitions
      (L.set name (.scalar (S.expanded t range point f))) 0 := by
  obtain ⟨count, hcount, hcode⟩ := bind_eq_ok.1 hcode
  obtain ⟨-, rfl⟩ := Target.length_eq_ok hcount
  cases hcode
  have hdeclare := Runs.declare (D := S.data.toInterpretation) size hname htensor
    (value_float (D := S.data.toInterpretation) (L := L) 0)
  rw [S.data.literal_zero] at hdeclare
  refine hdeclare.cons_zero ?_
  -- The variable holds the partial sums.
  have hloop := Runs.loopFrom (D := S.data.toInterpretation) size "ic"
    [.assignAdd (.symbol name) (.product [dofs (.add Target.expansionIndex
      (.int (Word.signed range.first))), S.target.tableValue range t.restriction S.pointCount
        Target.expansionIndex])]
    0 (range.past - range.first) (δ := fun _ => 0)
    (L := fun k => L.set name (.scalar (∑ dof ∈ Finset.range k,
      f (word (range.first + dof)) * S.tableEntry range t.restriction point dof)))
    (by decide) ?_
  · rw [Finset.sum_const_zero, Nat.zero_add, Finset.sum_range_zero] at hloop
    exact hloop
  · intro k hk
    rw [Nat.zero_add, Finset.sum_range_succ]
    generalize (∑ dof ∈ Finset.range k,
      f (word (range.first + dof)) * S.tableEntry range t.restriction point dof) = old
    have hfree : L.set name (.scalar old) "ic" = none := by
      rw [Locals.set_of_ne hne.symm, hcounter]
    have hextends := (Locals.extends_set hname (.scalar old)).trans
      (Locals.extends_set hfree (.number (word k)))
    have hindex : index ((L.set name (.scalar old)).set "ic" (.number (word k)))
        Target.expansionIndex = some (word k) := index_symbol Locals.set_same
    have hdof := index_add hindex (index_signed range.first)
    rw [← word_add, Nat.add_comm k] at hdof
    have hentry := (h.extend hextends).value_tableValue hfit hcovers hk hindex
      fun hpiecewise hfixed => (hat (by omega) hpiecewise hfixed).extend hextends
    have hold : (L.set name (.scalar old)).set "ic" (.number (word k)) name =
        some (.scalar old) := by
      rw [Locals.set_of_ne hne, Locals.set_same]
    refine ⟨hfree, _, Runs.addScalar hold (value_product (values_cons (hdofs _ hextends _ _ hdof)
      (values_cons hentry values_nil))), ?_⟩
    rw [Locals.restrict_counter (by simp) hne hfree, Locals.set_set]
    simp

/-- A terminal with a variable is read from it and summed up in it. -/
theorem expansion_of_name (haccess : S.target.access t range? S.pointCount = .ok e) {name : String}
    (hname : t.expansionName? range? = some name)
    (hcode : S.target.definitions t range? S.pointCount e = .ok definitions) (point : Nat) :
    ∃ range dofs f, range? = some range ∧ e = .symbol name ∧
      S.target.expansion name t range S.pointCount dofs = .ok definitions ∧
      S.terminalValue t range? point = S.expanded t range point f ∧
      ∀ M, S.Provides M → ∀ dof i, index M dof = some i →
        value S.data.toInterpretation M (dofs dof) = some (f i) := by
  obtain ⟨hnone, -⟩ | ⟨name', range, dofs, hexpands⟩ := Target.definitions_cases haccess
  · cases hname.symm.trans hnone
  · obtain rfl := Option.some.inj (hname.symm.trans hexpands.named)
    obtain rfl := hexpands.table
    have hzeros := hexpands.nonzero
    rw [hexpands.definitions] at hcode
    cases hexpands.weighs with
    | @coefficient number hterminal hquadrature =>
        refine ⟨range, _, S.data.coefficient (word number), rfl, hexpands.access, hcode, ?_,
          fun M hM dof i => hM.value_coefficient number⟩
        simp [terminalValue, hterminal, hzeros, hquadrature]
    | spatialCoordinate hterminal =>
        refine ⟨range, _, _, rfl, hexpands.access, hcode, ?_,
          fun M hM dof i => hM.value_coordinate t.component⟩
        simp [terminalValue, hterminal, hzeros]
    | jacobian hterminal =>
        refine ⟨range, _, _, rfl, hexpands.access, hcode, ?_, fun M hM dof i => hM.value_coordinate
          (t.component / max S.target.options.topologicalDimension 1)⟩
        simp [terminalValue, hterminal, hzeros]

/-- The definitions of a terminal with a variable leave its value in it. -/
theorem runs_definitions (size : Nat) {name : String} (h : S.Provides L)
    (hfit : S.integrand.TablesFit)
    (haccess : S.target.access t range? S.pointCount = .ok e)
    (hname : t.expansionName? range? = some name)
    (hcode : S.target.definitions t range? S.pointCount e = .ok definitions)
    (hreadable : S.ReadableAt L point t range?)
    (hfree : L name = none) (htensor : name ≠ Kernel.tensorName) (hcounter : L "ic" = none)
    (hne : name ≠ "ic") :
    Runs S.data.toInterpretation size L definitions
      (L.set name (.scalar (S.terminalValue t range? point))) 0 := by
  obtain ⟨range, dofs, f, hsome, -, hexpansion, hvalue, hdofs⟩ :=
    expansion_of_name haccess hname hcode point
  have hexpanded : (t.expansionName? (some range)).isSome := by
    rw [← hsome, hname]
    rfl
  rw [hvalue]
  exact runs_expansion h hfit (hreadable.covers range hsome hexpanded)
    (hreadable.looksUp range hsome hexpanded) hfree htensor hcounter hne
    (fun M hM => hdofs M (h.extend hM)) hexpansion

end Setting

end ElementKernel
