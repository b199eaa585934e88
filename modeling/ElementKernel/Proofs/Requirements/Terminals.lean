import ElementKernel.Proofs.Requirements.Rendering
import ElementKernel.Proofs.Scoping.Slots

/-!
# Words of terminals

The names that a kernel makes up are told from foreign ones by their letters.  So a foreign name
gets into the code of a terminal with the name of its table or with a literal that is not finite.
-/

namespace ElementKernel

open Kernel

/-- The numbers that a terminal is written as. -/
def Terminal.literals : Terminal → List Float
  | .float value => [value]
  | _ => []

variable {name : String} (hname : name ∈ foreignNames) {target : Target} {pointCount : Nat}

include hname

/-! ## Names -/

theorem lacks_plain {text : String} (h : IsPlain text) : Lacks name text := h name hname

theorem lacks_numbered (letters : String) (n : Nat)
    (h : foreignNames.all (fun foreign =>
      !foreign.toList.all fun c => c.isDigit || c ∈ letters.toList) = true) :
    Lacks name (letters ++ toString n) := by
  refine lacks_of_chars hname (fun c => c.isDigit || c ∈ letters.toList) h ?_
  rw [String.toList_append]
  refine List.forall_mem_append.2 ⟨fun c hc => by simp [hc], fun c hc => ?_⟩
  simp [isDigit_of_mem_repr hc]

theorem lacks_variableName (t : ModifiedTerminal) {base : String}
    (hbase : ∀ c ∈ base.toList, c.isDigit || c ∈ ['w', 'x', 'J', '_', 'c', 'd', 'r']) :
    Lacks name (t.variableName base) := by
  refine lacks_of_chars hname (fun c => c.isDigit || c ∈ ['w', 'x', 'J', '_', 'c', 'd', 'r'])
    (by decide) ?_
  have hnumber : ∀ n : Nat, ∀ c ∈ (toString n).toList,
      c.isDigit || c ∈ ['w', 'x', 'J', '_', 'c', 'd', 'r'] :=
    fun n c hc => by simp [isDigit_of_mem_repr hc]
  unfold ModifiedTerminal.variableName
  dsimp only
  rw [String.toList_append, String.toList_append]
  refine List.forall_mem_append.2 ⟨List.forall_mem_append.2 ⟨?_, ?_⟩, ?_⟩
  · show ∀ c ∈ (base ++ "_c" ++ toString t.component).toList, _
    rw [String.toList_append, String.toList_append]
    exact List.forall_mem_append.2
      ⟨List.forall_mem_append.2 ⟨hbase, by simp⟩, hnumber t.component⟩
  · split
    · rw [String.toList_append, String.toList_join]
      refine List.forall_mem_append.2 ⟨by simp, List.forall_mem_flatMap.2 ?_⟩
      exact List.forall_mem_map.2 fun n _ => hnumber n
    · simp
  · cases t.restriction with
    | none => simp
    | some side =>
        show ∀ c ∈ ("_r" ++ toString side.side).toList, _
        rw [String.toList_append]
        exact List.forall_mem_append.2 ⟨by simp, hnumber side.side⟩

theorem lacks_slotsName (partition : Partition) (n : Nat) :
    Lacks name (slotsName partition n) := by
  cases partition with
  | piecewise => exact lacks_numbered hname "sp" n (by decide)
  | varying => exact lacks_numbered hname "sv" n (by decide)

namespace Target

open Renderer

variable {t : ModifiedTerminal} {range? : Option TableRange} {e : Expr}

theorem lacks_pointIndex : Lacks name (target.renderer.expr (pointIndex pointCount)) := by
  unfold pointIndex
  split
  · exact lacks_expr_int hname 0
  · exact lacks_symbol (lacks_plain hname (by decide))

theorem lacks_axisIndex (axis : Nat) : Lacks name (target.renderer.expr (axisIndex axis)) :=
  lacks_symbol (lacks_numbered hname "ia" axis (by decide))

theorem lacks_entity (restriction : Option Restriction) :
    Lacks name (target.renderer.expr (target.entity restriction)) := by
  unfold entity
  split
  · exact lacks_symbol (lacks_plain hname (by decide))
  · exact lacks_symbol (lacks_numbered hname "facet_" _ (by decide))
  · exact lacks_symbol (lacks_plain hname (by decide))
  · exact lacks_expr_int hname 0

theorem lacks_tableValue {range : TableRange} (restriction : Option Restriction) {dof : Expr}
    (htable : Lacks name range.table) (hdof : Lacks name (target.renderer.expr dof)) :
    Lacks name
      (target.renderer.expr (target.tableValue range restriction pointCount dof)) := by
  unfold tableValue
  refine lacks_access hname (lacks_symbol htable) ?_
  simp only [List.forall_mem_cons]
  refine ⟨?_, ?_, hdof, nofun⟩
  · split
    · exact lacks_expr_int hname 0
    · exact lacks_expr_int hname 0
    · exact lacks_entity hname restriction
  · split
    · exact lacks_expr_int hname 0
    · exact lacks_expr_int hname 0
    · exact lacks_pointIndex hname

theorem lacks_entry {array index : Expr} (harray : Lacks name (target.renderer.expr array))
    (hindex : Lacks name (target.renderer.expr index)) :
    Lacks name (target.renderer.expr (.entry array index)) :=
  lacks_access hname harray (List.forall_mem_singleton.2 hindex)

theorem lacks_coordinate {vertex : Expr} (hvertex : Lacks name (target.renderer.expr vertex))
    (component : Nat) : Lacks name (target.renderer.expr (target.coordinate vertex component)) :=
  lacks_entry hname (lacks_symbol (lacks_plain hname (by decide)))
    (lacks_add hname (lacks_mul hname (lacks_expr_int hname _) hvertex) (lacks_expr_int hname _))

theorem lacks_coefficientValue (number : Nat) {dof : Expr}
    (hdof : Lacks name (target.renderer.expr dof)) :
    Lacks name (target.renderer.expr (coefficientValue number dof)) :=
  lacks_entry hname (lacks_entry hname (lacks_symbol (lacks_plain hname (by decide)))
    (lacks_expr_int hname _)) hdof

theorem lacks_coefficientAccess {number : Nat}
    (h : coefficientAccess t number range? pointCount = .ok e) :
    Lacks name (target.renderer.expr e) := by
  cases range? with
  | none =>
      cases h
      exact lacks_coefficientValue hname number (lacks_expr_int hname _)
  | some range =>
      obtain ⟨-, rfl⟩ | ⟨-, -, rfl⟩ | ⟨-, -, rfl⟩ := coefficientAccess_cases h
      · exact lacks_coefficientValue hname number
          (lacks_add hname (lacks_pointIndex hname) (lacks_expr_int hname _))
      · exact lacks_coefficientValue hname number (lacks_expr_int hname _)
      · refine lacks_symbol (lacks_variableName hname t ?_)
        show ∀ c ∈ ("w" ++ toString number).toList, _
        rw [String.toList_append]
        refine List.forall_mem_append.2 ⟨by simp, fun c hc => ?_⟩
        simp [isDigit_of_mem_repr hc]

theorem lacks_cellSymbol {symbol : String} (h : symbol ∈ ["n", "volume"])
    (restriction : Option Restriction) :
    Lacks name (target.renderer.expr (target.cellSymbol symbol restriction)) := by
  unfold cellSymbol
  obtain rfl | rfl := List.mem_pair.1 h
  · split
    · exact lacks_symbol (lacks_numbered hname "n_" _ (by decide))
    · exact lacks_symbol (lacks_plain hname (by decide))
  · split
    · exact lacks_symbol (lacks_numbered hname "volume_" _ (by decide))
    · exact lacks_symbol (lacks_plain hname (by decide))

theorem lacks_small {x : Float} (hx : x = 0 ∨ x = 1) :
    Lacks name (target.renderer.expr (.float x)) := by
  refine lacks_expr_float hname fun _ => ?_
  obtain rfl | rfl := hx
  · decide +kernel
  · decide +kernel

/-- A terminal is read by the names of its table and its inputs, or as a literal. -/
theorem lacks_terminal (h : target.access t range? pointCount = .ok e)
    (htables : ∀ range ∈ range?, Lacks name range.table)
    (hliterals : name ∈ floatMacros → target.dialect = .c ∧
      ∀ x ∈ t.terminal.literals, ¬x.isNaN ∧ ¬x.isInf) :
    Lacks name (target.renderer.expr e) := by
  unfold access at h
  split at h
  · cases h
    exact lacks_small hname (.inl rfl)
  · split at h
    next number _ =>
      split at h
      next e' he =>
        cases h
        cases range? with
        | none => cases he
        | some range =>
            unfold argumentAccess at he
            dsimp only at he
            split at he
            · cases he
              exact lacks_small hname (.inr rfl)
            · cases he
              exact lacks_tableValue hname _ (htables range rfl)
                (lacks_sub hname (lacks_axisIndex hname number) (lacks_expr_int hname _))
      next => cases h
    next => exact lacks_coefficientAccess hname (liftM_eq_ok.1 h)
    next =>
      split at h
      · cases h
        exact lacks_symbol (lacks_variableName hname t (by simp))
      · cases h
        exact lacks_coordinate hname (lacks_symbol (lacks_plain hname (by decide))) _
      · cases h
    next =>
      split at h
      · cases h
        exact lacks_symbol (lacks_variableName hname t (by simp))
      · cases h
    next =>
      split at h
      · cases h
        exact lacks_entry hname (lacks_cellSymbol hname (by decide) _) (lacks_expr_int hname _)
      · cases h
        exact lacks_entry hname (lacks_cellSymbol hname (by decide) _) (lacks_expr_int hname _)
      · cases h
    next =>
      cases h
      exact lacks_cellSymbol hname (by decide) _
    next =>
      cases h
      exact lacks_entry hname
        (lacks_symbol (lacks_numbered hname "weights" pointCount (by decide)))
        (lacks_pointIndex hname)
    next x hterminal =>
      cases h
      refine lacks_expr_float hname fun hmacro => (hliterals hmacro).2 x ?_
      simp [hterminal, Terminal.literals]
    next value _ =>
      split at h
      · cases h
        exact lacks_expr_int hname _
      next hdialect =>
        cases h
        refine lacks_expr_float hname fun hmacro => ?_
        rw [(hliterals hmacro).1] at hdialect
        cases hdialect
    next =>
      cases h
      exact lacks_small hname (.inl rfl)

/-- The statements in front of a terminal write the names of its variable and its table. -/
theorem lacks_definitions {definitions : List Stmt} (he : Lacks name (target.renderer.expr e))
    (htables : ∀ range ∈ range?, Lacks name range.table)
    (h : target.definitions t range? pointCount e = .ok definitions) :
    ∀ s ∈ definitions, target.renderer.LacksIn name s := by
  have hcounter : Lacks name (target.renderer.expr expansionIndex) :=
    lacks_symbol (lacks_plain hname (by decide))
  have hexpansion : ∀ (symbol : String) (range : TableRange) (dofs : Expr → Expr),
      Lacks name symbol → Lacks name range.table →
      (∀ dof, Lacks name (target.renderer.expr dof) →
        Lacks name (target.renderer.expr (dofs dof))) →
      target.expansion symbol t range pointCount dofs = .ok definitions →
      ∀ s ∈ definitions, target.renderer.LacksIn name s := by
    intro symbol range dofs hsymbol htable hdofs hcode
    obtain ⟨past, -, hcode⟩ := bind_eq_ok.1 hcode
    cases hcode
    refine List.forall_mem_cons.2 ⟨Stmt.everywhere_declare.2
      ⟨hsymbol, lacks_small hname (.inl rfl)⟩, List.forall_mem_singleton.2 ?_⟩
    refine Stmt.everywhere_forRange.2 ⟨hcounter, List.forall_mem_singleton.2 ?_⟩
    refine Stmt.everywhere_assignAdd.2 ⟨lacks_symbol hsymbol, lacks_product hname ?_⟩
    exact List.forall_mem_cons.2 ⟨hdofs _ (lacks_add hname hcounter (lacks_expr_int hname _)),
      List.forall_mem_singleton.2 (lacks_tableValue hname _ htable hcounter)⟩
  unfold Target.definitions at h
  split at h
  next symbol range number _ =>
    rw [expr_symbol] at he
    exact hexpansion symbol range _ he (htables range rfl)
      (fun _ hdof => lacks_coefficientValue hname number hdof) h
  next symbol range _ =>
    rw [expr_symbol] at he
    exact hexpansion symbol range _ he (htables range rfl)
      (fun _ hdof => lacks_coordinate hname hdof _) h
  next symbol range _ =>
    rw [expr_symbol] at he
    exact hexpansion symbol range _ he (htables range rfl)
      (fun _ hdof => lacks_coordinate hname hdof _) h
  next =>
    cases h
    exact List.forall_mem_nil _

end Target

end ElementKernel
