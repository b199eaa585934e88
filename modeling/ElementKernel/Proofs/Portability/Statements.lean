import ElementKernel.Proofs.Portability.Agreement

/-!
# Twins of statements

Blocks are twins statement by statement.  A statement without an expression of its own, and one that
both languages are given, is its own twin.
-/

namespace ElementKernel.Portability

open Execution

variable {K : Type} [Field K] [LinearOrder K] [FloorRing K] {D : Interpretation K}

/-- The first statement as C and the second one as Rust do the same to every state. -/
def TwinStmt (D : Interpretation K) (s s' : Stmt) : Prop :=
  ∀ size state, Agree (exec D .portable size s state) (exec D .c size s state)
    (exec D .rust size s' state)

/-- Statements that are twins one by one. -/
abbrev TwinBlock (D : Interpretation K) (block block' : List Stmt) : Prop :=
  List.Forall₂ (TwinStmt D) block block'

theorem agree_execAll {block block' : List Stmt} (h : TwinBlock D block block') (size : Nat)
    (state : State K) :
    Agree (execAll D .portable size block state) (execAll D .c size block state)
      (execAll D .rust size block' state) := by
  induction h generalizing state with
  | nil =>
      simp only [execAll_nil]
      exact Agree.refl _
  | cons hfirst _ ih =>
      simp only [execAll_cons]
      exact (hfirst size state).bind ih

theorem Agree.foldlM {α β : Type} {f g k : β → α → Outcome β}
    (h : ∀ b a, Agree (f b a) (g b a) (k b a)) (xs : List α) (b : β) :
    Agree (xs.foldlM f b) (xs.foldlM g b) (xs.foldlM k b) := by
  induction xs generalizing b with
  | nil => exact Agree.refl _
  | cons x xs ih =>
      simp only [List.foldlM_cons]
      exact (h b x).bind ih

namespace TwinStmt

theorem comment (text : String) : TwinStmt D (.comment text) (.comment text) := by
  intro size state
  simp only [exec_comment]
  exact Agree.refl _

theorem array (decl : ArrayDecl) : TwinStmt D (.array decl) (.array decl) := by
  intro size state
  simp only [exec_array]
  exact Agree.refl _

theorem zeroFill (name : String) (count : Nat) :
    TwinStmt D (.zeroFill (.symbol name) count) (.zeroFill (.symbol name) count) := by
  intro size state
  simp only [exec_zeroFill]
  exact Agree.refl _

section

variable {e e' : Expr} (h : Twin D e e')

include h

theorem declare (name : String) : TwinStmt D (.declare name e) (.declare name e') := by
  intro size state
  simp only [exec_declare]
  exact (h.agree_evalNumber _).bind fun _ => Agree.refl _

theorem assign (target : Expr) : TwinStmt D (.assign target e) (.assign target e') := by
  intro size state
  simp only [exec_assign]
  exact (h.agree_evalNumber _).bind fun _ => Agree.refl _

theorem assignAdd (target : Expr) : TwinStmt D (.assignAdd target e) (.assignAdd target e') := by
  intro size state
  simp only [exec_assignAdd]
  exact (h.agree_evalNumber _).bind fun _ => Agree.refl _

end

section

variable {body body' : List Stmt} (h : TwinBlock D body body')

include h

theorem forRange (name : String) (first past : Nat) :
    TwinStmt D (.forRange (.symbol name) first past body)
      (.forRange (.symbol name) first past body') := by
  intro size state
  simp only [exec_forRange]
  refine Agree.foldlM (fun outer k => ?_) _ _
  refine (Agree.refl _).bind fun inner => ?_
  exact (agree_execAll h size inner).bind fun _ => Agree.refl _

theorem scope : TwinStmt D (.scope body) (.scope body') := by
  intro size state
  simp only [exec_scope]
  exact (agree_execAll h size state).bind fun _ => Agree.refl _

theorem list : TwinStmt D (.list body) (.list body') := by
  intro size state
  simp only [exec_list]
  exact agree_execAll h size state

end

end TwinStmt

/-! ## Blocks -/

namespace TwinBlock

variable {block block' other other' : List Stmt}

theorem append (h : TwinBlock D block block') (hother : TwinBlock D other other') :
    TwinBlock D (block ++ other) (block' ++ other') :=
  List.rel_append h hother

theorem self (h : ∀ s ∈ block, TwinStmt D s s) : TwinBlock D block block :=
  List.forall₂_same.2 h

theorem isEmpty_eq (h : TwinBlock D block block') : block.isEmpty = block'.isEmpty := by
  cases h <;> rfl

theorem commented (lines : List String) (h : TwinBlock D block block') :
    TwinBlock D (Stmt.commented lines block) (Stmt.commented lines block') := by
  unfold Stmt.commented
  rw [h.isEmpty_eq]
  split
  · exact .nil
  · exact (self fun s hs => by
      obtain ⟨line, -, rfl⟩ := List.mem_map.1 hs
      exact .comment line).append h

end TwinBlock

end ElementKernel.Portability
