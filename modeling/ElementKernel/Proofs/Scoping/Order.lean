import ElementKernel.Proofs.Scoping.Statements

/-!
# Statements in the order they run

The body of a loop runs once in every round.  What a statement can rely on is what has run before it
in the blocks that are still open, since nothing of a closed block is visible behind it.
-/

namespace ElementKernel

/-- The variable or array that an expression reads, or that is changed by an assignment to it. -/
def Expr.root? : Expr → Option String
  | .symbol name => some name
  | .access array _ => array.root?
  | _ => none

namespace Stmt

mutual

/-- The runs of simple statements in their order, each with the statements that have run before it
in the blocks that are still open. -/
def trace (before : List Stmt) : Stmt → List (List Stmt × Stmt)
  | .forRange _ first past body =>
      (List.range (past - first)).flatMap fun _ => traceAll before body
  | .scope body | .list body => traceAll before body
  | s => [(before, s)]

def traceAll (before : List Stmt) : List Stmt → List (List Stmt × Stmt)
  | [] => []
  | s :: rest => s.trace before ++ traceAll (before ++ s.direct) rest

end

/-- The name that a statement declares or writes to. -/
def changedName? : Stmt → Option String
  | .assign target _ | .assignAdd target _ | .zeroFill target _ => target.root?
  | s => s.declaredName?

/-- The statements that declare a name or write to it, in the order of the text. -/
def changes (name : String) (s : Stmt) : List Stmt :=
  (s.placed.map Prod.snd).filter (·.changedName? = some name)

/-- Everything that is read in a run of the statements satisfies `P` together with what has run
before. -/
def RunReads (P : List Stmt → Expr → Prop) (before xs : List Stmt) : Prop :=
  ∀ run ∈ traceAll before xs, ∀ e ∈ run.2.needs, e.Reads (P run.1)

/-! ## Runs -/

mutual

/-- A statement that runs stands in the tree, and nothing that has run before is forgotten. -/
theorem mem_trace : ∀ (s : Stmt) {before : List Stmt} {run : List Stmt × Stmt},
    run ∈ s.trace before → before.Sublist run.1 ∧ ∃ loops, (loops, run.2) ∈ s.placed
  | .forRange index first past body, before, run, h => by
      obtain ⟨-, -, h⟩ := List.mem_flatMap.1 h
      obtain ⟨hbefore, loops, hplace⟩ := mem_traceAll body h
      refine ⟨hbefore, ⟨index, first, past⟩ :: loops, ?_⟩
      rw [placed]
      exact List.mem_cons_of_mem _ (List.mem_map.2 ⟨_, hplace, rfl⟩)
  | .scope body, before, run, h | .list body, before, run, h => by
      obtain ⟨hbefore, loops, hplace⟩ := mem_traceAll body h
      rw [placed]
      exact ⟨hbefore, loops, List.mem_cons_of_mem _ hplace⟩
  | .comment _, before, run, h | .array _, before, run, h | .declare .., before, run, h
  | .assign .., before, run, h | .assignAdd .., before, run, h | .zeroFill .., before, run, h => by
      obtain rfl := List.mem_singleton.1 h
      exact ⟨List.Sublist.refl _, [], mem_placed_self _⟩

theorem mem_traceAll : ∀ (xs : List Stmt) {before : List Stmt} {run : List Stmt × Stmt},
    run ∈ traceAll before xs → before.Sublist run.1 ∧ ∃ loops, (loops, run.2) ∈ placedAll xs
  | [], _, _, h => nomatch h
  | s :: rest, before, run, h => by
      rw [placedAll]
      obtain h | h := List.mem_append.1 h
      · obtain ⟨hbefore, loops, hplace⟩ := mem_trace s h
        exact ⟨hbefore, loops, List.mem_append_left _ hplace⟩
      · obtain ⟨hbefore, loops, hplace⟩ := mem_traceAll rest h
        exact ⟨(List.sublist_append_left _ _).trans hbefore, loops,
          List.mem_append_right _ hplace⟩

end

theorem traceAll_append (before xs ys : List Stmt) :
    traceAll before (xs ++ ys) = traceAll before xs ++ traceAll (before ++ directAll xs) ys := by
  induction xs generalizing before with
  | nil => simp [traceAll, directAll]
  | cons s rest ih => simp [traceAll, directAll, ih]

/-! ## Reads of a run -/

section

variable {P : List Stmt → Expr → Prop} {before xs ys body : List Stmt}

theorem runReads_append : RunReads P before (xs ++ ys) ↔
    RunReads P before xs ∧ RunReads P (before ++ directAll xs) ys := by
  rw [RunReads, traceAll_append, List.forall_mem_append]
  rfl

theorem runReads_cons {s : Stmt} : RunReads P before (s :: xs) ↔
    RunReads P before [s] ∧ RunReads P (before ++ s.direct) xs := by
  simp [RunReads, traceAll, or_imp, forall_and]

theorem runReads_nil : RunReads P before [] := nofun

theorem runReads_scope (h : RunReads P before body) : RunReads P before [.scope body] := by
  simpa [RunReads, traceAll, trace] using h

/-- Every round of a loop starts with what has run before the loop. -/
theorem runReads_forRange {index : Expr} {first past : Nat} (h : RunReads P before body) :
    RunReads P before [.forRange index first past body] := by
  intro run hrun
  rw [traceAll, trace, traceAll, List.append_nil] at hrun
  obtain ⟨-, -, hrun⟩ := List.mem_flatMap.1 hrun
  exact h run hrun

theorem runReads_commented {comments : List String}
    (h : ∀ after, before.Sublist after → RunReads P after xs) :
    RunReads P before (commented comments xs) := by
  unfold commented
  split
  · exact runReads_nil
  · refine runReads_append.2 ⟨fun run hrun => ?_, h _ (List.sublist_append_left _ _)⟩
    obtain ⟨-, loops, hplace⟩ := mem_traceAll _ hrun
    obtain ⟨s, hs, hplace⟩ := mem_placedAll.1 hplace
    obtain ⟨text, -, rfl⟩ := List.mem_map.1 hs
    have hcomment : run.2 = comment text := congrArg Prod.snd (List.mem_singleton.1 hplace)
    rw [hcomment]
    nofun

/-- Parts that run one after the other, none of which relies on those before it. -/
theorem runReads_flatMap {α : Type} {f : α → List Stmt} {parts : List α}
    (h : ∀ part ∈ parts, ∀ before, RunReads P before (f part)) (before : List Stmt) :
    RunReads P before (parts.flatMap f) := by
  induction parts generalizing before with
  | nil => exact runReads_nil
  | cons part rest ih =>
      obtain ⟨hpart, hrest⟩ := List.forall_mem_cons.1 h
      exact runReads_append.2 ⟨hpart before, ih hrest _⟩

/-- Reads that are in order at the start of a run stay so. -/
theorem runReads_of_everywhere
    (hmono : ∀ {before after : List Stmt} {p : Expr}, before.Sublist after → P before p → P after p)
    (h : ∀ s ∈ xs, s.Everywhere fun _ t => ∀ e ∈ t.needs, e.Reads (P before)) :
    RunReads P before xs := by
  intro run hrun e he
  obtain ⟨hbefore, loops, hplace⟩ := mem_traceAll xs hrun
  exact (forall_placedAll.2 h _ hplace e he).mono fun p hp => hmono hbefore hp

end

/-! ## Changes of a name -/

section

variable {name : String} {xs ys body : List Stmt}

/-- The changes in a list of statements. -/
def changesAll (name : String) (xs : List Stmt) : List Stmt := xs.flatMap (changes name)

@[simp] theorem changesAll_cons {s : Stmt} :
    changesAll name (s :: xs) = s.changes name ++ changesAll name xs := rfl

@[simp] theorem changesAll_append :
    changesAll name (xs ++ ys) = changesAll name xs ++ changesAll name ys :=
  List.flatMap_append

theorem changesAll_flatten (xss : List (List Stmt)) :
    changesAll name xss.flatten = xss.flatMap (changesAll name) := by
  induction xss with
  | nil => rfl
  | cons xs rest ih => simp [ih]

theorem filter_placedAll : ((placedAll xs).map Prod.snd).filter (·.changedName? = some name) =
    changesAll name xs := by
  rw [placedAll_eq, List.map_flatMap, List.filter_flatMap]
  rfl

@[simp] theorem changes_scope : (scope body).changes name = changesAll name body := by
  rw [changes, placed, List.map_cons,
    List.filter_cons_of_neg (by simp [changedName?, declaredName?]), filter_placedAll]

@[simp] theorem changes_list : (list body).changes name = changesAll name body := by
  rw [changes, placed, List.map_cons,
    List.filter_cons_of_neg (by simp [changedName?, declaredName?]), filter_placedAll]

@[simp] theorem changes_forRange {index : Expr} {first past : Nat} :
    (forRange index first past body).changes name = changesAll name body := by
  rw [changes, placed, List.map_cons,
    List.filter_cons_of_neg (by simp [changedName?, declaredName?]), List.map_map,
    ← filter_placedAll]
  rfl

theorem changesAll_eq_nil (h : ∀ s ∈ xs, s.Everywhere fun _ t => t.changedName? ≠ some name) :
    changesAll name xs = [] := by
  refine List.flatMap_eq_nil_iff.2 fun s hs => List.filter_eq_nil_iff.2 ?_
  refine List.forall_mem_map.2 fun entry hentry => ?_
  simpa using h s hs entry hentry

theorem changesAll_eq_self
    (h : ∀ s ∈ xs, s.placed = [([], s)] ∧ s.changedName? = some name) :
    changesAll name xs = xs := by
  have hchanges : ∀ s ∈ xs, s.changes name = [s] := by
    intro s hs
    obtain ⟨hplaced, hname⟩ := h s hs
    simp [changes, hplaced, hname]
  rw [changesAll, List.flatMap_congr hchanges, List.flatMap_singleton']

theorem changesAll_commented (comments : List String) :
    changesAll name (commented comments xs) = changesAll name xs := by
  unfold commented
  split
  next hempty => rw [List.isEmpty_iff.1 hempty]
  next =>
    have hcomments : changesAll name (comments.map comment) = [] :=
      changesAll_eq_nil (List.forall_mem_map.2 fun text _ => everywhere_comment.2 nofun)
    rw [changesAll_append, hcomments, List.nil_append]

end

end Stmt

end ElementKernel
