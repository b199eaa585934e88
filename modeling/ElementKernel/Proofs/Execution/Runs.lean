import ElementKernel.Proofs.Execution.Statements
import Mathlib.Algebra.BigOperators.Pi
import Mathlib.Algebra.BigOperators.Intervals

/-!
# Runs of generated code

Apart from the reset, generated code only adds to the element tensor.  `Runs` says which names are
visible after some statements and what they add, and the lemmas below compose runs along the
statements.
-/

namespace ElementKernel.Execution

open Kernel (tensorName)

variable {K : Type}

/-! ## Visible names -/

namespace Locals

variable {L L' L'' : Locals K} {name other : String} {cell : Cell K}

@[simp] theorem set_same : L.set name cell name = some cell := by
  simp [set]

theorem set_of_ne (h : other ≠ name) : L.set name cell other = L other := by
  simp [set, h]

@[simp] theorem set_set (cell' : Cell K) :
    (L.set name cell).set name cell' = L.set name cell' := by
  simp [set]

/-- Everything that is visible in `L` is the same in `L'`. -/
def Extends (L L' : Locals K) : Prop := ∀ name cell, L name = some cell → L' name = some cell

theorem Extends.refl (L : Locals K) : L.Extends L := fun _ _ h => h

theorem Extends.trans (h : L.Extends L') (h' : L'.Extends L'') : L.Extends L'' :=
  fun name cell hcell => h' name cell (h name cell hcell)

theorem extends_set (h : L name = none) (cell : Cell K) : L.Extends (L.set name cell) := by
  intro other cell' hother
  rw [set_of_ne, hother]
  rintro rfl
  rw [h] at hother
  cases hother

theorem Extends.index_symbol (h : L.Extends L') {i : Index}
    (hname : index L (.symbol name) = some i) : index L' (.symbol name) = some i := by
  rw [index] at hname ⊢
  obtain ⟨cell, hcell, hnumber⟩ := Option.bind_eq_some_iff.1 hname
  rw [h name cell hcell]
  exact hnumber

theorem restrict_of_extends (h : L.Extends L') : L'.restrict L = L := by
  funext name
  unfold restrict
  cases hname : L name with
  | none => rfl
  | some cell => simp [h name cell hname]

/-- Changes of a name that was visible before stay, and all else is forgotten. -/
theorem restrict_set (h : (L name).isSome) (cell : Cell K)
    (hextends : (L.set name cell).Extends L') : L'.restrict L = L.set name cell := by
  funext other
  unfold restrict
  by_cases hother : other = name
  · subst hother
    simp [h, hextends _ _ set_same]
  · rw [set_of_ne hother]
    cases hcell : L other with
    | none => rfl
    | some cell' =>
        have := hextends other cell' (by rw [set_of_ne hother, hcell])
        simp [this]

/-- Additions to a variable inside of a loop are additions to it after the loop. -/
theorem restrict_counter {counter : String} (hname : (L name).isSome) (hne : name ≠ counter)
    (hcounter : L counter = none) (i : Cell K) (cell : Cell K) :
    ((L.set counter i).set name cell).restrict L = L.set name cell := by
  refine restrict_set hname cell ?_
  rw [set, set, set, Function.update_comm hne.symm]
  refine extends_set ?_ i
  rw [Function.update_of_ne hne.symm, hcounter]

end Locals

/-! ## Lists of statements -/

variable [Field K] {D : Interpretation K} {size : Nat} {L L' L'' : Locals K} {δ ε : Nat → K}

/-- The statements add `δ` to the element tensor and leave the names `L'` visible. -/
def Runs (D : Interpretation K) (size : Nat) (L : Locals K) (statements : List Stmt)
    (L' : Locals K) (δ : Nat → K) : Prop :=
  ∀ T, execAll D size statements ⟨L, T⟩ = some ⟨L', T + δ⟩

theorem execAll_append (first second : List Stmt) (s : State K) :
    execAll D size (first ++ second) s =
      (execAll D size first s).bind (execAll D size second) := by
  induction first generalizing s with
  | nil => rfl
  | cons statement rest ih =>
      rw [List.cons_append, execAll_cons, execAll_cons]
      cases exec D size statement s with
      | none => rfl
      | some t => exact ih t

theorem execAll_singleton (statement : Stmt) (s : State K) :
    execAll D size [statement] s = exec D size statement s := by
  rw [execAll_cons]
  cases exec D size statement s <;> simp [execAll_nil]

namespace Runs

theorem nil : Runs D size L [] L 0 := by
  intro T
  rw [execAll_nil, add_zero]

theorem of_exec {statement : Stmt}
    (h : ∀ T, exec D size statement ⟨L, T⟩ = some ⟨L', T + δ⟩) :
    Runs D size L [statement] L' δ := by
  intro T
  rw [execAll_singleton, h]

theorem append {first second : List Stmt} (hfirst : Runs D size L first L' δ)
    (hsecond : Runs D size L' second L'' ε) : Runs D size L (first ++ second) L'' (δ + ε) := by
  intro T
  rw [execAll_append, hfirst, Option.bind_some, hsecond, add_assoc]

theorem append_zero {first second : List Stmt} (hfirst : Runs D size L first L' 0)
    (hsecond : Runs D size L' second L'' δ) : Runs D size L (first ++ second) L'' δ := by
  simpa using hfirst.append hsecond

theorem cons_zero {first : Stmt} {second : List Stmt} (hfirst : Runs D size L [first] L' 0)
    (hsecond : Runs D size L' second L'' δ) : Runs D size L (first :: second) L'' δ :=
  hfirst.append_zero hsecond

theorem comment (text : String) : Runs D size L [.comment text] L 0 :=
  of_exec fun T => by rw [exec_comment, add_zero]

theorem comments (texts : List String) : Runs D size L (texts.map .comment) L 0 := by
  induction texts with
  | nil => exact nil
  | cons text rest ih => exact (comment text).cons_zero ih

theorem commented {statements : List Stmt} (texts : List String)
    (h : Runs D size L statements L' δ) :
    Runs D size L (Stmt.commented texts statements) L' δ := by
  unfold Stmt.commented
  cases statements with
  | nil => exact h
  | cons first rest => exact (comments texts).append_zero h

theorem result_unique {statements : List Stmt} (h : Runs D size L statements L' δ)
    (h' : Runs D size L statements L'' ε) : L' = L'' ∧ δ = ε := by
  have hboth := (h 0).symm.trans (h' 0)
  rw [zero_add, zero_add, Option.some.injEq, State.mk.injEq] at hboth
  exact hboth

/-! ## Declarations and assignments -/

theorem declare (size : Nat) {name : String} {e : Expr} {v : K} (hname : L name = none)
    (htensor : name ≠ tensorName) (he : value D L e = some v) :
    Runs D size L [.declare name e] (L.set name (.scalar v)) 0 :=
  of_exec fun T => by simp [exec_declare, he, State.declare, hname, htensor]

theorem array (size : Nat) (decl : ArrayDecl) (hname : L decl.name = none)
    (htensor : decl.name ≠ tensorName) :
    Runs D size L [.array decl] (L.set decl.name (declared D decl)) 0 :=
  of_exec fun T => by simp [exec_array, State.declare, hname, htensor]

theorem addScalar {name : String} {e : Expr} {v old : K} (hname : L name = some (.scalar old))
    (he : value D L e = some v) :
    Runs D size L [.assignAdd (.symbol name) e] (L.set name (.scalar (old + v))) 0 :=
  of_exec fun T => by
    simp [exec_assignAdd, he, destination?, hname, State.load, State.store, Cell.scalar?]

theorem assignEntry (size : Nat) {name : String} {e i : Expr} {v : K} {k : Index} {count : Nat}
    {entry : Nat → Option K} (hname : L name = some (.array false [count] entry))
    (htensor : name ≠ tensorName) (hi : index L i = some k) (hk : k.toNat < count)
    (he : value D L e = some v) :
    Runs D size L [.assign (.entry (.symbol name) i) e]
      (L.set name (.array false [count] (Function.update entry k.toNat (some v)))) 0 :=
  of_exec fun T => by
    have hplace := place_entry name hi
    rw [Expr.entry] at hplace
    simp [exec_assign, he, destination?, Expr.entry, hplace, hname, htensor, position, hk,
      State.store]

theorem addTensor (size : Nat) {e i : Expr} {v : K} {k : Index} (hi : index L i = some k)
    (hk : k.toNat < size) (he : value D L e = some v) :
    Runs D size L [.assignAdd (.entry Kernel.tensor i) e] L (Pi.single k.toNat v) :=
  of_exec fun T => by
    have hplace := place_entry tensorName hi
    rw [Expr.entry] at hplace
    simp only [exec_assignAdd, he, destination?, Expr.entry, Kernel.tensor, hplace]
    simp [position, hk, State.load, State.store]
    funext j
    by_cases hj : j = k.toNat
    · subst hj
      simp
    · simp [hj]

/-! ## Blocks and loops -/

theorem scope {body : List Stmt} (h : Runs D size L body L' δ) (hextends : L.Extends L') :
    Runs D size L [.scope body] L δ :=
  of_exec fun T => by
    rw [exec_scope, h]
    simp [State.leave, Locals.restrict_of_extends hextends]

/-- A loop whose body changes the visible names from `L k` to `L (k + 1)` in its `k`-th round. -/
theorem loopFrom (size : Nat) (name : String) (body : List Stmt) (first count : Nat)
    {L : Nat → Locals K} {δ : Nat → Nat → K} (htensor : name ≠ tensorName)
    (h : ∀ k < count, L k name = none ∧
      ∃ L', Runs D size ((L k).set name (.number (word (first + k)))) body L' (δ k) ∧
        L'.restrict (L k) = L (k + 1)) :
    Runs D size (L 0) [.forRange (.symbol name) first (first + count) body] (L count)
      (∑ k ∈ Finset.range count, δ k) := by
  refine of_exec fun T => ?_
  rw [exec_forRange, Nat.add_sub_cancel_left]
  induction count with
  | zero => simp
  | succ count ih =>
      obtain ⟨hname, L', hbody, hrestrict⟩ := h count (Nat.lt_succ_self count)
      have hrounds := ih fun k hk => h k (Nat.lt_succ_of_lt hk)
      rw [List.range'_concat, List.foldlM_append, hrounds]
      have hround := hbody (T + ∑ k ∈ Finset.range count, δ k)
      simp [State.declare, hname, htensor, hround, State.leave, hrestrict, Finset.sum_range_succ,
        add_assoc]

theorem loop (size : Nat) (name : String) (body : List Stmt) (first past : Nat) {δ : Nat → Nat → K}
    (htensor : name ≠ tensorName) (hname : L name = none)
    (h : ∀ i, first ≤ i → i < past → ∃ L', (L.set name (.number (word i))).Extends L' ∧
      Runs D size (L.set name (.number (word i))) body L' (δ i)) :
    Runs D size L [.forRange (.symbol name) first past body] L
      (∑ i ∈ Finset.Ico first past, δ i) := by
  have hround : ∀ k < past - first, L name = none ∧
      ∃ L', Runs D size (L.set name (.number (word (first + k)))) body L' (δ (first + k)) ∧
        L'.restrict L = L := by
    intro k hk
    obtain ⟨L', hextends, hbody⟩ := h (first + k) (by omega) (by omega)
    exact ⟨hname, L', hbody,
      Locals.restrict_of_extends ((Locals.extends_set hname _).trans hextends)⟩
  have hloop := loopFrom size name body first (past - first) (L := fun _ => L)
    (δ := fun k => δ (first + k)) htensor hround
  rw [Finset.sum_Ico_eq_sum_range]
  intro T
  obtain hle | hlt := Nat.le_total first past
  · simpa [Nat.add_sub_cancel' hle] using hloop T
  · have hcount : past - first = 0 := by omega
    rw [execAll_singleton, exec_forRange, hcount]
    simp

end Runs

end ElementKernel.Execution
