import Mathlib.Algebra.BigOperators.Group.List.Basic
import Mathlib.Algebra.BigOperators.Ring.List
import Mathlib.Algebra.Field.Basic
import Mathlib.Data.List.Perm.Basic

/-!
# Sums over assignments

`sumOver` adds up a function of an assignment while some variables run through their values and all
others keep theirs.  For distinct variables the order of the variables does not matter.
-/

namespace ElementKernel

/-- A variable and the values that it runs through. -/
abbrev Summation (ι : Type) := List (ι × List Nat)

variable {ι κ : Type}

namespace Summation

def keys (entries : Summation ι) : List ι := entries.map Prod.fst

theorem mem_keys_concat (entries : Summation ι) (key : ι) (range : List Nat) :
    key ∈ keys (entries ++ [(key, range)]) := by
  simp [keys]

end Summation

variable [DecidableEq ι] [DecidableEq κ] {F : Type*} [CommSemiring F]

def sumOver : Summation ι → ((ι → Nat) → F) → (ι → Nat) → F
  | [], body, assignment => body assignment
  | (key, range) :: rest, body, assignment =>
      (range.map fun v => sumOver rest body (Function.update assignment key v)).sum

namespace Summation

/-- A function that does not read any of the variables. -/
def Unread {α : Type*} (entries : Summation ι) (f : (ι → Nat) → α) : Prop :=
  ∀ assignment, ∀ key ∈ entries.keys, ∀ v, f (Function.update assignment key v) = f assignment

/-- A property that does not get lost when a variable takes one of its values. -/
def Keeps (entries : Summation ι) (P : (ι → Nat) → Prop) : Prop :=
  ∀ assignment, P assignment → ∀ entry ∈ entries, ∀ v ∈ entry.2,
    P (Function.update assignment entry.1 v)

variable {entries : Summation ι} {entry : ι × List Nat}

theorem Unread.head {α : Type*} {f : (ι → Nat) → α} (h : Unread (entry :: entries) f)
    (assignment : ι → Nat) (v : Nat) : f (Function.update assignment entry.1 v) = f assignment :=
  h assignment entry.1 (by simp [keys]) v

theorem Unread.tail {α : Type*} {f : (ι → Nat) → α} (h : Unread (entry :: entries) f) :
    Unread entries f := fun assignment key hkey v =>
  h assignment key (List.mem_cons_of_mem _ hkey) v

theorem Keeps.tail {P : (ι → Nat) → Prop} (h : Keeps (entry :: entries) P) : Keeps entries P :=
  fun assignment hP other hother => h assignment hP other (List.mem_cons_of_mem _ hother)

end Summation

open Summation

theorem sumOver_cons (entry : ι × List Nat) (entries : Summation ι) (body : (ι → Nat) → F)
    (assignment : ι → Nat) : sumOver (entry :: entries) body assignment =
      (entry.2.map fun v =>
        sumOver entries body (Function.update assignment entry.1 v)).sum := rfl

theorem sumOver_append (first second : Summation ι) (body : (ι → Nat) → F)
    (assignment : ι → Nat) :
    sumOver (first ++ second) body assignment =
      sumOver first (sumOver second body) assignment := by
  induction first generalizing assignment with
  | nil => rfl
  | cons entry first ih =>
      simp only [List.cons_append, sumOver_cons]
      congr 1
      exact List.map_congr_left fun v _ => ih _

/-- Bodies need to agree only where a property holds that the summation keeps. -/
theorem sumOver_congr {entries : Summation ι} {P : (ι → Nat) → Prop} (hkeeps : entries.Keeps P)
    {body other : (ι → Nat) → F} (h : ∀ assignment, P assignment → body assignment =
      other assignment) {assignment : ι → Nat} (hP : P assignment) :
    sumOver entries body assignment = sumOver entries other assignment := by
  induction entries generalizing assignment with
  | nil => exact h assignment hP
  | cons entry entries ih =>
      simp only [sumOver_cons]
      congr 1
      refine List.map_congr_left fun v hv => ih hkeeps.tail ?_
      exact hkeeps assignment hP entry (by simp) v hv

/-- Bodies need to agree only where every variable has one of its values. -/
theorem sumOver_congr_mem {entries : Summation ι} (hnodup : entries.keys.Nodup)
    {P : (ι → Nat) → Prop} (hkeeps : entries.Keeps P) {body other : (ι → Nat) → F}
    (h : ∀ assignment, P assignment → (∀ entry ∈ entries, assignment entry.1 ∈ entry.2) →
      body assignment = other assignment) {assignment : ι → Nat} (hP : P assignment) :
    sumOver entries body assignment = sumOver entries other assignment := by
  induction entries generalizing P assignment with
  | nil => exact h assignment hP fun _ hentry => absurd hentry List.not_mem_nil
  | cons entry entries ih =>
      obtain ⟨hnew, hnodup⟩ := List.nodup_cons.1 hnodup
      simp only [sumOver_cons]
      congr 1
      refine List.map_congr_left fun v hv => ?_
      have hkeeps' : Summation.Keeps entries fun a => P a ∧ a entry.1 ∈ entry.2 := by
        intro a ha later hlater w hw
        have hne : entry.1 ≠ later.1 := by
          intro heq
          exact hnew (heq ▸ List.mem_map_of_mem hlater)
        refine ⟨hkeeps.tail a ha.1 later hlater w hw, ?_⟩
        rw [Function.update_of_ne hne]
        exact ha.2
      refine ih hnodup hkeeps' (fun a ha hmem => h a ha.1 ?_) ⟨?_, ?_⟩
      · rintro later (_ | ⟨_, hlater⟩)
        · exact ha.2
        · exact hmem later hlater
      · exact hkeeps assignment hP entry List.mem_cons_self v hv
      · rw [Function.update_self]
        exact hv

theorem sumOver_mul {entries : Summation ι} {factor : (ι → Nat) → F} (h : entries.Unread factor)
    (body : (ι → Nat) → F) (assignment : ι → Nat) :
    sumOver entries (fun a => factor a * body a) assignment =
      factor assignment * sumOver entries body assignment := by
  induction entries generalizing assignment with
  | nil => rfl
  | cons entry entries ih =>
      simp only [sumOver_cons]
      rw [← List.sum_map_mul_left]
      congr 1
      refine List.map_congr_left fun v _ => ?_
      rw [ih h.tail, h.head]

theorem sumOver_mul_const (c : F) (entries : Summation ι) (body : (ι → Nat) → F)
    (assignment : ι → Nat) :
    sumOver entries (fun a => c * body a) assignment = c * sumOver entries body assignment := by
  have hunread : Unread entries fun _ => c := fun _ _ _ _ => rfl
  exact sumOver_mul hunread body assignment

theorem sumOver_swap (first second : ι × List Nat) (hne : first.1 ≠ second.1)
    (rest : Summation ι) (body : (ι → Nat) → F) (assignment : ι → Nat) :
    sumOver (first :: second :: rest) body assignment =
      sumOver (second :: first :: rest) body assignment := by
  simp only [sumOver_cons]
  have hswap : ∀ (xs ys : List Nat) (f : Nat → Nat → F),
      (xs.map fun x => (ys.map fun y => f x y).sum).sum =
        (ys.map fun y => (xs.map fun x => f x y).sum).sum := by
    intro xs ys f
    induction xs with
    | nil => simp
    | cons x xs ih => simp [ih, List.sum_map_add]
  rw [hswap]
  congr 1
  refine List.map_congr_left fun v _ => ?_
  congr 1
  refine List.map_congr_left fun w _ => ?_
  rw [Function.update_comm hne]

theorem sumOver_perm {entries other : Summation ι} (h : entries.Perm other)
    (hnodup : entries.keys.Nodup) (body : (ι → Nat) → F) (assignment : ι → Nat) :
    sumOver entries body assignment = sumOver other body assignment := by
  induction h generalizing assignment with
  | nil => rfl
  | cons entry h ih =>
      simp only [sumOver_cons]
      congr 1
      exact List.map_congr_left fun v _ => ih (List.nodup_cons.1 hnodup).2 _
  | swap first second rest =>
      refine sumOver_swap _ _ ?_ rest body assignment
      intro heq
      simp [Summation.keys, heq] at hnodup
  | trans h h' ih ih' =>
      exact (ih hnodup assignment).trans
        (ih' ((h.map Prod.fst).nodup_iff.1 hnodup) assignment)

theorem sumOver_rename {entries : Summation ι} (name : ι → κ) (restrict : (κ → Nat) → ι → Nat)
    (h : ∀ assignment, ∀ key ∈ entries.keys, ∀ v,
      restrict (Function.update assignment (name key) v) =
        Function.update (restrict assignment) key v)
    (body : (ι → Nat) → F) (assignment : κ → Nat) :
    sumOver (entries.map fun entry => (name entry.1, entry.2)) (fun a => body (restrict a))
      assignment = sumOver entries body (restrict assignment) := by
  induction entries generalizing assignment with
  | nil => rfl
  | cons entry entries ih =>
      simp only [List.map_cons, sumOver_cons]
      congr 1
      refine List.map_congr_left fun v _ => ?_
      rw [ih fun a key hkey => h a key (List.mem_cons_of_mem _ hkey),
        h assignment entry.1 (by simp [Summation.keys])]

end ElementKernel
