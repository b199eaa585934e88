import ElementKernel.Kernel.PartitionCode
import ElementKernel.Proofs.Portability.Statements

/-!
# Twins of partitions

The code of a partition is generated node by node.  Run side by side for both languages, every step
makes twins of twins.
-/

namespace ElementKernel.Portability

open Execution Kernel

/-! ## Computations side by side -/

/-- The results of two computations are related if both come to one. -/
def Paired {ε α β : Type} (R : α → β → Prop) (x : Except ε α) (y : Except ε β) : Prop :=
  ∀ a b, x = .ok a → y = .ok b → R a b

namespace Paired

variable {ε α β γ δ ι : Type} {R : α → β → Prop} {S : γ → δ → Prop}

theorem pure {a : α} {b : β} (h : R a b) : Paired R (.ok a : Except ε α) (.ok b) := by
  intro a' b' ha hb
  cases ha
  cases hb
  exact h

theorem left (e : ε) (y : Except ε β) : Paired R (.error e) y := nofun

theorem right (x : Except ε α) (e : ε) : Paired R x (.error e) := nofun

theorem bind {x : Except ε α} {y : Except ε β} {f : α → Except ε γ} {g : β → Except ε δ}
    (h : Paired R x y) (hnext : ∀ a b, R a b → Paired S (f a) (g b)) :
    Paired S (x >>= f) (y >>= g) := by
  intro c d hc hd
  obtain ⟨a, ha, hc⟩ := bind_eq_ok.1 hc
  obtain ⟨b, hb, hd⟩ := bind_eq_ok.1 hd
  exact hnext a b (h a b ha hb) c d hc hd

theorem same {x : Except ε α} {P : α → α → Prop} (h : ∀ a, x = .ok a → P a a) :
    Paired P x x := by
  intro a b ha hb
  cases ha.symm.trans hb
  exact h a ha

theorem mapM {f : ι → Except ε α} {g : ι → Except ε β} {xs : List ι}
    (h : ∀ x ∈ xs, Paired R (f x) (g x)) : Paired (List.Forall₂ R) (xs.mapM f) (xs.mapM g) := by
  induction xs with
  | nil => exact pure .nil
  | cons x xs ih =>
      rw [List.mapM_cons, List.mapM_cons]
      refine (h x List.mem_cons_self).bind fun a b hab => ?_
      refine (ih fun y hy => h y (List.mem_cons_of_mem x hy)).bind fun as bs hs => ?_
      exact pure (.cons hab hs)

theorem foldlM {f : α → ι → Except ε α} {g : β → ι → Except ε β} {xs : List ι}
    (h : ∀ x ∈ xs, ∀ a b, R a b → Paired R (f a x) (g b x)) {a : α} {b : β} (hab : R a b) :
    Paired R (xs.foldlM f a) (xs.foldlM g b) := by
  induction xs generalizing a b with
  | nil => exact pure hab
  | cons x xs ih =>
      rw [List.foldlM_cons, List.foldlM_cons]
      refine (h x List.mem_cons_self a b hab).bind fun c d hcd => ?_
      exact ih (fun y hy => h y (List.mem_cons_of_mem x hy)) hcd

end Paired

variable {K : Type} [Field K] [LinearOrder K] [FloorRing K] {D : Interpretation K}
  {type : IntegralType} {options : TargetOptions} {pointCount : Nat}

/-! ## Terminals -/

section

variable {target : Target} {t : ModifiedTerminal} {range? : Option TableRange} {e : Expr}

end

/-! ## Nodes -/

/-- The same nodes, read by twins. -/
abbrev TwinAccesses (D : Interpretation K) (accesses accesses' : Accesses) : Prop :=
  List.Forall₂ (fun access access' => access.1 = access'.1 ∧ Twin D access.2 access'.2)
    accesses accesses'

structure TwinState (D : Interpretation K) (s s' : PartitionState) : Prop where
  accesses : TwinAccesses D s.accesses s'.accesses
  definitions : TwinBlock D s.definitions s'.definitions
  assignments : TwinBlock D s.assignments s'.assignments

theorem TwinState.statements {s s' : PartitionState} (h : TwinState D s s')
    (partition : Partition) (slots : String) (alignment : Option Nat) :
    TwinBlock D (s.statements partition slots alignment)
      (s'.statements partition slots alignment) := by
  unfold PartitionState.statements
  refine (h.definitions.append ?_).commented _
  rw [h.assignments.isEmpty_eq, h.assignments.length_eq]
  split
  · exact .nil
  · exact .cons (.array _) h.assignments

end ElementKernel.Portability
