import ElementKernel.Proofs.Scoping.Names

/-!
# Variables of different terminals

Terminals that are summed up are read through variables.  Their names tell the kind of the terminal,
the number of a coefficient, the component and the side.  Derivative counts are written one after
the other, so counts of several digits can run together: the counts 1 and 11 read like the counts 11
and 1.  Main statement: the variables of different terminals are different unless this happens.
-/

namespace ElementKernel

/-- The variable that a terminal is read through.  Coefficients, coordinates and Jacobians have
one where they are summed up in a table. -/
def Target.ReadsVariable (target : Target) (t : ModifiedTerminal) (range? : Option TableRange)
    (pointCount : Nat) (name : String) : Prop :=
  t.terminal.base?.isSome ∧ target.access t range? pointCount = .ok (.symbol name)

/-- Lists of counts that are as long as each other and told apart by their digits: of two different
counts in one place, neither is written like the beginning of the other. -/
def DigitsDiffer : List Nat → List Nat → Prop :=
  List.Forall₂ fun m n => m ≠ n →
    ¬(toString m).toList <+: (toString n).toList ∧ ¬(toString n).toList <+: (toString m).toList

namespace DigitsDiffer

variable {xs ys : List Nat}

theorem of_length (h : List.Forall₂ (fun m n : Nat =>
    (toString m).toList.length = (toString n).toList.length) xs ys) : DigitsDiffer xs ys := by
  refine h.imp fun {m n} hlength hne => ⟨fun hbegins => hne ?_, fun hbegins => hne ?_⟩
  · exact toList_toString_inj (hbegins.eq_of_length hlength)
  · exact (toList_toString_inj (hbegins.eq_of_length hlength.symm)).symm

theorem eq_of_flatMap (h : DigitsDiffer xs ys)
    (heq : xs.flatMap (fun count => (toString count).toList) =
      ys.flatMap fun count => (toString count).toList) : xs = ys := by
  induction h with
  | nil => rfl
  | @cons m n xs ys hdiffer _ ih =>
      rw [List.flatMap_cons, List.flatMap_cons] at heq
      obtain rfl : m = n := by
        by_contra hne
        -- Of two beginnings of one text, one is the beginning of the other.
        obtain hbegins | hbegins := List.prefix_or_prefix_of_prefix
          (List.prefix_append _ _) (heq.symm ▸ List.prefix_append _ _)
        · exact (hdiffer hne).1 hbegins
        · exact (hdiffer hne).2 hbegins
      rw [ih (List.append_cancel_left heq)]

theorem eq_of_not_any (h : DigitsDiffer xs ys) (hxs : ¬xs.any (0 < ·)) (hys : ¬ys.any (0 < ·)) :
    xs = ys := by
  have hlength : xs.length = ys.length := List.Forall₂.length_eq h
  simp only [List.any_eq_true, decide_eq_true_eq, not_exists, not_and, Nat.not_lt,
    Nat.le_zero] at hxs hys
  rw [List.eq_replicate_of_mem hxs, List.eq_replicate_of_mem hys, hlength]

end DigitsDiffer

namespace Target

variable {target : Target} {t t' : ModifiedTerminal} {range? range?' : Option TableRange}
  {pointCount pointCount' : Nat} {name name' : String}

theorem ReadsVariable.name_eq (h : target.ReadsVariable t range? pointCount name) :
    ∃ base, t.terminal.base? = some base ∧ name = t.variableName base := by
  obtain ⟨hbase, haccess⟩ := h
  obtain ⟨base, hbase⟩ := Option.isSome_iff_exists.1 hbase
  refine ⟨base, hbase, ?_⟩
  cases range? with
  | none =>
      -- Without a table the access is an entry of an array, or there is none.
      unfold access at haccess
      rw [if_neg (by simp)] at haccess
      obtain ⟨number, hterminal, rfl⟩ | ⟨hterminal, rfl⟩ | ⟨hterminal, rfl⟩ :=
        Terminal.base?_eq_some hbase
      · rw [hterminal] at haccess
        cases haccess
      · simp only [hterminal] at haccess
        split at haccess
        next heq => cases heq
        next => cases haccess
        next => cases haccess
      · rw [hterminal] at haccess
        cases haccess
  | some range =>
      have hcases := access_cases haccess (ne_zeros_of_access haccess)
      obtain ⟨number, hterminal, rfl⟩ | ⟨hterminal, rfl⟩ | ⟨hterminal, rfl⟩ :=
        Terminal.base?_eq_some hbase
      · rw [hterminal] at hcases
        obtain ⟨-, he⟩ | ⟨-, -, he⟩ | ⟨-, -, he⟩ := coefficientAccess_cases hcases
        · cases he
        · cases he
        · exact Expr.symbol.inj he
      · rw [hterminal] at hcases
        exact Expr.symbol.inj hcases
      · rw [hterminal] at hcases
        exact Expr.symbol.inj hcases

/-- Terminals with one variable are of one kind and agree in component and side, and in derivative
counts that are told apart by their digits. -/
theorem ReadsVariable.eq_of_name_eq (h : target.ReadsVariable t range? pointCount name)
    (h' : target.ReadsVariable t' range?' pointCount' name) :
    t.terminal = t'.terminal ∧ t.component = t'.component ∧ t.restriction = t'.restriction ∧
      (DigitsDiffer t.localDerivatives t'.localDerivatives →
        t.localDerivatives = t'.localDerivatives) := by
  obtain ⟨base, hbase, rfl⟩ := h.name_eq
  obtain ⟨base', hbase', heq⟩ := h'.name_eq
  obtain ⟨rfl, hcomponent, hdigits, hrestriction⟩ := (ModifiedTerminal.variableName_eq_iff
    (Terminal.underscore_notMem_base hbase) (Terminal.underscore_notMem_base hbase')).1 heq
  refine ⟨Terminal.base?_inj hbase hbase', hcomponent, hrestriction, fun hcounts => ?_⟩
  unfold ModifiedTerminal.derivativeDigits at hdigits
  split at hdigits
  next =>
    split at hdigits
    next => exact hcounts.eq_of_flatMap (List.cons.inj (List.cons.inj hdigits).2).2
    next => cases hdigits
  next hnone =>
    split at hdigits
    next => cases hdigits
    next hnone' => exact hcounts.eq_of_not_any hnone hnone'

/-- For every kind of integral, terminals that are read through variables and differ in kind, number,
component or side have different variables, and so have terminals that differ in derivative counts
which are told apart by their digits. -/
theorem variables_differ (h : target.ReadsVariable t range? pointCount name)
    (h' : target.ReadsVariable t' range?' pointCount' name')
    (hdiffer : t.terminal ≠ t'.terminal ∨ t.component ≠ t'.component ∨
      t.restriction ≠ t'.restriction ∨ t.localDerivatives ≠ t'.localDerivatives ∧
        DigitsDiffer t.localDerivatives t'.localDerivatives) : name ≠ name' := by
  rintro rfl
  obtain ⟨hterminal, hcomponent, hrestriction, hcounts⟩ := h.eq_of_name_eq h'
  obtain hne | hne | hne | ⟨hne, hdigits⟩ := hdiffer
  · exact hne hterminal
  · exact hne hcomponent
  · exact hne hrestriction
  · exact hne (hcounts hdigits)

/-- The first coefficient, differentiated as often as the list says. -/
def differentiated (counts : List Nat) : ModifiedTerminal :=
  { terminal := .coefficient 0, localDerivatives := counts }

/-- It is read through a variable where it is summed up in a table that varies. -/
theorem readsVariable_differentiated (counts : List Nat) :
    (⟨.rust, .interiorFacet, {}⟩ : Target).ReadsVariable (differentiated counts)
      (some ⟨"FE0", 0, 2, .varying⟩) 2 ((differentiated counts).variableName "w0") :=
  ⟨rfl, rfl⟩

/-- The counts 12 and 0 stay apart from 10 and 2. -/
theorem variables_differ_twelve :
    DigitsDiffer [12, 0] [10, 2] ∧
      (differentiated [12, 0]).variableName "w0" ≠ (differentiated [10, 2]).variableName "w0" := by
  have hdigits : DigitsDiffer [12, 0] [10, 2] := .of_length (by decide +kernel)
  exact ⟨hdigits, variables_differ (readsVariable_differentiated [12, 0])
    (readsVariable_differentiated [10, 2]) (.inr (.inr (.inr ⟨nofun, hdigits⟩)))⟩

/-- The counts 1 and 11 read like the counts 11 and 1. -/
theorem not_variables_differ : ¬∀ {target : Target} {t t' : ModifiedTerminal}
    {range? range?' : Option TableRange} {pointCount pointCount' : Nat} {name name' : String},
    target.ReadsVariable t range? pointCount name →
    target.ReadsVariable t' range?' pointCount' name' →
    t.localDerivatives.length = t'.localDerivatives.length →
    t.localDerivatives ≠ t'.localDerivatives → name ≠ name' := by
  intro hdiffer
  refine hdiffer (readsVariable_differentiated [1, 11]) (readsVariable_differentiated [11, 1]) rfl
    nofun ?_
  exact (ModifiedTerminal.variableName_eq_iff (by decide) (by decide)).2
    ⟨rfl, rfl, by decide +kernel, rfl⟩

end Target

end ElementKernel
