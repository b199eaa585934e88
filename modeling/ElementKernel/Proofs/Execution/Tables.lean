import ElementKernel.Proofs.Execution.Integrands

/-!
# Tables

A kernel first declares the tables of its rules and of its elements, each under a name of its own.
-/

namespace ElementKernel

open Execution

namespace Execution

variable {K : Type}

/-- What is visible after further names are declared one after the other. -/
def Locals.setAll (L : Locals K) (entries : List (String × Cell K)) : Locals K :=
  entries.foldl (fun L entry => L.set entry.1 entry.2) L

namespace Locals

variable {L : Locals K} {entries : List (String × Cell K)} {name : String} {cell : Cell K}

theorem setAll_of_notMem (h : name ∉ entries.map Prod.fst) : L.setAll entries name = L name := by
  induction entries generalizing L with
  | nil => rfl
  | cons entry entries ih =>
      rw [List.map_cons, List.mem_cons, not_or] at h
      exact (ih h.2).trans (set_of_ne h.1)

theorem setAll_of_mem (hnodup : (entries.map Prod.fst).Nodup) (hmem : (name, cell) ∈ entries) :
    L.setAll entries name = some cell := by
  induction entries generalizing L with
  | nil => cases hmem
  | cons first entries ih =>
      rw [List.map_cons, List.nodup_cons] at hnodup
      obtain rfl | hmem := List.mem_cons.1 hmem
      · exact (setAll_of_notMem hnodup.1).trans set_same
      · exact ih hnodup.2 hmem

end Locals

variable [Field K] (D : Interpretation K)

/-- The statements declare exactly the given names, wherever these are free. -/
def Declares (size : Nat) (code : List Stmt) (entries : List (String × Cell K)) : Prop :=
  ∀ L : Locals K, (∀ name ∈ entries.map Prod.fst, L name = none ∧ name ≠ Kernel.tensorName) →
    (entries.map Prod.fst).Nodup → Runs D size L code (L.setAll entries) 0

namespace Declares

variable {D} {size : Nat} {first second : List Stmt} {entries others : List (String × Cell K)}

theorem nil : Declares D size [] [] := fun _ _ _ => Runs.nil

theorem table (options : KernelOptions) (name : String) (sizes : List Nat) (values : List Float) :
    Declares D size [Kernel.tableDecl options name sizes values]
      [(name, .table D sizes values)] := by
  intro L hfree _
  obtain ⟨hname, htensor⟩ := hfree name List.mem_cons_self
  exact Runs.array size _ hname htensor

theorem append (hfirst : Declares D size first entries)
    (hsecond : Declares D size second others) :
    Declares D size (first ++ second) (entries ++ others) := by
  intro L hfree hnodup
  rw [List.map_append] at hfree hnodup
  obtain ⟨hnodup, hnodupOthers, hdisjoint⟩ := List.nodup_append.1 hnodup
  rw [Locals.setAll, List.foldl_append]
  refine (hfirst L (fun name hmem => hfree name (List.mem_append_left _ hmem)) hnodup).append_zero
    (hsecond _ (fun name hmem => ?_) hnodupOthers)
  obtain ⟨hname, htensor⟩ := hfree name (List.mem_append_right _ hmem)
  refine ⟨(Locals.setAll_of_notMem fun hother => ?_).trans hname, htensor⟩
  exact hdisjoint name hother name hmem rfl

theorem commented (texts : List String) (h : Declares D size first entries) :
    Declares D size (Stmt.commented texts first) entries :=
  fun L hfree hnodup => (h L hfree hnodup).commented texts

theorem flatMap {ι : Type} {code : ι → List Stmt} {entries : ι → List (String × Cell K)}
    {xs : List ι} (h : ∀ x ∈ xs, Declares D size (code x) (entries x)) :
    Declares D size (xs.flatMap code) (xs.flatMap entries) := by
  induction xs with
  | nil => exact nil
  | cons x xs ih =>
      rw [List.flatMap_cons, List.flatMap_cons]
      exact (h x List.mem_cons_self).append (ih fun y hy => h y (List.mem_cons_of_mem x hy))

theorem flatten {ε ι : Type} {generate : ι → Except ε (List Stmt)}
    {entries : ι → List (String × Cell K)} {xs : List ι} {codes : List (List Stmt)}
    (hcodes : xs.mapM generate = .ok codes)
    (h : ∀ x ∈ xs, ∀ code, generate x = .ok code → Declares D size code (entries x)) :
    Declares D size codes.flatten (xs.flatMap entries) := by
  induction mapM_eq_ok.1 hcodes with
  | nil => exact nil
  | cons hfirst hrest ih =>
      rw [List.flatten_cons, List.flatMap_cons]
      exact (h _ List.mem_cons_self _ hfirst).append
        (ih (mapM_eq_ok.2 hrest) fun x hx => h x (List.mem_cons_of_mem _ hx))

end Declares

end Execution

/-! ## Tables of an integral -/

namespace Integral

/-- Whether the weights of an integrand are known before the kernel is called. -/
def DeclaresWeights (integral : Integral) (integrand : Integrand) : Prop :=
  integral.type.hasStaticQuadrature ∧ integrand.needWeights

instance (integral : Integral) (integrand : Integrand) :
    Decidable (integral.DeclaresWeights integrand) :=
  inferInstanceAs (Decidable (_ ∧ _))

end Integral

namespace Kernel

variable {K : Type} [Field K] (D : Interpretation K)

/-- The tables of a rule that its integrand reads. -/
def ruleEntries (integrand : Integrand) (pointCount : Nat) (rule : QuadratureRule) :
    List (String × Cell K) :=
  (if integrand.needWeights then
    [(weightsName pointCount, .table D [pointCount] rule.weights)] else []) ++
    if 0 < rule.dimension ∧ integrand.needPoints then
      [(pointsName pointCount, .table D [pointCount * rule.dimension] rule.flattenedPoints)]
    else []

/-- The tables of a rule that is registered for a number of points. -/
def registeredEntries (integral : Integral) (entry : Nat × QuadratureRule) :
    List (String × Cell K) :=
  match integral.integrands.get? entry.1 with
  | none => []
  | some integrand => ruleEntries D integrand entry.1 entry.2

def rulesEntries (integral : Integral) : List (String × Cell K) :=
  if integral.type.hasStaticQuadrature then
    integral.rules.entries.flatMap (registeredEntries D integral)
  else []

/-- The element tables of an integrand. -/
def integrandEntries (integrand : Integrand) : List (String × Cell K) :=
  integrand.tables.entries.map fun (name, table) =>
    (name, .table D table.shape.toList table.values)

/-- All tables of a kernel. -/
def tableEntries (integral : Integral) : List (String × Cell K) :=
  rulesEntries D integral ++ integral.integrands.entries.flatMap (integrandEntries D ·.2)

variable {D} {size : Nat} {options : KernelOptions} {integral : Integral} {code : List Stmt}

theorem ruleTables_eq_ok {pointCount : Nat} {rule : QuadratureRule} {integrand : Integrand}
    (hcode : ruleTables options pointCount rule integrand = .ok code) :
    code =
      (if integrand.needWeights then
        [tableDecl options (weightsName pointCount) [pointCount] rule.weights] else []) ++
      if 0 < rule.dimension ∧ integrand.needPoints then
        [tableDecl options (pointsName pointCount) [pointCount * rule.dimension]
          rule.flattenedPoints]
      else [] := by
  unfold ruleTables at hcode
  dsimp only at hcode
  split at hcode
  next hpoints =>
    obtain ⟨count, hcount, hcode⟩ := bind_eq_ok.1 hcode
    obtain rfl := Word.mul_eq_ok hcount
    cases hcode
    rw [if_pos hpoints]
  next hpoints =>
    cases hcode
    rw [if_neg hpoints, List.append_nil]

/-- A registered rule has as many weights as it says, and tables if an integrand uses it. -/
theorem registeredTables_eq_ok {registered : Nat × QuadratureRule}
    (hcode : registeredTables options integral registered = .ok code) :
    registered.2.pointCount = registered.1 ∧
      (integral.integrands.get? registered.1 = none ∧ code = [] ∨
        ∃ integrand, integral.integrands.get? registered.1 = some integrand ∧
          ruleTables options registered.1 registered.2 integrand = .ok code) := by
  obtain ⟨pointCount, rule⟩ := registered
  unfold registeredTables at hcode
  dsimp only at hcode ⊢
  split at hcode
  · cases hcode
  next hsize =>
    refine ⟨not_not.1 hsize, ?_⟩
    cases hintegrand : integral.integrands.get? pointCount with
    | none =>
        rw [hintegrand] at hcode
        cases hcode
        exact .inl ⟨rfl, rfl⟩
    | some integrand =>
        rw [hintegrand] at hcode
        exact .inr ⟨integrand, rfl, liftM_eq_ok.1 hcode⟩

theorem quadratureTables_eq_ok (hcode : quadratureTables options integral = .ok code) :
    ¬integral.type.hasStaticQuadrature ∧ code = [] ∨
      integral.type.hasStaticQuadrature ∧ ∃ tables,
        integral.rules.entries.mapM (registeredTables options integral) = .ok tables ∧
        code = Stmt.commented ["Section for quadrature weights and points"] tables.flatten := by
  unfold quadratureTables at hcode
  split at hcode
  next hstatic =>
    split at hcode
    · cases hcode
    · obtain ⟨tables, htables, hcode⟩ := bind_eq_ok.1 hcode
      cases hcode
      exact .inr ⟨hstatic, tables, htables, rfl⟩
  next hruntime =>
    cases hcode
    exact .inl ⟨hruntime, rfl⟩

theorem declares_ruleTables {pointCount : Nat} {rule : QuadratureRule} {integrand : Integrand}
    (hcode : ruleTables options pointCount rule integrand = .ok code) :
    Declares D size code (ruleEntries D integrand pointCount rule) := by
  rw [ruleTables_eq_ok hcode]
  refine .append ?_ ?_
  · split
    · exact .table options _ _ _
    · exact .nil
  · split
    · exact .table options _ _ _
    · exact .nil

theorem declares_registeredTables {entry : Nat × QuadratureRule}
    (hcode : registeredTables options integral entry = .ok code) :
    Declares D size code (registeredEntries D integral entry) := by
  unfold registeredEntries
  obtain ⟨-, ⟨hnone, rfl⟩ | ⟨integrand, hsome, hcode⟩⟩ := registeredTables_eq_ok hcode
  · rw [hnone]
    exact .nil
  · rw [hsome]
    exact declares_ruleTables hcode

theorem declares_quadratureTables (hcode : quadratureTables options integral = .ok code) :
    Declares D size code (rulesEntries D integral) := by
  unfold rulesEntries
  obtain ⟨hruntime, rfl⟩ | ⟨hstatic, tables, htables, rfl⟩ := quadratureTables_eq_ok hcode
  · rw [if_neg hruntime]
    exact .nil
  · rw [if_pos hstatic]
    exact .commented _ (.flatten htables fun _ _ _ h => declares_registeredTables h)

theorem declares_integrandTables (options : KernelOptions) (pointCount : Nat)
    (integrand : Integrand) :
    Declares D size (integrandTables options pointCount integrand)
      (integrandEntries D integrand) := by
  have htable : ∀ entry ∈ integrand.tables.entries, Declares D size
      [tableDecl options entry.1 entry.2.shape.toList entry.2.values]
      [(entry.1, .table D entry.2.shape.toList entry.2.values)] :=
    fun entry _ => .table options entry.1 entry.2.shape.toList entry.2.values
  have htables := Declares.flatMap htable
  rw [← List.map_eq_flatMap, ← List.map_eq_flatMap] at htables
  exact htables.commented _

theorem declares_elementTables (options : KernelOptions) (integral : Integral) :
    Declares D size (elementTables options integral)
      (integral.integrands.entries.flatMap (integrandEntries D ·.2)) :=
  .commented _ (.flatMap fun entry _ => declares_integrandTables options entry.1 entry.2)

theorem declares_tables {rules : List Stmt}
    (hrules : quadratureTables options integral = .ok rules) :
    Declares D size (rules ++ elementTables options integral) (tableEntries D integral) :=
  (declares_quadratureTables hrules).append (declares_elementTables options integral)

end Kernel

end ElementKernel
