import ElementKernel.Proofs.Scoping.Codes

/-!
# Numbers of values

The sizes of a table that a kernel declares come from other places than its values.  Generation
compares them for element tables and for weights.  The points of a rule are as many as their matrix
has rows, and these are compared with the weights only where a rule is made; a rule that is read from
a file may have any number of them.  Main statement: a kernel declares exactly the values that its
arrays have room for if the rules whose points it declares have one weight for each point.
-/

namespace ElementKernel

open Kernel

/-- An array that is declared with values has one for each of its entries. -/
def ArrayDecl.IsFilled (decl : ArrayDecl) : Prop :=
  ∀ values, decl.values = some values → values.length = decl.sizes.prod

namespace Stmt

/-- Every array that is declared in the tree with values is filled by them. -/
def ArraysFilled (s : Stmt) : Prop := s.Everywhere fun _ t => ∀ decl, t = .array decl → decl.IsFilled

theorem arraysFilled_comment (text : String) : (comment text).ArraysFilled :=
  everywhere_comment.2 nofun

theorem arraysFilled_array {decl : ArrayDecl} : (array decl).ArraysFilled ↔ decl.IsFilled :=
  everywhere_array.trans ⟨fun h => h decl rfl, by rintro h _ ⟨⟩; exact h⟩

theorem arraysFilled_tableDecl {options : KernelOptions} {name : String} {sizes : List Nat}
    {values : List Float} :
    (tableDecl options name sizes values).ArraysFilled ↔ values.length = sizes.prod :=
  arraysFilled_array.trans ⟨fun h => h values rfl, by rintro h _ ⟨⟩; exact h⟩

theorem arraysFilled_commented {comments : List String} {xs : List Stmt} :
    (∀ s ∈ commented comments xs, s.ArraysFilled) ↔ ∀ s ∈ xs, s.ArraysFilled := by
  unfold commented
  split
  next hempty => simp [List.isEmpty_iff.1 hempty]
  next =>
    rw [List.forall_mem_append, and_iff_right]
    exact List.forall_mem_map.2 fun text _ => arraysFilled_comment text

end Stmt

/-! ## Tables -/

/-- The rules whose points are declared have as many points as they are registered for. -/
def Integral.PointsMatch (integral : Integral) : Prop :=
  integral.type.hasStaticQuadrature → ∀ registered ∈ integral.rules.entries, ∀ integrand,
    integral.integrands.get? registered.1 = some integrand →
      0 < registered.2.dimension ∧ integrand.needPoints →
        registered.2.points.rows = registered.1

namespace Kernel

variable {options : KernelOptions} {integral : Integral} {integrand : Integrand}
  {pointCount : Nat} {rule : QuadratureRule} {code : List Stmt}

theorem arraysFilled_ruleTables (h : ruleTables options pointCount rule integrand = .ok code)
    (hsize : rule.pointCount = pointCount) :
    (∀ s ∈ code, s.ArraysFilled) ↔
      (0 < rule.dimension ∧ integrand.needPoints → rule.points.rows = pointCount) := by
  have hweights : (tableDecl options (weightsName pointCount) [pointCount]
      rule.weights).ArraysFilled := by
    rw [Stmt.arraysFilled_tableDecl, List.prod_singleton]
    exact hsize
  have hpoints (hdimension : 0 < rule.dimension) :
      (tableDecl options (pointsName pointCount) [pointCount * rule.dimension]
        rule.flattenedPoints).ArraysFilled ↔ rule.points.rows = pointCount := by
    -- Both counts are multiples of the dimension, which is not zero.
    rw [Stmt.arraysFilled_tableDecl, List.prod_singleton, rule.length_flattenedPoints]
    exact Nat.mul_left_inj (Nat.ne_of_gt hdimension)
  rw [ruleTables_eq_ok h, List.forall_mem_append, and_iff_right]
  · split
    next hneeded => simp [hpoints hneeded.1, hneeded]
    next hneeded => simp [hneeded]
  · split
    · exact List.forall_mem_singleton.2 hweights
    · exact List.forall_mem_nil _

theorem arraysFilled_registeredTables {registered : Nat × QuadratureRule}
    (h : registeredTables options integral registered = .ok code) :
    (∀ s ∈ code, s.ArraysFilled) ↔ ∀ integrand,
      integral.integrands.get? registered.1 = some integrand →
        0 < registered.2.dimension ∧ integrand.needPoints →
          registered.2.points.rows = registered.1 := by
  obtain ⟨hsize, ⟨hnone, rfl⟩ | ⟨integrand, hsome, hcode⟩⟩ := registeredTables_eq_ok h
  · simp [hnone]
  · simp [arraysFilled_ruleTables hcode hsize, hsome]

theorem arraysFilled_quadratureTables (h : quadratureTables options integral = .ok code) :
    (∀ s ∈ code, s.ArraysFilled) ↔ integral.PointsMatch := by
  unfold Integral.PointsMatch
  obtain ⟨hruntime, rfl⟩ | ⟨hstatic, tables, htables, rfl⟩ := quadratureTables_eq_ok h
  · simp [hruntime]
  · rw [Stmt.arraysFilled_commented, List.forall_mem_flatten, forall_prop_of_true hstatic]
    constructor
    · intro hfilled registered hregistered
      obtain ⟨table, htable, hcode⟩ := exists_mem_of_mapM_left htables hregistered
      exact (arraysFilled_registeredTables hcode).1 (hfilled table htable)
    · intro hmatch table htable
      obtain ⟨registered, hregistered, hcode⟩ := exists_mem_of_mapM_right htables htable
      exact (arraysFilled_registeredTables hcode).2 (hmatch registered hregistered)

theorem arraysFilled_elementTables (options : KernelOptions)
    (hfit : ∀ entry ∈ integral.integrands.entries, entry.2.TablesFit) :
    ∀ s ∈ elementTables options integral, s.ArraysFilled := by
  refine Stmt.arraysFilled_commented.2 (List.forall_mem_flatMap.2 fun entry hentry => ?_)
  refine Stmt.arraysFilled_commented.2 (List.forall_mem_map.2 fun (name, table) htable => ?_)
  rw [Stmt.arraysFilled_tableDecl]
  have hvalues := (hfit entry hentry name table (OrderedMap.get?_eq_some_iff.2 htable)).1
  simpa [TableShape.toList, Nat.mul_assoc] using hvalues

/-! ## Code -/

/-- The nodes of a partition declare an array of slots only, which has no values. -/
theorem CodeParts.arraysFilled_statements {target : Target}
    (parts : CodeParts target integral pointCount integrand) (partition : Partition) :
    ∀ s ∈ parts.statements options partition, s.ArraysFilled := by
  intro s hs
  obtain rfl | hs | rfl | hs := mem_statements hs
  · exact Stmt.arraysFilled_comment _
  · obtain ⟨id, t, name, -, -, rfl | ⟨past, value, rfl, -⟩⟩ :=
      mem_definitions (parts.state_eq partition) s hs
    · exact Stmt.everywhere_declare.2 nofun
    · exact Stmt.everywhere_forRange.2
        ⟨nofun, List.forall_mem_singleton.2 (Stmt.everywhere_assignAdd.2 nofun)⟩
  · exact Stmt.arraysFilled_array.2 nofun
  · obtain ⟨k, value, rfl⟩ := exists_slot_of_mem (parts.state_eq partition) s hs
    exact Stmt.everywhere_assign.2 nofun

theorem CodeParts.arraysFilled_code {target : Target}
    (parts : CodeParts target integral pointCount integrand) :
    ∀ s ∈ parts.code options, s.ArraysFilled := by
  refine parts.everywhere_code (fun _ _ _ => nofun) (fun _ => nofun) (fun _ _ => nofun)
    fun partition s hs => ?_
  obtain hs | hs := List.mem_append.1 hs
  · exact parts.arraysFilled_statements partition s hs
  · obtain ⟨entry, -, contribution, -, hcode⟩ := mem_blockCode (parts.updates_eq partition) hs
    obtain ⟨scalar, tables, position, -, -, -, -, -, rfl⟩ := contributionCode_eq_ok hcode
    exact everywhere_nest _ (fun _ _ _ _ _ => nofun) (Stmt.everywhere_assignAdd.2 nofun)

end Kernel

/-! ## Kernels -/

theorem QuadratureRule.rows_eq_of_make {points : PointMatrix} {weights : List Float}
    {rule : QuadratureRule} (h : make points weights = .ok rule) :
    rule.points.rows = rule.pointCount := by
  obtain ⟨_, hlength, h⟩ := bind_eq_ok.1 h
  cases h
  exact Checked.sameLength_eq_ok_iff.1 hlength

namespace Integral

variable {integral : Integral} {target : Target} {options : KernelOptions}
  {kernel : GeneratedKernel}

theorem pointsMatch_of_make {rules : List Stmt}
    (hrules : quadratureTables options integral = .ok rules)
    (hmade : ∀ registered ∈ integral.rules.entries, ∃ points weights,
      QuadratureRule.make points weights = .ok registered.2) :
    integral.PointsMatch := by
  intro hstatic registered hregistered _ _ _
  obtain ⟨hruntime, -⟩ | ⟨-, tables, htables, -⟩ := quadratureTables_eq_ok hrules
  · exact absurd hstatic hruntime
  · obtain ⟨table, -, hcode⟩ := exists_mem_of_mapM_left htables hregistered
    obtain ⟨points, weights, hmake⟩ := hmade registered hregistered
    exact (QuadratureRule.rows_eq_of_make hmake).trans (registeredTables_eq_ok hcode).1

/-- The arrays of a kernel are filled exactly if the rules whose points it declares match their
number of points. -/
theorem arraysFilled_iff_pointsMatch (h : integral.generate target options = .ok kernel) :
    kernel.body.ArraysFilled ↔ integral.PointsMatch := by
  obtain ⟨rules, reset, codes, hfit, hrules, hreset, -, hbody⟩ := generate_eq_ok h
  constructor
  · intro hfilled
    rw [hbody] at hfilled
    refine (arraysFilled_quadratureTables hrules).1 fun s hs => ?_
    exact (Stmt.everywhere_list.1 hfilled).2 s (by simp [hs])
  · intro hmatch
    refine everywhere_body h (fun _ => nofun) (fun rules reset hrules hreset => ?_)
      fun entry _ parts => ⟨nofun, parts.arraysFilled_code⟩
    refine List.forall_mem_append.2 ⟨List.forall_mem_append.2
      ⟨(arraysFilled_quadratureTables hrules).2 hmatch, arraysFilled_elementTables options hfit⟩,
      ?_⟩
    exact forall_mem_tensorReset hreset Stmt.arraysFilled_comment
      (Stmt.everywhere_assign.2 nofun) fun _ => Stmt.everywhere_zeroFill.2 nofun

/-- In a kernel, every array with values has as many of them as its sizes ask for, if the rules whose
points are declared have one weight for each point and only then.  Rules that are made of points and
weights do. -/
theorem generate_arraysFilled (h : integral.generate target options = .ok kernel) :
    (kernel.body.ArraysFilled ↔ integral.PointsMatch) ∧
      ((∀ registered ∈ integral.rules.entries, ∃ points weights,
        QuadratureRule.make points weights = .ok registered.2) → kernel.body.ArraysFilled) := by
  obtain ⟨rules, -, -, -, hrules, -⟩ := generate_eq_ok h
  have hfilled := arraysFilled_iff_pointsMatch h
  exact ⟨hfilled, fun hmade => hfilled.2 (pointsMatch_of_make hrules hmade)⟩

/-- An integrand that declares the weights and points of its rule, and nothing that uses them. -/
def ruleOnly (rule : QuadratureRule) : Integral where
  type := .cell
  tensorShape := []
  rules := OrderedMap.ofList [(2, rule)]
  integrands := OrderedMap.ofList
    [(2, { tables := OrderedMap.ofList [], needWeights := true, needPoints := true })]

theorem generate_arraysFilled_twoPoints : ∃ kernel,
    (ruleOnly twoPointRule).generate cellTarget {} = .ok kernel ∧ kernel.body.ArraysFilled := by
  have hkernel := eq_ok_get (x := (ruleOnly twoPointRule).generate cellTarget {})
    (by decide +kernel)
  refine ⟨_, hkernel, (generate_arraysFilled hkernel).2 fun registered hregistered => ?_⟩
  obtain rfl := List.mem_singleton.1 hregistered
  exact ⟨twoPointRule.points, twoPointRule.weights, rfl⟩

/-- Three points with the weights of two. -/
def unevenRule : QuadratureRule := ⟨.ofRows 1 [[0.25], [0.5], [0.75]], [0.5, 0.5]⟩

theorem not_generate_arraysFilled :
    ¬∀ (integral : Integral) (target : Target) (options : KernelOptions) (kernel : GeneratedKernel),
      integral.generate target options = .ok kernel → kernel.body.ArraysFilled := by
  intro hfilled
  have hkernel := eq_ok_get (x := (ruleOnly unevenRule).generate cellTarget {})
    (by decide +kernel)
  have hmatch := (arraysFilled_iff_pointsMatch hkernel).1 (hfilled _ _ _ _ hkernel)
  have hrows : 3 = 2 := hmatch rfl _ List.mem_cons_self _ rfl (by decide)
  exact absurd hrows (by decide)

end Integral

end ElementKernel
