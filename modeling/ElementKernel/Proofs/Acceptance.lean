import ElementKernel.Proofs.NodeAcceptance

/-!
# Exact acceptance of integrals

Generation for C returns a kernel exactly for the acceptable integrals whose sizes fit the machine
word.  For Rust the operators of the integral have to be among those that the language has.
-/

namespace ElementKernel

open Kernel

variable {dialect : Dialect} {type : IntegralType} {options : TargetOptions} {pointCount : Nat}

namespace Kernel

variable {integrand : Integrand} {partition : Partition}

/-! ## Contributions -/

theorem axisFactors_decides (block : DofBlock) (axis : Axis) :
    (axisFactors ⟨dialect, type, options⟩ pointCount integrand block axis).Decides
      (axis.Acceptable type integrand) True := by
  unfold axisFactors Axis.Acceptable
  dsimp only
  split
  next hfree =>
    refine (Attempt.Decides.pure []).congr (iff_of_true trivial ?_) Iff.rfl
    exact hfree.imp_right Or.inl
  next hread =>
    obtain ⟨hquadrature, hones⟩ := not_or.1 hread
    simp only [hquadrature, hones, false_or]
    split
    next hrange => exact .reject _ fun h => hrange h.2.1
    next hrange =>
      split
      next hzeros => exact .reject _ fun h => h.1 hzeros
      next hzeros =>
        split
        next hargument => exact .reject _ fun h => by simp [hargument] at h
        next t hargument =>
          refine ((Target.access_decides t (some axis.range) pointCount).bindFree
            fun e => .pure [e]).congr ?_ ?_
          · simp [hzeros, not_not.1 hrange, hargument]
          · simp [hones]

theorem scalarFactors_isOk_iff {accesses : Accesses} (factor : NodeId)
    (haccessible : Accessible integrand partition [] accesses) :
    (∃ factors, scalarFactors integrand accesses factor = .ok factors) ↔
      integrand.graph.isLiteralOne factor ∨ integrand.Computed partition factor := by
  have hcomputed := haccessible factor (by simp)
  unfold scalarFactors
  split
  next hone => simp [hone]
  next hone =>
    rw [← hcomputed]
    cases hlookup : accesses.lookup factor <;> simp [hone]

theorem flattenOuter_decides (outer : List (Expr × Nat)) (flat : Expr) (stride : Nat) :
    (flattenOuter outer flat stride).Decides (Word.ProductFits stride (outer.map Prod.snd)) := by
  induction outer generalizing flat stride with
  | nil => exact .pure flat
  | cons entry outer ih =>
      obtain ⟨index, size⟩ := entry
      unfold flattenOuter
      refine (Word.mul_decides stride size).bind fun n hn => ?_
      rw [Word.mul_eq_ok hn]
      exact ih _ _

theorem flatIndex_decides {indices : List Expr} {shape : List Nat}
    (h : indices.length = shape.length) :
    (flatIndex indices shape).Decides (StridesFit shape) := by
  have hsizes : ((indices.zip shape).reverse).map Prod.snd = shape.reverse := by
    rw [List.map_reverse, List.map_snd_zip (by omega)]
  unfold flatIndex StridesFit
  rw [Checked.sameLength, if_pos h, ← hsizes]
  cases hzip : (indices.zip shape).reverse with
  | nil => exact .pure _
  | cons entry outer => exact flattenOuter_decides outer _ _

theorem length_axes {block : DofBlock} {contribution : BlockContribution}
    (hblock : block.length = contribution.ranges.length)
    (harguments : contribution.arguments.length = contribution.ranges.length) :
    (axes block contribution).length = contribution.ranges.length := by
  simp [axes, hblock, harguments]

theorem contributionCode_decides {integral : Integral} {accesses : Accesses} (block : DofBlock)
    (contribution : BlockContribution)
    (haccessible : Accessible integrand partition [] accesses) :
    (contributionCode ⟨dialect, type, options⟩ integral pointCount integrand accesses block
      contribution).Decides
      (contribution.Acceptable type integral.tensorShape.length integrand partition block)
      (StridesFit integral.tensorShape) := by
  have hfactor := scalarFactors_isOk_iff contribution.factor haccessible
  unfold contributionCode
  dsimp only
  split
  next hrank =>
    refine .reject _ fun h => ?_
    rw [h.blockRank, h.argumentRank, h.rangeRank] at hrank
    simp at hrank
  next hrank =>
    simp only [not_or, ne_eq, not_not] at hrank
    obtain ⟨hblock, harguments, htensor⟩ := hrank
    split
    next reason hreason =>
      refine .reject _ fun h => ?_
      obtain ⟨factors, hfactors⟩ := hfactor.2 h.factor
      rw [hreason] at hfactors
      cases hfactors
    next scalar hscalar =>
      have hlength : ((axes block contribution).map (·.index pointCount)).length =
          integral.tensorShape.length := by
        rw [List.length_map, length_axes hblock harguments, htensor]
      have hindex := Attempt.Decides.lift (ε := KernelError) (flatIndex_decides hlength)
      refine ((Attempt.Decides.mapM (fun axis _ => axisFactors_decides block axis)).bind
        fun tables _ => hindex.bindFree fun _ => .pure _).congr ?_ (by simp)
      rw [and_iff_left trivial]
      exact ⟨fun h => ⟨by omega, by omega, htensor.symm, hfactor.1 ⟨scalar, hscalar⟩, h⟩,
        fun h => h.axes⟩

theorem blockCode_decides {integral : Integral} {accesses : Accesses}
    (haccessible : Accessible integrand partition [] accesses) :
    (blockCode ⟨dialect, type, options⟩ integral pointCount integrand partition accesses).Decides
      (∀ entry ∈ integrand.contributions.get partition, ∀ contribution ∈ entry.2,
        contribution.Acceptable type integral.tensorShape.length integrand partition entry.1)
      (∀ entry ∈ integrand.contributions.get partition, ∀ _ ∈ entry.2,
        StridesFit integral.tensorShape) := by
  refine ((Attempt.Decides.mapM fun entry _ => Attempt.Decides.mapM fun contribution _ =>
    contributionCode_decides entry.1 contribution haccessible).bindFree
      fun _ => .pure _).congr ?_ ?_
  · simp only [List.mem_mergeSort]
  · simp only [List.mem_mergeSort]

/-! ## Integrands -/

theorem integrandCode_decides {integral : Integral} (kernelOptions : KernelOptions)
    (hdata : integrand.DataComplete) :
    (integrandCode ⟨dialect, type, options⟩ kernelOptions integral pointCount integrand).Decides
      ((∀ partition, integrand.PartitionAcceptable type integral.tensorShape.length partition) ∧
        ∀ partition, ∀ node ∈ integrand.partitionNodes partition,
          Integrand.NodeSupported dialect node)
      (∀ partition, integrand.PartitionFits integral.tensorShape partition) := by
  have hstart := accessible_nil hdata
  refine ((partitionState_decides hstart).bind fun piecewise hpiecewise =>
    have hcomputed := accessible_of_partitionState hstart hpiecewise
    (blockCode_decides hcomputed).bind fun _ _ =>
      have hvarying := hcomputed.varying hdata
      (partitionState_decides hvarying).bind fun _ hstate =>
        (blockCode_decides (accessible_of_partitionState hvarying hstate)).bindFree
          fun _ => .pure _).congr ?_ ?_
  · constructor
    · rintro ⟨hnodes, hblocks, hnodes', hblocks'⟩
      constructor
      · rintro (_ | _)
        · exact ⟨fun node hnode => (hnodes node hnode).1, hblocks⟩
        · exact ⟨fun node hnode => (hnodes' node hnode).1, hblocks'⟩
      · rintro (_ | _)
        · exact fun node hnode => (hnodes node hnode).2
        · exact fun node hnode => (hnodes' node hnode).2
    · rintro ⟨h, hsupported⟩
      exact ⟨fun node hnode => ⟨(h .piecewise).nodes node hnode, hsupported .piecewise node hnode⟩,
        (h .piecewise).contributions,
        fun node hnode => ⟨(h .varying).nodes node hnode, hsupported .varying node hnode⟩,
        (h .varying).contributions⟩
  · constructor
    · rintro ⟨hnodes, hblocks, hnodes', hblocks'⟩ (_ | _)
      · exact ⟨hnodes, hblocks⟩
      · exact ⟨hnodes', hblocks'⟩
    · intro h
      exact ⟨(h .piecewise).nodes, (h .piecewise).strides,
        (h .varying).nodes, (h .varying).strides⟩

/-! ## Tables -/

end Kernel

namespace Integrand

theorem checkTable_decides (name : String) (table : ElementTable) :
    (checkTable name table).Decides
      (table.values.length = table.shape.entities * table.shape.points * table.shape.dofs)
      (Word.ProductFits 1 table.shape.toList) := by
  unfold checkTable
  have hcount : ∀ n,
      (liftM (Word.product table.shape.toList) : Attempt Inconsistency Nat) = .ok n →
      (if n ≠ table.values.length then
        Attempt.reject (.tableSize name table.shape table.values.length)
      else pure () : Attempt Inconsistency Unit).Decides
        (table.values.length = table.shape.entities * table.shape.points * table.shape.dofs)
        True := by
    intro n hn
    have hproduct := Word.product_eq_ok (liftM_eq_ok.1 hn)
    simp only [TableShape.toList, List.foldl_cons, List.foldl_nil, Nat.one_mul] at hproduct
    split
    next hne => exact .reject _ fun h => hne (by rw [hproduct, h])
    next heq =>
      exact (Attempt.Decides.pure ()).congr
        (iff_of_true trivial (by rw [← not_not.1 heq, hproduct])) Iff.rfl
  exact ((Attempt.Decides.lift (Word.product_decides table.shape.toList)).bind hcount).congr
    (and_iff_right trivial) (and_iff_left trivial)

theorem validate_decides (integrand : Integrand) :
    integrand.validate.Decides integrand.DataComplete
      (∀ table ∈ integrand.tables.entries, Word.ProductFits 1 table.2.shape.toList) := by
  unfold validate
  dsimp only
  split
  next hdata =>
    refine .reject _ fun h => ?_
    simp [h.partitions, h.ranges] at hdata
  next hdata =>
    simp only [not_or, ne_eq, not_not] at hdata
    refine (Attempt.Decides.forM fun entry _ => checkTable_decides entry.1 entry.2).congr ?_ Iff.rfl
    exact ⟨fun h => ⟨hdata.1, hdata.2, h⟩, fun h => h.tables⟩

end Integrand

namespace Kernel

theorem ruleTables_decides (kernelOptions : KernelOptions) (rule : QuadratureRule) :
    (ruleTables kernelOptions pointCount rule integrand).Decides
      (0 < rule.dimension → integrand.needPoints → pointCount * rule.dimension < Word.limit) := by
  unfold ruleTables
  dsimp only
  split
  next hpoints =>
    exact ((Word.mul_decides pointCount rule.dimension).bindFree fun _ => .pure _).congr
      (by simp [hpoints.1, hpoints.2])
  next hpoints =>
    refine (Checked.Decides.pure _).congr (iff_of_true trivial fun hdimension hneeded => ?_)
    exact absurd ⟨hdimension, hneeded⟩ hpoints

theorem registeredTables_decides (kernelOptions : KernelOptions) (integral : Integral)
    (entry : Nat × QuadratureRule) :
    (registeredTables kernelOptions integral entry).Decides (entry.2.pointCount = entry.1)
      (∀ integrand, integral.integrands.get? entry.1 = some integrand →
        0 < entry.2.dimension → integrand.needPoints →
          entry.1 * entry.2.dimension < Word.limit) := by
  obtain ⟨pointCount, rule⟩ := entry
  unfold registeredTables
  dsimp only
  split
  next hsize => exact .reject _ hsize
  next hsize =>
    split
    next hnone => exact (Attempt.Decides.pure []).congr (by simpa using hsize) (by simp [hnone])
    next integrand hsome =>
      refine (Attempt.Decides.lift (ruleTables_decides kernelOptions rule)).congr
        (by simpa using hsize) (by simp [hsome])

theorem quadratureTables_decides (kernelOptions : KernelOptions) (integral : Integral) :
    (quadratureTables kernelOptions integral).Decides
      (integral.type.hasStaticQuadrature → integral.RulesComplete)
      (integral.type.hasStaticQuadrature → ∀ entry ∈ integral.rules.entries,
        ∀ integrand, integral.integrands.get? entry.1 = some integrand →
          0 < entry.2.dimension → integrand.needPoints →
            entry.1 * entry.2.dimension < Word.limit) := by
  unfold quadratureTables
  split
  next hstatic =>
    simp only [hstatic, true_implies]
    split
    next missing hmissing =>
      refine .reject _ fun h => ?_
      have hkey := List.mem_of_find?_eq_some hmissing
      have habsent := List.find?_some hmissing
      obtain ⟨entry, hentry, rfl⟩ := List.mem_map.1 hkey
      obtain ⟨rule, hrule⟩ := h.registered entry hentry
      simp [OrderedMap.contains, hrule] at habsent
    next hnone =>
      have hregistered : ∀ entry ∈ integral.integrands.entries,
          ∃ rule, integral.rules.get? entry.1 = some rule := by
        intro entry hentry
        have hkey := List.find?_eq_none.1 hnone entry.1 (List.mem_map_of_mem hentry)
        rw [← Option.isSome_iff_exists, Option.isSome_iff_ne_none]
        simpa [OrderedMap.contains] using hkey
      refine ((Attempt.Decides.mapM fun entry _ =>
        registeredTables_decides kernelOptions integral entry).bindFree fun _ => .pure _).congr
          ⟨fun h => ⟨hregistered, h⟩, fun h => h.size⟩ Iff.rfl
  next hruntime =>
    exact (Attempt.Decides.pure []).congr (by simp [hruntime]) (by simp [hruntime])

theorem tensorReset_decides (integral : Integral) :
    (tensorReset integral).Decides (Word.ProductFits 1 integral.tensorShape) :=
  (Word.product_decides integral.tensorShape).bindFree fun _ => .pure _

end Kernel

namespace Integral

/-- What generation comes to in either language: a kernel for acceptable integrals whose operators
the language has and whose sizes fit the machine word, a fault only where they do not fit, an error
only for the other integrals. -/
theorem generate_decides_in (dialect : Dialect) (integral : Integral) (type : IntegralType)
    (options : TargetOptions) (kernelOptions : KernelOptions) :
    (integral.generate ⟨dialect, type, options⟩ kernelOptions).Decides
      (integral.Acceptable type ∧ integral.Supported dialect) integral.SizesFit := by
  unfold generate
  split
  next hexpression => exact .reject _ fun h => h.1.integrates hexpression
  next hintegrates =>
    have hentry : ∀ entry ∈ integral.integrands.entries,
        (entry.2.validate.mapError KernelError.malformed).Decides entry.2.DataComplete
          (∀ table ∈ entry.2.tables.entries, Word.ProductFits 1 table.2.shape.toList) :=
      fun entry _ => entry.2.validate_decides.mapError KernelError.malformed
    have hcheck := Attempt.Decides.forM hentry
    refine (hcheck.bind fun _ hchecked =>
      have hdata := (hcheck.ok _ hchecked).1
      (quadratureTables_decides kernelOptions integral).bind fun _ _ =>
        (Attempt.Decides.lift (tensorReset_decides integral)).bind fun _ _ =>
          (Attempt.Decides.mapM fun entry hentry =>
            integrandCode_decides kernelOptions (hdata entry hentry)).bindFree
              fun _ => .pure _).congr ?_ ?_
    · constructor
      · rintro ⟨hdata, hrules, -, hpartitions⟩
        exact ⟨⟨hintegrates, hdata, hrules, fun entry hentry => (hpartitions entry hentry).1⟩,
          fun entry hentry => (hpartitions entry hentry).2⟩
      · rintro ⟨h, hsupported⟩
        exact ⟨h.data, h.rules, trivial,
          fun entry hentry => ⟨h.partitions entry hentry, hsupported entry hentry⟩⟩
    · exact ⟨fun ⟨htables, hpoints, htensor, hpartitions⟩ =>
          ⟨htables, hpoints, htensor, hpartitions⟩,
        fun h => ⟨h.tables, h.points, h.tensor, h.partitions⟩⟩

theorem supported_c (integral : Integral) : integral.Supported .c := by
  rintro entry - partition ⟨id, t | ⟨op, operands⟩⟩ -
  · trivial
  · trivial

theorem generate_decides (integral : Integral) (type : IntegralType) (options : TargetOptions)
    (kernelOptions : KernelOptions) :
    (integral.generate ⟨.c, type, options⟩ kernelOptions).Decides (integral.Acceptable type)
      integral.SizesFit :=
  (generate_decides_in .c integral type options kernelOptions).congr
    (and_iff_left integral.supported_c) Iff.rfl

/-- Generation for C returns a kernel exactly for the acceptable integrals whose sizes fit the
machine word; it faults only by overflow of sizes that do not fit, and it reports an error only for
integrals that are not acceptable. -/
theorem generate_c_exact (integral : Integral) (type : IntegralType) (options : TargetOptions)
    (kernelOptions : KernelOptions) :
    ((∃ kernel, integral.generate ⟨.c, type, options⟩ kernelOptions = .ok kernel) ↔
        integral.Acceptable type ∧ integral.SizesFit) ∧
      (∀ f, integral.generate ⟨.c, type, options⟩ kernelOptions = .error (.fault f) →
        f = .overflow ∧ ¬integral.SizesFit) ∧
      ∀ e, integral.generate ⟨.c, type, options⟩ kernelOptions = .error (.error e) →
        ¬integral.Acceptable type :=
  have h := integral.generate_decides type options kernelOptions
  ⟨h.exists_ok_iff, h.fault, h.error⟩

end Integral

end ElementKernel
