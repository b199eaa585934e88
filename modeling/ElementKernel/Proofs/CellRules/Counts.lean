import ElementKernel.Element.Reference
import ElementKernel.Proofs.CellRules.Assembly
import ElementKernel.Quadrature.Reference
import Mathlib.Algebra.Ring.Nat

/-!
# Numbers of quadrature points

A quadrature element has one degree of freedom for each point of the rule of its degree.  The
element counts the points as a power; the rule puts them together from halves of Gauss rules, from
the eigenvalues of matrices and from products of rules.  Main statement: both counts agree, on every
cell and whatever the numbers in the rules are.
-/

namespace ElementKernel

namespace Quadrature

/-! ## Rules in one dimension -/

theorem length_upperHalf (n : Nat) : (upperHalf n).length = (n + 1) / 2 := by
  simp [upperHalf]

theorem length_mirrored (n : Nat) : (mirrored n).length = n / 2 := by
  simp only [mirrored, List.length_map, List.length_take, length_upperHalf]
  omega

theorem length_halves (n : Nat) : (ascending (upperHalf n ++ mirrored n)).length = n := by
  rw [length_ascending, List.length_append, length_upperHalf, length_mirrored]
  omega

theorem gauss_eq_ok {n : Nat} (h : 0 < n) :
    gauss n = .ok (ascending (upperHalf n ++ mirrored n)) := by
  rw [gauss, if_neg (Nat.ne_of_gt h)]
  exact bind_eq_ok.2 ⟨(), if_pos (length_halves n), rfl⟩

/-- The exponent of the weight function is the largest signed number of 32 bits, so that one more
cannot be represented. -/
def ExponentOverflows (alpha : Nat) : Prop := alpha % 2 ^ 32 = 2 ^ 31 - 1

instance (alpha : Nat) : Decidable (ExponentOverflows alpha) :=
  inferInstanceAs (Decidable (_ = _))

theorem exists_weightIntegral {alpha : Nat} (h : ¬ExponentOverflows alpha) :
    ∃ total, weightIntegral alpha = .ok total := by
  have hexponent : Int.bmod alpha 0x100000000 + 1 < 0x80000000 := by
    unfold ExponentOverflows at h
    rw [Int.bmod_def]
    omega
  unfold weightIntegral weightExponent
  simp only [if_pos hexponent]
  exact ⟨_, rfl⟩

theorem exists_gaussJacobi {solver : EigenSolver} (hsolver : ∀ m, (solver m).length = m.size)
    {n alpha : Nat} (hn : 0 < n) (halpha : ¬ExponentOverflows alpha) :
    ∃ rule, gaussJacobiWith solver n alpha = .ok rule ∧ rule.length = n := by
  obtain ⟨total, htotal⟩ := exists_weightIntegral halpha
  have hpairs : (solver (jacobiMatrix n alpha)).length = n := hsolver _
  have hget : ∀ i ∈ List.range n, ∃ entry,
      (Checked.get (solver (jacobiMatrix n alpha)) i >>= fun pair =>
        pure (total * pair.2, pair.1) : Checked (Float × Float)) = .ok entry := by
    intro i hi
    have hlt : i < (solver (jacobiMatrix n alpha)).length := by simpa [hpairs] using hi
    exact ⟨_, bind_eq_ok.2 ⟨_, Checked.get_eq_ok_iff.2 (List.getElem?_eq_getElem hlt), rfl⟩⟩
  obtain ⟨entries, hentries⟩ := exists_mapM_eq_ok.2 hget
  refine ⟨ascending entries, ?_, ?_⟩
  · rw [gaussJacobiWith, if_neg (Nat.ne_of_gt hn)]
    exact bind_eq_ok.2 ⟨total, htotal, bind_eq_ok.2 ⟨entries, hentries, rfl⟩⟩
  · rw [length_ascending, ← (mapM_eq_ok.1 hentries).length_eq, List.length_range]

/-! ## Rules on cells -/

section

variable {α : Type} [Add α] [Sub α] [Mul α] [Div α] [NatCast α]

omit [Sub α] in
@[simp] theorem length_toUnitInterval (alpha : Nat) (rule : LineRule α) :
    (toUnitInterval alpha rule).length = rule.length := by
  simp [toUnitInterval]

omit [Add α] [Div α] in
theorem length_assemble {u v w : LineRule α} {m : Nat} (hu : u.length = m) (hv : v.length = m)
    (hw : w.length = m) (cell : CellShape) :
    (assemble u v w cell).length = m ^ cell.dimension := by
  cases cell <;>
    simp [assemble, intervalRule, squareRule_eq, cubeRule_eq, triangleRule_eq, tetrahedronRule_eq,
      CellShape.dimension, Nat.pow_succ, hu, hv, hw]

omit [Add α] [Div α] in
theorem length_of_mem_assemble {u v w : LineRule α} {cell : CellShape} {entry : α × List α}
    (h : entry ∈ assemble u v w cell) : entry.2.length = cell.dimension := by
  cases cell with
  | vertex =>
      obtain rfl := List.mem_singleton.1 h
      rfl
  | interval =>
      obtain ⟨_, -, rfl⟩ := List.mem_map.1 h
      rfl
  | triangle =>
      rw [assemble, triangleRule_eq] at h
      obtain ⟨_, -, _, -, rfl⟩ := mem_productRule.1 h
      rfl
  | quadrilateral =>
      rw [assemble, squareRule_eq] at h
      obtain ⟨_, -, _, -, rfl⟩ := mem_productRule.1 h
      rfl
  | tetrahedron =>
      rw [assemble, tetrahedronRule_eq] at h
      obtain ⟨_, -, _, -, rfl⟩ := mem_productRule.1 h
      rfl
  | hexahedron =>
      rw [assemble, cubeRule_eq] at h
      obtain ⟨_, -, _, -, rfl⟩ := mem_productRule.1 h
      rfl

end

end Quadrature

/-! ## Points by position -/

namespace PointMatrix

theorem getElem?_ofFunction {rows columns i j : Nat} (f : Nat → Nat → Float) (hi : i < rows)
    (hj : j < columns) : (ofFunction rows columns f).entries[j * rows + i]? = some (f i j) := by
  have hrows : rows ≠ 0 := by omega
  simp only [ofFunction, if_neg hrows]
  induction columns with
  | zero => omega
  | succ n ih =>
      have hlength : ((List.range n).flatMap fun j => (List.range rows).map fun i => f i j).length =
          n * rows := by
        simp [List.length_flatMap]
      rw [List.range_succ, List.flatMap_append]
      obtain hlt | rfl := Nat.lt_or_eq_of_le (Nat.le_of_lt_succ hj)
      · rw [List.getElem?_append_left, ih hlt]
        rw [hlength]
        have := Nat.mul_le_mul_right rows (Nat.succ_le_of_lt hlt)
        rw [Nat.succ_mul] at this
        omega
      · rw [List.getElem?_append_right (by omega), hlength]
        simp [hi]

theorem row_ofFunction {rows columns i : Nat} (f : Nat → Nat → Float) (hi : i < rows) :
    (ofFunction rows columns f).row i = (List.range columns).map (f i) := by
  unfold row
  rw [← List.filterMap_eq_map]
  refine List.filterMap_congr fun j hj => ?_
  exact getElem?_ofFunction f hi (List.mem_range.1 hj)

theorem row_ofRows {columns i : Nat} {points : List (List Float)} {point : List Float}
    (hpoint : points[i]? = some point) (hlength : point.length = columns) :
    (ofRows columns points).row i = point := by
  obtain ⟨hi, -⟩ := List.getElem?_eq_some_iff.1 hpoint
  rw [ofRows, row_ofFunction _ hi, ← hlength]
  refine List.ext_getElem (by simp) fun j _ hj => ?_
  simp [hpoint, List.getElem?_eq_getElem hj]

end PointMatrix

namespace QuadratureRule

theorem mapM_pointAt (rule : QuadratureRule) :
    (List.range rule.points.rows).mapM rule.pointAt =
      .ok ((List.range rule.points.rows).map rule.points.row) := by
  rw [mapM_eq_ok, List.forall₂_map_right_iff, List.forall₂_same]
  intro i hi
  exact if_pos (List.mem_range.1 hi)

/-- The rule of some weights and points has these points, by position and one after the other. -/
theorem exists_ofCellRule {columns : Nat} {entries : Quadrature.CellRule Float}
    (hlength : ∀ entry ∈ entries, entry.2.length = columns) :
    ∃ rule, ofCellRule columns entries = .ok rule ∧ rule.pointCount = entries.length ∧
      rule.points.rows = entries.length ∧ rule.dimension = columns ∧
      (List.range entries.length).mapM rule.pointAt = .ok (entries.map (·.2)) ∧
      rule.flattenedPoints = (entries.map (·.2)).flatten := by
  let rule : QuadratureRule :=
    ⟨PointMatrix.ofRows columns (entries.map (·.2)), entries.map (·.1)⟩
  have hrows : rule.points.rows = entries.length := List.length_map _
  have hpoints : (List.range entries.length).map rule.points.row = entries.map (·.2) := by
    refine List.ext_getElem (by simp) fun i hi _ => ?_
    have hlt : i < entries.length := by simpa using hi
    simp only [List.getElem_map, List.getElem_range]
    exact PointMatrix.row_ofRows (by simp [hlt]) (hlength _ (List.getElem_mem hlt))
  refine ⟨rule, ?_, List.length_map _, hrows, rfl, ?_, ?_⟩
  · unfold ofCellRule make
    exact bind_eq_ok.2 ⟨(), if_pos (hrows.trans (List.length_map _).symm), rfl⟩
  · rw [← hpoints, ← hrows]
    exact mapM_pointAt rule
  · rw [← hpoints, ← hrows]
    exact flattenedPoints_eq rule

end QuadratureRule

/-! ## Rules and elements -/

namespace Quadrature

theorem exists_unitRule {solver : EigenSolver} (hsolver : ∀ m, (solver m).length = m.size)
    {m alpha : Nat} (hm : 0 < m) (halpha : ¬ExponentOverflows alpha) :
    ∃ rule, (LineRules.ofSolver solver).unitRule m alpha = .ok rule ∧ rule.length = m := by
  have hweighted : ∃ rule, (LineRules.ofSolver solver).weighted m alpha = .ok rule ∧
      rule.length = m := by
    unfold LineRules.weighted
    split
    · exact ⟨_, gauss_eq_ok hm, length_halves m⟩
    · exact exists_gaussJacobi hsolver hm halpha
  obtain ⟨rule, hrule, hlength⟩ := hweighted
  exact ⟨_, LineRules.unitRule_eq_ok hrule, by rw [length_toUnitInterval, hlength]⟩

theorem exists_cellRule {solver : EigenSolver} (hsolver : ∀ m, (solver m).length = m.size)
    {degree : Nat} (hdegree : degree + 2 < Word.limit) (cell : CellShape) :
    ∃ entries, (LineRules.ofSolver solver).cellRule cell degree = .ok entries ∧
      entries.length = ((degree + 2) / 2) ^ cell.dimension ∧
      ∀ entry ∈ entries, entry.2.length = cell.dimension := by
  have hm : 0 < (degree + 2) / 2 := by omega
  obtain ⟨u, hu, hulength⟩ := exists_unitRule hsolver hm (by decide : ¬ExponentOverflows 0)
  obtain ⟨v, hv, hvlength⟩ := exists_unitRule hsolver hm (by decide : ¬ExponentOverflows 1)
  obtain ⟨w, hw, hwlength⟩ := exists_unitRule hsolver hm (by decide : ¬ExponentOverflows 2)
  exact ⟨_, LineRules.cellRule_eq_ok (pointsPerDirection_eq_ok hdegree) hu hv hw cell,
    length_assemble hulength hvlength hwlength cell, fun _ => length_of_mem_assemble⟩

end Quadrature

theorem ElementDescriptor.exists_reference_quadrature {cell : CellShape} {degree : Nat}
    (hdegree : degree + 2 < Word.limit)
    (hcount : ((degree + 2) / 2) ^ cell.dimension < Word.limit) :
    ∃ element, ElementDescriptor.reference (.quadrature cell degree) = .ok element ∧
      element.spaceDimension = ((degree + 2) / 2) ^ cell.dimension := by
  have hpower : Word.pow ((degree + 2) / 2) cell.dimension =
      .ok (((degree + 2) / 2) ^ cell.dimension) :=
    Word.fit_eq_ok_iff.2 ⟨rfl, hcount⟩
  have hinfo : ElementDescriptor.info (.quadrature cell degree) =
      .ok (.simple cell (((degree + 2) / 2) ^ cell.dimension) 1 .affine) := by
    rw [ElementDescriptor.info]
    exact bind_eq_ok.2 ⟨_, liftM_eq_ok.2 (Quadrature.pointsPerDirection_eq_ok hdegree),
      bind_eq_ok.2 ⟨_, liftM_eq_ok.2 hpower, rfl⟩⟩
  exact ⟨_, bind_eq_ok.2 ⟨_, hinfo, rfl⟩, rfl⟩

namespace ReferenceQuadrature

open Quadrature

/-- Quadrature elements and quadrature rules agree in the number of points, and the points of a rule
are those of its cell, by position and one after the other.  Gauss rules have as many points as they
are asked for. -/
theorem rule_agrees {solver : EigenSolver} (hsolver : ∀ m, (solver m).length = m.size) :
    (∀ (provider : ReferenceQuadrature) (cell : CellShape) (degree : Nat),
      degree ≤ provider.maxDegree → degree + 2 < Word.limit →
      ((degree + 2) / 2) ^ cell.dimension < Word.limit →
      ∃ entries rule element,
        (LineRules.ofSolver solver).cellRule cell degree = .ok entries ∧
        provider.ruleFrom (.ofSolver solver) cell degree = .ok rule ∧
        ElementDescriptor.reference (.quadrature cell degree) = .ok element ∧
        rule.weights.length = element.spaceDimension ∧
        rule.points.rows = element.spaceDimension ∧
        rule.dimension = cell.dimension ∧
        (List.range rule.pointCount).mapM rule.pointAt = .ok (entries.map (·.2)) ∧
        rule.flattenedPoints = (entries.map (·.2)).flatten) ∧
      ∀ n, 0 < n →
        (∃ rule, gauss n = .ok rule ∧ rule.length = n) ∧
        ∀ alpha, ¬ExponentOverflows alpha →
          ∃ rule, gaussJacobiWith solver n alpha = .ok rule ∧ rule.length = n := by
  constructor
  · intro provider cell degree hmax hdegree hcount
    obtain ⟨entries, hentries, hlength, hpoints⟩ := exists_cellRule hsolver hdegree cell
    obtain ⟨rule, hrule, hweights, hrows, hdimension, hat, hflattened⟩ :=
      QuadratureRule.exists_ofCellRule hpoints
    obtain ⟨element, helement, hspace⟩ :=
      ElementDescriptor.exists_reference_quadrature hdegree hcount
    have hprovided : provider.ruleFrom (.ofSolver solver) cell degree = .ok rule := by
      rw [ruleFrom, if_neg (Nat.not_lt.2 hmax)]
      exact bind_eq_ok.2 ⟨_, liftM_eq_ok.2 hentries, liftM_eq_ok.2 hrule⟩
    rw [← hlength] at hspace
    refine ⟨entries, rule, element, hentries, hprovided, helement, ?_, ?_, hdimension, ?_,
      hflattened⟩
    · rw [hspace, ← hweights, QuadratureRule.pointCount]
    · rw [hspace, hrows]
    · rw [hweights, hat]
  · intro n hn
    refine ⟨⟨_, gauss_eq_ok hn, length_halves n⟩, fun alpha halpha => ?_⟩
    exact exists_gaussJacobi hsolver hn halpha

/-- Bisection finds as many eigenvalues as a matrix has, so its rule of degree three on a
tetrahedron has eight points. -/
theorem rule_agrees_tetrahedron :
    (∀ m : Tridiagonal, m.eigenpairs.length = m.size) ∧
      ∃ rule, (⟨30⟩ : ReferenceQuadrature).rule .tetrahedron 3 = .ok rule ∧
        rule.points.rows = 8 := by
  have hsolver : ∀ m : Tridiagonal, m.eigenpairs.length = m.size := Tridiagonal.length_eigenpairs
  refine ⟨hsolver, ?_⟩
  obtain ⟨entries, rule, element, -, hrule, helement, -, hrows, -⟩ :=
    (rule_agrees hsolver).1 ⟨30⟩ .tetrahedron 3 (by decide) (by decide) (by decide)
  refine ⟨rule, hrule, hrows.trans ?_⟩
  have hinfo : (ElementDescriptor.reference (.quadrature .tetrahedron 3)).toOption.map
      (·.spaceDimension) = some 8 := by decide
  rw [helement] at hinfo
  exact Option.some.inj hinfo

end ReferenceQuadrature

end ElementKernel
