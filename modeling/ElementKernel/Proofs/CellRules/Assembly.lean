import ElementKernel.Proofs.Outcome
import ElementKernel.Quadrature.CellRule

/-!
# Cell rules from rules on the unit interval

Every cell rule is a product of rules on the unit interval, collapsed on simplices.  `assemble` is
that product, so that what holds of a cell rule is a statement about three rules in one dimension.
-/

namespace ElementKernel

namespace Quadrature

variable {α : Type} [Mul α]

/-! ## Products of rules -/

/-- The product of two rules, with a point for each pair of their points. -/
def productRule {β γ δ : Type} (point : β → γ → δ) (r : List (α × β)) (s : List (α × γ)) :
    List (α × δ) :=
  r.flatMap fun x => s.map fun y => (x.1 * y.1, point x.2 y.2)

section

variable {β γ δ : Type} {point : β → γ → δ} {r : List (α × β)} {s : List (α × γ)}

@[simp] theorem length_productRule :
    (productRule point r s).length = r.length * s.length := by
  simp [productRule, List.length_flatMap]

@[simp] theorem mem_productRule {entry : α × δ} :
    entry ∈ productRule point r s ↔
      ∃ x ∈ r, ∃ y ∈ s, (x.1 * y.1, point x.2 y.2) = entry := by
  simp only [productRule, List.mem_flatMap, List.mem_map]

theorem flatMap_productRule {ε : Type} (f : α × δ → List ε) :
    (productRule point r s).flatMap f =
      r.flatMap fun x => s.flatMap fun y => f (x.1 * y.1, point x.2 y.2) := by
  simp only [productRule, List.flatMap_assoc, List.flatMap_map]

end

theorem squareRule_eq (rule : LineRule α) :
    squareRule rule = productRule (fun x y => [x, y]) rule rule :=
  rfl

theorem cubeRule_eq (rule : LineRule α) :
    cubeRule rule =
      productRule (fun p z => [p.1, p.2, z]) (productRule Prod.mk rule rule) rule := by
  rw [productRule, flatMap_productRule]
  rfl

variable [Sub α] [NatCast α]

theorem triangleRule_eq (u v : LineRule α) :
    triangleRule u v = productRule (fun u v => [u * (one - v), v]) u v :=
  rfl

theorem tetrahedronRule_eq (u v w : LineRule α) :
    tetrahedronRule u v w =
      productRule (fun p w => [p.1 * (one - p.2) * (one - w), p.2 * (one - w), w])
        (productRule Prod.mk u v) w := by
  rw [productRule, flatMap_productRule]
  rfl

/-! ## The rule on a cell -/

/-- The rule on a cell from rules on the unit interval for the weights one, `1 - x` and
`(1 - x) ^ 2`. -/
def assemble (u v w : LineRule α) : CellShape → CellRule α
  | .vertex => [(one, [])]
  | .interval => intervalRule u
  | .quadrilateral => squareRule u
  | .hexahedron => cubeRule u
  | .triangle => triangleRule u v
  | .tetrahedron => tetrahedronRule u v w

variable [Add α] [Div α]

theorem pointsPerDirection_eq_ok {degree : Nat} (h : degree + 2 < Word.limit) :
    pointsPerDirection degree = .ok ((degree + 2) / 2) := by
  unfold pointsPerDirection Word.add Word.fit
  rw [if_pos h]
  rfl

namespace LineRules

variable {lines : LineRules α}

omit [Sub α] in
theorem unitRule_eq_ok {m alpha : Nat} {rule : LineRule α}
    (h : lines.weighted m alpha = .ok rule) :
    lines.unitRule m alpha = .ok (toUnitInterval alpha rule) := by
  rw [unitRule, h]
  rfl

theorem cellRule_eq_ok {degree m : Nat} {u v w : LineRule α}
    (hm : pointsPerDirection degree = .ok m) (hu : lines.unitRule m 0 = .ok u)
    (hv : lines.unitRule m 1 = .ok v) (hw : lines.unitRule m 2 = .ok w) (cell : CellShape) :
    lines.cellRule cell degree = .ok (assemble u v w cell) := by
  cases cell with
  | vertex => rfl
  | interval | quadrilateral | hexahedron =>
      simp only [cellRule, hm, hu, bind, Except.bind]
      rfl
  | triangle =>
      simp only [cellRule, hm, hu, hv, bind, Except.bind]
      rfl
  | tetrahedron =>
      simp only [cellRule, hm, hu, hv, hw, bind, Except.bind]
      rfl

end LineRules

end Quadrature

end ElementKernel
