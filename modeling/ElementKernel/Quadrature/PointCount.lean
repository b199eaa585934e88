import ElementKernel.Word

/-!
The number of points per coordinate direction of a Gauss rule.
-/

namespace ElementKernel.Quadrature

/-- With `m` points a Gauss rule is exact up to degree `2 * m - 1`, so this many suffice. -/
def pointsPerDirection (degree : Nat) : Checked Nat := do
  return (← Word.add degree 2) / 2

theorem degree_lt_of_pointsPerDirection {degree m : Nat} (h : pointsPerDirection degree = .ok m) :
    degree ≤ 2 * m - 1 ∧ 0 < m := by
  unfold pointsPerDirection Word.add Word.fit at h
  split at h
  · obtain rfl : (degree + 2) / 2 = m := Except.ok.inj h
    omega
  · cases h

end ElementKernel.Quadrature
