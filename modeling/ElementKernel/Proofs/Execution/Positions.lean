import ElementKernel.Proofs.Execution.Values
import ElementKernel.Kernel.Target
import ElementKernel.Proofs.Outcome
import Mathlib.Tactic.Ring

/-!
# Row-major positions

A multi-index inside of a shape has one position, which lies below the number of entries and belongs
to no other multi-index.  The flat index that is generated from the indices of the axes evaluates to
that position.
-/

namespace ElementKernel.Execution

open Kernel (flattenOuter flatIndex)

variable {sizes : List Nat} {indices other : List Nat} {p : Nat}

theorem position_cons {size i : Nat} :
    position (size :: sizes) (i :: indices) = some p ↔
      i < size ∧ ∃ q, position sizes indices = some q ∧ p = i * sizes.prod + q := by
  rw [position]
  split
  next h => simp [h, eq_comm]
  next h => simp [h]

theorem position_lt (h : position sizes indices = some p) : p < sizes.prod := by
  induction sizes generalizing indices p with
  | nil =>
      cases indices with
      | nil =>
          cases h
          simp
      | cons => cases h
  | cons size sizes ih =>
      cases indices with
      | nil => cases h
      | cons i indices =>
          obtain ⟨hi, q, hq, rfl⟩ := position_cons.1 h
          have hlt := ih hq
          rw [List.prod_cons]
          calc i * sizes.prod + q < i * sizes.prod + sizes.prod := by omega
            _ = (i + 1) * sizes.prod := by rw [Nat.succ_mul]
            _ ≤ size * sizes.prod := Nat.mul_le_mul_right _ hi

theorem position_inj (h : position sizes indices = some p) (h' : position sizes other = some p) :
    indices = other := by
  induction sizes generalizing indices other p with
  | nil =>
      cases indices with
      | nil =>
          cases other with
          | nil => rfl
          | cons => cases h'
      | cons => cases h
  | cons size sizes ih =>
      cases indices with
      | nil => cases h
      | cons i indices =>
          cases other with
          | nil => cases h'
          | cons j other =>
              obtain ⟨-, q, hq, rfl⟩ := position_cons.1 h
              obtain ⟨-, r, hr, heq⟩ := position_cons.1 h'
              have hlt := position_lt hq
              have hlt' := position_lt hr
              -- Both quotients by the size of a slice are the same, and so are the remainders.
              have hij : i = j := by
                have hdiv := congrArg (· / sizes.prod) heq
                simpa [Nat.mul_add_div (Nat.zero_lt_of_lt hlt), Nat.mul_comm _ sizes.prod,
                  Nat.div_eq_of_lt hlt, Nat.div_eq_of_lt hlt'] using hdiv
              subst hij
              rw [ih hq (Nat.add_left_cancel heq ▸ hr)]

theorem exists_position (h : List.Forall₂ (· < ·) indices sizes) :
    ∃ p, position sizes indices = some p := by
  induction h with
  | nil => exact ⟨0, rfl⟩
  | cons hi _ ih =>
      obtain ⟨q, hq⟩ := ih
      exact ⟨_, position_cons.2 ⟨hi, q, hq, rfl⟩⟩

theorem forall₂_of_position (h : position sizes indices = some p) :
    List.Forall₂ (· < ·) indices sizes := by
  induction sizes generalizing indices p with
  | nil =>
      cases indices with
      | nil => exact .nil
      | cons => cases h
  | cons size sizes ih =>
      cases indices with
      | nil => cases h
      | cons i indices =>
          obtain ⟨hi, q, hq, -⟩ := position_cons.1 h
          exact .cons hi (ih hq)

/-- The row-major position of a multi-index, which need not lie inside of the shape. -/
def rowMajor : List Nat → List Nat → Nat
  | _ :: sizes, i :: indices => i * sizes.prod + rowMajor sizes indices
  | _, _ => 0

theorem eq_rowMajor_of_position (h : position sizes indices = some p) :
    p = rowMajor sizes indices := by
  induction sizes generalizing indices p with
  | nil =>
      cases indices with
      | nil =>
          cases h
          rfl
      | cons => cases h
  | cons size sizes ih =>
      cases indices with
      | nil => cases h
      | cons i indices =>
          obtain ⟨-, q, hq, rfl⟩ := position_cons.1 h
          rw [rowMajor, ih hq]

theorem rowMajor_concat (h : sizes.length = indices.length) (size i : Nat) :
    rowMajor (sizes ++ [size]) (indices ++ [i]) = rowMajor sizes indices * size + i := by
  induction sizes generalizing indices with
  | nil =>
      obtain rfl := List.length_eq_zero_iff.1 h.symm
      simp [rowMajor]
  | cons n sizes ih =>
      cases indices with
      | nil => simp at h
      | cons j indices =>
          rw [List.cons_append, List.cons_append, rowMajor, rowMajor, ih (by simpa using h),
            List.prod_append, List.prod_singleton, Nat.add_mul, Nat.mul_assoc, Nat.add_assoc]

/-! ## Flat indices -/

variable {K : Type} {L : Locals K} {e : Expr}

/-- Axes are folded in from the innermost one outwards, so the lists are reversed here. -/
theorem index_flattenOuter {outer : List (Expr × Nat)}
    (houter : List.Forall₂ (fun entry i => index L entry.1 = some (word i)) outer indices)
    {flat : Expr} {f stride : Nat} (hflat : index L flat = some (word f))
    (he : flattenOuter outer flat stride = .ok e) :
    index L e =
      some (word (rowMajor (outer.map Prod.snd).reverse indices.reverse * stride + f)) := by
  induction houter generalizing flat f stride with
  | nil =>
      cases he
      simpa [rowMajor] using hflat
  | @cons entry i outer indices hi hrest ih =>
      obtain ⟨counter, size⟩ := entry
      rw [flattenOuter] at he
      obtain ⟨next, hnext, he⟩ := bind_eq_ok.1 he
      have hscaled : index L
          (if stride = 1 then counter else .product [.int (Word.signed stride), counter]) =
            some (word (stride * i)) := by
        split
        next h => rw [h, Nat.one_mul, hi]
        next => rw [word_mul, index_product (index_signed stride) hi]
      have hsum := index_sum hscaled hflat
      rw [← word_add] at hsum
      rw [ih hsum he, Word.mul_eq_ok hnext, List.map_cons, List.reverse_cons, List.reverse_cons,
        rowMajor_concat (by simpa using hrest.length_eq)]
      congr 2
      ring

/-- The flat index of any multi-index is its row-major position. -/
theorem index_flatIndex_rowMajor {counters : List Expr}
    (hcounters : List.Forall₂ (fun counter i => index L counter = some (word i)) counters indices)
    (he : flatIndex counters sizes = .ok e) : index L e = some (word (rowMajor sizes indices)) := by
  obtain ⟨u, hlength, he⟩ := bind_eq_ok.1 he
  have hsame : counters.length = sizes.length := Checked.sameLength_eq_ok_iff.1 hlength
  have hzip : List.Forall₂ (fun entry i => index L entry.1 = some (word i))
      (counters.zip sizes).reverse indices.reverse := by
    rw [List.forall₂_reverse_iff]
    have hfst : List.Forall₂ (fun counter i => index L counter = some (word i))
        ((counters.zip sizes).map Prod.fst) indices := by
      rwa [List.map_fst_zip hsame.le]
    exact List.forall₂_map_left_iff.1 hfst
  have hsizes : ((counters.zip sizes).reverse.map Prod.snd).reverse = sizes := by
    rw [List.map_reverse, List.reverse_reverse, List.map_snd_zip hsame.ge]
  rw [← List.reverse_reverse indices, ← hsizes]
  generalize indices.reverse = reversed at hzip
  generalize (counters.zip sizes).reverse = entries at hzip he
  cases hzip with
  | nil =>
      cases he
      exact index_signed 0
  | @cons entry i outer rest hi hrest =>
      rw [List.map_cons, List.reverse_cons, List.reverse_cons,
        rowMajor_concat (by simpa using hrest.length_eq)]
      exact index_flattenOuter hrest hi he

theorem index_flatIndex {counters : List Expr}
    (hcounters : List.Forall₂ (fun counter i => index L counter = some (word i)) counters indices)
    (hp : position sizes indices = some p) (he : flatIndex counters sizes = .ok e) :
    index L e = some (word p) := by
  rw [eq_rowMajor_of_position hp]
  exact index_flatIndex_rowMajor hcounters he

end ElementKernel.Execution
