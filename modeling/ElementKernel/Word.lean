import ElementKernel.Fault

/-!
Arithmetic of sizes in a 64-bit word.

Sizes are natural numbers.  Each operation here returns the exact result when it fits the word and
faults otherwise, so a result that exists is always the mathematical one.
-/

namespace ElementKernel.Word

def limit : Nat := 0x10000000000000000

def fit (n : Nat) : Checked Nat :=
  if n < limit then .ok n else .error .overflow

def add (a b : Nat) : Checked Nat := fit (a + b)

def sub (a b : Nat) : Checked Nat :=
  if b ≤ a then .ok (a - b) else .error .overflow

def mul (a b : Nat) : Checked Nat := fit (a * b)

def pow (a k : Nat) : Checked Nat := fit (Nat.pow a k)

/-- The sum from the left; every partial sum has to fit. -/
def sum (xs : List Nat) : Checked Nat := xs.foldlM add 0

/-- The product from the left; every partial product has to fit. -/
def product (xs : List Nat) : Checked Nat := xs.foldlM mul 1

/-- The signed number with the same 64 bits. -/
def signed (n : Nat) : Int := Int.bmod n limit

theorem fit_eq_ok_iff {n m : Nat} : fit n = .ok m ↔ n = m ∧ n < limit := by
  unfold fit
  split
  next h => simp [h]
  next h => simp [h]

theorem signed_of_lt {n : Nat} (h : n < 0x8000000000000000) : signed n = n := by
  unfold signed limit
  rw [Int.bmod_eq_of_le] <;> omega

private theorem foldlM_mul_eq_ok {xs : List Nat} {a n : Nat}
    (h : xs.foldlM mul a = .ok n) : n = xs.foldl (· * ·) a := by
  induction xs generalizing a with
  | nil => exact (Except.ok.inj h).symm
  | cons x xs ih =>
      rw [List.foldlM_cons] at h
      unfold mul at h
      cases hx : fit (a * x) with
      | error e => rw [hx] at h; cases h
      | ok b =>
          obtain ⟨rfl, -⟩ := fit_eq_ok_iff.1 hx
          rw [hx] at h
          exact ih h

theorem product_eq_ok {xs : List Nat} {n : Nat} (h : product xs = .ok n) :
    n = xs.foldl (· * ·) 1 :=
  foldlM_mul_eq_ok h

end ElementKernel.Word
