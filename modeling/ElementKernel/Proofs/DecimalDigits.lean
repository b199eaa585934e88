import ElementKernel.Decimal.Layout
import Mathlib

/-!
# Digits of decimals

A number that is written has digits in front of its point, and as many behind it as it has places.
Rounded to some significant digits a positive fraction has one at least, and without the zeros at the
end no more than these.
-/

namespace ElementKernel

/-! ## Magnitudes -/

namespace Fraction

theorem lt_pow_decimalLength (n : Nat) : n < 10 ^ decimalLength n :=
  (Nat.length_toDigits_le_iff (by decide) Nat.length_toDigits_pos).1 le_rfl

theorem pow_decimalLength_le {n : Nat} (h : 0 < n) : 10 ^ (decimalLength n - 1) ≤ n := by
  unfold decimalLength
  by_cases hlength : 0 < (Nat.toDigits 10 n).length - 1
  · have hiff := @Nat.length_toDigits_le_iff 10 n _ (by decide) hlength
    omega
  · rw [show (Nat.toDigits 10 n).length - 1 = 0 by omega]
    omega

theorem denominator_le_shift {x : Fraction} (hnum : 0 < x.numerator) (hden : 0 < x.denominator)
    {k : Int} (hk : -x.magnitude ≤ k) : (x.shift k).denominator ≤ (x.shift k).numerator := by
  unfold magnitude at hk
  unfold shift
  dsimp only
  simp only [Nat.pow_eq]
  split at hk
  next hle =>
    -- the quotient has its digits in front of the point, all but the first may be shifted away
    have hquotient := pow_decimalLength_le (Nat.div_pos hle hden)
    have hk' : (-k).toNat ≤ decimalLength (x.numerator / x.denominator) - 1 := by omega
    calc x.denominator * 10 ^ (-k).toNat
        ≤ x.denominator * (x.numerator / x.denominator) :=
          Nat.mul_le_mul_left _ ((Nat.pow_le_pow_right (by decide) hk').trans hquotient)
      _ ≤ x.numerator := Nat.mul_div_le _ _
      _ ≤ x.numerator * 10 ^ k.toNat := Nat.le_mul_of_pos_right _ (by positivity)
  next hlt =>
    have hquotient := lt_pow_decimalLength ((x.denominator - 1) / x.numerator)
    have hlength : 0 < decimalLength ((x.denominator - 1) / x.numerator) :=
      Nat.length_toDigits_pos
    have hk' : decimalLength ((x.denominator - 1) / x.numerator) ≤ k.toNat := by omega
    have hpower : (x.denominator - 1) / x.numerator < 10 ^ k.toNat :=
      hquotient.trans_le (Nat.pow_le_pow_right (by decide) hk')
    have hnegative : (-k).toNat = 0 := by omega
    rw [Nat.div_lt_iff_lt_mul hnum] at hpower
    rw [hnegative, pow_zero, Nat.mul_one, Nat.mul_comm]
    omega

theorem shift_lt {x : Fraction} (hnum : 0 < x.numerator) (hden : 0 < x.denominator) {k : Int}
    {count : Nat} (h : x.magnitude + k < count) :
    (x.shift k).numerator < (x.shift k).denominator * 10 ^ count := by
  unfold magnitude at h
  unfold shift
  dsimp only
  simp only [Nat.pow_eq]
  split at h
  next hle =>
    have hquotient := lt_pow_decimalLength (x.numerator / x.denominator)
    generalize decimalLength (x.numerator / x.denominator) = length at *
    have hbelow : x.numerator < 10 ^ length * x.denominator :=
      (Nat.div_lt_iff_lt_mul hden).1 hquotient
    calc x.numerator * 10 ^ k.toNat
        < 10 ^ length * x.denominator * 10 ^ k.toNat :=
          Nat.mul_lt_mul_of_pos_right hbelow (by positivity)
      _ = x.denominator * 10 ^ (length + k.toNat) := by ring
      _ ≤ x.denominator * 10 ^ ((-k).toNat + count) :=
          Nat.mul_le_mul_left _ (Nat.pow_le_pow_right (by decide) (by omega))
      _ = x.denominator * 10 ^ (-k).toNat * 10 ^ count := by ring
  next hlt =>
    -- below one, the first digit is as far behind the point as the reciprocal has digits
    have hpos : 0 < (x.denominator - 1) / x.numerator := Nat.div_pos (by omega) hnum
    have hquotient := pow_decimalLength_le hpos
    have hlength : 0 < decimalLength ((x.denominator - 1) / x.numerator) :=
      Nat.length_toDigits_pos
    generalize decimalLength ((x.denominator - 1) / x.numerator) = length at *
    have hbelow : 10 ^ (length - 1) * x.numerator < x.denominator := by
      have hproduct := (Nat.le_div_iff_mul_le hnum).1 hquotient
      omega
    calc x.numerator * 10 ^ k.toNat
        ≤ x.numerator * 10 ^ (length - 1 + ((-k).toNat + count)) :=
          Nat.mul_le_mul_left _ (Nat.pow_le_pow_right (by decide) (by omega))
      _ = 10 ^ (length - 1) * x.numerator * (10 ^ (-k).toNat * 10 ^ count) := by ring
      _ < x.denominator * (10 ^ (-k).toNat * 10 ^ count) :=
          Nat.mul_lt_mul_of_pos_right hbelow (by positivity)
      _ = x.denominator * 10 ^ (-k).toNat * 10 ^ count := (Nat.mul_assoc ..).symm

theorem floor_pos {x : Fraction} (hden : 0 < x.denominator) (h : x.denominator ≤ x.numerator) :
    0 < x.floor := Nat.div_pos h hden

theorem shift_denominator_pos {x : Fraction} (hden : 0 < x.denominator) (k : Int) :
    0 < (x.shift k).denominator := by
  unfold shift
  simp only [Nat.pow_eq]
  positivity

end Fraction

namespace Binary

theorem numerator_pos {b : Binary} (h : 0 < b.mantissa) : 0 < b.toFraction.numerator := by
  unfold toFraction
  simp only [Nat.pow_eq]
  positivity

theorem denominator_pos (b : Binary) : 0 < b.toFraction.denominator := by
  unfold toFraction
  simp only [Nat.pow_eq]
  positivity

end Binary

namespace Decimal

/-! ## Digits -/

theorem digits_isDigit (n : Nat) : ∀ c ∈ digits n, c.isDigit := fun _ hc =>
  Nat.isDigit_of_mem_toDigits (by decide) (by decide) hc

theorem digits_ne_nil (n : Nat) : digits n ≠ [] := Nat.toDigits_ne_nil

theorem toList_ofNat (n : Nat) : (toString (Int.ofNat n)).toList = digits n := Nat.toList_repr

theorem toList_negSucc (n : Nat) : (toString (Int.negSucc n)).toList = '-' :: digits (n + 1) := by
  show ("-" ++ Nat.repr (n + 1)).toList = _
  rw [String.toList_append, Nat.toList_repr]
  rfl

theorem head?_digits {n : Nat} (h : 1 < (digits n).length) : (digits n).head? ≠ some '0' := by
  unfold digits at h ⊢
  induction n using Nat.strongRecOn with
  | ind n ih =>
      by_cases hsmall : n < 10
      · rw [Nat.toDigits_of_lt_base hsmall] at h
        simp at h
      · rw [Nat.toDigits_of_base_le (by decide) (by omega)] at h ⊢
        rw [List.head?_append_of_ne_nil _ Nat.toDigits_ne_nil]
        by_cases hlead : n / 10 < 10
        · rw [Nat.toDigits_of_lt_base hlead]
          have hpos : 0 < n / 10 := by omega
          generalize n / 10 = lead at hlead hpos
          interval_cases lead <;> decide
        · refine ih (n / 10) (by omega) ?_
          rw [Nat.toDigits_of_base_le (by decide) (by omega), List.length_append]
          have := @Nat.length_toDigits_pos 10 (n / 10 / 10)
          simp
          omega

/-- A number with so many places has that many digits behind its point and one in front of it. -/
theorem exists_fixed (x : Fraction) (places : Nat) :
    ∃ whole fraction, fixed x places = whole ++ '.' :: fraction ∧
      fraction.length = places ∧ whole ≠ [] ∧ (∀ c ∈ whole, c.isDigit) ∧
      ∀ c ∈ fraction, c.isDigit := by
  unfold fixed pointed
  dsimp only
  generalize (x.shift places).round = n
  have hall : ∀ c ∈ List.replicate (places + 1 - (digits n).length) '0' ++ digits n,
      c.isDigit := by
    intro c hc
    obtain hzero | hdigit := List.mem_append.1 hc
    · rw [List.eq_of_mem_replicate hzero]
      decide
    · exact digits_isDigit n c hdigit
  have hlength :
      places < (List.replicate (places + 1 - (digits n).length) '0' ++ digits n).length := by
    rw [List.length_append, List.length_replicate]
    omega
  refine ⟨_, _, rfl, ?_, ?_, fun c hc => hall c (List.mem_of_mem_take hc),
    fun c hc => hall c (List.mem_of_mem_drop hc)⟩
  · rw [List.length_drop]
    omega
  · rw [← List.length_pos_iff, List.length_take]
    omega

/-! ## Significant digits -/

theorem ofDigitChars_zeros {digits : List Char} (h : ∀ c ∈ digits, c = '0') :
    Nat.ofDigitChars 10 digits 0 = 0 := by
  induction digits with
  | nil => rfl
  | cons c digits ih =>
      obtain rfl := h c (by simp)
      exact ih fun d hd => h d (List.mem_cons_of_mem _ hd)

theorem significant_eq (d : Decimal) :
    d.significant = (digits d.coefficient).rdropWhile (· = '0') := rfl

theorem significant_ne_nil {d : Decimal} (h : 0 < d.coefficient) : d.significant ≠ [] := by
  intro hnil
  rw [significant_eq, List.rdropWhile_eq_nil_iff] at hnil
  have hzero := ofDigitChars_zeros fun c hc => of_decide_eq_true (hnil c hc)
  rw [digits, Nat.ofDigitChars_ten_toDigits] at hzero
  omega

theorem significant_isDigit (d : Decimal) : ∀ c ∈ d.significant, c.isDigit := fun c hc =>
  digits_isDigit _ c ((List.rdropWhile_prefix _ _).subset hc)

theorem rdropWhile_digits_mul {n : Nat} (h : 0 < n) :
    (digits (10 * n)).rdropWhile (· = '0') = (digits n).rdropWhile (· = '0') := by
  have hdigits : digits n ++ ['0'] = digits (10 * n) :=
    Nat.toDigits_append_toDigits (d := 0) (by decide) h (by decide)
  rw [← hdigits, List.rdropWhile_concat_pos _ _ _ (by decide)]

theorem rdropWhile_digits_pow (k : Nat) :
    (digits (10 ^ k)).rdropWhile (· = '0') = ['1'] := by
  induction k with
  | zero => decide
  | succ k ih => rw [Nat.pow_succ', rdropWhile_digits_mul (by positivity), ih]

/-- A number that carries into one more digit has only one that counts. -/
theorem length_significant_le {d : Decimal} {count : Nat} (hcount : 0 < count)
    (h : d.coefficient ≤ 10 ^ count) : d.significant.length ≤ count := by
  rw [significant_eq]
  obtain hlt | heq := Nat.lt_or_eq_of_le h
  · have hdigits : (digits d.coefficient).length ≤ count :=
      (Nat.length_toDigits_le_iff (by decide) hcount).2 hlt
    exact (List.rdropWhile_prefix _ _).length_le.trans hdigits
  · rw [heq, rdropWhile_digits_pow]
    exact hcount

/-! ## Rounding -/

theorem rounded_pos {x : Fraction} (hnum : 0 < x.numerator) (hden : 0 < x.denominator)
    {count : Nat} (hcount : 0 < count) : 0 < (rounded x count).coefficient := by
  have hfloor := Fraction.floor_pos (Fraction.shift_denominator_pos hden _)
    (Fraction.denominator_le_shift hnum hden (k := -(x.magnitude - (count : Int) + 1)) (by omega))
  have hround := Fraction.round_eq_or (x.shift (-(x.magnitude - (count : Int) + 1)))
  show 0 < (x.shift (-(x.magnitude - (count : Int) + 1))).round
  omega

theorem rounded_le {x : Fraction} (hnum : 0 < x.numerator) (hden : 0 < x.denominator)
    (count : Nat) : (rounded x count).coefficient ≤ 10 ^ count := by
  have hlt := @Fraction.shift_lt x hnum hden (-(x.magnitude - (count : Int) + 1)) count (by omega)
  have hfloor : (x.shift (-(x.magnitude - (count : Int) + 1))).floor < 10 ^ count :=
    Nat.div_lt_of_lt_mul hlt
  have hround := Fraction.round_eq_or (x.shift (-(x.magnitude - (count : Int) + 1)))
  show (x.shift (-(x.magnitude - (count : Int) + 1))).round ≤ 10 ^ count
  omega

theorem onGrid_pos {b : Binary} (h : 0 < b.mantissa) {count : Nat} (hcount : 0 < count)
    {d : Decimal} (hd : onGrid b count = some d) : 0 < d.coefficient := by
  have hfloor := Fraction.floor_pos (Fraction.shift_denominator_pos b.denominator_pos _)
    (Fraction.denominator_le_shift (Binary.numerator_pos h) b.denominator_pos
      (k := -(b.toFraction.magnitude - (count : Int) + 1)) (by omega))
  unfold onGrid at hd
  dsimp only at hd
  split at hd
  · split at hd
    · obtain rfl := Option.some.inj hd
      exact Nat.succ_pos _
    · obtain rfl := Option.some.inj hd
      exact hfloor
  · obtain rfl := Option.some.inj hd
    exact hfloor
  · obtain rfl := Option.some.inj hd
    exact Nat.succ_pos _
  · cases hd

theorem shortest_pos {b : Binary} (h : 0 < b.mantissa) : 0 < (shortest b).coefficient := by
  unfold shortest
  cases hgrid : ((List.range maxDigits).map (· + 1)).findSome? (onGrid b) with
  | none => exact rounded_pos (Binary.numerator_pos h) b.denominator_pos (by decide)
  | some d =>
      obtain ⟨count, hcount, hd⟩ := List.exists_of_findSome?_eq_some hgrid
      obtain ⟨n, -, rfl⟩ := List.mem_map.1 hcount
      exact onGrid_pos h (Nat.succ_pos n) hd

end Decimal

end ElementKernel
