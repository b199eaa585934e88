import ElementKernel.Decimal.Binary
import Mathlib

/-!
# Sign and mantissa of binary64 numbers

Comparisons with zero follow from the bits that are used to write a number.
-/

namespace ElementKernel

open Float.Model

private theorem unpack_zero : (0 : Float).toModel.unpack = .zero .positive := by
  have hbits : (0 : Float).toBits = 0 := by decide +kernel
  have hmodel : (0 : Float).toModel.toBits = 0 := hbits
  unfold Float.Model.unpack
  rw [hmodel]
  rfl

private theorem unpack_of_magnitude_eq_zero {x : Float} (h : x.toBits.toNat % 2 ^ 63 = 0) :
    ∃ sign, x.toModel.unpack = .zero sign := by
  have hnat : x.toModel.toBits.toNat % 2 ^ 63 = 0 := h
  have hexponent : @UnpackedFloat.unpackExponent Format.binary64
      x.toModel.toBits.toBitVec = 0#_ := by
    apply BitVec.eq_of_toNat_eq
    simp [UnpackedFloat.unpackExponent, BitVec.extractLsb, BitVec.extractLsb',
      Nat.shiftRight_eq_div_pow]
    omega
  have hmantissa : @UnpackedFloat.unpackMantissa Format.binary64
      x.toModel.toBits.toBitVec = 0#_ := by
    apply BitVec.eq_of_toNat_eq
    simp [UnpackedFloat.unpackMantissa, BitVec.extractLsb, BitVec.extractLsb']
    omega
  refine ⟨.ofBitVec (@UnpackedFloat.unpackSign Format.binary64 x.toModel.toBits.toBitVec), ?_⟩
  unfold Float.Model.unpack UnpackedFloat.unpack
  simp only [hexponent, hmantissa]
  rw [if_neg (by decide), if_pos trivial, dif_pos trivial]

theorem Binary.mantissa_pos {x : Float} (h : ¬ x == 0) : 0 < (Binary.ofFloat x).mantissa := by
  by_contra hmantissa
  have hmagnitude : x.toBits.toNat % 2 ^ 63 = 0 := by
    unfold Binary.ofFloat Binary.ofMagnitudeBits at hmantissa
    dsimp only at hmantissa
    by_cases hbiased : x.toBits.toNat / Nat.pow 2 52 % Nat.pow 2 11 = 0
    · rw [if_pos hbiased] at hmantissa
      simp only [Nat.pow_eq, Nat.reducePow] at hbiased hmantissa ⊢
      omega
    · rw [if_neg hbiased] at hmantissa
      simp only [Nat.pow_eq, Nat.reducePow] at hmantissa
      omega
  obtain ⟨sign, hsign⟩ := unpack_of_magnitude_eq_zero hmagnitude
  apply h
  show x.toModel.beq (0 : Float).toModel = true
  unfold Float.Model.beq
  rw [unpack_zero, hsign]
  rfl

private theorem compare_zero_of_neg {x : Float} (h : x < 0) :
    x.toModel.unpack.compare (.zero .positive) = some .lt := by
  have hdecide : decide (x.toModel < (0 : Float).toModel) = true := h
  have hlt : x.toModel.lt (0 : Float).toModel = true := of_decide_eq_true hdecide
  unfold Float.Model.lt at hlt
  rw [unpack_zero] at hlt
  exact eq_of_beq hlt

private theorem unpack_of_signBit_eq_false {x : Float} (h : signBit x = false) :
    x.toModel.unpack.compare (.zero .positive) ≠ some .lt := by
  have hnat : x.toModel.toBits.toNat < 2 ^ 63 := by
    have hbits : ¬ Nat.pow 2 63 ≤ x.toBits.toNat := of_decide_eq_false h
    exact Nat.lt_of_not_le hbits
  have hsign : @UnpackedFloat.unpackSign Format.binary64
      x.toModel.toBits.toBitVec = 0#1 := by
    apply BitVec.eq_of_toNat_eq
    simp [UnpackedFloat.unpackSign, BitVec.extractLsb, BitVec.extractLsb',
      Nat.shiftRight_eq_div_pow]
    omega
  unfold Float.Model.unpack UnpackedFloat.unpack
  simp only [hsign]
  split
  · split
    · decide
    · decide
  · split
    · split
      · decide
      · simp [UnpackedFloat.compare, UnpackedFloat.Sign.ofBitVec]
    · simp [UnpackedFloat.compare, UnpackedFloat.Sign.ofBitVec]

theorem signBit_of_neg {x : Float} (h : x < 0) : signBit x = true ∧ (x != 0) = true := by
  have hcompare := compare_zero_of_neg h
  refine ⟨?_, ?_⟩
  · by_contra hsign
    exact unpack_of_signBit_eq_false (Bool.eq_false_of_not_eq_true hsign) hcompare
  · show (!(x.toModel.beq (0 : Float).toModel)) = true
    unfold Float.Model.beq UnpackedFloat.beq
    rw [unpack_zero, hcompare]
    rfl

private theorem compare_zero_of_signBit_eq_true {x : Float} (hfinite : x.isFinite)
    (h : signBit x = true) : x.toModel.unpack.compare (.zero .positive) = some .eq ∨
      x.toModel.unpack.compare (.zero .positive) = some .lt := by
  have hnat : 2 ^ 63 ≤ x.toModel.toBits.toNat := of_decide_eq_true h
  have hsize : x.toModel.toBits.toNat < 2 ^ 64 := x.toModel.toBits.toNat_lt
  have hsign : @UnpackedFloat.unpackSign Format.binary64
      x.toModel.toBits.toBitVec = 1#1 := by
    apply BitVec.eq_of_toNat_eq
    simp [UnpackedFloat.unpackSign, BitVec.extractLsb, BitVec.extractLsb',
      Nat.shiftRight_eq_div_pow]
    omega
  have hunpacked : x.toModel.unpack.isFinite = true := hfinite
  unfold Float.Model.unpack UnpackedFloat.unpack at hunpacked ⊢
  simp only [hsign] at hunpacked ⊢
  split at hunpacked
  · split at hunpacked <;> cases hunpacked
  · rename_i hexponent
    rw [if_neg hexponent]
    split
    · split
      · exact Or.inl rfl
      · exact Or.inr rfl
    · exact Or.inr rfl

/-- A finite number is below zero exactly if its sign bit is set and it is not zero. -/
theorem neg_iff_signBit {x : Float} (hfinite : x.isFinite) :
    x < 0 ↔ signBit x = true ∧ (x != 0) = true := by
  refine ⟨signBit_of_neg, fun ⟨hsign, hne⟩ => ?_⟩
  have hnotEq : x.toModel.unpack.compare (.zero .positive) ≠ some .eq := by
    intro hequal
    have hzero : (x == 0) = true := by
      show x.toModel.unpack.beq (0 : Float).toModel.unpack = true
      rw [unpack_zero]
      exact beq_of_eq hequal
    simp [bne, hzero] at hne
  have hcompare := (compare_zero_of_signBit_eq_true hfinite hsign).resolve_left hnotEq
  have hlt : x.toModel.unpack.lt (0 : Float).toModel.unpack = true := by
    rw [unpack_zero]
    exact beq_of_eq hcompare
  exact decide_eq_true hlt

end ElementKernel
