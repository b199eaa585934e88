import ElementKernel.Proofs.RustSource.Numerals

/-!
# Float literals of both dialects

The literal of a finite number is one number of C and of Rust, the same in both and no integer.  It
has a minus exactly where the renderer groups it like a negated operand.
-/

namespace ElementKernel.FloatLiteral

/-- Both dialects read the literal as one number behind a minus if it is negative, as the same number
and as no integer. -/
structure IsFloatLiteral (negative : Bool) (text literal : List Char) : Prop where
  signed : literal = Decimal.signed negative text
  noInteger : ¬ IsDigits text
  cTokens : CSource.lex literal =
    some (if negative then [.operator .minus, .number text] else [.number text])
  rustTokens : RustSource.lex literal =
    some (if negative then [.operator .minus, .number text] else [.number text])
  readable : ∃ n, CSource.numeral? text = some n ∧ RustSource.number? text = some n

theorem IsUnsigned.isFloatLiteral {count places : Nat} {text : List Char}
    (h : IsUnsigned count places text) (negative : Bool) :
    IsFloatLiteral negative text (Decimal.signed negative text) := by
  have hdecimal := RustSource.IsDecimal.of_unsigned h
  obtain ⟨n, hn⟩ := hdecimal.isNumeral.readable
  refine ⟨rfl, h.not_isDigits, ?_, ?_, n, hn, hdecimal.number?_eq.trans hn⟩
  · cases negative with
    | false => exact hdecimal.isNumeral.lex
    | true => exact hdecimal.isNumeral.lex_negative
  · cases negative with
    | false => exact hdecimal.lex_eq
    | true => exact hdecimal.lex_negative

theorem head?_signed {text : List Char} (h : CSource.IsNumeral text) (negative : Bool) :
    (Decimal.signed negative text).head? = some '-' ↔ negative = true := by
  obtain ⟨c, rest, rfl, hdigit, -⟩ := h.whole
  have hminus : c ≠ '-' := by
    rintro rfl
    exact absurd hdigit (by decide)
  cases negative <;> simp [Decimal.signed, hminus]

/-- The literal of a finite number is a float literal, whatever decimal exponent the number was taken
to have.  It has a minus exactly if the number is below zero, which is when the renderer takes it
for a negated operand. -/
theorem chars_isFloatLiteral {x : Float} (hfinite : x.isFinite) (exponent : Int)
    (precision : Nat) :
    (∃ text, IsFloatLiteral (decide (x < 0)) text (chars exponent (max precision 1) x) ∧
      IsUnsigned (max precision 1) (places exponent (max precision 1)) text) ∧
    ((chars exponent (max precision 1) x).head? = some '-' ↔ x < 0) ∧
    (∀ r : Renderer, r.level (.float x) = Level.unary ↔ x < 0) ∧
    (FloatLiteral.text x precision).toList = chars (decimalExponent x) (max precision 1) x := by
  have hnegative : (signBit x && x != 0) = decide (x < 0) := by
    rw [Bool.eq_iff_iff, Bool.and_eq_true, decide_eq_true_iff]
    exact (neg_iff_signBit hfinite).symm
  have hcount : 0 < max precision 1 := by omega
  obtain ⟨text, hchars, hshape⟩ := exists_chars exponent hcount x
  rw [hnegative] at hchars
  refine ⟨⟨text, ?_, hshape⟩, ?_, fun r => ?_, String.toList_ofList⟩
  · rw [hchars]
    exact hshape.isFloatLiteral _
  · rw [hchars, head?_signed (CSource.IsNumeral.of_unsigned hshape), decide_eq_true_iff]
  · rw [Renderer.level, hnegative]
    by_cases hneg : x < 0
    · simp [hneg]
    · simp [hneg, Level.unary, Level.atom]

/-- Asked for no digit at all, a number that rounds up to the next power of ten has one. -/
theorem chars_isFloatLiteral_carry :
    (-9.6e-21 : Float).isFinite ∧ (-9.6e-21 : Float) < 0 ∧
      ∃ text, IsFloatLiteral true text ['-', '1', 'e', '-', '2', '0'] ∧
        IsUnsigned 1 (places 0 1) text := by
  have hfinite : (-9.6e-21 : Float).isFinite := by decide +kernel
  have hneg : (-9.6e-21 : Float) < 0 := by decide +kernel
  have hchars : chars 0 1 (-9.6e-21) = ['-', '1', 'e', '-', '2', '0'] := by decide +kernel
  obtain ⟨text, hliteral, hshape⟩ := (chars_isFloatLiteral hfinite 0 0).1
  rw [decide_eq_true hneg] at hliteral
  rw [← hchars]
  exact ⟨hfinite, hneg, text, hliteral, hshape⟩

end ElementKernel.FloatLiteral
