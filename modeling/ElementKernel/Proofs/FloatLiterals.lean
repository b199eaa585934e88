import ElementKernel.Code.FloatLiteral
import ElementKernel.Proofs.DecimalDigits
import ElementKernel.Proofs.FloatBits

/-!
# Shapes of float literals

Behind its sign the literal of a finite number has a point with a digit after it or an exponent, so
it is no integer.  No zero ends its fraction but the one of `.0`, and with an exponent it has no more
digits than asked for.  The decimal exponent of the number only chooses how many places are written,
so the shape does not depend on it: `exists_chars`.
-/

namespace ElementKernel.FloatLiteral

structure IsDigits (text : List Char) : Prop where
  ne_nil : text ≠ []
  isDigit : ∀ c ∈ text, c.isDigit

/-- Digits behind a point of which the last is no zero. -/
structure IsTrimmed (digits : List Char) : Prop extends IsDigits digits where
  last : digits.getLast? ≠ some '0'

theorem isDigits_fraction {fraction : List Char} (h : fraction = ['0'] ∨ IsTrimmed fraction) :
    IsDigits fraction := by
  obtain rfl | htrimmed := h
  · exact ⟨by simp, by simp⟩
  · exact htrimmed.toIsDigits

/-- A literal without its sign, with at most so many digits in front of an exponent and at most so
many places where it has none. -/
inductive IsUnsigned (count places : Nat) : List Char → Prop where
  | positional {whole fraction : List Char} (hwhole : IsDigits whole)
      (hfraction : fraction = ['0'] ∨ IsTrimmed fraction) (hplaces : fraction.length ≤ places) :
      IsUnsigned count places (whole ++ '.' :: fraction)
  | integral {digit : Char} (hdigit : digit.isDigit) (hcount : 1 ≤ count) (e : Int) :
      IsUnsigned count places (digit :: 'e' :: Decimal.integer e)
  | exponential {digit : Char} {fraction : List Char} (hdigit : digit.isDigit)
      (hfraction : IsTrimmed fraction) (hcount : 1 + fraction.length ≤ count) (e : Int) :
      IsUnsigned count places (digit :: '.' :: (fraction ++ 'e' :: Decimal.integer e))

namespace IsUnsigned

variable {count places : Nat} {text : List Char}

theorem not_isDigits (h : IsUnsigned count places text) : ¬ IsDigits text := by
  intro hdigits
  have hmem : '.' ∈ text ∨ 'e' ∈ text := by
    cases h with
    | positional => simp
    | integral => simp
    | exponential => simp
  obtain hpoint | hletter := hmem
  · exact absurd (hdigits.isDigit '.' hpoint) (by decide)
  · exact absurd (hdigits.isDigit 'e' hletter) (by decide)

end IsUnsigned

/-! ## Zeros at the end -/

theorem getLast?_rdropWhile (digits : List Char) :
    (digits.rdropWhile (· = '0')).getLast? ≠ some '0' := by
  intro hlast
  have hne : digits.rdropWhile (· = '0') ≠ [] := by
    intro hnil
    rw [hnil] at hlast
    cases hlast
  rw [List.getLast?_eq_some_getLast hne] at hlast
  exact List.rdropWhile_last_not _ _ hne (decide_eq_true (Option.some.inj hlast))

theorem isTrimmed_rdropWhile {digits : List Char} (hdigits : ∀ c ∈ digits, c.isDigit)
    (hne : digits.rdropWhile (· = '0') ≠ []) : IsTrimmed (digits.rdropWhile (· = '0')) where
  ne_nil := hne
  isDigit c hc := hdigits c ((List.rdropWhile_prefix _ digits).subset hc)
  last := getLast?_rdropWhile digits

/-- Zeros are dropped up to the point at most. -/
theorem dropWhile_reverse (whole fraction : List Char) :
    (whole ++ '.' :: fraction).reverse.dropWhile (· = '0') =
      (fraction.rdropWhile (· = '0')).reverse ++ '.' :: whole.reverse := by
  have hreverse : (whole ++ '.' :: fraction).reverse =
      fraction.reverse ++ '.' :: whole.reverse := by simp
  rw [hreverse, List.dropWhile_append, List.rdropWhile, List.reverse_reverse]
  split
  next hempty => simp [List.isEmpty_iff.1 hempty]
  next => rfl

theorem trimFraction_eq (whole : List Char) {fraction : List Char}
    (hdigits : ∀ c ∈ fraction, c.isDigit) :
    trimFraction (whole ++ '.' :: fraction) = whole ++ '.' ::
      if fraction.rdropWhile (· = '0') = [] then ['0'] else fraction.rdropWhile (· = '0') := by
  unfold trimFraction
  rw [dropWhile_reverse]
  by_cases hne : fraction.rdropWhile (· = '0') = []
  · simp [hne]
  · rw [if_neg hne]
    have htrimmed := isTrimmed_rdropWhile hdigits hne
    generalize fraction.rdropWhile (· = '0') = kept at hne htrimmed
    -- the last digit that is kept keeps the point from standing at the end
    obtain ⟨front, last, rfl⟩ := List.eq_nil_or_concat kept |>.resolve_left hne
    have hlast : last ≠ '.' := by
      rintro rfl
      exact absurd (htrimmed.isDigit '.' (by simp)) (by decide)
    split
    next heq =>
      rw [List.concat_eq_append, List.reverse_append] at heq
      exact absurd (List.cons.inj heq).1 hlast
    next => simp

theorem places_pos (exponent : Int) (digits : Nat) : 0 < places exponent digits := by
  unfold places maxPlaces
  omega

theorem isUnsigned_positional (count : Nat) (exponent : Int) (digits : Nat) (x : Fraction) :
    IsUnsigned count (places exponent digits) (positional exponent digits x) := by
  obtain ⟨whole, fraction, hfixed, hlength, hne, hwhole, hdigits⟩ :=
    Decimal.exists_fixed x (places exponent digits)
  have hpos := places_pos exponent digits
  unfold positional
  rw [hfixed, trimFraction_eq whole hdigits]
  split
  next => exact .positional ⟨hne, hwhole⟩ (Or.inl rfl) hpos
  next hkept =>
    have hle := (List.rdropWhile_prefix (· = '0') fraction).length_le
    exact .positional ⟨hne, hwhole⟩ (Or.inr (isTrimmed_rdropWhile hdigits hkept))
      (hle.trans_eq hlength)

/-! ## Significant digits -/

theorem isUnsigned_of_significant {d : Decimal} (hpos : 0 < d.coefficient) {count : Nat}
    (places : Nat) (h : d.significant.length ≤ count) :
    IsUnsigned count places d.exponential := by
  have hne := Decimal.significant_ne_nil hpos
  have hdigits := d.significant_isDigit
  have hlast := getLast?_rdropWhile (Decimal.digits d.coefficient)
  rw [← Decimal.significant_eq] at hlast
  unfold Decimal.exponential
  dsimp only
  generalize d.significant = significant at *
  match significant with
  | [] => exact absurd rfl hne
  | [digit] => exact .integral (hdigits digit (by simp)) h _
  | digit :: second :: rest =>
      have htrimmed : IsTrimmed (second :: rest) :=
        { ne_nil := List.cons_ne_nil _ _
          isDigit := fun c hc => hdigits c (List.mem_cons_of_mem _ hc)
          last := by rwa [List.getLast?_cons_cons] at hlast }
      exact .exponential (hdigits digit (by simp)) htrimmed (by simpa [Nat.add_comm] using h) _

theorem isUnsigned_exponential {b : Binary} (hmantissa : 0 < b.mantissa) {count : Nat}
    (hcount : 0 < count) (places : Nat) : IsUnsigned count places (exponential count b) := by
  have hnum := Binary.numerator_pos hmantissa
  have hden := b.denominator_pos
  unfold exponential
  dsimp only
  split
  next hshort => exact isUnsigned_of_significant (Decimal.shortest_pos hmantissa) places hshort
  next =>
    exact isUnsigned_of_significant (Decimal.rounded_pos hnum hden hcount) places
      (Decimal.length_significant_le hcount (Decimal.rounded_le hnum hden count))

/-! ## Literals -/

/-- A literal has its sign from the sign bit, zero has none. -/
theorem exists_chars (exponent : Int) {count : Nat} (hcount : 0 < count) (x : Float) :
    ∃ text, chars exponent count x = Decimal.signed (signBit x && x != 0) text ∧
      IsUnsigned count (places exponent count) text := by
  unfold chars
  by_cases hzero : x == 0
  · have hdigit : IsDigits ['0'] := ⟨by simp, by simp⟩
    refine ⟨['0', '.', '0'], by simp [hzero, bne, Decimal.signed], ?_⟩
    exact .positional hdigit (Or.inl rfl) (places_pos exponent count)
  · rw [if_neg hzero]
    refine ⟨_, by simp [bne, hzero]; rfl, ?_⟩
    split
    · exact isUnsigned_positional count exponent count _
    · exact isUnsigned_exponential (Binary.mantissa_pos hzero) hcount _

theorem exists_text (x : Float) (digits : Nat) :
    ∃ text, (FloatLiteral.text x digits).toList = Decimal.signed (signBit x && x != 0) text ∧
      IsUnsigned (max digits 1) (places (decimalExponent x) (max digits 1)) text := by
  obtain ⟨text, hchars, hshape⟩ :=
    exists_chars (decimalExponent x) (Nat.lt_of_lt_of_le Nat.one_pos (Nat.le_max_right digits 1)) x
  exact ⟨text, String.toList_ofList.trans hchars, hshape⟩

end ElementKernel.FloatLiteral
