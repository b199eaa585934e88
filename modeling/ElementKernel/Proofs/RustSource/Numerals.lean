import ElementKernel.Proofs.CSource.Numerals
import ElementKernel.Proofs.RustSource.Tokens

/-!
# Numbers of Rust expressions

The literal of a finite float is a decimal number whose fraction is not empty where it has a point.
Such a number is one token, also with the suffix of its type behind it.
-/

namespace ElementKernel.RustSource

open CSource (Numeral numeral?)
open Decimal (digits_isDigit digits_ne_nil)

def floatSuffix : List Char := ['_', 'f', '6', '4']

def withoutSuffix (chars : List Char) : List Char :=
  if floatSuffix.isSuffixOf chars then chars.dropLast.dropLast.dropLast.dropLast else chars

/-- The value of a decimal number that may carry the suffix of its type. -/
def number? (chars : List Char) : Option Numeral := numeral? (withoutSuffix chars)

theorem number?_suffix (text : List Char) : number? (text ++ floatSuffix) = numeral? text := by
  have hsuffix : floatSuffix.isSuffixOf (text ++ floatSuffix) = true := by simp
  have hdrop : (text ++ floatSuffix).dropLast.dropLast.dropLast.dropLast = text := by
    simp [floatSuffix]
  rw [number?, withoutSuffix, if_pos hsuffix, hdrop]

theorem number?_of_notMem {text : List Char} (h : '_' ∉ text) : number? text = numeral? text := by
  have hsuffix : ¬ floatSuffix.isSuffixOf text := by
    intro hend
    exact h ((List.isSuffixOf_iff_suffix.1 hend).subset (by decide))
  rw [number?, withoutSuffix, if_neg hsuffix]

/-! ## The end of a number -/

/-- The text belongs to the number of which the part in front of it is read, and the number ends
with it. -/
def Spans (part : NumberPart) (text : List Char) : Prop :=
  ∀ after, Separates after → numberSpan part (text ++ after) = (text, after)

theorem spans_nil (part : NumberPart) : Spans part [] := by
  intro after hafter
  cases hafter with
  | nil => rfl
  | @mark c rest h =>
      have hword := isWordChar_of_endsToken h
      have hsign : c ≠ '+' ∧ c ≠ '-' ∧ c ≠ '.' := by
        refine ⟨?_, ?_, ?_⟩
        all_goals
          rintro rfl
          exact absurd h (by decide)
      simp [numberSpan, NumberPart.continues, hword, hsign]
  | @member c rest h =>
      have hdot : isWordChar '.' = false := by decide
      simp [numberSpan, NumberPart.continues, hdot, startsMember, h]

theorem Spans.cons {part : NumberPart} {c : Char} {text : List Char} (hc : isWordChar c)
    (h : Spans (part.next c) text) : Spans part (c :: text) := by
  intro after hafter
  rw [List.cons_append, numberSpan, if_pos (by simp [NumberPart.continues, hc]), h after hafter]

theorem spans_of_isWordChar {text : List Char} (h : ∀ c ∈ text, isWordChar c)
    (part : NumberPart) : Spans part text := by
  induction text generalizing part with
  | nil => exact spans_nil part
  | cons c text ih =>
      exact (ih (fun d hd => h d (List.mem_cons_of_mem c hd)) _).cons (h c (by simp))

theorem isWordChar_of_isDigit {c : Char} (h : c.isDigit) : isWordChar c := by
  simp [isWordChar, Char.isAlphanum, h]

theorem next_of_isDigit {part : NumberPart} {c : Char} (h : c.isDigit)
    (hpart : part = .whole ∨ part = .fraction) : part.next c = part := by
  have hdot : c ≠ '.' := by
    rintro rfl
    exact absurd h (by decide)
  obtain rfl | rfl := hpart <;> simp [NumberPart.next, hdot, h]

theorem Spans.digits {part : NumberPart} {digits text : List Char}
    (hpart : part = .whole ∨ part = .fraction) (hdigits : ∀ c ∈ digits, c.isDigit)
    (h : Spans part text) : Spans part (digits ++ text) := by
  induction digits with
  | nil => exact h
  | cons c digits ih =>
      have hc := hdigits c (by simp)
      have htail := ih fun d hd => hdigits d (List.mem_cons_of_mem c hd)
      rw [← next_of_isDigit hc hpart] at htail
      exact htail.cons (isWordChar_of_isDigit hc)

theorem not_isWordStart_of_isDigit {c : Char} (h : c.isDigit) : isWordStart c = false := by
  have hletter := CSource.not_isWordStart_of_isDigit h
  simp only [CSource.isWordStart, Bool.or_eq_true, decide_eq_true_eq, not_or] at hletter
  have hlow : c.toNat ≤ 57 := by
    simp only [Char.isDigit, Bool.and_eq_true, decide_eq_true_eq] at h
    exact h.2
  have hascii : ¬ 128 ≤ c.toNat := by omega
  simp [isWordStart, hletter, hascii]

theorem Spans.point {c : Char} {text : List Char} (hc : c.isDigit)
    (h : Spans .fraction (c :: text)) : Spans .whole ('.' :: c :: text) := by
  have hdot : c ≠ '.' := by
    rintro rfl
    exact absurd hc (by decide)
  intro after hafter
  have hcontinues : NumberPart.continues .whole '.' (c :: text ++ after) := by
    simp [NumberPart.continues, startsMember, hdot, not_isWordStart_of_isDigit hc]
  rw [List.cons_append, numberSpan, if_pos hcontinues]
  dsimp only
  rw [show NumberPart.next .whole '.' = .fraction from rfl, h after hafter]

theorem Spans.exponent {part : NumberPart} {text : List Char}
    (hpart : part = .whole ∨ part = .fraction) (h : Spans .exponent text) :
    Spans part ('e' :: text) := by
  have hnext : part.next 'e' = .exponent := by
    obtain rfl | rfl := hpart <;> rfl
  rw [← hnext] at h
  exact h.cons (by decide)

theorem Spans.sign {text : List Char} (h : Spans .suffix text) :
    Spans .exponent ('-' :: text) := by
  intro after hafter
  rw [List.cons_append, numberSpan, if_pos (by simp [NumberPart.continues])]
  dsimp only
  rw [show NumberPart.next .exponent '-' = .suffix from rfl, h after hafter]

theorem spans_integer (e : Int) {suffix : List Char} (hsuffix : ∀ c ∈ suffix, isWordChar c) :
    Spans .exponent (Decimal.integer e ++ suffix) := by
  have hword : ∀ c ∈ Decimal.digits e.natAbs ++ suffix, isWordChar c := by
    intro c hc
    obtain hdigit | hc := List.mem_append.1 hc
    · exact isWordChar_of_isDigit (digits_isDigit _ c hdigit)
    · exact hsuffix c hc
  unfold Decimal.integer Decimal.signed
  split
  · exact (spans_of_isWordChar hword .suffix).sign
  · exact spans_of_isWordChar hword .exponent

/-! ## Decimal numbers -/

/-- What may stand at the end of a number: nothing or an exponent. -/
def IsExponent (text : List Char) : Prop := text = [] ∨ ∃ e, text = 'e' :: Decimal.integer e

inductive IsDecimal : List Char → Prop where
  | natural (n : Nat) : IsDecimal (Decimal.digits n)
  | pointed {whole fraction rest : List Char} (hwhole : whole ≠ [] ∧ ∀ c ∈ whole, c.isDigit)
      (hfraction : fraction ≠ [] ∧ ∀ c ∈ fraction, c.isDigit) (hrest : IsExponent rest) :
      IsDecimal (whole ++ '.' :: (fraction ++ rest))
  | exponent {whole : List Char} (hwhole : whole ≠ [] ∧ ∀ c ∈ whole, c.isDigit) (e : Int) :
      IsDecimal (whole ++ 'e' :: Decimal.integer e)

theorem IsExponent.spans {rest suffix : List Char} (h : IsExponent rest)
    (hsuffix : ∀ c ∈ suffix, isWordChar c) : Spans .fraction (rest ++ suffix) := by
  obtain rfl | ⟨e, rfl⟩ := h
  · exact spans_of_isWordChar hsuffix .fraction
  · exact (spans_integer e hsuffix).exponent (Or.inr rfl)

namespace IsDecimal

variable {text : List Char}

theorem isNumeral (h : IsDecimal text) : CSource.IsNumeral text := by
  cases h with
  | natural n => exact CSource.isNumeral_digits n
  | exponent hwhole e => exact CSource.isNumeral_exponent hwhole.1 hwhole.2 e
  | pointed hwhole hfraction hrest =>
      obtain rfl | ⟨e, rfl⟩ := hrest
      · exact CSource.isNumeral_pointed hwhole.1 hwhole.2 hfraction.2 ⟨0, rfl⟩
          CSource.continues_nil (by simp)
      · exact CSource.isNumeral_pointed hwhole.1 hwhole.2 hfraction.2
          (CSource.exponent?_integer e) (CSource.continues_exponent e) (by simp)

theorem spans (h : IsDecimal text) (suffix : List Char) (hsuffix : ∀ c ∈ suffix, isWordChar c) :
    ∃ c rest, text = c :: rest ∧ c.isDigit ∧ Spans .whole (rest ++ suffix) := by
  have hshape : ∃ whole tail, text = whole ++ tail ∧ (whole ≠ [] ∧ ∀ c ∈ whole, c.isDigit) ∧
      Spans .whole (tail ++ suffix) := by
    cases h with
    | natural n =>
        exact ⟨_, [], (List.append_nil _).symm, ⟨digits_ne_nil n, digits_isDigit n⟩,
          spans_of_isWordChar hsuffix .whole⟩
    | exponent hwhole e =>
        exact ⟨_, _, rfl, hwhole, (spans_integer e hsuffix).exponent (Or.inl rfl)⟩
    | @pointed whole fraction rest hwhole hfraction hrest =>
        refine ⟨_, _, rfl, hwhole, ?_⟩
        have hspan := (hrest.spans hsuffix).digits (Or.inr rfl) hfraction.2
        obtain ⟨c, fraction, rfl⟩ := List.exists_cons_of_ne_nil hfraction.1
        rw [List.cons_append] at hspan
        rw [List.cons_append, List.cons_append, List.cons_append, List.append_assoc]
        exact hspan.point (hfraction.2 c (by simp))
  obtain ⟨whole, tail, rfl, ⟨hne, hdigits⟩, hspan⟩ := hshape
  obtain ⟨c, whole, rfl⟩ := List.exists_cons_of_ne_nil hne
  refine ⟨c, whole ++ tail, rfl, hdigits c (by simp), ?_⟩
  rw [List.append_assoc]
  exact hspan.digits (Or.inl rfl) fun d hd => hdigits d (List.mem_cons_of_mem c hd)

theorem lexes (h : IsDecimal text) (suffix : List Char) (hsuffix : ∀ c ∈ suffix, isWordChar c) :
    Lexes (text ++ suffix) [.number (text ++ suffix)] := by
  obtain ⟨c, rest, rfl, hdigit, hspan⟩ := h.spans suffix hsuffix
  intro after hafter
  rw [List.cons_append, List.cons_append, lex, if_neg (CSource.not_isWhitespace_of_isDigit hdigit),
    if_neg (by simp [not_isWordStart_of_isDigit hdigit]), if_pos hdigit, hspan after hafter]
  rfl

theorem lex_eq (h : IsDecimal text) : lex text = some [.number text] := by
  have hlexes := h.lexes [] (by simp)
  rw [List.append_nil] at hlexes
  exact hlexes.lex_eq

theorem lex_negative (h : IsDecimal text) :
    lex ('-' :: text) = some [.operator .minus, .number text] := by
  have hlexes := h.lexes [] (by simp)
  rw [List.append_nil] at hlexes
  obtain ⟨c, rest, rfl, hdigit, -⟩ := h.isNumeral.whole
  refine (hlexes.minus ?_ ?_).lex_eq
  all_goals
    intro hhead
    obtain rfl := Option.some.inj hhead
    exact absurd hdigit (by decide)

theorem underscore_notMem (h : IsDecimal text) : '_' ∉ text := by
  have hdigits : ∀ {digits : List Char}, (∀ c ∈ digits, c.isDigit) → '_' ∉ digits :=
    fun h hmem => absurd (h '_' hmem) (by decide)
  have hinteger : ∀ e, '_' ∉ Decimal.integer e := by
    intro e
    have hnat := hdigits (digits_isDigit e.natAbs)
    unfold Decimal.integer Decimal.signed
    split
    · simpa using hnat
    · exact hnat
  cases h with
  | natural n => exact hdigits (digits_isDigit n)
  | exponent hwhole e => simp [hdigits hwhole.2, hinteger e]
  | pointed hwhole hfraction hrest =>
      obtain rfl | ⟨e, rfl⟩ := hrest
      · simp [hdigits hwhole.2, hdigits hfraction.2]
      · simp [hdigits hwhole.2, hdigits hfraction.2, hinteger e]

theorem number?_eq (h : IsDecimal text) : number? text = numeral? text :=
  number?_of_notMem h.underscore_notMem

end IsDecimal

/-! ## Floats -/

theorem IsDecimal.of_unsigned {count places : Nat} {text : List Char}
    (h : FloatLiteral.IsUnsigned count places text) : IsDecimal text := by
  cases h with
  | positional hwhole hfraction hplaces =>
      have hdigits := FloatLiteral.isDigits_fraction hfraction
      have hdecimal := IsDecimal.pointed ⟨hwhole.ne_nil, hwhole.isDigit⟩
        ⟨hdigits.ne_nil, hdigits.isDigit⟩ (Or.inl rfl)
      rwa [List.append_nil] at hdecimal
  | @integral digit hdigit _ e =>
      exact @IsDecimal.exponent [digit] ⟨by simp, by simpa using hdigit⟩ e
  | @exponential digit fraction hdigit hfraction _ e =>
      exact @IsDecimal.pointed [digit] _ _ ⟨by simp, by simpa using hdigit⟩
        ⟨hfraction.ne_nil, hfraction.isDigit⟩ (Or.inr ⟨e, rfl⟩)

/-- The literal of a finite number is a decimal number, behind a minus if it is negative. -/
theorem isDecimal_float (x : Float) (digits : Nat) :
    ∃ text, IsDecimal text ∧ (FloatLiteral.text x digits).toList =
      Decimal.signed (signBit x && x != 0) text := by
  obtain ⟨text, htext, hshape⟩ := FloatLiteral.exists_text x digits
  exact ⟨text, .of_unsigned hshape, htext⟩

theorem IsDecimal.ne_nil {text : List Char} (h : IsDecimal text) : text ≠ [] := by
  cases h with
  | natural n => exact digits_ne_nil n
  | pointed => simp
  | exponent => simp

theorem IsDecimal.mem {text : List Char} (h : IsDecimal text) {c : Char} (hc : c ∈ text) :
    c.isDigit ∨ c ∈ ['.', 'e', '-'] := by
  have hexponent : ∀ e : Int, ∀ c ∈ 'e' :: Decimal.integer e,
      c.isDigit = true ∨ c ∈ ['.', 'e', '-'] := by
    intro e
    refine List.forall_mem_cons.2 ⟨by decide, fun c hc => ?_⟩
    unfold Decimal.integer Decimal.signed at hc
    split at hc
    · obtain rfl | hc := List.mem_cons.1 hc
      · exact .inr (by decide)
      · exact .inl (digits_isDigit _ c hc)
    · exact .inl (digits_isDigit _ c hc)
  cases h with
  | natural n => exact .inl (digits_isDigit n c hc)
  | exponent hwhole e =>
      obtain hc | hc := List.mem_append.1 hc
      · exact .inl (hwhole.2 c hc)
      · exact hexponent e c hc
  | pointed hwhole hfraction hrest =>
      obtain hc | hc := List.mem_append.1 hc
      · exact .inl (hwhole.2 c hc)
      · obtain rfl | hc := List.mem_cons.1 hc
        · exact .inr (by decide)
        · obtain hc | hc := List.mem_append.1 hc
          · exact .inl (hfraction.2 c hc)
          · obtain rfl | ⟨e, rfl⟩ := hrest
            · cases hc
            · exact hexponent e c hc

theorem mem_float {x : Float} {digits : Nat} {c : Char}
    (h : c ∈ (FloatLiteral.text x digits).toList) : c.isDigit ∨ c ∈ ['.', 'e', '-'] := by
  obtain ⟨text, htext, hfloat⟩ := isDecimal_float x digits
  rw [hfloat] at h
  unfold Decimal.signed at h
  split at h
  · obtain rfl | h := List.mem_cons.1 h
    · exact .inr (by decide)
    · exact htext.mem h
  · exact htext.mem h

theorem float_ne_empty (x : Float) (digits : Nat) : FloatLiteral.text x digits ≠ "" := by
  obtain ⟨text, htext, hfloat⟩ := isDecimal_float x digits
  intro hempty
  rw [hempty] at hfloat
  unfold Decimal.signed at hfloat
  split at hfloat
  · cases hfloat
  · exact htext.ne_nil hfloat.symm

end ElementKernel.RustSource
