import ElementKernel.Code.Render
import ElementKernel.Proofs.CSource.Tokens
import ElementKernel.Proofs.FloatLiterals

/-!
# Numbers of C expressions

`numeral?` reads the decimal numbers of C.  Every literal of a finite float is such a number, with a
minus in front of it if it is negative.
-/

namespace ElementKernel.CSource

open Decimal (digits_isDigit digits_ne_nil head?_digits)

/-- The number `significand * 10 ^ exponent`. -/
structure Numeral where
  significand : Nat
  exponent : Int
  deriving DecidableEq, Repr

def natural? (digits : List Char) : Option Nat :=
  if digits ≠ [] ∧ ∀ c ∈ digits, c.isDigit then some (Nat.ofDigitChars 10 digits 0) else none

def signed? : List Char → Option Int
  | '-' :: digits => (natural? digits).map fun n => -(n : Int)
  | '+' :: digits => (natural? digits).map fun n => (n : Int)
  | digits => (natural? digits).map fun n => (n : Int)

/-- The exponent at the end of a number. -/
def exponent? : List Char → Option Int
  | [] => some 0
  | letter :: rest => if letter = 'e' ∨ letter = 'E' then signed? rest else none

/-- The value of a decimal number.  An integer with a leading zero is none, since C takes it for
octal. -/
def numeral? (chars : List Char) : Option Numeral :=
  let whole := chars.takeWhile Char.isDigit
  match chars.dropWhile Char.isDigit with
  | [] => if 1 < whole.length ∧ whole.head? = some '0' then none
      else (natural? whole).map fun n => ⟨n, 0⟩
  | '.' :: rest =>
      let fraction := rest.takeWhile Char.isDigit
      (natural? (whole ++ fraction)).bind fun n =>
        (exponent? (rest.dropWhile Char.isDigit)).map fun e => ⟨n, e - fraction.length⟩
  | rest =>
      (natural? whole).bind fun n => (exponent? rest).map fun e => ⟨n, e⟩

/-- A text that is one number. -/
structure IsNumeral (text : List Char) : Prop where
  readable : ∃ n, numeral? text = some n
  whole : ∃ c rest, text = c :: rest ∧ c.isDigit ∧ numberSpan false rest = (rest, [])

theorem not_isWhitespace_of_isDigit {c : Char} (h : c.isDigit) : ¬ c.isWhitespace :=
  not_isWhitespace_of rfl h

theorem not_isWordStart_of_isDigit {c : Char} (h : c.isDigit) : ¬ isWordStart c := by
  intro hstart
  simp only [Char.isDigit, isWordStart, Char.isAlpha, Char.isUpper, Char.isLower, Bool.or_eq_true,
    Bool.and_eq_true, decide_eq_true_eq, ge_iff_le, UInt32.le_iff_toNat_le] at h hstart
  obtain (⟨hlow, _⟩ | ⟨hlow, _⟩) | rfl := hstart
  · have hdigit := h.2.trans (by decide : '9'.val.toNat ≤ 64)
    exact absurd (hlow.trans hdigit) (by decide)
  · have hdigit := h.2.trans (by decide : '9'.val.toNat ≤ 64)
    exact absurd (hlow.trans hdigit) (by decide)
  · exact absurd h.2 (by decide)

theorem IsNumeral.lex {text : List Char} (h : IsNumeral text) : lex text = some [.number text] := by
  obtain ⟨c, rest, rfl, hdigit, hspan⟩ := h.whole
  rw [CSource.lex, if_neg (not_isWhitespace_of_isDigit hdigit),
    if_neg (not_isWordStart_of_isDigit hdigit), if_pos hdigit, hspan, CSource.lex]
  rfl

theorem IsNumeral.lex_negative {text : List Char} (h : IsNumeral text) :
    CSource.lex ('-' :: text) = some [.operator .minus, .number text] := by
  rw [lex_minus, h.lex]
  · rfl
  · obtain ⟨c, rest, rfl, hdigit, -⟩ := h.whole
    intro d hd
    obtain rfl := Option.some.inj hd
    refine ⟨?_, ?_, ?_⟩
    all_goals
      rintro rfl
      exact absurd hdigit (by decide)

/-! ## Digits -/

theorem isNumberChar_of_isDigit {c : Char} (h : c.isDigit) : isNumberChar c := by
  simp [isNumberChar, isWordChar, Char.isAlphanum, h]

theorem numberSpan_of_digits {digits : List Char} (h : ∀ c ∈ digits, c.isDigit) (rest : List Char) :
    numberSpan false (digits ++ rest) =
      (digits ++ (numberSpan false rest).1, (numberSpan false rest).2) := by
  induction digits with
  | nil => rfl
  | cons c digits ih =>
      have hc := h c (by simp)
      have hletter : c ∉ ['e', 'E', 'p', 'P'] := by
        intro hmem
        fin_cases hmem <;> exact absurd hc (by decide)
      have htail := ih fun d hd => h d (List.mem_cons_of_mem _ hd)
      simp only [List.cons_append, numberSpan, isNumberChar_of_isDigit hc, Bool.true_or, if_true,
        hletter, decide_false, htail]

theorem natural?_of_digits {digits : List Char} (hne : digits ≠ []) (h : ∀ c ∈ digits, c.isDigit) :
    natural? digits = some (Nat.ofDigitChars 10 digits 0) := if_pos ⟨hne, h⟩

/-! ## Shapes of numbers -/

/-- The whole text belongs to the number in front of it. -/
def Continues (text : List Char) : Prop := numberSpan false text = (text, [])

theorem continues_nil : Continues [] := rfl

theorem Continues.digits {digits rest : List Char} (hrest : Continues rest)
    (h : ∀ c ∈ digits, c.isDigit) : Continues (digits ++ rest) := by
  unfold Continues at hrest ⊢
  rw [numberSpan_of_digits h, hrest]

theorem Continues.point {rest : List Char} (hrest : Continues rest) : Continues ('.' :: rest) := by
  unfold Continues at hrest ⊢
  have hflag : decide ('.' ∈ ['e', 'E', 'p', 'P']) = false := by decide
  rw [numberSpan, if_pos (by decide), hflag, hrest]

theorem continues_exponent (e : Int) : Continues ('e' :: Decimal.integer e) := by
  have hdigits : Continues (Decimal.digits e.natAbs) := by
    have h := continues_nil.digits (digits_isDigit e.natAbs)
    rwa [List.append_nil] at h
  have hflag : decide ('e' ∈ ['e', 'E', 'p', 'P']) = true := by decide
  unfold Continues at hdigits ⊢
  rw [numberSpan, if_pos (by decide), hflag]
  unfold Decimal.integer Decimal.signed
  split
  · have hminus : decide ('-' ∈ ['e', 'E', 'p', 'P']) = false := by decide
    rw [numberSpan, if_pos (by decide), hminus, hdigits]
  · have hne := digits_ne_nil e.natAbs
    have hall := digits_isDigit e.natAbs
    -- behind the letter a digit is read as everywhere else
    cases hcases : Decimal.digits e.natAbs with
    | nil => exact absurd hcases hne
    | cons c rest =>
        rw [hcases] at hdigits hall
        have hc := isNumberChar_of_isDigit (hall c (by simp))
        have hsame : numberSpan true (c :: rest) = numberSpan false (c :: rest) := by
          simp [numberSpan, hc]
        rw [hsame, hdigits]

theorem exponent?_integer (e : Int) : ∃ n, exponent? ('e' :: Decimal.integer e) = some n := by
  have hnatural := natural?_of_digits (digits_ne_nil e.natAbs) (digits_isDigit e.natAbs)
  have hall := digits_isDigit e.natAbs
  show ∃ n, signed? (Decimal.integer e) = some n
  unfold Decimal.integer Decimal.signed
  split
  · exact ⟨_, by rw [signed?, hnatural]; rfl⟩
  · unfold signed?
    split
    next hminus => rw [hminus] at hall; exact absurd (hall '-' (by simp)) (by decide)
    next hplus => rw [hplus] at hall; exact absurd (hall '+' (by simp)) (by decide)
    next => exact ⟨_, by rw [hnatural]; rfl⟩

theorem isNumeral_pointed {whole fraction rest : List Char} (hne : whole ≠ [])
    (hwhole : ∀ c ∈ whole, c.isDigit) (hfraction : ∀ c ∈ fraction, c.isDigit)
    (hexponent : ∃ e, exponent? rest = some e) (hrest : Continues rest)
    (hend : ∀ c ∈ rest.head?, c.isDigit = false) :
    IsNumeral (whole ++ '.' :: (fraction ++ rest)) := by
  obtain ⟨e, he⟩ := hexponent
  have hpoint : ∀ c ∈ ('.' :: (fraction ++ rest)).head?, c.isDigit = false := by simp
  obtain ⟨htake, hdrop⟩ := takeWhile_dropWhile_append hwhole hpoint
  obtain ⟨htake', hdrop'⟩ := takeWhile_dropWhile_append hfraction hend
  have hall : ∀ c ∈ whole ++ fraction, c.isDigit := fun c hc =>
    (List.mem_append.1 hc).elim (hwhole c) (hfraction c)
  refine ⟨⟨⟨Nat.ofDigitChars 10 (whole ++ fraction) 0, e - fraction.length⟩, ?_⟩, ?_⟩
  · unfold numeral?
    dsimp only
    rw [htake, hdrop]
    simp only
    rw [htake', hdrop', he, natural?_of_digits (by simp [hne]) hall]
    rfl
  · obtain ⟨c, whole, rfl⟩ := List.exists_cons_of_ne_nil hne
    exact ⟨c, _, rfl, hwhole c (by simp),
      ((hrest.digits hfraction).point).digits fun d hd => hwhole d (by simp [hd])⟩

theorem isNumeral_exponent {whole : List Char} (hne : whole ≠ [])
    (hwhole : ∀ c ∈ whole, c.isDigit) (e : Int) :
    IsNumeral (whole ++ 'e' :: Decimal.integer e) := by
  obtain ⟨n, hn⟩ := exponent?_integer e
  have hletter : ∀ c ∈ ('e' :: Decimal.integer e).head?, c.isDigit = false := by simp
  obtain ⟨htake, hdrop⟩ := takeWhile_dropWhile_append hwhole hletter
  refine ⟨⟨⟨Nat.ofDigitChars 10 whole 0, n⟩, ?_⟩, ?_⟩
  · unfold numeral?
    dsimp only
    rw [htake, hdrop]
    simp [hn, natural?_of_digits hne hwhole]
  · obtain ⟨c, whole, rfl⟩ := List.exists_cons_of_ne_nil hne
    exact ⟨c, _, rfl, hwhole c (by simp),
      (continues_exponent e).digits fun d hd => hwhole d (by simp [hd])⟩

/-! ## Integers -/

theorem numeral?_digits (n : Nat) : numeral? (Decimal.digits n) = some ⟨n, 0⟩ := by
  have hall := digits_isDigit n
  have hnil : ∀ c ∈ ([] : List Char).head?, c.isDigit = false := by simp
  obtain ⟨htake, hdrop⟩ := takeWhile_dropWhile_append hall hnil
  rw [List.append_nil] at htake hdrop
  unfold numeral?
  dsimp only
  rw [htake, hdrop]
  dsimp only
  rw [if_neg fun h => head?_digits h.1 h.2, natural?_of_digits (digits_ne_nil n) hall,
    Decimal.digits, Nat.ofDigitChars_ten_toDigits]
  rfl

theorem isNumeral_digits (n : Nat) : IsNumeral (Decimal.digits n) := by
  refine ⟨⟨_, numeral?_digits n⟩, ?_⟩
  have hall := digits_isDigit n
  obtain ⟨c, rest, hdigits⟩ := List.exists_cons_of_ne_nil (digits_ne_nil n)
  rw [hdigits] at hall ⊢
  have hrest := continues_nil.digits fun d hd => hall d (List.mem_cons_of_mem c hd)
  rw [List.append_nil] at hrest
  exact ⟨c, rest, rfl, hall c (by simp), hrest⟩

/-! ## Floats -/

theorem IsNumeral.of_unsigned {count places : Nat} {text : List Char}
    (h : FloatLiteral.IsUnsigned count places text) : IsNumeral text := by
  cases h with
  | positional hwhole hfraction hplaces =>
      have hdigits := FloatLiteral.isDigits_fraction hfraction
      have hnumeral := isNumeral_pointed hwhole.ne_nil hwhole.isDigit hdigits.isDigit ⟨0, rfl⟩
        continues_nil (by simp)
      rwa [List.append_nil] at hnumeral
  | @integral digit hdigit _ e =>
      exact isNumeral_exponent (List.cons_ne_nil digit []) (by simpa using hdigit) e
  | @exponential digit fraction hdigit hfraction _ e =>
      exact isNumeral_pointed (List.cons_ne_nil digit []) (by simpa using hdigit)
        hfraction.isDigit (exponent?_integer e) (continues_exponent e) (by simp)

/-- The literal of a finite number is a decimal number, behind a minus if it is negative. -/
theorem isNumeral_float (x : Float) (digits : Nat) :
    ∃ text, IsNumeral text ∧ (FloatLiteral.text x digits).toList =
      Decimal.signed (signBit x && x != 0) text := by
  obtain ⟨text, htext, hshape⟩ := FloatLiteral.exists_text x digits
  exact ⟨text, .of_unsigned hshape, htext⟩

end ElementKernel.CSource
