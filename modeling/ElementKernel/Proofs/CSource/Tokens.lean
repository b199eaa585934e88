import ElementKernel.Code.Expr
import Mathlib

/-!
# Tokens of C expressions

A text is cut into tokens from the left, each as long as possible.  A path such as `std::pow` is one
word.  The main result is that a text can be cut before a character at which no token goes on:
`lex_append`.
-/

namespace ElementKernel.CSource

/-- Operators between two operands. -/
inductive BinaryOp where
  | plus
  | minus
  | times
  | divide
  | logic (op : LogicOp)
  deriving DecidableEq, Repr

inductive Token where
  /-- An identifier or a path. -/
  | word (chars : List Char)
  /-- A number, which may still be malformed. -/
  | number (chars : List Char)
  | operator (op : BinaryOp)
  | bang
  | question
  | colon
  | comma
  | openParen
  | closeParen
  | openBracket
  | closeBracket
  /-- Punctuation that stands in no expression of the grammar. -/
  | other (chars : List Char)
  deriving DecidableEq, Repr

def isWordStart (c : Char) : Bool := c.isAlpha || c = '_'

def isWordChar (c : Char) : Bool := c.isAlphanum || c = '_'

def isNumberChar (c : Char) : Bool := isWordChar c || c = '.'

/-- Characters that no token contains behind its first character. -/
def endsToken (c : Char) : Bool := c ∈ [' ', '(', ')', '[', ']', ',']

/-- A text in front of which every token ends. -/
def EndsToken (text : List Char) : Prop := ∀ c ∈ text.head?, endsToken c

/-! ## Spans -/

theorem takeWhile_dropWhile_append {p : Char → Bool} {text rest : List Char}
    (h : ∀ c ∈ text, p c) (hrest : ∀ c ∈ rest.head?, p c = false) :
    (text ++ rest).takeWhile p = text ∧ (text ++ rest).dropWhile p = rest := by
  rw [List.takeWhile_append_of_pos h, List.dropWhile_append_of_pos h]
  cases rest with
  | nil => simp
  | cons c rest => simp [hrest c (by simp)]

/-- Whether a character is the first colon between two parts of a path. -/
def opensPart (c : Char) : List Char → Bool
  | second :: start :: _ => c = ':' && second = ':' && isWordStart start
  | _ => false

/-- The rest of a word and what follows it.  The flag stands between the two colons of a path. -/
def wordSpan (inPath : Bool) : List Char → List Char × List Char
  | [] => ([], [])
  | c :: rest =>
      if isWordChar c || inPath || opensPart c rest then
        let span := wordSpan (!inPath && opensPart c rest) rest
        (c :: span.1, span.2)
      else ([], c :: rest)

/-- The rest of a number and what follows it.  The flag stands behind the letter of an exponent,
where a sign belongs to the number. -/
def numberSpan (inExponent : Bool) : List Char → List Char × List Char
  | [] => ([], [])
  | c :: rest =>
      if isNumberChar c || (inExponent && (c = '+' || c = '-')) then
        let span := numberSpan (c ∈ ['e', 'E', 'p', 'P']) rest
        (c :: span.1, span.2)
      else ([], c :: rest)

theorem wordSpan_append (inPath : Bool) (text : List Char) :
    (wordSpan inPath text).1 ++ (wordSpan inPath text).2 = text := by
  induction text generalizing inPath with
  | nil => rfl
  | cons c rest ih =>
      unfold wordSpan
      split
      · simp [ih]
      · rfl

theorem numberSpan_append (inExponent : Bool) (text : List Char) :
    (numberSpan inExponent text).1 ++ (numberSpan inExponent text).2 = text := by
  induction text generalizing inExponent with
  | nil => rfl
  | cons c rest ih =>
      unfold numberSpan
      split
      · simp [ih]
      · rfl

theorem length_wordSpan_le (inPath : Bool) (text : List Char) :
    (wordSpan inPath text).2.length ≤ text.length := by
  have h := congrArg List.length (wordSpan_append inPath text)
  rw [List.length_append] at h
  omega

theorem length_numberSpan_le (inExponent : Bool) (text : List Char) :
    (numberSpan inExponent text).2.length ≤ text.length := by
  have h := congrArg List.length (numberSpan_append inExponent text)
  rw [List.length_append] at h
  omega

/-! ## Punctuation -/

/-- The punctuation of C by decreasing length.  A comment is not cut further. -/
def marks : List (List Char × Token) :=
  [(['<', '<', '='], .other ['<', '<', '=']),
   (['>', '>', '='], .other ['>', '>', '=']),
   (['.', '.', '.'], .other ['.', '.', '.']),
   (['=', '='], .operator (.logic .eq)),
   (['!', '='], .operator (.logic .ne)),
   (['<', '='], .operator (.logic .le)),
   (['>', '='], .operator (.logic .ge)),
   (['&', '&'], .operator (.logic .and)),
   (['|', '|'], .operator (.logic .or)),
   (['+', '+'], .other ['+', '+']),
   (['-', '-'], .other ['-', '-']),
   (['-', '>'], .other ['-', '>']),
   (['+', '='], .other ['+', '=']),
   (['-', '='], .other ['-', '=']),
   (['*', '='], .other ['*', '=']),
   (['/', '='], .other ['/', '=']),
   (['%', '='], .other ['%', '=']),
   (['&', '='], .other ['&', '=']),
   (['|', '='], .other ['|', '=']),
   (['^', '='], .other ['^', '=']),
   (['<', '<'], .other ['<', '<']),
   (['>', '>'], .other ['>', '>']),
   ([':', ':'], .other [':', ':']),
   (['/', '/'], .other ['/', '/']),
   (['/', '*'], .other ['/', '*']),
   (['+'], .operator .plus),
   (['-'], .operator .minus),
   (['*'], .operator .times),
   (['/'], .operator .divide),
   (['<'], .operator (.logic .lt)),
   (['>'], .operator (.logic .gt)),
   (['!'], .bang),
   (['?'], .question),
   ([':'], .colon),
   ([','], .comma),
   (['('], .openParen),
   ([')'], .closeParen),
   (['['], .openBracket),
   ([']'], .closeBracket),
   (['&'], .other ['&']),
   (['|'], .other ['|']),
   (['^'], .other ['^']),
   (['~'], .other ['~']),
   (['%'], .other ['%']),
   (['='], .other ['=']),
   (['.'], .other ['.']),
   ([';'], .other [';']),
   (['\x7b'], .other ['\x7b']),
   (['\x7d'], .other ['\x7d'])]

/-- The longest punctuation at the start of a text, with its spelling. -/
def mark? (text : List Char) : Option (List Char × Token) :=
  marks.find? fun mark => mark.1.isPrefixOf text

theorem mark_ne_nil : ∀ mark ∈ marks, mark.1 ≠ [] := by decide

theorem endsToken_of_mem_tail : ∀ mark ∈ marks, ∀ c ∈ mark.1.tail, endsToken c = false := by
  have hall : (marks.all fun mark => mark.1.tail.all fun c => !endsToken c) = true := by decide
  simpa using hall

theorem length_pos_of_mark {text : List Char} {mark : List Char × Token}
    (h : mark? text = some mark) : 0 < mark.1.length :=
  List.length_pos_iff.2 (mark_ne_nil mark (List.mem_of_find?_eq_some h))

/-! ## Texts -/

def lex : List Char → Option (List Token)
  | [] => some []
  | c :: rest =>
      if c.isWhitespace then lex rest
      else if isWordStart c then
        (lex (wordSpan false rest).2).map (.word (c :: (wordSpan false rest).1) :: ·)
      else if c.isDigit then
        (lex (numberSpan false rest).2).map (.number (c :: (numberSpan false rest).1) :: ·)
      else
        match _h : mark? (c :: rest) with
        | some mark => (lex ((c :: rest).drop mark.1.length)).map (mark.2 :: ·)
        | none => none
termination_by text => text.length
decreasing_by
  · simp
  · have := length_wordSpan_le false rest
    simp
    omega
  · have := length_numberSpan_le false rest
    simp
    omega
  · have := length_pos_of_mark _h
    simp
    omega

theorem lex_mark {c : Char} {rest : List Char} {mark : List Char × Token}
    (hspace : ¬ c.isWhitespace) (hword : ¬ isWordStart c) (hdigit : ¬ c.isDigit)
    (hmark : mark? (c :: rest) = some mark) :
    lex (c :: rest) = (lex ((c :: rest).drop mark.1.length)).map (mark.2 :: ·) := by
  rw [lex, if_neg hspace, if_neg hword, if_neg hdigit]
  split
  next found hfound =>
    obtain rfl := Option.some.inj (hmark.symm.trans hfound)
    rfl
  next hfound => rw [hfound] at hmark; cases hmark

theorem lex_of_mark_none {c : Char} {rest : List Char}
    (hspace : ¬ c.isWhitespace) (hword : ¬ isWordStart c) (hdigit : ¬ c.isDigit)
    (hmark : mark? (c :: rest) = none) : lex (c :: rest) = none := by
  rw [lex, if_neg hspace, if_neg hword, if_neg hdigit]
  split
  next found hfound => rw [hfound] at hmark; cases hmark
  next hfound => rfl

/-! ## Cutting a text -/

theorem isWordChar_of_endsToken {c : Char} (h : endsToken c) : isWordChar c = false := by
  simp only [endsToken, decide_eq_true_eq] at h
  fin_cases h <;> rfl

theorem ne_colon_of_endsToken {c : Char} (h : endsToken c) : c ≠ ':' := by
  rintro rfl
  exact absurd h (by decide)

theorem isNumberChar_of_endsToken {c : Char} (h : endsToken c) : isNumberChar c = false := by
  simp only [endsToken, decide_eq_true_eq] at h
  fin_cases h <;> rfl

theorem opensPart_append {after : List Char} (h : EndsToken after) (c : Char) (rest : List Char) :
    opensPart c (rest ++ after) = opensPart c rest := by
  match rest, after with
  | _ :: _ :: _, _ => rfl
  | _, [] => simp
  | [], d :: after =>
      have hd : d ≠ ':' := ne_colon_of_endsToken (h d (by simp))
      cases after with
      | nil => rfl
      | cons => simp [opensPart, hd]
  | [x], d :: after =>
      have hd : isWordStart d = false := by
        have hword := isWordChar_of_endsToken (h d (by simp))
        simp_all [isWordStart, isWordChar, Char.isAlphanum]
      simp [opensPart, hd]

theorem wordSpan_before {after : List Char} (h : EndsToken after) (inPath : Bool)
    (text : List Char) (hpath : inPath → text ≠ []) :
    wordSpan inPath (text ++ after) =
      ((wordSpan inPath text).1, (wordSpan inPath text).2 ++ after) := by
  induction text generalizing inPath with
  | nil =>
      have hflag : inPath = false := by simpa using hpath
      subst hflag
      cases after with
      | nil => rfl
      | cons d after =>
          have hd := h d (by simp)
          have hopens : opensPart d after = false := by
            unfold opensPart
            split
            · simp [ne_colon_of_endsToken hd]
            · rfl
          simp [wordSpan, isWordChar_of_endsToken hd, hopens]
  | cons c rest ih =>
      rw [List.cons_append]
      unfold wordSpan
      rw [opensPart_append h]
      split
      next hgo =>
        rw [ih]
        intro hflag hrest
        simp [hrest, opensPart] at hflag
      next hstop => rfl

theorem numberSpan_before {after : List Char} (h : EndsToken after) (inExponent : Bool)
    (text : List Char) :
    numberSpan inExponent (text ++ after) =
      ((numberSpan inExponent text).1, (numberSpan inExponent text).2 ++ after) := by
  induction text generalizing inExponent with
  | nil =>
      cases after with
      | nil => rfl
      | cons d after =>
          have hd := h d (by simp)
          have hsign : d ≠ '+' ∧ d ≠ '-' := by
            constructor
            · rintro rfl
              exact absurd hd (by decide)
            · rintro rfl
              exact absurd hd (by decide)
          simp [numberSpan, isNumberChar_of_endsToken hd, hsign]
  | cons c rest ih =>
      rw [List.cons_append]
      unfold numberSpan
      split
      next hgo => rw [ih]
      next hstop => rfl

/-- A spelling that no token contains behind its first character is not completed by what
follows. -/
theorem isPrefixOf_before {after spelling : List Char} (h : EndsToken after)
    (hspelling : ∀ c ∈ spelling.tail, endsToken c = false) (c : Char) (rest : List Char) :
    spelling.isPrefixOf (c :: rest ++ after) = spelling.isPrefixOf (c :: rest) := by
  cases spelling with
  | nil => rfl
  | cons first spelling =>
      rw [List.cons_append, List.isPrefixOf_cons_cons, List.isPrefixOf_cons_cons]
      congr 1
      rw [List.tail_cons] at hspelling
      induction spelling generalizing rest with
      | nil => rfl
      | cons second spelling ih =>
          cases rest with
          | cons d rest =>
              rw [List.cons_append, List.isPrefixOf_cons_cons, List.isPrefixOf_cons_cons,
                ih rest fun e he => hspelling e (List.mem_cons_of_mem _ he)]
          | nil =>
              cases after with
              | nil => rfl
              | cons d after =>
                  have hd := h d (by simp)
                  have hsecond := hspelling second (by simp)
                  have hne : second ≠ d := by
                    rintro rfl
                    simp [hd] at hsecond
                  simp [List.isPrefixOf, hne]

theorem mark?_before {after : List Char} (h : EndsToken after) (c : Char) (rest : List Char) :
    mark? (c :: rest ++ after) = mark? (c :: rest) := by
  exact List.find?_congr fun mark hmark =>
    isPrefixOf_before h (endsToken_of_mem_tail mark hmark) c rest

theorem length_mark_le {text : List Char} {mark : List Char × Token} (h : mark? text = some mark) :
    mark.1.length ≤ text.length := by
  have hprefix := List.find?_some h
  exact (List.isPrefixOf_iff_prefix.1 hprefix).length_le

/-- A text is cut in front of a character at which every token ends. -/
theorem lex_append {text after : List Char} {tokens : List Token} (h : EndsToken after)
    (htext : lex text = some tokens) :
    lex (text ++ after) = (lex after).map (tokens ++ ·) := by
  induction text using lex.induct generalizing tokens with
  | case1 =>
      rw [lex] at htext
      obtain rfl := Option.some.inj htext
      simp
  | case2 c rest hspace ih =>
      rw [lex, if_pos hspace] at htext
      rw [List.cons_append, lex, if_pos hspace]
      exact ih htext
  | case3 c rest hspace hword ih =>
      rw [lex, if_neg hspace, if_pos hword, Option.map_eq_some_iff] at htext
      obtain ⟨tail, htail, rfl⟩ := htext
      rw [List.cons_append, lex, if_neg hspace, if_pos hword,
        wordSpan_before h false rest (by simp), ih htail, Option.map_map]
      rfl
  | case4 c rest hspace hword hdigit ih =>
      rw [lex, if_neg hspace, if_neg hword, if_pos hdigit, Option.map_eq_some_iff] at htext
      obtain ⟨tail, htail, rfl⟩ := htext
      rw [List.cons_append, lex, if_neg hspace, if_neg hword, if_pos hdigit,
        numberSpan_before h false rest, ih htail, Option.map_map]
      rfl
  | case5 c rest hspace hword hdigit mark hmark ih =>
      rw [lex_mark hspace hword hdigit hmark, Option.map_eq_some_iff] at htext
      obtain ⟨tail, htail, rfl⟩ := htext
      have hlength := length_mark_le hmark
      rw [← mark?_before h] at hmark
      rw [List.cons_append] at hmark
      rw [List.cons_append, lex_mark hspace hword hdigit hmark, ← List.cons_append,
        List.drop_append_of_le_length hlength, ih htail, Option.map_map]
      rfl
  | case6 c rest hspace hword hdigit hmark =>
      rw [lex_of_mark_none hspace hword hdigit hmark] at htext
      cases htext

/-! ## Single tokens -/

/-- Whether a text starts with punctuation. -/
def startsMark : List Char → Bool
  | [] => false
  | c :: _ => !c.isWhitespace && !isWordStart c && !c.isDigit

theorem lex_of_mark (spelling : List Char) (token : Token) {rest : List Char}
    (hstart : startsMark spelling) (h : mark? (spelling ++ rest) = some (spelling, token)) :
    lex (spelling ++ rest) = (lex rest).map (token :: ·) := by
  cases spelling with
  | nil => cases hstart
  | cons c spelling =>
      simp only [startsMark, Bool.and_eq_true, Bool.not_eq_true'] at hstart
      obtain ⟨⟨hspace, hword⟩, hdigit⟩ := hstart
      rw [List.cons_append] at h ⊢
      rw [lex_mark (by simp [hspace]) (by simp [hword]) (by simp [hdigit]) h,
        ← List.cons_append, List.drop_left]

theorem lex_blank (rest : List Char) : lex (' ' :: rest) = lex rest := by
  rw [lex, if_pos (by decide)]

theorem lex_openParen (rest : List Char) :
    lex ('(' :: rest) = (lex rest).map (.openParen :: ·) :=
  lex_of_mark ['('] .openParen (by decide) rfl

theorem lex_closeParen (rest : List Char) :
    lex (')' :: rest) = (lex rest).map (.closeParen :: ·) :=
  lex_of_mark [')'] .closeParen (by decide) rfl

theorem lex_openBracket (rest : List Char) :
    lex ('[' :: rest) = (lex rest).map (.openBracket :: ·) :=
  lex_of_mark ['['] .openBracket (by decide) rfl

theorem lex_closeBracket (rest : List Char) :
    lex (']' :: rest) = (lex rest).map (.closeBracket :: ·) :=
  lex_of_mark [']'] .closeBracket (by decide) rfl

theorem lex_comma (rest : List Char) : lex (',' :: rest) = (lex rest).map (.comma :: ·) :=
  lex_of_mark [','] .comma (by decide) rfl

theorem lex_question (rest : List Char) :
    lex ('?' :: rest) = (lex rest).map (.question :: ·) :=
  lex_of_mark ['?'] .question (by decide) rfl

theorem lex_colon (rest : List Char) :
    lex (':' :: ' ' :: rest) = (lex rest).map (.colon :: ·) := by
  rw [← lex_blank rest]
  exact lex_of_mark [':'] .colon (by decide) rfl

theorem lex_bang {rest : List Char} (h : rest.head? ≠ some '=') :
    lex ('!' :: rest) = (lex rest).map (.bang :: ·) := by
  refine lex_of_mark ['!'] .bang (by decide) ?_
  cases rest with
  | nil => rfl
  | cons c rest =>
      have hc : c ≠ '=' := by simpa using h
      simp [mark?, marks, List.isPrefixOf, hc.symm]

theorem lex_minus {rest : List Char} (h : ∀ c ∈ rest.head?, c ≠ '-' ∧ c ≠ '>' ∧ c ≠ '=') :
    lex ('-' :: rest) = (lex rest).map (.operator .minus :: ·) := by
  refine lex_of_mark ['-'] (.operator .minus) (by decide) ?_
  cases rest with
  | nil => rfl
  | cons c rest =>
      obtain ⟨hminus, hgreater, hequal⟩ := h c (by simp)
      simp [mark?, marks, List.isPrefixOf, hminus.symm, hgreater.symm, hequal.symm]

def BinaryOp.spelling : BinaryOp → List Char
  | .plus => ['+']
  | .minus => ['-']
  | .times => ['*']
  | .divide => ['/']
  | .logic op => op.symbol.toList

theorem lex_operator (op : BinaryOp) (rest : List Char) :
    lex (op.spelling ++ ' ' :: rest) = (lex rest).map (.operator op :: ·) := by
  rw [← lex_blank rest]
  refine lex_of_mark op.spelling (.operator op) ?_ ?_
  · cases op with
    | logic op => cases op <;> decide
    | _ => decide
  · cases op with
    | logic op => cases op <;> rfl
    | _ => rfl

/-! ## Names -/

def IsIdentifier (chars : List Char) : Prop :=
  ∃ c rest, chars = c :: rest ∧ isWordStart c ∧ ∀ d ∈ rest, isWordChar d

theorem isIdentifier_cons {c : Char} {rest : List Char} (hc : isWordStart c = true)
    (hrest : rest.all isWordChar = true) : IsIdentifier (c :: rest) :=
  ⟨c, rest, rfl, hc, List.all_eq_true.1 hrest⟩

/-- Identifiers with two colons between each two of them. -/
inductive IsName : List Char → Prop where
  | identifier {chars : List Char} (h : IsIdentifier chars) : IsName chars
  | path {chars rest : List Char} (h : IsIdentifier chars) (hrest : IsName rest) :
      IsName (chars ++ ':' :: ':' :: rest)

theorem not_isWhitespace_of {p : Char → Bool} (hp : [' ', '\t', '\r', '\n'].any p = false)
    {c : Char} (h : p c) : ¬ c.isWhitespace := by
  intro hspace
  have hmem : c ∈ [' ', '\t', '\r', '\n'] := by
    simpa [Char.isWhitespace, or_assoc] using hspace
  exact List.any_eq_false.1 hp c hmem h

theorem not_isWhitespace_of_isWordStart {c : Char} (h : isWordStart c) : ¬ c.isWhitespace :=
  not_isWhitespace_of rfl h

theorem isWordChar_of_isWordStart {c : Char} (h : isWordStart c) : isWordChar c := by
  simp only [isWordStart, isWordChar, Char.isAlphanum, Bool.or_eq_true] at h ⊢
  tauto

theorem opensPart_of_wordChar {c : Char} (h : isWordChar c) (rest : List Char) :
    opensPart c rest = false := by
  have hc : c ≠ ':' := by
    rintro rfl
    exact absurd h (by decide)
  unfold opensPart
  split
  · simp [hc]
  · rfl

theorem wordSpan_of_wordChars {chars : List Char} (h : ∀ d ∈ chars, isWordChar d)
    (rest : List Char) :
    wordSpan false (chars ++ rest) =
      (chars ++ (wordSpan false rest).1, (wordSpan false rest).2) := by
  induction chars with
  | nil => rfl
  | cons c chars ih =>
      have hc := h c (by simp)
      have htail := ih fun d hd => h d (List.mem_cons_of_mem _ hd)
      simp [wordSpan, hc, opensPart_of_wordChar hc, htail]

theorem IsName.span {name : List Char} (h : IsName name) :
    ∃ c rest, name = c :: rest ∧ isWordStart c ∧ wordSpan false rest = (rest, []) := by
  induction h with
  | identifier h =>
      obtain ⟨c, rest, rfl, hstart, hrest⟩ := h
      refine ⟨c, rest, rfl, hstart, ?_⟩
      have hspan := wordSpan_of_wordChars hrest []
      rwa [List.append_nil, wordSpan, List.append_nil] at hspan
  | path h hrest ih =>
      obtain ⟨c, chars, rfl, hstart, hchars⟩ := h
      obtain ⟨d, rest, rfl, hd, hspan⟩ := ih
      refine ⟨c, chars ++ ':' :: ':' :: d :: rest, rfl, hstart, ?_⟩
      have hopens : opensPart ':' (':' :: d :: rest) = true := by simp [opensPart, hd]
      have hword := isWordChar_of_isWordStart hd
      rw [wordSpan_of_wordChars hchars]
      simp [wordSpan, hopens, hword, opensPart_of_wordChar hword, hspan]

theorem IsName.lex {name : List Char} (h : IsName name) : lex name = some [.word name] := by
  obtain ⟨c, rest, rfl, hstart, hspan⟩ := h.span
  rw [CSource.lex, if_neg (not_isWhitespace_of_isWordStart hstart), if_pos hstart, hspan,
    CSource.lex]
  rfl

end ElementKernel.CSource
