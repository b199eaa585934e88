import ElementKernel.Proofs.CSource.Tokens

/-!
# Tokens of Rust expressions

A text is cut into tokens from the left, each as long as possible.  `Lexes` says into which tokens a
text is cut wherever it stands in front of something at which every token ends, so that the tokens
of a text are put together from those of its parts.
-/

namespace ElementKernel.RustSource

open CSource (BinaryOp)

inductive Token where
  /-- An identifier. -/
  | word (chars : List Char)
  | truth (value : Bool)
  /-- A number with its suffix, which may still be malformed. -/
  | number (chars : List Char)
  | operator (op : BinaryOp)
  | bang
  | dot
  | colons
  | comma
  | openParen
  | closeParen
  | openBracket
  | closeBracket
  | openBrace
  | closeBrace
  | ifKeyword
  | elseKeyword
  | asKeyword
  /-- Words and punctuation that stand in no expression of the grammar. -/
  | other (chars : List Char)
  deriving DecidableEq, Repr

/-- Characters outside of ASCII count as letters. -/
def isWordStart (c : Char) : Bool := c.isAlpha || c = '_' || 128 ≤ c.toNat

def isWordChar (c : Char) : Bool := c.isAlphanum || c = '_' || 128 ≤ c.toNat

/-! ## Words -/

/-- The keywords that start or join nothing in the grammar, and the placeholder. -/
def reserved : List String :=
  ["_", "abstract", "async", "await", "become", "box", "break", "const", "continue", "crate", "do",
    "dyn", "enum", "extern", "final", "fn", "for", "impl", "in", "let", "loop", "macro",
    "match", "mod", "move", "mut", "override", "priv", "pub", "ref", "return", "self", "Self",
    "static", "struct", "super", "trait", "try", "type", "typeof", "unsafe", "unsized", "use",
    "virtual", "where", "while", "yield"]

def wordToken (chars : List Char) : Token :=
  if chars = ['i', 'f'] then .ifKeyword
  else if chars = ['e', 'l', 's', 'e'] then .elseKeyword
  else if chars = ['a', 's'] then .asKeyword
  else if chars = ['t', 'r', 'u', 'e'] then .truth true
  else if chars = ['f', 'a', 'l', 's', 'e'] then .truth false
  else if String.ofList chars ∈ reserved then .other chars
  else .word chars

/-! ## Numbers -/

/-- The part of a number that is read: the digits in front of its point, those behind it, the sign
or digit behind the letter of its exponent, and the rest. -/
inductive NumberPart where
  | whole
  | fraction
  | exponent
  | suffix
  deriving DecidableEq

/-- Whether a text goes on like a method call or a range behind its point. -/
def startsMember : List Char → Bool
  | [] => false
  | c :: _ => c = '.' || isWordStart c

namespace NumberPart

/-- Whether a character belongs to the number. -/
def continues (part : NumberPart) (c : Char) (rest : List Char) : Bool :=
  isWordChar c || (part = .exponent && (c = '+' || c = '-')) ||
    (part = .whole && c = '.' && !startsMember rest)

def next (part : NumberPart) (c : Char) : NumberPart :=
  match part with
  | .whole | .fraction =>
      if c = '.' then .fraction
      else if c.isDigit || c = '_' then part
      else if c = 'e' || c = 'E' then .exponent
      else .suffix
  | .exponent | .suffix => .suffix

end NumberPart

/-- The rest of a number and what follows it. -/
def numberSpan (part : NumberPart) : List Char → List Char × List Char
  | [] => ([], [])
  | c :: rest =>
      if part.continues c rest then
        let span := numberSpan (part.next c) rest
        (c :: span.1, span.2)
      else ([], c :: rest)

theorem numberSpan_append (part : NumberPart) (text : List Char) :
    (numberSpan part text).1 ++ (numberSpan part text).2 = text := by
  induction text generalizing part with
  | nil => rfl
  | cons c rest ih =>
      unfold numberSpan
      split
      · simp [ih]
      · rfl

theorem length_numberSpan_le (part : NumberPart) (text : List Char) :
    (numberSpan part text).2.length ≤ text.length := by
  have h := congrArg List.length (numberSpan_append part text)
  rw [List.length_append] at h
  omega

/-! ## Punctuation -/

/-- The punctuation of Rust by decreasing length.  A comment is not cut further. -/
def marks : List (List Char × Token) :=
  [(['<', '<', '='], .other ['<', '<', '=']),
   (['>', '>', '='], .other ['>', '>', '=']),
   (['.', '.', '.'], .other ['.', '.', '.']),
   (['.', '.', '='], .other ['.', '.', '=']),
   (['=', '='], .operator (.logic .eq)),
   (['!', '='], .operator (.logic .ne)),
   (['<', '='], .operator (.logic .le)),
   (['>', '='], .operator (.logic .ge)),
   (['&', '&'], .operator (.logic .and)),
   (['|', '|'], .operator (.logic .or)),
   (['+', '='], .other ['+', '=']),
   (['-', '='], .other ['-', '=']),
   (['*', '='], .other ['*', '=']),
   (['/', '='], .other ['/', '=']),
   (['%', '='], .other ['%', '=']),
   (['^', '='], .other ['^', '=']),
   (['&', '='], .other ['&', '=']),
   (['|', '='], .other ['|', '=']),
   (['<', '<'], .other ['<', '<']),
   (['>', '>'], .other ['>', '>']),
   (['-', '>'], .other ['-', '>']),
   (['<', '-'], .other ['<', '-']),
   (['=', '>'], .other ['=', '>']),
   ([':', ':'], .colons),
   (['.', '.'], .other ['.', '.']),
   (['/', '/'], .other ['/', '/']),
   (['/', '*'], .other ['/', '*']),
   (['+'], .operator .plus),
   (['-'], .operator .minus),
   (['*'], .operator .times),
   (['/'], .operator .divide),
   (['<'], .operator (.logic .lt)),
   (['>'], .operator (.logic .gt)),
   (['!'], .bang),
   (['.'], .dot),
   ([','], .comma),
   (['('], .openParen),
   ([')'], .closeParen),
   (['['], .openBracket),
   ([']'], .closeBracket),
   (['\x7b'], .openBrace),
   (['\x7d'], .closeBrace),
   (['%'], .other ['%']),
   (['^'], .other ['^']),
   (['&'], .other ['&']),
   (['|'], .other ['|']),
   (['='], .other ['=']),
   (['@'], .other ['@']),
   ([';'], .other [';']),
   ([':'], .other [':']),
   (['#'], .other ['#']),
   (['$'], .other ['$']),
   (['?'], .other ['?']),
   (['~'], .other ['~'])]

/-- The longest punctuation at the start of a text, with its spelling. -/
def mark? (text : List Char) : Option (List Char × Token) :=
  marks.find? fun mark => mark.1.isPrefixOf text

theorem mark_ne_nil : ∀ mark ∈ marks, mark.1 ≠ [] := by decide

theorem length_pos_of_mark {text : List Char} {mark : List Char × Token}
    (h : mark? text = some mark) : 0 < mark.1.length :=
  List.length_pos_iff.2 (mark_ne_nil mark (List.mem_of_find?_eq_some h))

/-! ## Texts -/

def lex : List Char → Option (List Token)
  | [] => some []
  | c :: rest =>
      if c.isWhitespace then lex rest
      else if isWordStart c then
        (lex (rest.dropWhile isWordChar)).map (wordToken (c :: rest.takeWhile isWordChar) :: ·)
      else if c.isDigit then
        (lex (numberSpan .whole rest).2).map (.number (c :: (numberSpan .whole rest).1) :: ·)
      else
        match _h : mark? (c :: rest) with
        | some mark => (lex ((c :: rest).drop mark.1.length)).map (mark.2 :: ·)
        | none => none
termination_by text => text.length
decreasing_by
  · simp
  · have := List.length_dropWhile_le isWordChar rest
    simp
    omega
  · have := length_numberSpan_le .whole rest
    simp
    omega
  · have := length_pos_of_mark _h
    simp
    omega

theorem lex_mark {c : Char} {rest : List Char} {mark : List Char × Token}
    (hspace : ¬ c.isWhitespace) (hword : ¬ isWordStart c) (hdigit : ¬ c.isDigit)
    (hmark : mark? (c :: rest) = some mark) :
    lex (c :: rest) = (lex ((c :: rest).drop mark.1.length)).map (mark.2 :: ·) := by
  rw [lex, if_neg hspace, if_neg hword, if_neg hdigit]
  split
  next found hfound =>
    obtain rfl := Option.some.inj (hmark.symm.trans hfound)
    rfl
  next hfound => rw [hfound] at hmark; cases hmark

/-- Whether a text starts with punctuation. -/
def startsMark : List Char → Bool
  | [] => false
  | c :: _ => !c.isWhitespace && !isWordStart c && !c.isDigit

theorem lex_of_mark (spelling : List Char) (token : Token) {rest : List Char}
    (hstart : startsMark spelling) (h : mark? (spelling ++ rest) = some (spelling, token)) :
    lex (spelling ++ rest) = (lex rest).map (token :: ·) := by
  cases spelling with
  | nil => cases hstart
  | cons c spelling =>
      simp only [startsMark, Bool.and_eq_true, Bool.not_eq_true'] at hstart
      obtain ⟨⟨hspace, hword⟩, hdigit⟩ := hstart
      rw [List.cons_append] at h ⊢
      rw [lex_mark (by simp [hspace]) (by simp [hword]) (by simp [hdigit]) h,
        ← List.cons_append, List.drop_left]

theorem lex_blank (rest : List Char) : lex (' ' :: rest) = lex rest := by
  rw [lex, if_pos (by decide)]

/-! ## Parts of a text -/

/-- Characters that no token contains behind its first character. -/
def endsToken (c : Char) : Bool := c ∈ [' ', '(', ')', '[', ']', ',']

/-- What stands behind an operand: nothing, a character at which every token ends, or the name of a
method. -/
inductive Separates : List Char → Prop where
  | nil : Separates []
  | mark {c : Char} (rest : List Char) (h : endsToken c) : Separates (c :: rest)
  | member {c : Char} (rest : List Char) (h : isWordStart c) : Separates ('.' :: c :: rest)

/-- The tokens of a text in front of whatever separates it. -/
def Lexes (text : List Char) (tokens : List Token) : Prop :=
  ∀ after, Separates after → lex (text ++ after) = (lex after).map (tokens ++ ·)

theorem Separates.append {text : List Char} (h : Separates text) (hne : text ≠ [])
    (after : List Char) : Separates (text ++ after) := by
  cases h with
  | nil => exact absurd rfl hne
  | mark rest h => exact .mark _ h
  | member rest h => exact .member _ h

namespace Lexes

variable {text left right : List Char} {tokens leftTokens rightTokens : List Token}

theorem nil : Lexes [] [] := by
  intro after _
  cases hlex : lex after <;> simp [hlex]

theorem lex_eq (h : Lexes text tokens) : lex text = some tokens := by
  have hend := h [] .nil
  rw [List.append_nil, lex] at hend
  simpa using hend

theorem append (hleft : Lexes left leftTokens) (hright : Lexes right rightTokens)
    (hseparates : Separates right) (hne : right ≠ []) :
    Lexes (left ++ right) (leftTokens ++ rightTokens) := by
  intro after hafter
  rw [List.append_assoc, hleft _ (hseparates.append hne after), hright after hafter, Option.map_map]
  cases lex after <;> simp

theorem append_mark {c : Char} (hleft : Lexes left leftTokens)
    (hright : Lexes (c :: right) rightTokens) (hc : endsToken c) :
    Lexes (left ++ c :: right) (leftTokens ++ rightTokens) :=
  hleft.append hright (.mark right hc) (List.cons_ne_nil c right)

theorem blank (h : Lexes text tokens) : Lexes (' ' :: text) tokens := by
  intro after hafter
  rw [List.cons_append, lex_blank, h after hafter]

theorem of_mark (spelling : List Char) (token : Token) (hstart : startsMark spelling)
    (hmark : ∀ after, Separates after →
      mark? (spelling ++ (text ++ after)) = some (spelling, token))
    (h : Lexes text tokens) : Lexes (spelling ++ text) (token :: tokens) := by
  intro after hafter
  rw [List.append_assoc, lex_of_mark spelling token hstart (hmark after hafter), h after hafter,
    Option.map_map]
  rfl

theorem openParen (h : Lexes text tokens) : Lexes ('(' :: text) (.openParen :: tokens) :=
  h.of_mark ['('] .openParen (by decide) fun _ _ => rfl

theorem closeParen (h : Lexes text tokens) : Lexes (')' :: text) (.closeParen :: tokens) :=
  h.of_mark [')'] .closeParen (by decide) fun _ _ => rfl

theorem openBracket (h : Lexes text tokens) : Lexes ('[' :: text) (.openBracket :: tokens) :=
  h.of_mark ['['] .openBracket (by decide) fun _ _ => rfl

theorem closeBracket (h : Lexes text tokens) : Lexes (']' :: text) (.closeBracket :: tokens) :=
  h.of_mark [']'] .closeBracket (by decide) fun _ _ => rfl

theorem openBrace (h : Lexes text tokens) : Lexes ('\x7b' :: text) (.openBrace :: tokens) :=
  h.of_mark ['\x7b'] .openBrace (by decide) fun _ _ => rfl

theorem closeBrace (h : Lexes text tokens) : Lexes ('\x7d' :: text) (.closeBrace :: tokens) :=
  h.of_mark ['\x7d'] .closeBrace (by decide) fun _ _ => rfl

theorem comma (h : Lexes text tokens) : Lexes (',' :: text) (.comma :: tokens) :=
  h.of_mark [','] .comma (by decide) fun _ _ => rfl

theorem operator (op : BinaryOp) (h : Lexes text tokens) :
    Lexes (op.spelling ++ ' ' :: text) (.operator op :: tokens) := by
  refine h.blank.of_mark op.spelling (.operator op) ?_ fun after _ => ?_
  · cases op with
    | logic op => cases op <;> decide
    | _ => decide
  · cases op with
    | logic op => cases op <;> rfl
    | _ => rfl

/-- What separates starts with none of the characters that make a longer mark. -/
theorem head?_append_ne {c : Char} (htext : text.head? ≠ some c) (hc : endsToken c = false)
    (hdot : c ≠ '.') {after : List Char} (h : Separates after) :
    (text ++ after).head? ≠ some c := by
  cases text with
  | cons => exact htext
  | nil =>
      cases h with
      | nil => simp
      | mark rest h =>
          rintro heq
          obtain rfl := Option.some.inj heq
          rw [h] at hc
          cases hc
      | member rest h =>
          rintro heq
          exact hdot (Option.some.inj heq).symm

theorem bang (h : Lexes text tokens) (hhead : text.head? ≠ some '=') :
    Lexes ('!' :: text) (.bang :: tokens) := by
  refine h.of_mark ['!'] .bang (by decide) fun after hafter => ?_
  have hnext := head?_append_ne hhead (by decide) (by decide) hafter
  cases hrest : text ++ after with
  | nil => rfl
  | cons c rest =>
      have hc : c ≠ '=' := by simpa [hrest] using hnext
      simp [mark?, marks, List.isPrefixOf, hc.symm]

theorem minus (h : Lexes text tokens) (hequal : text.head? ≠ some '=')
    (hgreater : text.head? ≠ some '>') : Lexes ('-' :: text) (.operator .minus :: tokens) := by
  refine h.of_mark ['-'] (.operator .minus) (by decide) fun after hafter => ?_
  have hequal := head?_append_ne hequal (by decide) (by decide) hafter
  have hgreater := head?_append_ne hgreater (by decide) (by decide) hafter
  cases hrest : text ++ after with
  | nil => rfl
  | cons c rest =>
      rw [hrest] at hequal hgreater
      have hc : c ≠ '=' := by simpa using hequal
      have hc' : c ≠ '>' := by simpa using hgreater
      simp [mark?, marks, List.isPrefixOf, hc.symm, hc'.symm]

end Lexes

/-! ## Names -/

/-- A word that is neither a keyword nor the placeholder. -/
structure IsIdentifier (chars : List Char) : Prop where
  shape : ∃ c rest, chars = c :: rest ∧ isWordStart c ∧ ∀ d ∈ rest, isWordChar d
  free : wordToken chars = .word chars

theorem isIdentifier_cons {c : Char} {rest : List Char} (hc : isWordStart c = true)
    (hrest : rest.all isWordChar = true) (hfree : wordToken (c :: rest) = .word (c :: rest)) :
    IsIdentifier (c :: rest) :=
  ⟨⟨c, rest, rfl, hc, List.all_eq_true.1 hrest⟩, hfree⟩

theorem not_isWhitespace_of_isWordStart {c : Char} (h : isWordStart c) : ¬ c.isWhitespace :=
  CSource.not_isWhitespace_of rfl h

theorem isWordChar_of_endsToken {c : Char} (h : endsToken c) : isWordChar c = false := by
  simp only [endsToken, decide_eq_true_eq] at h
  fin_cases h <;> rfl

theorem lex_word {c : Char} {rest after : List Char} (hc : isWordStart c)
    (hrest : ∀ d ∈ rest, isWordChar d) (hafter : ∀ d ∈ after.head?, isWordChar d = false) :
    lex (c :: (rest ++ after)) = (lex after).map (wordToken (c :: rest) :: ·) := by
  obtain ⟨htake, hdrop⟩ := CSource.takeWhile_dropWhile_append hrest hafter
  rw [lex, if_neg (not_isWhitespace_of_isWordStart hc), if_pos hc, htake, hdrop]

theorem Separates.head?_isWordChar {after : List Char} (h : Separates after) :
    ∀ d ∈ after.head?, isWordChar d = false := by
  cases h with
  | nil => simp
  | mark rest h => simpa using isWordChar_of_endsToken h
  | member rest h => simp; decide

theorem Lexes.word {c : Char} {rest : List Char} (hc : isWordStart c)
    (hrest : ∀ d ∈ rest, isWordChar d) : Lexes (c :: rest) [wordToken (c :: rest)] := by
  intro after hafter
  rw [List.cons_append, lex_word hc hrest hafter.head?_isWordChar]
  rfl

theorem Lexes.member {left right name : List Char} {leftTokens rightTokens : List Token}
    (hleft : Lexes left leftTokens) (hname : IsIdentifier name) {c : Char}
    (hright : Lexes (c :: right) rightTokens) (hc : endsToken c) :
    Lexes (left ++ '.' :: (name ++ c :: right))
      (leftTokens ++ .dot :: .word name :: rightTokens) := by
  obtain ⟨⟨d, rest, rfl, hd, hrest⟩, hfree⟩ := hname
  have hword := Lexes.word hd hrest
  rw [hfree] at hword
  have htail := hword.append_mark hright hc
  rw [List.cons_append] at htail
  have hmark : ∀ after, Separates after → mark? (['.'] ++ (d :: (rest ++ c :: right) ++ after)) =
      some (['.'], .dot) := by
    intro after _
    have hdot : d ≠ '.' := by
      rintro rfl
      exact absurd hd (by decide)
    simp [mark?, marks, List.isPrefixOf, hdot.symm]
  exact hleft.append (htail.of_mark ['.'] .dot (by decide) hmark) (.member _ hd)
    (List.cons_ne_nil _ _)

/-! ## Paths -/

/-- The text of a path. -/
def pathText (parts : List (List Char)) : List Char := [':', ':'].intercalate parts

/-- The tokens of the further parts of a path. -/
def pathRest (parts : List (List Char)) : List Token :=
  parts.flatMap fun part => [.colons, .word part]

/-- The tokens of a path. -/
def pathTokens : List (List Char) → List Token
  | [] => []
  | part :: parts => .word part :: pathRest parts

def IsPath (parts : List (List Char)) : Prop := parts ≠ [] ∧ ∀ part ∈ parts, IsIdentifier part

theorem IsPath.lexes {parts : List (List Char)} (h : IsPath parts) :
    Lexes (pathText parts) (pathTokens parts) := by
  obtain ⟨hne, hall⟩ := h
  induction parts with
  | nil => exact absurd rfl hne
  | cons part parts ih =>
      obtain ⟨⟨c, rest, rfl, hc, hrest⟩, hfree⟩ := hall part (by simp)
      cases parts with
      | nil =>
          have hword := Lexes.word hc hrest
          rw [hfree] at hword
          simpa [pathText, pathTokens, pathRest] using hword
      | cons second parts =>
          have htail := ih (by simp) fun d hd => hall d (List.mem_cons_of_mem _ hd)
          have hcolons := htail.of_mark [':', ':'] .colons (by decide) fun _ _ => rfl
          intro after hafter
          have hsplit : pathText ((c :: rest) :: second :: parts) ++ after =
              c :: (rest ++ ([':', ':'] ++ pathText (second :: parts) ++ after)) := by
            simp [pathText, List.intercalate_cons_cons]
          rw [hsplit, lex_word hc hrest (by simp; decide), hcolons after hafter, hfree,
            Option.map_map]
          rfl

end ElementKernel.RustSource
