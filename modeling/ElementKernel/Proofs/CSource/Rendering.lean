import ElementKernel.Proofs.CSource.Meaning

/-!
# Rendered expressions in C

The text of an expression is a phrase of the grammar of C, and its one tree has the value of the
expression: `Renderer.expr_faithful`.
-/

namespace ElementKernel.CSource

open Renderer

variable {K : Type*} [Field K] {types : List Char → Prop} {I : Interpretation K}

/-- A text is a phrase of the rank with the value. -/
def Reads (types : List Char → Prop) (I : Interpretation K) (rank : Nat) (text : List Char)
    (value : K) : Prop :=
  ∃ tokens t, lex text = some tokens ∧ Derives types rank tokens t ∧ I.tree t = value

theorem endsToken_cons {c : Char} {text : List Char} (h : endsToken c) : EndsToken (c :: text) := by
  intro d hd
  obtain rfl := Option.some.inj hd
  exact h

namespace Reads

variable {rank : Nat} {text left right : List Char} {x y z : K}

theorem weaken {lower : Nat} (h : Reads types I rank text x) (hle : lower ≤ rank) :
    Reads types I lower text x := by
  obtain ⟨tokens, t, hlex, ht, hvalue⟩ := h
  exact ⟨tokens, t, hlex, ht.weaken hle, hvalue⟩

theorem group (h : Reads types I 0 text x) : Reads types I rank ('(' :: (text ++ [')'])) x := by
  obtain ⟨tokens, t, hlex, ht, hvalue⟩ := h
  refine ⟨_, t, ?_, .group ht, hvalue⟩
  rw [lex_openParen, lex_append (endsToken_cons (by decide)) hlex, lex_closeParen, lex]
  rfl

theorem index (harray : Reads types I 8 left x) (hindex : Reads types I 0 right y) :
    Reads types I 8 (left ++ '[' :: (right ++ [']'])) (I.index x y) := by
  obtain ⟨array, a, hlexArray, ha, rfl⟩ := harray
  obtain ⟨index, i, hlexIndex, hi, rfl⟩ := hindex
  refine ⟨_, _, ?_, .index le_rfl ha hi, rfl⟩
  rw [lex_append (endsToken_cons (by decide)) hlexArray, lex_openBracket,
    lex_append (endsToken_cons (by decide)) hlexIndex, lex_closeBracket, lex]
  rfl

theorem lex_between {leftTokens rightTokens : List Token} (op : BinaryOp)
    (hleft : lex left = some leftTokens) (hright : lex right = some rightTokens) :
    lex (left ++ ' ' :: (op.spelling ++ ' ' :: right)) =
      some (leftTokens ++ .operator op :: rightTokens) := by
  rw [lex_append (endsToken_cons (by decide)) hleft, lex_blank, lex_operator, hright]
  rfl

theorem binary (op : BinaryOp) (hleft : Reads types I op.rank left x)
    (hright : Reads types I (op.rank + 1) right y) :
    Reads types I op.rank (left ++ ' ' :: (op.spelling ++ ' ' :: right)) (I.binary op x y) := by
  obtain ⟨leftTokens, l, hlexLeft, hl, rfl⟩ := hleft
  obtain ⟨rightTokens, r, hlexRight, hr, rfl⟩ := hright
  exact ⟨_, _, lex_between op hlexLeft hlexRight, .binary op le_rfl hl hr, rfl⟩

/-- The right operand of an operator that chains may be a chain itself. -/
theorem chain {op : BinaryOp} (hop : op.Chains) (hleft : Reads types I op.rank left x)
    (hright : Reads types I op.rank right y) :
    Reads types I op.rank (left ++ ' ' :: (op.spelling ++ ' ' :: right)) (I.binary op x y) := by
  obtain ⟨leftTokens, l, hlexLeft, hl, rfl⟩ := hleft
  obtain ⟨rightTokens, r, hlexRight, hr, rfl⟩ := hright
  obtain ⟨t, ht, hvalue⟩ := hl.join I hop hr
  exact ⟨_, t, lex_between op hlexLeft hlexRight, ht, hvalue⟩

theorem conditional {condition whenTrue whenFalse : List Char}
    (hcondition : Reads types I 1 condition x) (htrue : Reads types I 0 whenTrue y)
    (hfalse : Reads types I 0 whenFalse z) :
    Reads types I 0
      (condition ++ ' ' :: '?' :: ' ' :: (whenTrue ++ ' ' :: ':' :: ' ' :: whenFalse))
      (I.conditional x y z) := by
  obtain ⟨conditionTokens, c, hlexCondition, hc, rfl⟩ := hcondition
  obtain ⟨trueTokens, t, hlexTrue, ht, rfl⟩ := htrue
  obtain ⟨falseTokens, e, hlexFalse, he, rfl⟩ := hfalse
  refine ⟨_, _, ?_, .conditional hc ht he, rfl⟩
  rw [lex_append (endsToken_cons (by decide)) hlexCondition, lex_blank, lex_question, lex_blank,
    lex_append (endsToken_cons (by decide)) hlexTrue, lex_blank, lex_colon, hlexFalse]
  rfl

theorem head?_ne (h : Reads types I rank text x) : text.head? ≠ some '=' := by
  intro hhead
  obtain ⟨tokens, t, hlex, ht, -⟩ := h
  obtain ⟨rest, rfl⟩ : ∃ rest, text = '=' :: rest := by
    cases text with
    | nil => cases hhead
    | cons c rest => exact ⟨rest, by rw [Option.some.inj hhead]⟩
  have hend : FollowedBy rank [] := by simp [FollowedBy]
  have hrun := ht.runs le_rfl hend (.stop (by simp))
  have hmark : mark? ('=' :: rest) = some (['=', '='], .operator (.logic .eq)) ∨
      mark? ('=' :: rest) = some (['='], .other ['=']) := by
    cases rest with
    | nil => exact Or.inr rfl
    | cons c rest =>
        by_cases hc : c = '='
        · subst hc
          exact Or.inl rfl
        · have hne : ('=' == c) = false := by simpa using fun h => hc h.symm
          exact Or.inr (by simp [mark?, marks, List.isPrefixOf, hne])
  obtain hmark | hmark := hmark
  all_goals
    rw [lex_mark (by decide) (by decide) (by decide) hmark, Option.map_eq_some_iff] at hlex
    obtain ⟨tail, -, rfl⟩ := hlex
    cases hrun

theorem not (h : Reads types I 7 text x) : Reads types I 7 ('!' :: text) (I.not x) := by
  have hhead := h.head?_ne
  obtain ⟨tokens, t, hlex, ht, rfl⟩ := h
  refine ⟨_, _, ?_, .not le_rfl ht, rfl⟩
  rw [lex_bang hhead, hlex]
  rfl

theorem constant {c : Constant} : Reads types I rank c.spelling (I.constant c) := by
  have hname : IsName c.spelling :=
    .identifier (by cases c <;> exact isIdentifier_cons (by decide) (by decide))
  have hconstant : constant? c.spelling = some c := by cases c <;> rfl
  exact ⟨_, _, hname.lex, .constant hconstant, rfl⟩

theorem number {n : Numeral} (htext : IsNumeral text) (h : numeral? text = some n) :
    Reads types I rank text n.value :=
  ⟨_, _, htext.lex, .number h, rfl⟩

theorem negative (h : Reads types I 7 text x) (hhead : ∀ c ∈ text.head?, isNumberChar c) :
    Reads types I 7 ('-' :: text) (-x) := by
  obtain ⟨tokens, t, hlex, ht, rfl⟩ := h
  refine ⟨_, _, ?_, .negative le_rfl ht, rfl⟩
  rw [lex_minus, hlex]
  · rfl
  · intro c hc
    have hnumber := hhead c hc
    refine ⟨?_, ?_, ?_⟩
    all_goals
      rintro rfl
      exact absurd hnumber (by decide)

theorem lex_type {words : List (List Char)} (hne : words ≠ []) (h : ∀ word ∈ words, IsName word) :
    lex (typeText words).toList = some (words.map Token.word) := by
  have htext : (typeText words).toList = [' '].intercalate words := by
    simp [typeText, String.toList_intercalate]
  rw [htext]
  induction words with
  | nil => exact absurd rfl hne
  | cons word words ih =>
      have hword := (h word (by simp)).lex
      cases words with
      | nil => simpa using hword
      | cons second words =>
          have htail := ih (by simp) (fun w hw => h w (List.mem_cons_of_mem _ hw))
            (by simp [typeText, String.toList_intercalate])
          rw [List.intercalate_cons_cons, List.append_assoc, List.singleton_append,
            lex_append (endsToken_cons (by decide)) hword, lex_blank, htail]
          rfl

theorem cast {words : List (List Char)} (htype : IsType types words)
    (hnames : ∀ word ∈ words, IsName word) (h : Reads types I 7 text x) :
    Reads types I 7 ('(' :: ((typeText words).toList ++ ')' :: text))
      (I.cast (typeText words) x) := by
  obtain ⟨tokens, t, hlex, ht, rfl⟩ := h
  refine ⟨_, _, ?_, .cast le_rfl htype ht, rfl⟩
  rw [lex_openParen, lex_append (endsToken_cons (by decide)) (lex_type htype.1 hnames),
    lex_closeParen, hlex]
  rfl

theorem exists_phrases {texts : List (List Char)} {values : List K}
    (h : List.Forall₂ (Reads types I 0) texts values) :
    ∃ phrases : List (List Token × Tree),
      List.Forall₂ (fun text phrase => lex text = some phrase.1) texts phrases ∧
      (∀ phrase ∈ phrases, Derives types 0 phrase.1 phrase.2) ∧
      I.trees (phrases.map Prod.snd) = values := by
  induction h with
  | nil => exact ⟨[], .nil, by simp, rfl⟩
  | cons hfirst hrest ih =>
      obtain ⟨tokens, t, hlex, ht, rfl⟩ := hfirst
      obtain ⟨phrases, hlexRest, hphrases, rfl⟩ := ih
      exact ⟨(tokens, t) :: phrases, .cons hlex hlexRest, List.forall_mem_cons.2 ⟨ht, hphrases⟩,
        rfl⟩

theorem lex_commas {texts : List (List Char)} {phrases : List (List Token × Tree)}
    (h : List.Forall₂ (fun text phrase => lex text = some phrase.1) texts phrases) :
    lex ([',', ' '].intercalate texts) = some (commaSeparated phrases) := by
  induction h with
  | nil =>
      rw [List.intercalate_nil, lex]
      rfl
  | @cons text phrase texts phrases hfirst hrest ih =>
      cases hrest with
      | nil => simpa [commaSeparated] using hfirst
      | @cons second next texts phrases hsecond hrest =>
          have hsplit : [',', ' '].intercalate (text :: second :: texts) =
              text ++ ',' :: ' ' :: [',', ' '].intercalate (second :: texts) := by
            simp [List.intercalate_cons_cons]
          rw [hsplit, lex_append (endsToken_cons (by decide)) hfirst, lex_comma, lex_blank, ih]
          simp [commaSeparated, List.intercalate_cons_cons]

theorem call {function : List Char} {texts : List (List Char)} {values : List K}
    (hname : IsName function) (hconstant : constant? function = none)
    (h : List.Forall₂ (Reads types I 0) texts values) :
    Reads types I 8 (function ++ '(' :: ([',', ' '].intercalate texts ++ [')']))
      (I.call (String.ofList function) values) := by
  obtain ⟨phrases, hlex, hphrases, rfl⟩ := exists_phrases h
  have htokens : lex (function ++ '(' :: ([',', ' '].intercalate texts ++ [')'])) =
      some (.word function :: .openParen :: (commaSeparated phrases ++ [.closeParen])) := by
    rw [lex_append (endsToken_cons (by decide)) hname.lex, lex_openParen,
      lex_append (endsToken_cons (by decide)) (lex_commas hlex), lex_closeParen, lex]
    rfl
  refine ⟨_, .call (.name function) (phrases.map Prod.snd), htokens, ?_, rfl⟩
  by_cases htype : types function
  · exact .construct phrases hconstant htype hphrases
  · exact .call phrases le_rfl (.name hconstant htype) hphrases

end Reads

/-! ## Levels -/

def levels : List Nat :=
  [Level.conditional, Level.disjunction, Level.conjunction, Level.equality, Level.relational,
    Level.sum, Level.product, Level.unary]

/-- The rank of what binds at least as tightly as a level. -/
def rank (level : Nat) : Nat := levels.countP fun bound => bound < level

theorem rank_mono {level required : Nat} (h : required ≤ level) : rank required ≤ rank level := by
  refine List.countP_mono_left fun bound _ hbound => ?_
  simp only [decide_eq_true_eq] at hbound ⊢
  omega

theorem rank_logic (op : LogicOp) : rank op.level = (BinaryOp.logic op).rank := by
  cases op <;> decide

theorem rank_operandLevel (op : LogicOp) (h : op.isAssociative = false) :
    rank op.operandLevel = (BinaryOp.logic op).rank + 1 := by
  cases op with
  | and | or => cases h
  | _ => decide

/-! ## Expressions -/

/-- A word that stands for a symbol or a function. -/
def IsWord (name : String) : Prop := IsName name.toList ∧ constant? name.toList = none

mutual

/-- Expressions without method calls whose symbols and functions are words and whose casts are to
types, which no symbol is. -/
def Renderable (types : List Char → Prop) : Expr → Prop
  | .symbol name => IsWord name ∧ ¬ types name.toList
  | .float _ | .int _ | .bool _ => True
  | .access array indices => Renderable types array ∧ AllRenderable types indices
  | .sum terms => AllRenderable types terms
  | .product factors => AllRenderable types factors
  | .difference left right => Renderable types left ∧ Renderable types right
  | .quotient left right => Renderable types left ∧ Renderable types right
  | .logic _ left right => Renderable types left ∧ Renderable types right
  | .not operand => Renderable types operand
  | .conditional condition whenTrue whenFalse =>
      Renderable types condition ∧ Renderable types whenTrue ∧ Renderable types whenFalse
  | .call function arguments => IsWord function ∧ AllRenderable types arguments
  | .method .. => False
  | .cast operand type =>
      Renderable types operand ∧ ∃ words, type = typeText words ∧ IsType types words ∧
        ∀ word ∈ words, IsName word

def AllRenderable (types : List Char → Prop) : List Expr → Prop
  | [] => True
  | e :: rest => Renderable types e ∧ AllRenderable types rest

end

section Operands

variable {digits : Nat} {e : Expr}

/-- An expression is read at the rank of its level. -/
def Faithful (types : List Char → Prop) (I : Interpretation K) (digits : Nat) (e : Expr) : Prop :=
  Reads types I (rank (level ⟨.c, digits⟩ e)) (expr ⟨.c, digits⟩ e).toList (I.expr digits e)

/-- In parentheses where necessary an operand is read at the rank of its place. -/
theorem Faithful.group (h : Faithful types I digits e) (required : Nat) :
    Reads types I (rank required)
      (Renderer.group ⟨.c, digits⟩ required e (expr ⟨.c, digits⟩ e)).toList (I.expr digits e) := by
  unfold Renderer.group
  split
  next hlt =>
    have hgroup : Reads types I (rank required) _ _ := (h.weaken (Nat.zero_le _)).group
    simpa using hgroup
  next hle => exact h.weaken (rank_mono (by omega))

/-- An operand in parentheses where necessary still binds as tightly as the expression. -/
theorem Faithful.group_same (h : Faithful types I digits e) (required : Nat) :
    Reads types I (rank (level ⟨.c, digits⟩ e))
      (Renderer.group ⟨.c, digits⟩ required e (expr ⟨.c, digits⟩ e)).toList (I.expr digits e) := by
  unfold Renderer.group
  split
  next hlt =>
    have hgroup : Reads types I (rank (level ⟨.c, digits⟩ e)) _ _ :=
      (h.weaken (Nat.zero_le _)).group
    simpa using hgroup
  next hle => exact h

theorem reads_operands (required : Nat) {es : List Expr}
    (h : ∀ e ∈ es, Faithful types I digits e) :
    List.Forall₂ (Reads types I (rank required))
      ((operands ⟨.c, digits⟩ required es).map String.toList) (I.exprs digits es) := by
  induction es with
  | nil => exact .nil
  | cons e es ih =>
      exact .cons ((h e (by simp)).group required) (ih fun d hd => h d (List.mem_cons_of_mem _ hd))

theorem faithful_symbol {name : String} (hname : IsWord name) (htype : ¬ types name.toList) :
    Faithful types I digits (.symbol name) := by
  unfold Faithful
  rw [Renderer.expr_symbol, Interpretation.expr_symbol]
  refine ⟨_, _, hname.1.lex, .name hname.2 htype, ?_⟩
  rw [Interpretation.tree, String.ofList_toList]

theorem unsigned_constant (c : Constant) : I.unsigned c.spelling = I.constant c := by
  cases c <;> rfl

theorem literal_constant (c : Constant) : I.literal c.spelling = I.constant c := by
  cases c <;> rfl

theorem literal_unsigned {text : List Char} (h : IsNumeral text) :
    I.literal text = I.unsigned text := by
  obtain ⟨c, rest, rfl, hdigit, -⟩ := h.whole
  unfold Interpretation.literal
  split
  next heq =>
    obtain ⟨rfl, -⟩ := List.cons.inj heq
    exact absurd hdigit (by decide)
  next => rfl

theorem reads_signed {text : List Char} (h : IsNumeral text) (negative : Bool) :
    Reads types I (if negative then 7 else 8) (Decimal.signed negative text)
      (I.literal (Decimal.signed negative text)) := by
  obtain ⟨n, hn⟩ := h.readable
  have hvalue : I.unsigned text = n.value := by rw [Interpretation.unsigned, hn]
  cases negative with
  | false =>
      show Reads types I 8 text (I.literal text)
      rw [literal_unsigned h, hvalue]
      exact .number h hn
  | true =>
      show Reads types I 7 ('-' :: text) (-I.unsigned text)
      rw [hvalue]
      refine Reads.negative (.number h hn) ?_
      obtain ⟨c, rest, rfl, hdigit, -⟩ := h.whole
      intro d hd
      obtain rfl := Option.some.inj hd
      exact isNumberChar_of_isDigit hdigit

theorem faithful_float (x : Float) : Faithful types I digits (.float x) := by
  unfold Faithful
  rw [Renderer.expr, Interpretation.expr, level]
  unfold Renderer.float
  by_cases hnan : x.isNaN
  · rw [if_pos hnan]
    dsimp only
    rw [show "NAN".toList = Constant.nan.spelling from rfl, literal_constant]
    exact .constant
  rw [if_neg hnan]
  by_cases hinf : x.isInf
  · rw [if_pos hinf]
    by_cases hneg : x < 0
    · obtain ⟨hsign, hzero⟩ := signBit_of_neg hneg
      simp only [hneg, hsign, hzero, if_true, Bool.and_self]
      show Reads types I 7 ('-' :: Constant.infinity.spelling)
        (-I.unsigned Constant.infinity.spelling)
      rw [unsigned_constant]
      refine Reads.negative .constant fun c hc => ?_
      obtain rfl := Option.some.inj hc
      decide
    · rw [if_neg hneg]
      dsimp only
      rw [String.empty_append, show "INFINITY".toList = Constant.infinity.spelling from rfl,
        literal_constant]
      exact .constant
  rw [if_neg hinf]
  obtain ⟨text, htext, hfloat⟩ := isNumeral_float x digits
  rw [hfloat]
  cases signBit x && x != 0 with
  | false => exact reads_signed htext false
  | true => exact reads_signed htext true

theorem unsigned_digits (n : Nat) : I.unsigned (Decimal.digits n) = n := by
  rw [Interpretation.unsigned, numeral?_digits]
  simp [Numeral.value]

theorem faithful_int (n : Int) : Faithful types I digits (.int n) := by
  unfold Faithful
  rw [Renderer.expr, Interpretation.expr, level]
  cases n with
  | ofNat m =>
      have hreads : Reads types I 8 _ _ := reads_signed (isNumeral_digits m) false
      have hvalue : I.literal (Decimal.digits m) = (Int.ofNat m : K) := by
        rw [literal_unsigned (isNumeral_digits m), unsigned_digits]
        simp
      rw [Decimal.toList_ofNat, if_neg (by simp), ← hvalue]
      exact hreads
  | negSucc m =>
      have hreads : Reads types I 7 _ _ := reads_signed (isNumeral_digits (m + 1)) true
      have hvalue : I.literal ('-' :: Decimal.digits (m + 1)) = (Int.negSucc m : K) := by
        show -I.unsigned (Decimal.digits (m + 1)) = _
        rw [unsigned_digits]
        simp
      rw [Decimal.toList_negSucc, if_pos (Int.negSucc_lt_zero m), ← hvalue]
      exact hreads

theorem faithful_bool (b : Bool) : Faithful types I digits (.bool b) := by
  unfold Faithful
  rw [Renderer.expr, Interpretation.expr, level]
  cases b with
  | false => exact Reads.constant (c := Constant.false)
  | true => exact Reads.constant (c := Constant.true)

theorem faithful_access {array : Expr} {indices : List Expr}
    (harray : Faithful types I digits array)
    (hindices : ∀ e ∈ indices, Faithful types I digits e) :
    Faithful types I digits (.access array indices) := by
  have htexts := reads_operands 0 hindices
  have hstart := harray.group Level.atom
  unfold Faithful
  rw [Renderer.expr, Interpretation.expr, level, String.toList_append, String.toList_join,
    List.flatMap_map]
  generalize (Renderer.group _ _ array _).toList = text at hstart ⊢
  generalize I.expr digits array = x at hstart ⊢
  generalize operands ⟨.c, digits⟩ 0 indices = texts at htexts ⊢
  generalize I.exprs digits indices = values at htexts ⊢
  induction texts generalizing text x values with
  | nil =>
      cases htexts
      simpa using hstart
  | cons first texts ih =>
      cases htexts with
      | @cons _ y _ values hfirst hrest =>
          have hnext := ih _ _ (Reads.index hstart hfirst) _ hrest
          simpa using hnext

theorem reads_chain (op : BinaryOp) (hop : op.Chains) {texts : List (List Char)}
    {values : List K} (hne : texts ≠ []) (unit : K) (hunit : ∀ x, I.binary op x unit = x)
    (h : List.Forall₂ (Reads types I op.rank) texts values) :
    Reads types I op.rank ((' ' :: (op.spelling ++ [' '])).intercalate texts)
      (values.foldr (I.binary op) unit) := by
  induction h with
  | nil => exact absurd rfl hne
  | @cons text x texts values hfirst hrest ih =>
      cases hrest with
      | nil => simpa [hunit] using hfirst
      | @cons second y texts values hsecond hrest =>
          have hchain := Reads.chain hop hfirst (ih (by simp))
          simpa [List.intercalate_cons_cons] using hchain

theorem faithful_sum {terms : List Expr} (hterms : ∀ e ∈ terms, Faithful types I digits e) :
    Faithful types I digits (.sum terms) := by
  unfold Faithful
  rw [Interpretation.expr]
  obtain _ | ⟨first, _ | ⟨second, terms⟩⟩ := terms
  · rw [Renderer.expr, level]
    have hzero : Reads types I (rank Level.atom) _ _ :=
      .number (isNumeral_digits 0) (numeral?_digits 0)
    rw [show Decimal.digits 0 = ['0'] from rfl] at hzero
    simpa [Numeral.value, Interpretation.exprs] using hzero
  · have hterm := (hterms first (by simp)).group_same Level.sum
    simpa [Renderer.expr, level, operands, Interpretation.exprs] using hterm
  · have htexts := reads_operands Level.sum hterms
    have hchain := reads_chain .plus (Or.inl rfl) (by simp [operands]) (0 : K)
      (fun x => add_zero x) htexts
    have hsum : (I.exprs digits (first :: second :: terms)).foldr (I.binary .plus) 0 =
        (I.exprs digits (first :: second :: terms)).sum := rfl
    rw [hsum] at hchain
    rw [Renderer.expr, level, String.toList_intercalate]
    · exact hchain
    · simp
    · simp
    · simp

theorem faithful_product {factors : List Expr}
    (hfactors : ∀ e ∈ factors, Faithful types I digits e) :
    Faithful types I digits (.product factors) := by
  unfold Faithful
  rw [Interpretation.expr]
  obtain _ | ⟨first, _ | ⟨second, factors⟩⟩ := factors
  · rw [Renderer.expr, level]
    have hone : Reads types I (rank Level.atom) _ _ :=
      .number (isNumeral_digits 1) (numeral?_digits 1)
    rw [show Decimal.digits 1 = ['1'] from rfl] at hone
    simpa [Numeral.value, Interpretation.exprs] using hone
  · have hfactor := (hfactors first (by simp)).group_same Level.product
    simpa [Renderer.expr, level, operands, Interpretation.exprs] using hfactor
  · have htexts := reads_operands Level.product hfactors
    have hchain := reads_chain .times (Or.inr (Or.inl rfl)) (by simp [operands]) (1 : K)
      (fun x => mul_one x) htexts
    have hproduct : (I.exprs digits (first :: second :: factors)).foldr (I.binary .times) 1 =
        (I.exprs digits (first :: second :: factors)).prod := rfl
    rw [hproduct] at hchain
    rw [Renderer.expr, level, String.toList_intercalate]
    · exact hchain
    · simp
    · simp
    · simp

theorem faithful_difference {left right : Expr} (hleft : Faithful types I digits left)
    (hright : Faithful types I digits right) :
    Faithful types I digits (.difference left right) := by
  unfold Faithful
  rw [Renderer.expr, Interpretation.expr, level]
  change Reads types I BinaryOp.minus.rank _ (I.binary .minus _ _)
  have h := Reads.binary .minus (hleft.group Level.sum) (hright.group (Level.sum + 1))
  simpa [BinaryOp.spelling] using h

theorem faithful_quotient {left right : Expr} (hleft : Faithful types I digits left)
    (hright : Faithful types I digits right) : Faithful types I digits (.quotient left right) := by
  unfold Faithful
  rw [Renderer.expr, Interpretation.expr, level]
  change Reads types I BinaryOp.divide.rank _ (I.binary .divide _ _)
  have h := Reads.binary .divide (hleft.group Level.product) (hright.group (Level.product + 1))
  simpa [BinaryOp.spelling] using h

theorem faithful_logic (op : LogicOp) {left right : Expr} (hleft : Faithful types I digits left)
    (hright : Faithful types I digits right) : Faithful types I digits (.logic op left right) := by
  unfold Faithful
  rw [Renderer.expr, Interpretation.expr, level, rank_logic]
  change Reads types I _ _ (I.binary (.logic op) _ _)
  have hleft' := hleft.group op.operandLevel
  have hright' := hright.group op.operandLevel
  cases hassociative : op.isAssociative with
  | true =>
      have hlevel : rank op.operandLevel = (BinaryOp.logic op).rank := by
        rw [LogicOp.operandLevel, if_pos hassociative, rank_logic]
      rw [hlevel] at hleft' hright'
      have h := Reads.chain (Or.inr (Or.inr ⟨op, rfl, hassociative⟩)) hleft' hright'
      simpa [BinaryOp.spelling] using h
  | false =>
      rw [rank_operandLevel op hassociative] at hleft' hright'
      have h := Reads.binary (.logic op) (hleft'.weaken (Nat.le_succ _)) hright'
      simpa [BinaryOp.spelling] using h

theorem faithful_not {operand : Expr} (h : Faithful types I digits operand) :
    Faithful types I digits (.not operand) := by
  unfold Faithful
  rw [Renderer.expr, Interpretation.expr, level]
  change Reads types I 7 _ _
  have hnot := Reads.not (h.group Level.unary)
  simpa using hnot

theorem faithful_conditional {condition whenTrue whenFalse : Expr}
    (hcondition : Faithful types I digits condition) (htrue : Faithful types I digits whenTrue)
    (hfalse : Faithful types I digits whenFalse) :
    Faithful types I digits (.conditional condition whenTrue whenFalse) := by
  unfold Faithful
  rw [Renderer.expr, Interpretation.expr, level]
  change Reads types I 0 _ _
  have h := Reads.conditional (hcondition.group (Level.conditional + 1))
    ((htrue.group (Level.conditional + 1)).weaken (Nat.zero_le _))
    ((hfalse.group (Level.conditional + 1)).weaken (Nat.zero_le _))
  simpa using h

theorem faithful_call {function : String} {arguments : List Expr} (hfunction : IsWord function)
    (harguments : ∀ e ∈ arguments, Faithful types I digits e) :
    Faithful types I digits (.call function arguments) := by
  unfold Faithful
  rw [Renderer.expr, Interpretation.expr, level]
  change Reads types I 8 _ _
  have h := Reads.call hfunction.1 hfunction.2 (reads_operands 0 harguments)
  simpa [String.toList_intercalate] using h

theorem faithful_cast {operand : Expr} {words : List (List Char)} (htype : IsType types words)
    (hnames : ∀ word ∈ words, IsName word) (h : Faithful types I digits operand) :
    Faithful types I digits (.cast operand (typeText words)) := by
  unfold Faithful
  rw [Renderer.expr, Interpretation.expr, level]
  change Reads types I 7 _ _
  have hcast := Reads.cast htype hnames (h.group Level.unary)
  simpa using hcast

end Operands

mutual

theorem faithful_of_renderable (digits : Nat) :
    (e : Expr) → Renderable types e → Faithful types I digits e
  | .symbol _, h => faithful_symbol h.1 h.2
  | .float x, _ => faithful_float x
  | .int n, _ => faithful_int n
  | .bool b, _ => faithful_bool b
  | .access array indices, h =>
      faithful_access (faithful_of_renderable digits array h.1)
        (all_faithful_of_renderable digits indices h.2)
  | .sum terms, h => faithful_sum (all_faithful_of_renderable digits terms h)
  | .product factors, h => faithful_product (all_faithful_of_renderable digits factors h)
  | .difference left right, h =>
      faithful_difference (faithful_of_renderable digits left h.1)
        (faithful_of_renderable digits right h.2)
  | .quotient left right, h =>
      faithful_quotient (faithful_of_renderable digits left h.1)
        (faithful_of_renderable digits right h.2)
  | .logic op left right, h =>
      faithful_logic op (faithful_of_renderable digits left h.1)
        (faithful_of_renderable digits right h.2)
  | .not operand, h => faithful_not (faithful_of_renderable digits operand h)
  | .conditional condition whenTrue whenFalse, h =>
      faithful_conditional (faithful_of_renderable digits condition h.1)
        (faithful_of_renderable digits whenTrue h.2.1)
        (faithful_of_renderable digits whenFalse h.2.2)
  | .call _ arguments, h =>
      faithful_call h.1 (all_faithful_of_renderable digits arguments h.2)
  | .method .., h => h.elim
  | .cast operand _, ⟨hoperand, _, htext, htype, hnames⟩ =>
      htext ▸ faithful_cast htype hnames (faithful_of_renderable digits operand hoperand)

theorem all_faithful_of_renderable (digits : Nat) :
    (es : List Expr) → AllRenderable types es → ∀ e ∈ es, Faithful types I digits e
  | [], _ => fun _ h => absurd h List.not_mem_nil
  | e :: es, ⟨he, hes⟩ => List.forall_mem_cons.2
      ⟨faithful_of_renderable digits e he, all_faithful_of_renderable digits es hes⟩

end

/-- The text of an expression is a phrase of the grammar of C.  It has one tree, and the value of
that tree is the value of the expression. -/
theorem expr_faithful (types : List Char → Prop) (digits : Nat) (e : Expr)
    (h : Renderable types e) (I : Interpretation K) :
    ∃ tokens t, lex (Renderer.expr ⟨.c, digits⟩ e).toList = some tokens ∧
      Derives types 0 tokens t ∧ (∀ u, Derives types 0 tokens u → u = t) ∧
      I.tree t = I.expr digits e := by
  obtain ⟨tokens, t, hlex, ht, hvalue⟩ :=
    (faithful_of_renderable digits e h : Faithful types I digits e).weaken (Nat.zero_le _)
  exact ⟨tokens, t, hlex, ht, fun u hu => hu.unique ht, hvalue⟩

/-- The text `(int)(order - -1)`. -/
theorem expr_faithful_cast_difference :
    Renderable (· = ['i', 'n', 't'])
        (.cast (.difference (.symbol "order") (.int (-1))) "int") ∧
      ∃ tokens t,
        lex (Renderer.expr ⟨.c, 16⟩
          (.cast (.difference (.symbol "order") (.int (-1))) "int")).toList = some tokens ∧
        Derives (· = ['i', 'n', 't']) 0 tokens t ∧
        (∀ u, Derives (· = ['i', 'n', 't']) 0 tokens u → u = t) ∧
        (default : Interpretation ℚ).tree t = (default : Interpretation ℚ).expr 16
          (.cast (.difference (.symbol "order") (.int (-1))) "int") := by
  have horder : IsName "order".toList :=
    .identifier (isIdentifier_cons (c := 'o') (by decide) (by decide))
  have hint : IsName ['i', 'n', 't'] :=
    .identifier (isIdentifier_cons (by decide) (by decide))
  have h : Renderable (· = ['i', 'n', 't'])
      (.cast (.difference (.symbol "order") (.int (-1))) "int") :=
    ⟨⟨⟨⟨horder, by decide⟩, by decide⟩, trivial⟩, [['i', 'n', 't']], by decide,
      ⟨by simp, by simp; decide⟩, by simpa using hint⟩
  exact ⟨h, expr_faithful _ 16 _ h default⟩

end ElementKernel.CSource
