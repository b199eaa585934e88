import ElementKernel.Code.Render
import ElementKernel.Proofs.RustSource.Meaning

/-!
# Rendered expressions in Rust

The text of an expression is a phrase of the grammar of Rust, and its one tree has the value of the
expression (`rendered_faithful`), but for three kinds of expressions: equations of comparisons,
methods of special numbers, and comparisons with `<` behind a cast.
-/

namespace ElementKernel.RustSource

open CSource (BinaryOp Numeral numeral?)
open Renderer

variable {K : Type*} [Field K] {I : Interpretation K}

/-- A text is a phrase of the rank with the value.  Only where `typed` holds it ends in a type. -/
def Reads (I : Interpretation K) (rank : Nat) (text : List Char) (value : K) (typed : Prop) :
    Prop :=
  ∃ tokens t, Lexes text tokens ∧ Derives rank tokens t ∧ I.tree t = value ∧
    (EndsInType tokens → typed)

namespace Reads

variable {rank : Nat} {text left right : List Char} {x y z : K} {typed leftTyped rightTyped : Prop}

theorem weaken {lower : Nat} (h : Reads I rank text x typed) (hle : lower ≤ rank) :
    Reads I lower text x typed := by
  obtain ⟨tokens, t, hlex, ht, hvalue, htyped⟩ := h
  exact ⟨tokens, t, hlex, ht.weaken hle, hvalue, htyped⟩

theorem imp (h : Reads I rank text x typed) {other : Prop} (hother : typed → other) :
    Reads I rank text x other := by
  obtain ⟨tokens, t, hlex, ht, hvalue, htyped⟩ := h
  exact ⟨tokens, t, hlex, ht, hvalue, fun hends => hother (htyped hends)⟩

theorem group (h : Reads I 0 text x typed) :
    Reads I rank ('(' :: (text ++ [')'])) x False := by
  obtain ⟨tokens, t, hlex, ht, hvalue, -⟩ := h
  exact ⟨_, t, (hlex.append_mark Lexes.nil.closeParen (by decide)).openParen, .group ht, hvalue,
    not_endsInType_of_getLast? .closeParen (by simp [List.getLast?_cons]) (by simp)⟩

theorem index (harray : Reads I 7 left x leftTyped) (hindex : Reads I 0 right y rightTyped) :
    Reads I 7 (left ++ '[' :: (right ++ [']'])) (I.index x y) False := by
  obtain ⟨array, a, hlexArray, ha, rfl, -⟩ := harray
  obtain ⟨index, i, hlexIndex, hi, rfl, -⟩ := hindex
  have hlexBracket := (hlexIndex.append_mark Lexes.nil.closeBracket (by decide)).openBracket
  exact ⟨_, _, hlexArray.append_mark hlexBracket (by decide), .index le_rfl ha hi, rfl,
    not_endsInType_of_getLast? .closeBracket (by simp [List.getLast?_cons]) (by simp)⟩

theorem lexes_between {leftTokens rightTokens : List Token} (op : BinaryOp)
    (hleft : Lexes left leftTokens) (hright : Lexes right rightTokens) :
    Lexes (left ++ ' ' :: (op.spelling ++ ' ' :: right))
      (leftTokens ++ .operator op :: rightTokens) :=
  hleft.append_mark (hright.operator op).blank (by decide)

theorem binary (op : BinaryOp) (hleft : Reads I (leftRank op) left x leftTyped)
    (hright : Reads I (operatorRank op + 1) right y rightTyped)
    (hgeneric : op = .logic .lt → ¬ leftTyped) :
    Reads I (operatorRank op) (left ++ ' ' :: (op.spelling ++ ' ' :: right)) (I.binary op x y)
      rightTyped := by
  obtain ⟨leftTokens, l, hlexLeft, hl, rfl, hleftTyped⟩ := hleft
  obtain ⟨rightTokens, r, hlexRight, hr, rfl, hrightTyped⟩ := hright
  exact ⟨_, _, lexes_between op hlexLeft hlexRight,
    .binary op le_rfl hl hr fun hlt hends => hgeneric hlt (hleftTyped hends),
    rfl, fun hends => hrightTyped (hends.of_append (by simp))⟩

/-- The right operand of an operator that chains may be a chain itself. -/
theorem chain {op : BinaryOp} (hop : op.Chains)
    (hleft : Reads I (operatorRank op) left x leftTyped)
    (hright : Reads I (operatorRank op) right y rightTyped) :
    Reads I (operatorRank op) (left ++ ' ' :: (op.spelling ++ ' ' :: right)) (I.binary op x y)
      rightTyped := by
  obtain ⟨leftTokens, l, hlexLeft, hl, rfl, -⟩ := hleft
  obtain ⟨rightTokens, r, hlexRight, hr, rfl, hrightTyped⟩ := hright
  obtain ⟨t, ht, hvalue⟩ := hl.join I hop hr
  exact ⟨_, t, lexes_between op hlexLeft hlexRight, ht, hvalue,
    fun hends => hrightTyped (hends.of_append (by simp))⟩

theorem path {parts : List (List Char)} (h : IsPath parts) :
    Reads I rank (pathText parts) (I.named (pathName parts)) False := by
  have hlex := h.lexes
  obtain ⟨part, parts, rfl⟩ := List.exists_cons_of_ne_nil h.1
  refine ⟨_, _, hlex, .path part parts, rfl, ?_⟩
  exact not_endsInType_of_notMem (by simp [pathTokens, asKeyword_notMem_pathRest])

theorem conditional {condition whenTrue whenFalse : List Char}
    {conditionTyped trueTyped falseTyped : Prop} (hcondition : Reads I 0 condition x conditionTyped)
    (htrue : Reads I 0 whenTrue y trueTyped) (hfalse : Reads I 0 whenFalse z falseTyped) :
    Reads I 7
      ('i' :: 'f' :: ' ' :: (condition ++ ' ' :: '\x7b' :: ' ' :: (whenTrue ++ ' ' :: '\x7d' ::
        ' ' :: 'e' :: 'l' :: 's' :: 'e' :: ' ' :: '\x7b' :: ' ' :: (whenFalse ++ [' ', '\x7d']))))
      (I.conditional x y z) False := by
  obtain ⟨conditionTokens, c, hlexCondition, hc, rfl, -⟩ := hcondition
  obtain ⟨trueTokens, t, hlexTrue, ht, rfl, -⟩ := htrue
  obtain ⟨falseTokens, e, hlexFalse, he, rfl, -⟩ := hfalse
  have hif : Lexes ['i', 'f'] [.ifKeyword] := .word (by decide) (by simp; decide)
  have helse : Lexes ['e', 'l', 's', 'e'] [.elseKeyword] :=
    .word (by decide) (by simp; decide)
  have hlast := (hlexFalse.append_mark Lexes.nil.closeBrace.blank (by decide)).blank
  have hmiddle := helse.append_mark hlast.openBrace.blank (by decide)
  have hblock := hlexTrue.append_mark hmiddle.blank.closeBrace.blank (by decide)
  have hrest := hlexCondition.append_mark hblock.blank.openBrace.blank (by decide)
  exact ⟨_, _, hif.append_mark hrest.blank (by decide), .conditional hc ht he, rfl,
    not_endsInType_of_getLast? .closeBrace (by simp [List.getLast?_cons]) (by simp)⟩

theorem head?_ne (h : Reads I rank text x typed) : text.head? ≠ some '=' := by
  intro hhead
  obtain ⟨tokens, t, hlexes, ht, -⟩ := h
  have hlex := hlexes.lex_eq
  obtain ⟨rest, rfl⟩ : ∃ rest, text = '=' :: rest := by
    cases text with
    | nil => cases hhead
    | cons c rest => exact ⟨rest, by rw [Option.some.inj hhead]⟩
  have hend : FollowedBy rank [] := by simp [FollowedBy]
  have hrun := ht.runs le_rfl hend (.stop (by simp))
  have hmark : mark? ('=' :: rest) = some (['=', '='], .operator (.logic .eq)) ∨
      mark? ('=' :: rest) = some (['=', '>'], .other ['=', '>']) ∨
      mark? ('=' :: rest) = some (['='], .other ['=']) := by
    cases rest with
    | nil => exact Or.inr (Or.inr rfl)
    | cons c rest =>
        by_cases hequal : c = '='
        · subst hequal
          exact Or.inl rfl
        by_cases hgreater : c = '>'
        · subst hgreater
          exact Or.inr (Or.inl rfl)
        · have hequal' : ('=' == c) = false := by simpa using fun h => hequal h.symm
          have hgreater' : ('>' == c) = false := by simpa using fun h => hgreater h.symm
          exact Or.inr (Or.inr (by simp [mark?, marks, List.isPrefixOf, hequal', hgreater']))
  obtain hmark | hmark | hmark := hmark
  all_goals
    rw [lex_mark (by decide) (by decide) (by decide) hmark, Option.map_eq_some_iff] at hlex
    obtain ⟨tail, -, rfl⟩ := hlex
    cases hrun

theorem not (h : Reads I 6 text x typed) : Reads I 6 ('!' :: text) (I.not x) typed := by
  have hhead := h.head?_ne
  obtain ⟨tokens, t, hlex, ht, rfl, htyped⟩ := h
  refine ⟨_, _, hlex.bang hhead, .not le_rfl ht, rfl, fun hends => ?_⟩
  exact htyped (hends.of_cons (by simp))

theorem negative (h : Reads I 6 text x typed) (hhead : ∀ c ∈ text.head?, isWordChar c) :
    Reads I 6 ('-' :: text) (-x) typed := by
  obtain ⟨tokens, t, hlex, ht, rfl, htyped⟩ := h
  have hne : ∀ c, isWordChar c = false → text.head? ≠ some c := by
    intro c hc htext
    have hword := hhead c htext
    rw [hc] at hword
    cases hword
  refine ⟨_, _, hlex.minus (hne '=' (by decide)) (hne '>' (by decide)), .negative le_rfl ht,
    rfl, fun hends => ?_⟩
  exact htyped (hends.of_cons (by simp))

theorem number {n : Numeral} (h : Lexes text [.number text]) (hn : number? text = some n) :
    Reads I rank text n.value False :=
  ⟨_, _, h, .number hn, rfl, not_endsInType_of_notMem (by simp)⟩

theorem truth (value : Bool) : Reads I rank (toString value).toList (I.truth value) False := by
  refine ⟨_, _, ?_, .truth value, rfl,
    not_endsInType_of_notMem (by simp)⟩
  cases value with
  | true => exact Lexes.word (c := 't') (by decide) (by simp; decide)
  | false => exact Lexes.word (c := 'f') (by decide) (by simp; decide)

theorem cast {type : List (List Char)} (htype : IsPath type) (h : Reads I 5 text x typed) :
    Reads I 5 (text ++ ' ' :: 'a' :: 's' :: ' ' :: pathText type) (I.cast x (pathName type))
      True := by
  obtain ⟨tokens, t, hlex, ht, rfl, -⟩ := h
  have hpath := htype.lexes
  obtain ⟨part, parts, rfl⟩ := List.exists_cons_of_ne_nil htype.1
  have has : Lexes ['a', 's'] [.asKeyword] := .word (by decide) (by simp; decide)
  have htail := (has.append_mark hpath.blank (by decide)).blank
  exact ⟨_, _, hlex.append_mark htail (by decide), .cast part parts le_rfl ht,
    rfl, fun _ => trivial⟩

/-! ### Arguments -/

theorem exists_phrases {texts : List (List Char)} {values : List K}
    (h : List.Forall₂ (fun text value => ∃ typed, Reads I 0 text value typed) texts values) :
    ∃ phrases : List (List Token × Tree),
      List.Forall₂ (fun text phrase => Lexes text phrase.1) texts phrases ∧
      (∀ phrase ∈ phrases, Derives 0 phrase.1 phrase.2) ∧
      I.trees (phrases.map Prod.snd) = values := by
  induction h with
  | nil => exact ⟨[], .nil, by simp, rfl⟩
  | cons hfirst hrest ih =>
      obtain ⟨-, tokens, t, hlex, ht, rfl, -⟩ := hfirst
      obtain ⟨phrases, hlexRest, hphrases, rfl⟩ := ih
      exact ⟨(tokens, t) :: phrases, .cons hlex hlexRest, List.forall_mem_cons.2 ⟨ht, hphrases⟩,
        rfl⟩

theorem lexes_commas {texts : List (List Char)} {phrases : List (List Token × Tree)}
    (h : List.Forall₂ (fun text phrase => Lexes text phrase.1) texts phrases) :
    Lexes ([',', ' '].intercalate texts) (commaSeparated phrases) := by
  induction h with
  | nil => exact Lexes.nil
  | @cons text phrase texts phrases hfirst hrest ih =>
      cases hrest with
      | nil => simpa [commaSeparated] using hfirst
      | @cons second next texts phrases hsecond hrest =>
          have hjoined := hfirst.append_mark ih.blank.comma (by decide)
          simpa [commaSeparated, List.intercalate_cons_cons] using hjoined

theorem lexes_arguments {texts : List (List Char)} {phrases : List (List Token × Tree)}
    (h : List.Forall₂ (fun text phrase => Lexes text phrase.1) texts phrases) :
    Lexes ('(' :: ([',', ' '].intercalate texts ++ [')']))
      (.openParen :: (commaSeparated phrases ++ [.closeParen])) :=
  ((lexes_commas h).append_mark Lexes.nil.closeParen (by decide)).openParen

theorem call {function : List (List Char)} {texts : List (List Char)} {values : List K}
    (hfunction : IsPath function)
    (h : List.Forall₂ (fun text value => ∃ typed, Reads I 0 text value typed) texts values) :
    Reads I 7 (pathText function ++ '(' :: ([',', ' '].intercalate texts ++ [')']))
      (I.call (pathName function) values) False := by
  obtain ⟨phrases, hlex, hphrases, rfl⟩ := exists_phrases h
  have hpath := hfunction.lexes
  obtain ⟨part, parts, rfl⟩ := List.exists_cons_of_ne_nil hfunction.1
  exact ⟨_, _, hpath.append_mark (lexes_arguments hlex) (by decide),
    .call phrases le_rfl (.path part parts) hphrases, rfl,
    not_endsInType_of_getLast? .closeParen (by simp [List.getLast?_cons]) (by simp)⟩

theorem method {name : List Char} {texts : List (List Char)} {values : List K}
    (hreceiver : Reads I 7 text x typed) (hname : IsIdentifier name)
    (h : List.Forall₂ (fun text value => ∃ typed, Reads I 0 text value typed) texts values) :
    Reads I 7 (text ++ '.' :: (name ++ '(' :: ([',', ' '].intercalate texts ++ [')'])))
      (I.method x (String.ofList name) values) False := by
  obtain ⟨tokens, r, hlexReceiver, hr, rfl, -⟩ := hreceiver
  obtain ⟨phrases, hlex, hphrases, rfl⟩ := exists_phrases h
  exact ⟨_, _, hlexReceiver.member hname (lexes_arguments hlex) (by decide),
    .method name phrases le_rfl hr hphrases, rfl,
    not_endsInType_of_getLast? .closeParen (by simp [List.getLast?_cons]) (by simp)⟩

end Reads

/-! ## Levels -/

def levels : List Nat :=
  [Level.disjunction, Level.conjunction, Level.relational, Level.sum, Level.product, Level.cast,
    Level.unary]

/-- The rank of what binds at least as tightly as a level. -/
def rank (level : Nat) : Nat := levels.countP fun bound => bound < level

theorem rank_mono {level required : Nat} (h : required ≤ level) : rank required ≤ rank level := by
  refine List.countP_mono_left fun bound _ hbound => ?_
  simp only [decide_eq_true_eq] at hbound ⊢
  omega

theorem rank_le (level : Nat) : rank level ≤ 7 := List.countP_le_length

theorem rank_logic (op : LogicOp) : rank op.level = operatorRank (.logic op) := by
  cases op <;> decide

theorem level_mem (r : Renderer) : (e : Expr) →
    r.level e ∈ [Level.conditional, Level.disjunction, Level.conjunction, Level.equality,
      Level.relational, Level.sum, Level.product, Level.cast, Level.unary, Level.atom]
  | .sum [term] => by
      rw [level]
      exact level_mem r term
  | .product [factor] => by
      rw [level]
      exact level_mem r factor
  | .float _ | .int _ => by
      rw [level]
      split <;> decide
  | .logic op .. => by
      rw [level]
      cases op <;> decide
  | .cast .. => by
      rw [level]
      split <;> decide
  | .symbol _ | .bool _ | .access .. | .call .. | .method .. | .sum [] | .product []
  | .sum (_ :: _ :: _) | .difference .. | .product (_ :: _ :: _) | .quotient .. | .not _
  | .conditional .. => by simp [level]

/-- What binds more tightly than an equation and is no other comparison binds more tightly than
every comparison. -/
theorem comparison_lt_rank {r : Renderer} {e : Expr} (h : Level.equality < r.level e)
    (hne : r.level e ≠ Level.relational) : 2 < rank (r.level e) := by
  have hmem := level_mem r e
  generalize r.level e = level at h hne hmem
  fin_cases hmem <;> first | decide | exact absurd rfl hne | exact absurd h (by decide)

/-! ## Expressions -/

mutual

/-- Whether an expression and all in it have a property. -/
def Every (p : Expr → Prop) : Expr → Prop
  | .symbol name => p (.symbol name)
  | .float x => p (.float x)
  | .int n => p (.int n)
  | .bool b => p (.bool b)
  | .access array indices => p (.access array indices) ∧ Every p array ∧ EveryOf p indices
  | .sum terms => p (.sum terms) ∧ EveryOf p terms
  | .product factors => p (.product factors) ∧ EveryOf p factors
  | .difference left right => p (.difference left right) ∧ Every p left ∧ Every p right
  | .quotient left right => p (.quotient left right) ∧ Every p left ∧ Every p right
  | .logic op left right => p (.logic op left right) ∧ Every p left ∧ Every p right
  | .not operand => p (.not operand) ∧ Every p operand
  | .conditional condition whenTrue whenFalse =>
      p (.conditional condition whenTrue whenFalse) ∧ Every p condition ∧ Every p whenTrue ∧
        Every p whenFalse
  | .call function arguments => p (.call function arguments) ∧ EveryOf p arguments
  | .method receiver name arguments =>
      p (.method receiver name arguments) ∧ Every p receiver ∧ EveryOf p arguments
  | .cast operand type => p (.cast operand type) ∧ Every p operand

def EveryOf (p : Expr → Prop) : List Expr → Prop
  | [] => True
  | e :: rest => Every p e ∧ EveryOf p rest

end

/-- A path that is no special number. -/
def IsSymbol (name : String) : Prop :=
  (∃ parts, IsPath parts ∧ name = pathName parts) ∧ name ≠ nanName ∧ name ≠ infinityName

/-- Whether the names of an expression are names of Rust. -/
def WellNamed : Expr → Prop
  | .symbol name => IsSymbol name
  | .call function _ => ∃ parts, IsPath parts ∧ function = pathName parts
  | .method _ name _ => IsIdentifier name.toList
  | .cast _ type => ∃ parts, IsPath parts ∧ type = pathName parts
  | _ => True

/-- Whether the text of an expression ends in the type of a cast. -/
inductive EndsInCast (r : Renderer) : Expr → Prop where
  | cast (operand : Expr) (type : String) : EndsInCast r (.cast operand type)
  | sum {terms : List Expr} {last : Expr} (hlast : terms.getLast? = some last)
      (hlevel : Level.sum ≤ r.level last) (h : EndsInCast r last) : EndsInCast r (.sum terms)
  | product {factors : List Expr} {last : Expr} (hlast : factors.getLast? = some last)
      (hlevel : Level.product ≤ r.level last) (h : EndsInCast r last) :
      EndsInCast r (.product factors)
  | difference {left right : Expr} (hlevel : Level.sum + 1 ≤ r.level right)
      (h : EndsInCast r right) : EndsInCast r (.difference left right)
  | quotient {left right : Expr} (hlevel : Level.product + 1 ≤ r.level right)
      (h : EndsInCast r right) : EndsInCast r (.quotient left right)
  | logic {op : LogicOp} {left right : Expr} (hlevel : op.operandLevel ≤ r.level right)
      (h : EndsInCast r right) : EndsInCast r (.logic op left right)
  | not {operand : Expr} (hlevel : Level.unary ≤ r.level operand) (h : EndsInCast r operand) :
      EndsInCast r (.not operand)

/-- Whether an expression has no operand that Rust would take for something else: no comparison
without parentheses in an equation, no cast in front of the sign `<`, and no unsigned special number
with a method. -/
def Plain (r : Renderer) : Expr → Prop
  | .logic .eq left right | .logic .ne left right =>
      r.level left ≠ Level.relational ∧ r.level right ≠ Level.relational
  | .logic .lt left _ =>
      ¬ (LogicOp.operandLevel .lt ≤ r.level left ∧ EndsInCast r left)
  | .method (.float x) _ _ => r.level (.float x) = Level.atom → ¬ x.isNaN ∧ ¬ x.isInf
  | _ => True

section Operands

variable {digits : Nat} {e : Expr}

/-- An expression is read at the rank of its level. -/
def Faithful (I : Interpretation K) (digits : Nat) (e : Expr) : Prop :=
  Reads I (rank (level ⟨.rust, digits⟩ e)) (expr ⟨.rust, digits⟩ e).toList (I.expr digits e)
    (EndsInCast ⟨.rust, digits⟩ e)

theorem faithful_of_reads {text : List Char} {value : K} {typed : Prop} (bound : Nat)
    (h : Reads I (rank bound) text value typed) (hlevel : level ⟨.rust, digits⟩ e = bound)
    (htext : (expr ⟨.rust, digits⟩ e).toList = text) (hvalue : I.expr digits e = value)
    (htyped : typed → EndsInCast ⟨.rust, digits⟩ e) : Faithful I digits e := by
  unfold Faithful
  rw [hlevel, htext, hvalue]
  exact h.imp htyped

/-- The text of an operand, in parentheses where necessary. -/
def operandText (digits required : Nat) (e : Expr) : List Char :=
  (Renderer.group ⟨.rust, digits⟩ required e (expr ⟨.rust, digits⟩ e)).toList

/-- Whether the text of an operand ends in the type of a cast. -/
def EndsOperand (digits required : Nat) (e : Expr) : Prop :=
  required ≤ level ⟨.rust, digits⟩ e ∧ EndsInCast ⟨.rust, digits⟩ e

/-- An operand is read at every rank that it has where it stands without parentheses. -/
theorem Faithful.group_at (h : Faithful I digits e) {required place : Nat}
    (hplace : required ≤ level ⟨.rust, digits⟩ e → place ≤ rank (level ⟨.rust, digits⟩ e)) :
    Reads I place (operandText digits required e) (I.expr digits e)
      (EndsOperand digits required e) := by
  unfold operandText Renderer.group
  split
  next hlt =>
    have hgroup : Reads I place _ _ _ := (h.weaken (Nat.zero_le _)).group
    have htyped := hgroup.imp (False.elim : False → EndsOperand digits required e)
    simpa using htyped
  next hle =>
    have hle : required ≤ level ⟨.rust, digits⟩ e := Nat.le_of_not_lt hle
    exact (h.weaken (hplace hle)).imp fun hends => ⟨hle, hends⟩

theorem Faithful.group (h : Faithful I digits e) (required : Nat) :
    Reads I (rank required) (operandText digits required e) (I.expr digits e)
      (EndsOperand digits required e) :=
  h.group_at rank_mono

theorem operands_eq_map (digits required : Nat) (es : List Expr) :
    (operands ⟨.rust, digits⟩ required es).map String.toList =
      es.map (operandText digits required) := by
  induction es with
  | nil => rfl
  | cons e es ih =>
      rw [operands, List.map_cons, ih]
      rfl

theorem reads_operands {es : List Expr} (h : ∀ e ∈ es, Faithful I digits e) :
    List.Forall₂ (fun text value => ∃ typed, Reads I 0 text value typed)
      (es.map (operandText digits 0)) (I.exprs digits es) := by
  induction es with
  | nil => exact .nil
  | cons e es ih =>
      exact .cons ⟨_, (h e (by simp)).group 0⟩ (ih fun d hd => h d (List.mem_cons_of_mem _ hd))

theorem faithful_symbol {name : String} (hname : IsSymbol name) :
    Faithful I digits (.symbol name) := by
  obtain ⟨⟨parts, hparts, rfl⟩, hnan, hinfinity⟩ := hname
  have hvalue : I.named (pathName parts) = I.symbol (pathName parts) := by
    rw [Interpretation.named, if_neg hnan, if_neg hinfinity]
  have hpath : Reads I (rank Level.atom) (pathText parts) _ _ := .path hparts
  unfold Faithful
  rw [Renderer.expr_symbol, Interpretation.expr_symbol, level_symbol, ← hvalue, pathName,
    String.toList_ofList]
  exact hpath.imp False.elim

/-! ### Literals -/

theorem decimal_signed {text : List Char} {n : Numeral} (h : IsDecimal text)
    (hn : numeral? text = some n) (negative : Bool) :
    (Interpretation.decimal (Decimal.signed negative text) : K) =
      if negative then -n.value else n.value := by
  cases negative with
  | true => simp [Decimal.signed, Interpretation.decimal, hn]
  | false =>
      obtain ⟨c, rest, rfl, hdigit, -⟩ := h.spans [] (by simp)
      have hc : c ≠ '-' := by
        rintro rfl
        exact absurd hdigit (by decide)
      show Interpretation.decimal (c :: rest) = n.value
      unfold Interpretation.decimal
      split
      next heq => exact absurd (List.cons.inj heq).1 hc
      next => simp [hn]

theorem reads_signed {text : List Char} (h : IsDecimal text) (negative : Bool) :
    Reads I (if negative then 6 else 7) (Decimal.signed negative text)
      (Interpretation.decimal (Decimal.signed negative text)) False := by
  obtain ⟨n, hn⟩ := h.isNumeral.readable
  rw [decimal_signed h hn]
  have hlex : Lexes text [.number text] := by
    have hlex := h.lexes [] (by simp)
    rwa [List.append_nil] at hlex
  have hnumber : ∀ {rank}, Reads I rank text n.value False :=
    .number hlex (h.number?_eq.trans hn)
  cases negative with
  | false => exact hnumber
  | true =>
      refine hnumber.negative ?_
      obtain ⟨c, rest, rfl, hdigit, -⟩ := h.spans [] (by simp)
      intro d hd
      obtain rfl := Option.some.inj hd
      exact isWordChar_of_isDigit hdigit

theorem infinity_isPath : IsPath [['f', '6', '4'], ['I', 'N', 'F', 'I', 'N', 'I', 'T', 'Y']] := by
  refine ⟨by simp, ?_⟩
  simp only [List.mem_cons, List.not_mem_nil, or_false, forall_eq_or_imp, forall_eq]
  exact ⟨isIdentifier_cons (by decide) (by decide) (by decide),
    isIdentifier_cons (by decide) (by decide) (by decide)⟩

theorem nan_isPath : IsPath [['f', '6', '4'], ['N', 'A', 'N']] := by
  refine ⟨by simp, ?_⟩
  simp only [List.mem_cons, List.not_mem_nil, or_false, forall_eq_or_imp, forall_eq]
  exact ⟨isIdentifier_cons (by decide) (by decide) (by decide),
    isIdentifier_cons (by decide) (by decide) (by decide)⟩

theorem reads_infinity (rank : Nat) :
    Reads I rank "f64::INFINITY".toList I.infinity False :=
  .path infinity_isPath

theorem reads_nan (rank : Nat) : Reads I rank "f64::NAN".toList I.nan False :=
  .path nan_isPath

theorem reads_float (x : Float) :
    Reads I (rank (level ⟨.rust, digits⟩ (.float x))) (Renderer.float ⟨.rust, digits⟩ x).toList
      (I.float digits x) False := by
  rw [level]
  unfold Renderer.float Interpretation.float
  by_cases hnan : x.isNaN
  · rw [if_pos hnan, if_pos hnan]
    exact reads_nan _
  rw [if_neg hnan, if_neg hnan]
  by_cases hinf : x.isInf
  · rw [if_pos hinf, if_pos hinf]
    by_cases hneg : x < 0
    · obtain ⟨hsign, hzero⟩ := signBit_of_neg hneg
      simp only [hneg, hsign, hzero, if_true, Bool.and_self]
      refine (reads_infinity 6).negative fun c hc => ?_
      obtain rfl := Option.some.inj hc
      decide
    · rw [if_neg hneg, if_neg hneg]
      dsimp only
      rw [String.empty_append]
      exact reads_infinity _
  rw [if_neg hinf, if_neg hinf]
  obtain ⟨text, htext, hfloat⟩ := isDecimal_float x digits
  rw [hfloat]
  cases signBit x && x != 0 with
  | false => exact reads_signed htext false
  | true => exact reads_signed htext true

theorem faithful_float (x : Float) : Faithful I digits (.float x) := by
  unfold Faithful
  rw [Renderer.expr, Interpretation.expr]
  exact (reads_float x).imp False.elim

theorem faithful_int (n : Int) : Faithful I digits (.int n) := by
  unfold Faithful
  rw [Renderer.expr, Interpretation.expr, level]
  cases n with
  | ofNat m =>
      have hreads : Reads I (rank Level.atom) (Decimal.digits m) _ False :=
        reads_signed (.natural m) false
      rw [decimal_signed (.natural m) (CSource.numeral?_digits m)] at hreads
      rw [Decimal.toList_ofNat, if_neg (by simp)]
      simpa [Numeral.value] using hreads.imp False.elim
  | negSucc m =>
      have hreads : Reads I (rank Level.unary) ('-' :: Decimal.digits (m + 1)) _ False :=
        reads_signed (.natural (m + 1)) true
      rw [decimal_signed (.natural (m + 1)) (CSource.numeral?_digits (m + 1))] at hreads
      rw [Decimal.toList_negSucc, if_pos (Int.negSucc_lt_zero m)]
      have hvalue : (Int.negSucc m : K) = -(⟨m + 1, 0⟩ : Numeral).value := by
        simp [Numeral.value]
      rw [hvalue]
      exact hreads.imp False.elim

theorem faithful_bool (b : Bool) : Faithful I digits (.bool b) := by
  unfold Faithful
  rw [Renderer.expr, Interpretation.expr]
  exact (Reads.truth b).imp False.elim

/-! ### Operators -/

theorem reads_indices {indices : List Expr} (hindices : ∀ e ∈ indices, Faithful I digits e)
    {text : List Char} {x : K} {typed : Prop} (hstart : Reads I 7 text x typed) :
    Reads I 7 (text ++ indices.flatMap fun e => '[' :: (operandText digits 0 e ++ [']']))
      ((I.exprs digits indices).foldl I.index x) (indices = [] ∧ typed) := by
  induction indices generalizing text x typed with
  | nil => simpa [Interpretation.exprs] using hstart
  | cons e indices ih =>
      have hindex := hstart.index ((hindices e (by simp)).group 0)
      have hrest := ih (fun d hd => hindices d (List.mem_cons_of_mem e hd)) hindex
      have hnever : (indices = [] ∧ False) → (e :: indices = [] ∧ typed) := fun h => h.2.elim
      simpa [Interpretation.exprs] using hrest.imp hnever

/-- What ends in a cast binds less tightly than what may be indexed or called. -/
theorem EndsInCast.level_lt {e : Expr} (h : EndsInCast ⟨.rust, digits⟩ e) :
    level ⟨.rust, digits⟩ e < Level.atom := by
  induction h with
  | cast => simp [level, Level.cast, Level.atom]
  | @sum terms last hlast hlevel h ih =>
      obtain _ | ⟨first, _ | ⟨second, terms⟩⟩ := terms
      · cases hlast
      · obtain rfl := Option.some.inj hlast
        rwa [level]
      · simp [level, Level.sum, Level.atom]
  | @product factors last hlast hlevel h ih =>
      obtain _ | ⟨first, _ | ⟨second, factors⟩⟩ := factors
      · cases hlast
      · obtain rfl := Option.some.inj hlast
        rwa [level]
      · simp [level, Level.product, Level.atom]
  | difference => simp [level, Level.sum, Level.atom]
  | quotient => simp [level, Level.product, Level.atom]
  | @logic op left right hlevel h ih =>
      rw [level]
      cases op <;> decide
  | not => simp [level, Level.unary, Level.atom]

theorem faithful_access {array : Expr} {indices : List Expr} (harray : Faithful I digits array)
    (hindices : ∀ e ∈ indices, Faithful I digits e) :
    Faithful I digits (.access array indices) := by
  have htexts : (operands ⟨.rust, digits⟩ 0 indices).flatMap
      (fun index => ("[" ++ index ++ "]").toList) =
      indices.flatMap fun e => '[' :: (operandText digits 0 e ++ [']']) := by
    have hmap := congrArg (List.flatMap fun text => '[' :: (text ++ [']']))
      (operands_eq_map digits 0 indices)
    simpa [List.flatMap_map] using hmap
  refine faithful_of_reads Level.atom (reads_indices hindices (harray.group Level.atom)) ?_ ?_ ?_ ?_
  · rw [level]
  · rw [Renderer.expr, String.toList_append, String.toList_join, List.flatMap_map, htexts]
    rfl
  · rw [Interpretation.expr]
  · exact fun hends => absurd hends.2.2.level_lt (Nat.not_lt.2 hends.2.1)

theorem reads_chain (op : BinaryOp) (hop : op.Chains) {required : Nat}
    (hrequired : rank required = operatorRank op) (unit : K)
    (hunit : ∀ x, I.binary op x unit = x) {es : List Expr} (hne : es ≠ [])
    (h : ∀ e ∈ es, Faithful I digits e) :
    Reads I (operatorRank op)
      ((' ' :: (op.spelling ++ [' '])).intercalate (es.map (operandText digits required)))
      ((I.exprs digits es).foldr (I.binary op) unit)
      (∃ last, es.getLast? = some last ∧ EndsOperand digits required last) := by
  induction es with
  | nil => exact absurd rfl hne
  | cons e es ih =>
      have hfirst := (h e (by simp)).group required
      rw [hrequired] at hfirst
      cases es with
      | nil =>
          have hlast : EndsOperand digits required e →
              ∃ last, [e].getLast? = some last ∧ EndsOperand digits required last :=
            fun hends => ⟨e, rfl, hends⟩
          simpa [Interpretation.exprs, hunit] using hfirst.imp hlast
      | cons second es =>
          have hrest := ih (by simp) fun d hd => h d (List.mem_cons_of_mem _ hd)
          have hchain := Reads.chain hop hfirst hrest
          simpa [List.intercalate_cons_cons, Interpretation.exprs] using hchain

theorem faithful_single {e whole : Expr} (h : Faithful I digits e) (required : Nat)
    (hlevel : level ⟨.rust, digits⟩ whole = level ⟨.rust, digits⟩ e)
    (htext : (expr ⟨.rust, digits⟩ whole).toList = operandText digits required e)
    (hvalue : I.expr digits whole = I.expr digits e)
    (htyped : EndsOperand digits required e → EndsInCast ⟨.rust, digits⟩ whole) :
    Faithful I digits whole :=
  faithful_of_reads _ (h.group_at fun _ => le_rfl) hlevel htext hvalue htyped

theorem faithful_sum {terms : List Expr} (hterms : ∀ e ∈ terms, Faithful I digits e) :
    Faithful I digits (.sum terms) := by
  obtain _ | ⟨first, _ | ⟨second, terms⟩⟩ := terms
  · have hzero : Reads I (rank Level.atom) ['0'] _ False := reads_signed (.natural 0) false
    rw [decimal_signed (.natural 0) (CSource.numeral?_digits 0)] at hzero
    refine faithful_of_reads Level.atom hzero rfl (by rw [Renderer.expr]; rfl) ?_
      False.elim
    simp [Interpretation.expr, Interpretation.exprs, Numeral.value]
  · refine faithful_single (hterms first (by simp)) Level.sum rfl ?_ ?_
      fun hends => .sum rfl hends.1 hends.2
    · simp [Renderer.expr, operands, operandText]
    · simp [Interpretation.expr, Interpretation.exprs]
  · have hchain := reads_chain .plus (Or.inl rfl) (by decide : rank Level.sum = _) (0 : K)
      (fun x => add_zero x) (by simp) hterms
    refine faithful_of_reads Level.sum hchain (by simp [level]) ?_
      rfl fun h => h.elim fun _ hends => .sum hends.1 hends.2.1 hends.2.2
    rw [Renderer.expr, String.toList_intercalate, operands_eq_map]
    · rfl
    · simp

theorem faithful_product {factors : List Expr} (hfactors : ∀ e ∈ factors, Faithful I digits e) :
    Faithful I digits (.product factors) := by
  obtain _ | ⟨first, _ | ⟨second, factors⟩⟩ := factors
  · have hone : Reads I (rank Level.atom) ['1'] _ False := reads_signed (.natural 1) false
    rw [decimal_signed (.natural 1) (CSource.numeral?_digits 1)] at hone
    refine faithful_of_reads Level.atom hone rfl (by rw [Renderer.expr]; rfl) ?_
      False.elim
    simp [Interpretation.expr, Interpretation.exprs, Numeral.value]
  · refine faithful_single (hfactors first (by simp)) Level.product rfl ?_ ?_
      fun hends => .product rfl hends.1 hends.2
    · simp [Renderer.expr, operands, operandText]
    · simp [Interpretation.expr, Interpretation.exprs]
  · have hchain := reads_chain .times (Or.inr (Or.inl rfl)) (by decide : rank Level.product = _)
      (1 : K) (fun x => mul_one x) (by simp) hfactors
    refine faithful_of_reads Level.product hchain (by simp [level]) ?_
      rfl fun h => h.elim fun _ hends => .product hends.1 hends.2.1 hends.2.2
    rw [Renderer.expr, String.toList_intercalate, operands_eq_map]
    · rfl
    · simp

theorem faithful_difference {left right : Expr} (hleft : Faithful I digits left)
    (hright : Faithful I digits right) : Faithful I digits (.difference left right) := by
  have h := Reads.binary .minus (hleft.group Level.sum) (hright.group (Level.sum + 1)) (by simp)
  refine faithful_of_reads Level.sum h rfl ?_ rfl
    fun hends => .difference hends.1 hends.2
  simp [Renderer.expr, operandText, BinaryOp.spelling]

theorem faithful_quotient {left right : Expr} (hleft : Faithful I digits left)
    (hright : Faithful I digits right) : Faithful I digits (.quotient left right) := by
  have h := Reads.binary .divide (hleft.group Level.product) (hright.group (Level.product + 1))
    (by simp)
  refine faithful_of_reads Level.product h rfl ?_ rfl
    fun hends => .quotient hends.1 hends.2
  simp [Renderer.expr, operandText, BinaryOp.spelling]

/-- An operand of a comparison is read at the rank behind that of comparisons. -/
theorem reads_compared (op : LogicOp) (hop : op.isAssociative = false) {operand : Expr}
    (h : Faithful I digits operand)
    (hplain : op = .eq ∨ op = .ne → level ⟨.rust, digits⟩ operand ≠ Level.relational) :
    Reads I 3 (operandText digits op.operandLevel operand) (I.expr digits operand)
      (EndsOperand digits op.operandLevel operand) := by
  refine h.group_at fun hle => ?_
  by_cases hequation : op = .eq ∨ op = .ne
  · refine comparison_lt_rank ?_ (hplain hequation)
    obtain rfl | rfl := hequation <;> exact hle
  · have hlevel : rank op.operandLevel = 3 := by
      cases op with
      | eq | ne => simp at hequation
      | and | or => cases hop
      | _ => decide
    rw [← hlevel]
    exact rank_mono hle

theorem faithful_logic (op : LogicOp) {left right : Expr}
    (hplain : Plain ⟨.rust, digits⟩ (.logic op left right)) (hleft : Faithful I digits left)
    (hright : Faithful I digits right) : Faithful I digits (.logic op left right) := by
  have h : ∃ typed, Reads I (rank op.level) (operandText digits op.operandLevel left ++
      ' ' :: ((BinaryOp.logic op).spelling ++ ' ' :: operandText digits op.operandLevel right))
      (I.binary (.logic op) (I.expr digits left) (I.expr digits right)) typed ∧
      (typed → EndsOperand digits op.operandLevel right) := by
    rw [rank_logic]
    cases hop : op.isAssociative with
    | true =>
        have hlevel : rank op.operandLevel = operatorRank (.logic op) := by
          rw [LogicOp.operandLevel, if_pos hop, rank_logic]
        have hleft' := hleft.group op.operandLevel
        have hright' := hright.group op.operandLevel
        rw [hlevel] at hleft' hright'
        exact ⟨_, Reads.chain (Or.inr (Or.inr ⟨op, rfl, hop⟩)) hleft' hright', id⟩
    | false =>
        have hequation : op = .eq ∨ op = .ne → level ⟨.rust, digits⟩ left ≠ Level.relational ∧
            level ⟨.rust, digits⟩ right ≠ Level.relational := by
          rintro (rfl | rfl) <;> exact hplain
        have hgeneric : BinaryOp.logic op = .logic .lt →
            ¬ EndsOperand digits op.operandLevel left := by
          intro hlt
          obtain rfl := BinaryOp.logic.inj hlt
          exact hplain
        have hleft' := reads_compared op hop hleft fun heq => (hequation heq).1
        have hright' := reads_compared op hop hright fun heq => (hequation heq).2
        have hranks : leftRank (.logic op) = 3 ∧ operatorRank (.logic op) + 1 = 3 := by
          cases op <;> first | decide | cases hop
        rw [← hranks.1] at hleft'
        rw [← hranks.2] at hright'
        exact ⟨_, Reads.binary (.logic op) hleft' hright' hgeneric, id⟩
  obtain ⟨typed, hreads, htyped⟩ := h
  refine faithful_of_reads op.level hreads rfl ?_ rfl
    fun hends => .logic (htyped hends).1 (htyped hends).2
  simp [Renderer.expr, operandText, BinaryOp.spelling]

theorem faithful_not {operand : Expr} (h : Faithful I digits operand) :
    Faithful I digits (.not operand) := by
  refine faithful_of_reads Level.unary (Reads.not (h.group Level.unary)) rfl ?_ rfl
    fun hends => .not hends.1 hends.2
  simp [Renderer.expr, operandText]

theorem faithful_conditional {condition whenTrue whenFalse : Expr}
    (hcondition : Faithful I digits condition) (htrue : Faithful I digits whenTrue)
    (hfalse : Faithful I digits whenFalse) :
    Faithful I digits (.conditional condition whenTrue whenFalse) := by
  have h := Reads.conditional (hcondition.weaken (Nat.zero_le _)) (htrue.weaken (Nat.zero_le _))
    (hfalse.weaken (Nat.zero_le _))
  refine faithful_of_reads Level.conditional (h.weaken (rank_le _)) rfl ?_ rfl
    False.elim
  simp [Renderer.expr]

theorem faithful_call {function : String} {arguments : List Expr}
    (hfunction : ∃ parts, IsPath parts ∧ function = pathName parts)
    (harguments : ∀ e ∈ arguments, Faithful I digits e) :
    Faithful I digits (.call function arguments) := by
  obtain ⟨parts, hparts, rfl⟩ := hfunction
  have h := Reads.call hparts (reads_operands harguments)
  refine faithful_of_reads Level.atom h rfl ?_ rfl False.elim
  rw [← operands_eq_map]
  simp [Renderer.expr, String.toList_intercalate, pathName]

theorem faithful_cast {operand : Expr} {type : String}
    (htype : ∃ parts, IsPath parts ∧ type = pathName parts) (h : Faithful I digits operand) :
    Faithful I digits (.cast operand type) := by
  obtain ⟨parts, hparts, rfl⟩ := htype
  have hcast := Reads.cast hparts (h.group Level.cast)
  refine faithful_of_reads Level.cast hcast rfl ?_ rfl
    fun _ => .cast operand (pathName parts)
  simp [Renderer.expr, operandText, pathName]

theorem reads_suffixed {x : Float} (hatom : level ⟨.rust, digits⟩ (.float x) = Level.atom)
    (hnan : ¬ x.isNaN) (hinf : ¬ x.isInf) :
    Reads I 7 ((Renderer.float ⟨.rust, digits⟩ x).toList ++ floatSuffix) (I.float digits x)
      False := by
  obtain ⟨text, htext, hfloat⟩ := isDecimal_float x digits
  obtain ⟨n, hn⟩ := htext.isNumeral.readable
  have hunsigned : (signBit x && x != 0) = false := by
    rw [level] at hatom
    split at hatom
    · exact absurd hatom (by decide)
    next hsign => exact Bool.eq_false_of_not_eq_true hsign
  rw [hunsigned] at hfloat
  have hvalue : I.float digits x = n.value := by
    rw [Interpretation.float, if_neg hnan, if_neg hinf, hfloat, decimal_signed htext hn]
    rfl
  have hrender : (Renderer.float ⟨.rust, digits⟩ x).toList = text := by
    rw [Renderer.float, if_neg hnan, if_neg hinf, hfloat]
    rfl
  rw [hvalue, hrender]
  exact .number (htext.lexes floatSuffix (by simp [floatSuffix, isWordChar]))
    ((number?_suffix text).trans hn)

/-- The receiver of a method binds as tightly as it has to. -/
theorem reads_receiver {target : Expr} (h : Faithful I digits target)
    (hfinite : ∀ x, target = .float x → level ⟨.rust, digits⟩ target = Level.atom →
      ¬ x.isNaN ∧ ¬ x.isInf) :
    ∃ typed, Reads I 7
      (Renderer.receiver ⟨.rust, digits⟩ target (expr ⟨.rust, digits⟩ target)).toList
      (I.expr digits target) typed := by
  unfold Renderer.receiver
  split
  next x _ =>
    rw [Renderer.expr, Interpretation.expr]
    split
    next hatom =>
      obtain ⟨hnan, hinf⟩ := hfinite x rfl hatom
      have hsuffixed : Reads I 7 _ _ False := reads_suffixed hatom hnan hinf
      exact ⟨_, by simpa [floatSuffix] using hsuffixed⟩
    next =>
      have hread : Reads I 0 (Renderer.float ⟨.rust, digits⟩ x).toList (I.float digits x) False :=
        (reads_float x).weaken (Nat.zero_le _)
      have hgroup : Reads I 7 _ _ False := hread.group
      exact ⟨_, by simpa using hgroup⟩
  next => exact ⟨_, h.group Level.atom⟩

theorem faithful_method {target : Expr} {name : String} {arguments : List Expr}
    (hplain : Plain ⟨.rust, digits⟩ (.method target name arguments))
    (hname : IsIdentifier name.toList) (htarget : Faithful I digits target)
    (harguments : ∀ e ∈ arguments, Faithful I digits e) :
    Faithful I digits (.method target name arguments) := by
  have hfinite : ∀ x, target = .float x → level ⟨.rust, digits⟩ target = Level.atom →
      ¬ x.isNaN ∧ ¬ x.isInf := by
    rintro x rfl
    exact hplain
  obtain ⟨typed, hreceiver⟩ := reads_receiver htarget hfinite
  have h := Reads.method hreceiver hname (reads_operands harguments)
  refine faithful_of_reads Level.atom h rfl ?_ (by rw [Interpretation.expr]; simp)
    False.elim
  rw [← operands_eq_map]
  simp [Renderer.expr, String.toList_intercalate]

end Operands

mutual

theorem faithful_of_plain (digits : Nat) : (e : Expr) → Every WellNamed e →
    Every (Plain ⟨.rust, digits⟩) e → Faithful I digits e
  | .symbol _, hnames, _ => faithful_symbol hnames
  | .float x, _, _ => faithful_float x
  | .int n, _, _ => faithful_int n
  | .bool b, _, _ => faithful_bool b
  | .access array indices, hnames, hplain =>
      faithful_access (faithful_of_plain digits array hnames.2.1 hplain.2.1)
        (all_faithful_of_plain digits indices hnames.2.2 hplain.2.2)
  | .sum terms, hnames, hplain =>
      faithful_sum (all_faithful_of_plain digits terms hnames.2 hplain.2)
  | .product factors, hnames, hplain =>
      faithful_product (all_faithful_of_plain digits factors hnames.2 hplain.2)
  | .difference left right, hnames, hplain =>
      faithful_difference (faithful_of_plain digits left hnames.2.1 hplain.2.1)
        (faithful_of_plain digits right hnames.2.2 hplain.2.2)
  | .quotient left right, hnames, hplain =>
      faithful_quotient (faithful_of_plain digits left hnames.2.1 hplain.2.1)
        (faithful_of_plain digits right hnames.2.2 hplain.2.2)
  | .logic op left right, hnames, hplain =>
      faithful_logic op hplain.1 (faithful_of_plain digits left hnames.2.1 hplain.2.1)
        (faithful_of_plain digits right hnames.2.2 hplain.2.2)
  | .not operand, hnames, hplain =>
      faithful_not (faithful_of_plain digits operand hnames.2 hplain.2)
  | .conditional condition whenTrue whenFalse, hnames, hplain =>
      faithful_conditional (faithful_of_plain digits condition hnames.2.1 hplain.2.1)
        (faithful_of_plain digits whenTrue hnames.2.2.1 hplain.2.2.1)
        (faithful_of_plain digits whenFalse hnames.2.2.2 hplain.2.2.2)
  | .call _ arguments, hnames, hplain =>
      faithful_call hnames.1 (all_faithful_of_plain digits arguments hnames.2 hplain.2)
  | .method target _ arguments, hnames, hplain =>
      faithful_method hplain.1 hnames.1
        (faithful_of_plain digits target hnames.2.1 hplain.2.1)
        (all_faithful_of_plain digits arguments hnames.2.2 hplain.2.2)
  | .cast operand _, hnames, hplain =>
      faithful_cast hnames.1 (faithful_of_plain digits operand hnames.2 hplain.2)

theorem all_faithful_of_plain (digits : Nat) : (es : List Expr) → EveryOf WellNamed es →
    EveryOf (Plain ⟨.rust, digits⟩) es → ∀ e ∈ es, Faithful I digits e
  | [], _, _ => fun _ h => absurd h List.not_mem_nil
  | e :: es, hnames, hplain => List.forall_mem_cons.2
      ⟨faithful_of_plain digits e hnames.1 hplain.1,
        all_faithful_of_plain digits es hnames.2 hplain.2⟩

end

/-- The text of an expression is a phrase of the grammar of Rust.  It has one tree, and the value of
that tree is the value of the expression. -/
theorem rendered_faithful (digits : Nat) (e : Expr) (hnames : Every WellNamed e)
    (hplain : Every (Plain ⟨.rust, digits⟩) e) (I : Interpretation K) :
    ∃ tokens t, lex (Renderer.expr ⟨.rust, digits⟩ e).toList = some tokens ∧
      Derives 0 tokens t ∧ (∀ u, Derives 0 tokens u → u = t) ∧ I.tree t = I.expr digits e := by
  obtain ⟨tokens, t, hlex, ht, hvalue, -⟩ :=
    (faithful_of_plain digits e hnames hplain : Faithful I digits e).weaken (Nat.zero_le _)
  exact ⟨tokens, t, hlex.lex_eq, ht, fun u hu => hu.unique ht, hvalue⟩

theorem isPath_word {c : Char} {rest : List Char} (hc : isWordStart c = true)
    (hrest : rest.all isWordChar = true) (hfree : wordToken (c :: rest) = .word (c :: rest)) :
    IsPath [c :: rest] :=
  ⟨by simp, by simpa using isIdentifier_cons hc hrest hfree⟩

/-- The text `if x < 1 { (-2.5).abs() } else { n as f64 }`. -/
theorem rendered_faithful_conditional :
    Every WellNamed (.conditional (.logic .lt (.symbol "x") (.int 1))
        (.method (.float (-2.5)) "abs" []) (.cast (.symbol "n") "f64")) ∧
      Every (Plain ⟨.rust, 16⟩) (.conditional (.logic .lt (.symbol "x") (.int 1))
        (.method (.float (-2.5)) "abs" []) (.cast (.symbol "n") "f64")) ∧
      ∃ tokens t,
        lex (Renderer.expr ⟨.rust, 16⟩ (.conditional (.logic .lt (.symbol "x") (.int 1))
          (.method (.float (-2.5)) "abs" []) (.cast (.symbol "n") "f64"))).toList = some tokens ∧
        Derives 0 tokens t ∧ (∀ u, Derives 0 tokens u → u = t) ∧
        (default : Interpretation ℚ).tree t = (default : Interpretation ℚ).expr 16
          (.conditional (.logic .lt (.symbol "x") (.int 1)) (.method (.float (-2.5)) "abs" [])
            (.cast (.symbol "n") "f64")) := by
  have hx : IsSymbol "x" :=
    ⟨⟨[['x']], isPath_word (by decide) (by decide) (by decide), by decide⟩, by decide, by decide⟩
  have hn : IsSymbol "n" :=
    ⟨⟨[['n']], isPath_word (by decide) (by decide) (by decide), by decide⟩, by decide, by decide⟩
  have habs : IsIdentifier "abs".toList :=
    isIdentifier_cons (c := 'a') (by decide) (by decide) (by decide)
  have htype : ∃ parts, IsPath parts ∧ "f64" = pathName parts :=
    ⟨[['f', '6', '4']], isPath_word (by decide) (by decide) (by decide), by decide⟩
  have hnames : Every WellNamed (.conditional (.logic .lt (.symbol "x") (.int 1))
      (.method (.float (-2.5)) "abs" []) (.cast (.symbol "n") "f64")) :=
    ⟨trivial, ⟨trivial, hx, trivial⟩, ⟨habs, trivial, trivial⟩, htype, hn⟩
  have hsymbol : ¬ EndsInCast ⟨.rust, 16⟩ (.symbol "x") := by rintro ⟨⟩
  have hfloat : ¬ (-2.5 : Float).isNaN ∧ ¬ (-2.5 : Float).isInf := by decide +kernel
  have hplain : Every (Plain ⟨.rust, 16⟩) (.conditional (.logic .lt (.symbol "x") (.int 1))
      (.method (.float (-2.5)) "abs" []) (.cast (.symbol "n") "f64")) :=
    ⟨trivial, ⟨fun h => hsymbol h.2, trivial, trivial⟩,
      ⟨fun _ => hfloat, trivial, trivial⟩, trivial, trivial⟩
  exact ⟨hnames, hplain, rendered_faithful 16 _ hnames hplain default⟩

/-- The text `a == b < c` is no phrase of the grammar. -/
theorem not_rendered_faithful_equation :
    Every WellNamed (.logic .eq (.symbol "a") (.logic .lt (.symbol "b") (.symbol "c"))) ∧
      ¬ ∃ tokens t, lex (Renderer.expr ⟨.rust, 16⟩
        (.logic .eq (.symbol "a") (.logic .lt (.symbol "b") (.symbol "c")))).toList =
          some tokens ∧ Derives 0 tokens t := by
  have ha : IsPath [['a']] := isPath_word (by decide) (by decide) (by decide)
  have hb : IsPath [['b']] := isPath_word (by decide) (by decide) (by decide)
  have hc : IsPath [['c']] := isPath_word (by decide) (by decide) (by decide)
  refine ⟨⟨trivial, ⟨⟨_, ha, by decide⟩, by decide, by decide⟩, trivial,
    ⟨⟨_, hb, by decide⟩, by decide, by decide⟩, ⟨_, hc, by decide⟩, by decide, by decide⟩, ?_⟩
  rintro ⟨tokens, t, hlex, ht⟩
  have htext : (Renderer.expr ⟨.rust, 16⟩
      (.logic .eq (.symbol "a") (.logic .lt (.symbol "b") (.symbol "c")))).toList =
      ['a', ' ', '=', '=', ' ', 'b', ' ', '<', ' ', 'c'] := by decide +kernel
  have hinner := Reads.lexes_between (.logic .lt) hb.lexes hc.lexes
  have hlexes := (Reads.lexes_between (.logic .eq) ha.lexes hinner).lex_eq
  rw [htext] at hlex
  obtain rfl := Option.some.inj (hlex.symm.trans hlexes)
  have hlength := ht.length_of_compared (by simp [pathTokens, pathRest, Token.IsCompared,
    LogicOp.isAssociative])
  simp [pathTokens, pathRest] at hlength

end ElementKernel.RustSource
