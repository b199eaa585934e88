import ElementKernel.Proofs.CSource.Numerals

/-!
# The grammar of C expressions

`Derives` is the grammar of expressions over tokens.  A rank says how tightly the outermost operator
has to bind: 0 for `?:`, 1 to 6 for the binary operators, 7 for prefixes and 8 for what may be
indexed or called.  Which words are type names is a parameter, since C cannot tell a cast from an
expression in parentheses without it.

The grammar is unambiguous.  A reader that looks at one token after the other finds the tree of
every derivation (`Derives.runs`), and it has no choice (`Runs.unique`).
-/

namespace ElementKernel.CSource

/-- Words with a meaning of their own. -/
inductive Constant where
  | true
  | false
  | nan
  | infinity
  deriving DecidableEq, Repr

namespace Constant

def all : List Constant := [.true, .false, .nan, .infinity]

def spelling : Constant → List Char
  | .true => ['t', 'r', 'u', 'e']
  | .false => ['f', 'a', 'l', 's', 'e']
  | .nan => ['N', 'A', 'N']
  | .infinity => ['I', 'N', 'F', 'I', 'N', 'I', 'T', 'Y']

end Constant

def constant? (word : List Char) : Option Constant :=
  Constant.all.find? fun constant => constant.spelling = word

inductive Tree where
  | constant (constant : Constant)
  | name (word : List Char)
  | number (numeral : Numeral)
  | index (array index : Tree)
  | call (function : Tree) (arguments : List Tree)
  | negative (operand : Tree)
  | not (operand : Tree)
  | cast (type : List (List Char)) (operand : Tree)
  | binary (op : BinaryOp) (left right : Tree)
  | conditional (condition whenTrue whenFalse : Tree)

/-- How tightly an operator binds.  All of them associate to the left. -/
def BinaryOp.rank : BinaryOp → Nat
  | .logic .or => 1
  | .logic .and => 2
  | .logic .eq | .logic .ne => 3
  | .logic .lt | .logic .le | .logic .gt | .logic .ge => 4
  | .plus | .minus => 5
  | .times | .divide => 6

theorem BinaryOp.rank_pos (op : BinaryOp) : 0 < op.rank := by
  cases op with
  | logic op => cases op <;> decide
  | _ => decide

theorem BinaryOp.rank_le (op : BinaryOp) : op.rank ≤ 6 := by
  cases op with
  | logic op => cases op <;> decide
  | _ => decide

/-- Phrases with a comma between each two of them. -/
def commaSeparated (phrases : List (List Token × Tree)) : List Token :=
  [Token.comma].intercalate (phrases.map Prod.fst)

/-- The words of a type name. -/
def IsType (types : List Char → Prop) (words : List (List Char)) : Prop :=
  words ≠ [] ∧ ∀ word ∈ words, types word ∧ constant? word = none

/-- The phrases of a rank and their trees. -/
inductive Derives (types : List Char → Prop) : Nat → List Token → Tree → Prop where
  | constant {rank : Nat} {word : List Char} {c : Constant} (h : constant? word = some c) :
      Derives types rank [.word word] (.constant c)
  | name {rank : Nat} {word : List Char} (h : constant? word = none) (htype : ¬ types word) :
      Derives types rank [.word word] (.name word)
  | number {rank : Nat} {chars : List Char} {n : Numeral} (h : numeral? chars = some n) :
      Derives types rank [.number chars] (.number n)
  | group {rank : Nat} {tokens : List Token} {t : Tree} (h : Derives types 0 tokens t) :
      Derives types rank (.openParen :: (tokens ++ [.closeParen])) t
  | index {rank : Nat} {array index : List Token} {a i : Tree} (hrank : rank ≤ 8)
      (harray : Derives types 8 array a) (hindex : Derives types 0 index i) :
      Derives types rank (array ++ .openBracket :: (index ++ [.closeBracket])) (.index a i)
  | call {rank : Nat} {function : List Token} {f : Tree} (arguments : List (List Token × Tree))
      (hrank : rank ≤ 8) (hfunction : Derives types 8 function f)
      (harguments : ∀ a ∈ arguments, Derives types 0 a.1 a.2) :
      Derives types rank (function ++ .openParen :: (commaSeparated arguments ++ [.closeParen]))
        (.call f (arguments.map Prod.snd))
  /-- A type may be called like a function. -/
  | construct {rank : Nat} {word : List Char} (arguments : List (List Token × Tree))
      (h : constant? word = none) (htype : types word)
      (harguments : ∀ a ∈ arguments, Derives types 0 a.1 a.2) :
      Derives types rank
        (.word word :: .openParen :: (commaSeparated arguments ++ [.closeParen]))
        (.call (.name word) (arguments.map Prod.snd))
  | negative {rank : Nat} {tokens : List Token} {t : Tree} (hrank : rank ≤ 7)
      (h : Derives types 7 tokens t) :
      Derives types rank (.operator .minus :: tokens) (.negative t)
  | not {rank : Nat} {tokens : List Token} {t : Tree} (hrank : rank ≤ 7)
      (h : Derives types 7 tokens t) : Derives types rank (.bang :: tokens) (.not t)
  | cast {rank : Nat} {words : List (List Char)} {tokens : List Token} {t : Tree}
      (hrank : rank ≤ 7) (htype : IsType types words) (h : Derives types 7 tokens t) :
      Derives types rank (.openParen :: (words.map Token.word ++ .closeParen :: tokens))
        (.cast words t)
  | binary {rank : Nat} {left right : List Token} {l r : Tree} (op : BinaryOp)
      (hrank : rank ≤ op.rank) (hleft : Derives types op.rank left l)
      (hright : Derives types (op.rank + 1) right r) :
      Derives types rank (left ++ .operator op :: right) (.binary op l r)
  | conditional {condition whenTrue whenFalse : List Token} {c t e : Tree}
      (hcondition : Derives types 1 condition c) (htrue : Derives types 0 whenTrue t)
      (hfalse : Derives types 0 whenFalse e) :
      Derives types 0 (condition ++ .question :: (whenTrue ++ .colon :: whenFalse))
        (.conditional c t e)

variable {types : List Char → Prop}

theorem Derives.weaken {rank lower : Nat} {tokens : List Token} {t : Tree}
    (h : Derives types rank tokens t) (hle : lower ≤ rank) : Derives types lower tokens t := by
  cases h with
  | constant h => exact .constant h
  | name h htype => exact .name h htype
  | number h => exact .number h
  | group h => exact .group h
  | index hrank harray hindex => exact .index (hle.trans hrank) harray hindex
  | call arguments hrank hfunction harguments =>
      exact .call arguments (hle.trans hrank) hfunction harguments
  | construct arguments h htype harguments => exact .construct arguments h htype harguments
  | negative hrank h => exact .negative (hle.trans hrank) h
  | not hrank h => exact .not (hle.trans hrank) h
  | cast hrank htype h => exact .cast (hle.trans hrank) htype h
  | binary op hrank hleft hright => exact .binary op (hle.trans hrank) hleft hright
  | conditional hcondition htrue hfalse =>
      obtain rfl := Nat.le_zero.1 hle
      exact .conditional hcondition htrue hfalse

/-! ## Reading without choice -/

/-- What a reader is about to do: read an operand, go on behind a tree, or read the next argument of
a call. -/
inductive State where
  | operand (rank : Nat)
  | behind (rank : Nat) (read : Tree)
  | arguments (rank : Nat) (function : Tree) (read : List Tree)

/-- Whether a phrase of the rank goes on with a token behind a tree. -/
def Extends (rank : Nat) : Token → Prop
  | .operator op => rank ≤ op.rank
  | .question => rank = 0
  | .openParen | .openBracket => True
  | _ => False

/-- Reading a phrase ends with its tree and the tokens behind it. -/
inductive Runs (types : List Char → Prop) : State → List Token → Tree → List Token → Prop where
  | constant {rank : Nat} {word : List Char} {c : Constant} {tokens rest : List Token} {t : Tree}
      (h : constant? word = some c) (hrun : Runs types (.behind rank (.constant c)) tokens t rest) :
      Runs types (.operand rank) (.word word :: tokens) t rest
  | name {rank : Nat} {word : List Char} {tokens rest : List Token} {t : Tree}
      (h : constant? word = none) (htype : ¬ types word)
      (hrun : Runs types (.behind rank (.name word)) tokens t rest) :
      Runs types (.operand rank) (.word word :: tokens) t rest
  | construct {rank : Nat} {word : List Char} {tokens rest : List Token} {t : Tree}
      (h : constant? word = none) (htype : types word)
      (hrun : Runs types (.behind rank (.name word)) (.openParen :: tokens) t rest) :
      Runs types (.operand rank) (.word word :: .openParen :: tokens) t rest
  | number {rank : Nat} {chars : List Char} {n : Numeral} {tokens rest : List Token} {t : Tree}
      (h : numeral? chars = some n) (hrun : Runs types (.behind rank (.number n)) tokens t rest) :
      Runs types (.operand rank) (.number chars :: tokens) t rest
  | group {rank : Nat} {tokens tail rest : List Token} {inner t : Tree}
      (hinner : Runs types (.operand 0) tokens inner (.closeParen :: tail))
      (hrun : Runs types (.behind rank inner) tail t rest) :
      Runs types (.operand rank) (.openParen :: tokens) t rest
  | cast {rank : Nat} {words : List (List Char)} {tokens operand tail rest : List Token}
      {inner t : Tree} (htype : IsType types words)
      (htokens : tokens = words.map Token.word ++ .closeParen :: operand)
      (hinner : Runs types (.operand 7) operand inner tail)
      (hrun : Runs types (.behind rank (.cast words inner)) tail t rest) :
      Runs types (.operand rank) (.openParen :: tokens) t rest
  | negative {rank : Nat} {tokens tail rest : List Token} {inner t : Tree}
      (hinner : Runs types (.operand 7) tokens inner tail)
      (hrun : Runs types (.behind rank (.negative inner)) tail t rest) :
      Runs types (.operand rank) (.operator .minus :: tokens) t rest
  | not {rank : Nat} {tokens tail rest : List Token} {inner t : Tree}
      (hinner : Runs types (.operand 7) tokens inner tail)
      (hrun : Runs types (.behind rank (.not inner)) tail t rest) :
      Runs types (.operand rank) (.bang :: tokens) t rest
  | stop {rank : Nat} {tokens : List Token} {t : Tree}
      (h : ∀ token ∈ tokens.head?, ¬ Extends rank token) :
      Runs types (.behind rank t) tokens t tokens
  | binary {rank : Nat} {op : BinaryOp} {tokens tail rest : List Token} {left right t : Tree}
      (hrank : rank ≤ op.rank) (hright : Runs types (.operand (op.rank + 1)) tokens right tail)
      (hrun : Runs types (.behind rank (.binary op left right)) tail t rest) :
      Runs types (.behind rank left) (.operator op :: tokens) t rest
  | conditional {tokens middle tail rest : List Token} {condition whenTrue whenFalse t : Tree}
      (htrue : Runs types (.operand 0) tokens whenTrue (.colon :: middle))
      (hfalse : Runs types (.operand 0) middle whenFalse tail)
      (hrun : Runs types (.behind 0 (.conditional condition whenTrue whenFalse)) tail t rest) :
      Runs types (.behind 0 condition) (.question :: tokens) t rest
  | index {rank : Nat} {tokens tail rest : List Token} {array index t : Tree}
      (hindex : Runs types (.operand 0) tokens index (.closeBracket :: tail))
      (hrun : Runs types (.behind rank (.index array index)) tail t rest) :
      Runs types (.behind rank array) (.openBracket :: tokens) t rest
  | callEmpty {rank : Nat} {tokens rest : List Token} {function t : Tree}
      (hrun : Runs types (.behind rank (.call function [])) tokens t rest) :
      Runs types (.behind rank function) (.openParen :: .closeParen :: tokens) t rest
  | call {rank : Nat} {tokens rest : List Token} {function t : Tree}
      (hrun : Runs types (.arguments rank function []) tokens t rest) :
      Runs types (.behind rank function) (.openParen :: tokens) t rest
  | argument {rank : Nat} {tokens tail rest : List Token} {function argument t : Tree}
      {read : List Tree} (hargument : Runs types (.operand 0) tokens argument (.comma :: tail))
      (hrun : Runs types (.arguments rank function (read ++ [argument])) tail t rest) :
      Runs types (.arguments rank function read) tokens t rest
  | lastArgument {rank : Nat} {tokens tail rest : List Token} {function argument t : Tree}
      {read : List Tree} (hargument : Runs types (.operand 0) tokens argument (.closeParen :: tail))
      (hrun : Runs types (.behind rank (.call function (read ++ [argument]))) tail t rest) :
      Runs types (.arguments rank function read) tokens t rest

theorem words_unique {words other : List (List Char)} {tokens rest : List Token}
    (h : words.map Token.word ++ .closeParen :: tokens =
      other.map Token.word ++ .closeParen :: rest) : words = other ∧ tokens = rest := by
  induction words generalizing other with
  | nil =>
      cases other with
      | nil => exact ⟨rfl, by simpa using h⟩
      | cons => simp at h
  | cons word words ih =>
      cases other with
      | nil => simp at h
      | cons second other =>
          simp only [List.map_cons, List.cons_append, List.cons.injEq, Token.word.injEq] at h
          obtain ⟨rfl, htail⟩ := h
          obtain ⟨rfl, rfl⟩ := ih htail
          exact ⟨rfl, rfl⟩

/-- No operand starts with a type name in front of a closing parenthesis. -/
theorem Runs.not_type {rank : Nat} {words : List (List Char)} {tokens rest : List Token} {t : Tree}
    (htype : IsType types words) :
    ¬ Runs types (.operand rank) (words.map Token.word ++ .closeParen :: tokens) t rest := by
  intro h
  obtain ⟨hne, hall⟩ := htype
  obtain ⟨word, words, rfl⟩ := List.exists_cons_of_ne_nil hne
  obtain ⟨hword, hconstant⟩ := hall word (by simp)
  rw [List.map_cons, List.cons_append] at h
  generalize htail : words.map Token.word ++ .closeParen :: tokens = tail at h
  cases h with
  | constant h => rw [hconstant] at h; cases h
  | name h htype => exact htype hword
  | construct h htype hrun => cases words <;> simp at htail

/-- No argument starts with a closing parenthesis. -/
theorem Runs.not_closed {rank : Nat} {function t : Tree} {read : List Tree}
    {tokens rest : List Token} :
    ¬ Runs types (.arguments rank function read) (.closeParen :: tokens) t rest := by
  intro h
  cases h with
  | argument hargument => cases hargument
  | lastArgument hargument => cases hargument

/-- The reader has no choice. -/
theorem Runs.unique {state : State} {tokens rest other : List Token} {t u : Tree}
    (h : Runs types state tokens t rest) (h' : Runs types state tokens u other) :
    t = u ∧ rest = other := by
  induction h generalizing u other with
  | constant h hrun ih =>
      cases h' with
      | constant h' hrun' =>
          obtain rfl := Option.some.inj (h.symm.trans h')
          exact ih hrun'
      | name h' => rw [h] at h'; cases h'
      | construct h' => rw [h] at h'; cases h'
  | name h htype hrun ih =>
      cases h' with
      | constant h' => rw [h] at h'; cases h'
      | name h' htype' hrun' => exact ih hrun'
      | construct h' htype' => exact absurd htype' htype
  | construct h htype hrun ih =>
      cases h' with
      | constant h' => rw [h] at h'; cases h'
      | name h' htype' => exact absurd htype htype'
      | construct h' htype' hrun' => exact ih hrun'
  | number h hrun ih =>
      cases h' with
      | number h' hrun' =>
          obtain rfl := Option.some.inj (h.symm.trans h')
          exact ih hrun'
  | group hinner hrun ihinner ih =>
      cases h' with
      | group hinner' hrun' =>
          obtain ⟨rfl, htail⟩ := ihinner hinner'
          obtain rfl := (List.cons.inj htail).2
          exact ih hrun'
      | cast htype htokens => subst htokens; exact absurd hinner (Runs.not_type htype)
  | cast htype htokens hinner hrun ihinner ih =>
      cases h' with
      | group hinner' => subst htokens; exact absurd hinner' (Runs.not_type htype)
      | cast htype' htokens' hinner' hrun' =>
          obtain ⟨rfl, rfl⟩ := words_unique (htokens.symm.trans htokens')
          obtain ⟨rfl, rfl⟩ := ihinner hinner'
          exact ih hrun'
  | negative hinner hrun ihinner ih =>
      cases h' with
      | negative hinner' hrun' =>
          obtain ⟨rfl, rfl⟩ := ihinner hinner'
          exact ih hrun'
  | not hinner hrun ihinner ih =>
      cases h' with
      | not hinner' hrun' =>
          obtain ⟨rfl, rfl⟩ := ihinner hinner'
          exact ih hrun'
  | stop h =>
      cases h' with
      | stop => exact ⟨rfl, rfl⟩
      | binary hrank => exact absurd hrank (h _ rfl)
      | conditional => exact absurd rfl (h _ rfl)
      | index => exact absurd trivial (h _ rfl)
      | callEmpty => exact absurd trivial (h _ rfl)
      | call => exact absurd trivial (h _ rfl)
  | binary hrank hright hrun ihright ih =>
      cases h' with
      | stop h' => exact absurd hrank (h' _ rfl)
      | binary hrank' hright' hrun' =>
          obtain ⟨rfl, rfl⟩ := ihright hright'
          exact ih hrun'
  | conditional htrue hfalse hrun ihtrue ihfalse ih =>
      cases h' with
      | stop h' => exact absurd rfl (h' _ rfl)
      | conditional htrue' hfalse' hrun' =>
          obtain ⟨rfl, hmiddle⟩ := ihtrue htrue'
          obtain rfl := (List.cons.inj hmiddle).2
          obtain ⟨rfl, rfl⟩ := ihfalse hfalse'
          exact ih hrun'
  | index hindex hrun ihindex ih =>
      cases h' with
      | stop h' => exact absurd trivial (h' _ rfl)
      | index hindex' hrun' =>
          obtain ⟨rfl, htail⟩ := ihindex hindex'
          obtain rfl := (List.cons.inj htail).2
          exact ih hrun'
  | callEmpty hrun ih =>
      cases h' with
      | stop h' => exact absurd trivial (h' _ rfl)
      | callEmpty hrun' => exact ih hrun'
      | call hrun' => exact absurd hrun' Runs.not_closed
  | call hrun ih =>
      cases h' with
      | stop h' => exact absurd trivial (h' _ rfl)
      | callEmpty => exact absurd hrun Runs.not_closed
      | call hrun' => exact ih hrun'
  | argument hargument hrun ihargument ih =>
      cases h' with
      | argument hargument' hrun' =>
          obtain ⟨rfl, htail⟩ := ihargument hargument'
          obtain rfl := (List.cons.inj htail).2
          exact ih hrun'
      | lastArgument hargument' => cases (ihargument hargument').2
  | lastArgument hargument hrun ihargument ih =>
      cases h' with
      | argument hargument' => cases (ihargument hargument').2
      | lastArgument hargument' hrun' =>
          obtain ⟨rfl, htail⟩ := ihargument hargument'
          obtain rfl := (List.cons.inj htail).2
          exact ih hrun'

/-! ## Derivations are read -/

/-- Whether a token may stand behind a phrase of the rank that belongs to a larger phrase. -/
def Follows (rank : Nat) : Token → Prop
  | .operator op => op.rank ≤ rank
  | .question => 1 ≤ rank
  | .openParen | .openBracket => 8 ≤ rank
  | _ => True

def FollowedBy (rank : Nat) (tokens : List Token) : Prop :=
  ∀ token ∈ tokens.head?, Follows rank token

theorem followedBy_cons {rank : Nat} {token : Token} {tokens : List Token}
    (h : Follows rank token) : FollowedBy rank (token :: tokens) := by
  intro other hother
  obtain rfl := Option.some.inj hother
  exact h

/-- The last operand of a phrase ends where the phrase ends. -/
theorem not_extends_of_followedBy {rank operand : Nat} {tokens : List Token}
    (h : FollowedBy rank tokens) (hle : rank ≤ operand) (hrank : rank ≤ 7)
    (hlast : rank < operand ∨ operand = 0 ∨ 6 < operand) :
    ∀ token ∈ tokens.head?, ¬ Extends operand token := by
  intro token htoken hextends
  have hfollows := h token htoken
  cases token with
  | operator op =>
      have hpos := op.rank_pos
      have hlow := op.rank_le
      simp only [Follows, Extends] at hfollows hextends
      omega
  | question =>
      simp only [Follows, Extends] at hfollows hextends
      omega
  | openParen =>
      simp only [Follows] at hfollows
      omega
  | openBracket =>
      simp only [Follows] at hfollows
      omega
  | _ => exact hextends

/-- What a derivation promises a reader: it reads the phrase and goes on behind its tree. -/
def Read (types : List Char → Prop) (rank : Nat) (tokens : List Token) (t : Tree) : Prop :=
  ∀ ⦃lower : Nat⦄ ⦃tail rest : List Token⦄ ⦃u : Tree⦄, lower ≤ rank → FollowedBy rank tail →
    Runs types (.behind lower t) tail u rest → Runs types (.operand lower) (tokens ++ tail) u rest

/-- A phrase that a token ends is read on its own. -/
theorem Read.closed {rank : Nat} {tokens tail : List Token} {t : Tree} {token : Token}
    (h : Read types rank tokens t) (hfollows : Follows rank token)
    (hends : ¬ Extends rank token) :
    Runs types (.operand rank) (tokens ++ token :: tail) t (token :: tail) := by
  refine h le_rfl (followedBy_cons hfollows) (.stop fun other hother => ?_)
  obtain rfl := Option.some.inj hother
  exact hends

theorem FollowedBy.weaken {rank lower : Nat} {tokens : List Token} (h : FollowedBy lower tokens)
    (hle : lower ≤ rank) : FollowedBy rank tokens := by
  intro token htoken
  have hfollows := h token htoken
  cases token with
  | operator | question | openParen | openBracket =>
      simp only [Follows] at hfollows ⊢
      omega
  | _ => trivial

theorem Read.last {rank operand : Nat} {tokens tail : List Token} {t : Tree}
    (h : Read types operand tokens t) (hfollowed : FollowedBy rank tail) (hle : rank ≤ operand)
    (hrank : rank ≤ 7) (hlast : rank < operand ∨ operand = 0 ∨ 6 < operand) :
    Runs types (.operand operand) (tokens ++ tail) t tail :=
  h le_rfl (hfollowed.weaken hle)
    (.stop (not_extends_of_followedBy hfollowed hle hrank hlast))

theorem runs_arguments {rank : Nat} {function u : Tree} {tail rest : List Token}
    {arguments : List (List Token × Tree)} (hne : arguments ≠ [])
    (h : ∀ a ∈ arguments, Read types 0 a.1 a.2) (read : List Tree)
    (hrun : Runs types (.behind rank (.call function (read ++ arguments.map Prod.snd))) tail u
      rest) :
    Runs types (.arguments rank function read)
      (commaSeparated arguments ++ .closeParen :: tail) u rest := by
  induction arguments generalizing read with
  | nil => exact absurd rfl hne
  | cons first arguments ih =>
      have hfirst := h first (by simp)
      cases arguments with
      | nil =>
          have hlast : Runs types (.operand 0) (first.1 ++ .closeParen :: tail) first.2
              (.closeParen :: tail) := hfirst.closed trivial id
          exact .lastArgument (by simpa [commaSeparated] using hlast) hrun
      | cons second arguments =>
          have htail := ih (by simp) (fun a ha => h a (List.mem_cons_of_mem _ ha))
            (read ++ [first.2]) (by simpa using hrun)
          have hcomma : commaSeparated (first :: second :: arguments) ++ .closeParen :: tail =
              first.1 ++ .comma ::
                (commaSeparated (second :: arguments) ++ .closeParen :: tail) := by
            simp [commaSeparated, List.intercalate_cons_cons]
          rw [hcomma]
          exact .argument (hfirst.closed trivial id) htail

theorem runs_call {rank : Nat} {function u : Tree} {tail rest : List Token}
    {arguments : List (List Token × Tree)} (h : ∀ a ∈ arguments, Read types 0 a.1 a.2)
    (hrun : Runs types (.behind rank (.call function (arguments.map Prod.snd))) tail u rest) :
    Runs types (.behind rank function)
      (.openParen :: (commaSeparated arguments ++ .closeParen :: tail)) u rest := by
  by_cases hne : arguments = []
  · subst hne
    exact .callEmpty hrun
  · exact .call (runs_arguments hne h [] hrun)

/-- The reader finds the tree of every derivation. -/
theorem Derives.runs {rank : Nat} {tokens : List Token} {t : Tree}
    (h : Derives types rank tokens t) : Read types rank tokens t := by
  induction h with
  | constant h => exact fun _ _ _ _ _ _ hrun => .constant h hrun
  | name h htype => exact fun _ _ _ _ _ _ hrun => .name h htype hrun
  | number h => exact fun _ _ _ _ _ _ hrun => .number h hrun
  | group h ih =>
      intro lower tail rest u hle hfollowed hrun
      rw [List.cons_append, List.append_assoc]
      exact .group (ih.closed trivial id) hrun
  | index hrank harray hindex iharray ihindex =>
      intro lower tail rest u hle hfollowed hrun
      rw [List.append_assoc, List.cons_append, List.append_assoc]
      refine iharray (hle.trans hrank) (followedBy_cons le_rfl) ?_
      exact .index (ihindex.closed trivial id) hrun
  | call arguments hrank hfunction harguments ihfunction iharguments =>
      intro lower tail rest u hle hfollowed hrun
      rw [List.append_assoc, List.cons_append, List.append_assoc]
      exact ihfunction (hle.trans hrank) (followedBy_cons le_rfl) (runs_call iharguments hrun)
  | construct arguments h htype harguments ih =>
      intro lower tail rest u hle hfollowed hrun
      rw [List.cons_append, List.cons_append, List.append_assoc]
      exact .construct h htype (runs_call ih hrun)
  | negative hrank h ih =>
      intro lower tail rest u hle hfollowed hrun
      rw [List.cons_append]
      exact .negative (ih.last hfollowed hrank hrank (by omega)) hrun
  | not hrank h ih =>
      intro lower tail rest u hle hfollowed hrun
      rw [List.cons_append]
      exact .not (ih.last hfollowed hrank hrank (by omega)) hrun
  | cast hrank htype h ih =>
      intro lower tail rest u hle hfollowed hrun
      rw [List.cons_append, List.append_assoc, List.cons_append]
      exact .cast htype rfl (ih.last hfollowed hrank hrank (by omega)) hrun
  | binary op hrank hleft hright ihleft ihright =>
      intro lower tail rest u hle hfollowed hrun
      rw [List.append_assoc, List.cons_append]
      have hlow := op.rank_le
      refine ihleft (hle.trans hrank) (followedBy_cons le_rfl) ?_
      exact .binary (hle.trans hrank)
        (ihright.last hfollowed (by omega) (by omega) (by omega)) hrun
  | conditional hcondition htrue hfalse ihcondition ihtrue ihfalse =>
      intro lower tail rest u hle hfollowed hrun
      obtain rfl := Nat.le_zero.1 hle
      rw [List.append_assoc, List.cons_append, List.append_assoc, List.cons_append]
      refine ihcondition (Nat.zero_le 1) (followedBy_cons le_rfl) ?_
      exact .conditional (ihtrue.closed trivial id)
        (ihfalse.last hfollowed le_rfl (Nat.zero_le 7) (Or.inr (Or.inl rfl))) hrun

/-- A list of tokens has at most one tree. -/
theorem Derives.unique {tokens : List Token} {t u : Tree} (h : Derives types 0 tokens t)
    (h' : Derives types 0 tokens u) : t = u := by
  have hend : FollowedBy 0 [] := by simp [FollowedBy]
  have hstop : ∀ v, Runs types (.behind 0 v) [] v [] := fun v => .stop (by simp)
  exact (Runs.unique (h.runs le_rfl hend (hstop t)) (h'.runs le_rfl hend (hstop u))).1

end ElementKernel.CSource
