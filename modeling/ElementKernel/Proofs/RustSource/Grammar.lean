import ElementKernel.Proofs.RustSource.Numerals

/-!
# The grammar of Rust expressions

`Derives` is the grammar of expressions over tokens.  A rank says how tightly the outermost operator
has to bind: 0 to 4 for the binary operators, 5 for casts, 6 for prefixes and 7 for what may be
indexed, called or given a method.

All comparisons share one rank and do not associate.  Behind the type of a cast the sign `<` starts
the generic arguments of the type, so no comparison can stand there.

The grammar is unambiguous.  A reader that looks at one token after the other finds the tree of
every derivation (`Derives.runs`), and it has no choice (`Runs.unique`).
-/

namespace ElementKernel.RustSource

open CSource (BinaryOp Numeral)

inductive Tree where
  | truth (value : Bool)
  | path (parts : List (List Char))
  | number (numeral : Numeral)
  | index (array index : Tree)
  | call (function : Tree) (arguments : List Tree)
  | method (receiver : Tree) (name : List Char) (arguments : List Tree)
  | negative (operand : Tree)
  | not (operand : Tree)
  | cast (operand : Tree) (type : List (List Char))
  | binary (op : BinaryOp) (left right : Tree)
  | conditional (condition whenTrue whenFalse : Tree)

/-- How tightly an operator binds. -/
def operatorRank : BinaryOp → Nat
  | .logic .or => 0
  | .logic .and => 1
  | .logic .eq | .logic .ne | .logic .lt | .logic .le | .logic .gt | .logic .ge => 2
  | .plus | .minus => 3
  | .times | .divide => 4

/-- The rank of left operands.  All operators but comparisons associate to the left. -/
def leftRank : BinaryOp → Nat
  | .logic op => if op.isAssociative then operatorRank (.logic op) else operatorRank (.logic op) + 1
  | op => operatorRank op

theorem operatorRank_le (op : BinaryOp) : operatorRank op ≤ 4 := by
  cases op with
  | logic op => cases op <;> decide
  | _ => decide

theorem operatorRank_le_leftRank (op : BinaryOp) : operatorRank op ≤ leftRank op := by
  cases op with
  | logic op => cases op <;> decide
  | _ => decide

/-- Phrases with a comma between each two of them. -/
def commaSeparated (phrases : List (List Token × Tree)) : List Token :=
  [Token.comma].intercalate (phrases.map Prod.fst)

/-- Whether the type of a cast stands at the end. -/
def EndsInType (tokens : List Token) : Prop :=
  ∃ front part parts, tokens = front ++ .asKeyword :: .word part :: pathRest parts

/-- The phrases of a rank and their trees. -/
inductive Derives : Nat → List Token → Tree → Prop where
  | truth {rank : Nat} (value : Bool) : Derives rank [.truth value] (.truth value)
  | path {rank : Nat} (part : List Char) (parts : List (List Char)) :
      Derives rank (.word part :: pathRest parts) (.path (part :: parts))
  | number {rank : Nat} {chars : List Char} {n : Numeral} (h : number? chars = some n) :
      Derives rank [.number chars] (.number n)
  | group {rank : Nat} {tokens : List Token} {t : Tree} (h : Derives 0 tokens t) :
      Derives rank (.openParen :: (tokens ++ [.closeParen])) t
  | index {rank : Nat} {array index : List Token} {a i : Tree} (hrank : rank ≤ 7)
      (harray : Derives 7 array a) (hindex : Derives 0 index i) :
      Derives rank (array ++ .openBracket :: (index ++ [.closeBracket])) (.index a i)
  | call {rank : Nat} {function : List Token} {f : Tree} (arguments : List (List Token × Tree))
      (hrank : rank ≤ 7) (hfunction : Derives 7 function f)
      (harguments : ∀ a ∈ arguments, Derives 0 a.1 a.2) :
      Derives rank (function ++ .openParen :: (commaSeparated arguments ++ [.closeParen]))
        (.call f (arguments.map Prod.snd))
  | method {rank : Nat} {receiver : List Token} {r : Tree} (name : List Char)
      (arguments : List (List Token × Tree)) (hrank : rank ≤ 7) (hreceiver : Derives 7 receiver r)
      (harguments : ∀ a ∈ arguments, Derives 0 a.1 a.2) :
      Derives rank
        (receiver ++ .dot :: .word name :: .openParen ::
          (commaSeparated arguments ++ [.closeParen]))
        (.method r name (arguments.map Prod.snd))
  | negative {rank : Nat} {tokens : List Token} {t : Tree} (hrank : rank ≤ 6)
      (h : Derives 6 tokens t) : Derives rank (.operator .minus :: tokens) (.negative t)
  | not {rank : Nat} {tokens : List Token} {t : Tree} (hrank : rank ≤ 6)
      (h : Derives 6 tokens t) : Derives rank (.bang :: tokens) (.not t)
  | cast {rank : Nat} {tokens : List Token} {t : Tree} (part : List Char)
      (parts : List (List Char)) (hrank : rank ≤ 5) (h : Derives 5 tokens t) :
      Derives rank (tokens ++ .asKeyword :: .word part :: pathRest parts)
        (.cast t (part :: parts))
  | binary {rank : Nat} {left right : List Token} {l r : Tree} (op : BinaryOp)
      (hrank : rank ≤ operatorRank op) (hleft : Derives (leftRank op) left l)
      (hright : Derives (operatorRank op + 1) right r)
      (hgeneric : op = .logic .lt → ¬ EndsInType left) :
      Derives rank (left ++ .operator op :: right) (.binary op l r)
  | conditional {rank : Nat} {condition whenTrue whenFalse : List Token} {c t e : Tree}
      (hcondition : Derives 0 condition c) (htrue : Derives 0 whenTrue t)
      (hfalse : Derives 0 whenFalse e) :
      Derives rank
        (.ifKeyword :: (condition ++ .openBrace :: (whenTrue ++ .closeBrace :: .elseKeyword ::
          .openBrace :: (whenFalse ++ [.closeBrace]))))
        (.conditional c t e)

theorem Derives.weaken {rank lower : Nat} {tokens : List Token} {t : Tree}
    (h : Derives rank tokens t) (hle : lower ≤ rank) : Derives lower tokens t := by
  cases h with
  | truth value => exact .truth value
  | path part parts => exact .path part parts
  | number h => exact .number h
  | group h => exact .group h
  | index hrank harray hindex => exact .index (hle.trans hrank) harray hindex
  | call arguments hrank hfunction harguments =>
      exact .call arguments (hle.trans hrank) hfunction harguments
  | method name arguments hrank hreceiver harguments =>
      exact .method name arguments (hle.trans hrank) hreceiver harguments
  | negative hrank h => exact .negative (hle.trans hrank) h
  | not hrank h => exact .not (hle.trans hrank) h
  | cast part parts hrank h => exact .cast part parts (hle.trans hrank) h
  | binary op hrank hleft hright hgeneric =>
      exact .binary op (hle.trans hrank) hleft hright hgeneric
  | conditional hcondition htrue hfalse => exact .conditional hcondition htrue hfalse

/-! ## Types at the end -/

theorem asKeyword_notMem_pathRest (parts : List (List Char)) : .asKeyword ∉ pathRest parts := by
  simp [pathRest]

/-- A token that stands in no type cannot stand behind the keyword of one. -/
theorem EndsInType.of_append {front right : List Token} {token : Token}
    (h : EndsInType (front ++ token :: right))
    (htoken : token ≠ .asKeyword ∧ token ≠ .colons ∧ ∀ word, token ≠ .word word) :
    EndsInType right := by
  obtain ⟨before, part, parts, heq⟩ := h
  obtain ⟨middle, hfront, htail⟩ | ⟨middle, hbefore, htail⟩ := List.append_eq_append_iff.1 heq
  · cases middle with
    | nil => exact absurd (List.cons.inj htail).1 htoken.1
    | cons first middle =>
        obtain ⟨-, rfl⟩ := List.cons.inj htail
        exact ⟨middle, part, parts, rfl⟩
  · have hmem : token ∈ Token.asKeyword :: .word part :: pathRest parts := by
      rw [htail]
      simp
    simp only [List.mem_cons, pathRest, List.mem_flatMap] at hmem
    obtain rfl | rfl | ⟨word, -, rfl | rfl | hnil⟩ := hmem
    · exact absurd rfl htoken.1
    · exact absurd rfl (htoken.2.2 part)
    · exact absurd rfl htoken.2.1
    · exact absurd rfl (htoken.2.2 word)
    · cases hnil

theorem EndsInType.of_cons {right : List Token} {token : Token} (h : EndsInType (token :: right))
    (htoken : token ≠ .asKeyword ∧ token ≠ .colons ∧ ∀ word, token ≠ .word word) :
    EndsInType right := by
  rw [← List.nil_append (token :: right)] at h
  exact h.of_append htoken

theorem not_endsInType_of_notMem {tokens : List Token} (h : .asKeyword ∉ tokens) :
    ¬ EndsInType tokens := by
  rintro ⟨front, part, parts, rfl⟩
  simp at h

theorem not_endsInType_of_getLast? {tokens : List Token} (token : Token)
    (hlast : tokens.getLast? = some token)
    (htoken : token ≠ .asKeyword ∧ token ≠ .colons ∧ ∀ word, token ≠ .word word) :
    ¬ EndsInType tokens := by
  obtain ⟨front, rfl⟩ := List.getLast?_eq_some_iff.1 hlast
  exact fun hends => not_endsInType_of_notMem List.not_mem_nil (hends.of_append htoken)

/-! ## Reading without choice -/

/-- What stands in front of the arguments of a call. -/
inductive Callee where
  | function (function : Tree)
  | method (receiver : Tree) (name : List Char)

def Callee.call : Callee → List Tree → Tree
  | .function f => .call f
  | .method receiver name => .method receiver name

/-- What a reader is about to do: read an operand, go on behind a tree, go on behind the opening
parenthesis of a call, or read the next argument of a call. -/
inductive State where
  | operand (rank : Nat)
  | behind (rank : Nat) (read : Tree)
  | opened (rank : Nat) (callee : Callee)
  | arguments (rank : Nat) (callee : Callee) (read : List Tree)

/-- Whether a phrase of the rank goes on with a token behind a tree. -/
def Extends (rank : Nat) : Token → Prop
  | .operator op => rank ≤ operatorRank op
  | .asKeyword => rank ≤ 5
  | .openParen | .openBracket | .dot => True
  | _ => False

/-- Reading a phrase ends with its tree and the tokens behind it.  The reader takes comparisons to
associate to the left and accepts them behind types, which the grammar does not. -/
inductive Runs : State → List Token → Tree → List Token → Prop where
  | truth {rank : Nat} {value : Bool} {tokens rest : List Token} {t : Tree}
      (hrun : Runs (.behind rank (.truth value)) tokens t rest) :
      Runs (.operand rank) (.truth value :: tokens) t rest
  | path {rank : Nat} {part : List Char} {parts : List (List Char)} {tokens tail rest : List Token}
      {t : Tree} (htokens : tokens = pathRest parts ++ tail) (hend : tail.head? ≠ some .colons)
      (hrun : Runs (.behind rank (.path (part :: parts))) tail t rest) :
      Runs (.operand rank) (.word part :: tokens) t rest
  | number {rank : Nat} {chars : List Char} {n : Numeral} {tokens rest : List Token} {t : Tree}
      (h : number? chars = some n) (hrun : Runs (.behind rank (.number n)) tokens t rest) :
      Runs (.operand rank) (.number chars :: tokens) t rest
  | group {rank : Nat} {tokens tail rest : List Token} {inner t : Tree}
      (hinner : Runs (.operand 0) tokens inner (.closeParen :: tail))
      (hrun : Runs (.behind rank inner) tail t rest) :
      Runs (.operand rank) (.openParen :: tokens) t rest
  | negative {rank : Nat} {tokens tail rest : List Token} {inner t : Tree}
      (hinner : Runs (.operand 6) tokens inner tail)
      (hrun : Runs (.behind rank (.negative inner)) tail t rest) :
      Runs (.operand rank) (.operator .minus :: tokens) t rest
  | not {rank : Nat} {tokens tail rest : List Token} {inner t : Tree}
      (hinner : Runs (.operand 6) tokens inner tail)
      (hrun : Runs (.behind rank (.not inner)) tail t rest) :
      Runs (.operand rank) (.bang :: tokens) t rest
  | conditional {rank : Nat} {tokens middle last tail rest : List Token}
      {condition whenTrue whenFalse t : Tree}
      (hcondition : Runs (.operand 0) tokens condition (.openBrace :: middle))
      (htrue : Runs (.operand 0) middle whenTrue
        (.closeBrace :: .elseKeyword :: .openBrace :: last))
      (hfalse : Runs (.operand 0) last whenFalse (.closeBrace :: tail))
      (hrun : Runs (.behind rank (.conditional condition whenTrue whenFalse)) tail t rest) :
      Runs (.operand rank) (.ifKeyword :: tokens) t rest
  | stop {rank : Nat} {tokens : List Token} {t : Tree}
      (h : ∀ token ∈ tokens.head?, ¬ Extends rank token) : Runs (.behind rank t) tokens t tokens
  | binary {rank : Nat} {op : BinaryOp} {tokens tail rest : List Token} {left right t : Tree}
      (hrank : rank ≤ operatorRank op)
      (hright : Runs (.operand (operatorRank op + 1)) tokens right tail)
      (hrun : Runs (.behind rank (.binary op left right)) tail t rest) :
      Runs (.behind rank left) (.operator op :: tokens) t rest
  | cast {rank : Nat} {part : List Char} {parts : List (List Char)}
      {tokens tail rest : List Token} {operand t : Tree} (hrank : rank ≤ 5)
      (htokens : tokens = pathRest parts ++ tail) (hend : tail.head? ≠ some .colons)
      (hrun : Runs (.behind rank (.cast operand (part :: parts))) tail t rest) :
      Runs (.behind rank operand) (.asKeyword :: .word part :: tokens) t rest
  | index {rank : Nat} {tokens tail rest : List Token} {array index t : Tree}
      (hindex : Runs (.operand 0) tokens index (.closeBracket :: tail))
      (hrun : Runs (.behind rank (.index array index)) tail t rest) :
      Runs (.behind rank array) (.openBracket :: tokens) t rest
  | call {rank : Nat} {tokens rest : List Token} {function t : Tree}
      (hrun : Runs (.opened rank (.function function)) tokens t rest) :
      Runs (.behind rank function) (.openParen :: tokens) t rest
  | method {rank : Nat} {name : List Char} {tokens rest : List Token} {receiver t : Tree}
      (hrun : Runs (.opened rank (.method receiver name)) tokens t rest) :
      Runs (.behind rank receiver) (.dot :: .word name :: .openParen :: tokens) t rest
  | empty {rank : Nat} {callee : Callee} {tokens rest : List Token} {t : Tree}
      (hrun : Runs (.behind rank (callee.call [])) tokens t rest) :
      Runs (.opened rank callee) (.closeParen :: tokens) t rest
  | first {rank : Nat} {callee : Callee} {tokens rest : List Token} {t : Tree}
      (hrun : Runs (.arguments rank callee []) tokens t rest) :
      Runs (.opened rank callee) tokens t rest
  | argument {rank : Nat} {callee : Callee} {tokens tail rest : List Token} {argument t : Tree}
      {read : List Tree} (hargument : Runs (.operand 0) tokens argument (.comma :: tail))
      (hrun : Runs (.arguments rank callee (read ++ [argument])) tail t rest) :
      Runs (.arguments rank callee read) tokens t rest
  | lastArgument {rank : Nat} {callee : Callee} {tokens tail rest : List Token}
      {argument t : Tree} {read : List Tree}
      (hargument : Runs (.operand 0) tokens argument (.closeParen :: tail))
      (hrun : Runs (.behind rank (callee.call (read ++ [argument]))) tail t rest) :
      Runs (.arguments rank callee read) tokens t rest

/-- A path goes on as long as colons follow. -/
theorem pathRest_unique {parts other : List (List Char)} {tail rest : List Token}
    (h : pathRest parts ++ tail = pathRest other ++ rest) (htail : tail.head? ≠ some .colons)
    (hrest : rest.head? ≠ some .colons) : parts = other ∧ tail = rest := by
  induction parts generalizing other with
  | nil =>
      cases other with
      | nil => exact ⟨rfl, h⟩
      | cons part other =>
          rw [pathRest, List.flatMap_nil, List.nil_append] at h
          rw [h] at htail
          exact absurd rfl htail
  | cons part parts ih =>
      cases other with
      | nil =>
          rw [show pathRest [] ++ rest = rest from rfl] at h
          rw [← h] at hrest
          exact absurd rfl hrest
      | cons second other =>
          simp only [pathRest, List.flatMap_cons, List.cons_append, List.nil_append,
            List.cons.injEq, Token.word.injEq, true_and] at h
          obtain ⟨rfl, hparts⟩ := h
          obtain ⟨rfl, rfl⟩ := ih hparts
          exact ⟨rfl, rfl⟩

/-- No argument starts with a closing parenthesis. -/
theorem Runs.not_closed {rank : Nat} {callee : Callee} {t : Tree} {read : List Tree}
    {tokens rest : List Token} :
    ¬ Runs (.arguments rank callee read) (.closeParen :: tokens) t rest := by
  intro h
  cases h with
  | argument hargument => cases hargument
  | lastArgument hargument => cases hargument

/-- The reader has no choice. -/
theorem Runs.unique {state : State} {tokens rest other : List Token} {t u : Tree}
    (h : Runs state tokens t rest) (h' : Runs state tokens u other) : t = u ∧ rest = other := by
  induction h generalizing u other with
  | truth hrun ih =>
      cases h' with
      | truth hrun' => exact ih hrun'
  | path htokens hend hrun ih =>
      cases h' with
      | path htokens' hend' hrun' =>
          obtain ⟨rfl, rfl⟩ := pathRest_unique (htokens.symm.trans htokens') hend hend'
          exact ih hrun'
  | number h hrun ih =>
      cases h' with
      | number h' hrun' =>
          obtain rfl := Option.some.inj (h.symm.trans h')
          exact ih hrun'
  | group hinner hrun ihinner ih =>
      cases h' with
      | group hinner' hrun' =>
          obtain ⟨rfl, htail⟩ := ihinner hinner'
          obtain rfl := (List.cons.inj htail).2
          exact ih hrun'
  | negative hinner hrun ihinner ih =>
      cases h' with
      | negative hinner' hrun' =>
          obtain ⟨rfl, rfl⟩ := ihinner hinner'
          exact ih hrun'
  | not hinner hrun ihinner ih =>
      cases h' with
      | not hinner' hrun' =>
          obtain ⟨rfl, rfl⟩ := ihinner hinner'
          exact ih hrun'
  | conditional hcondition htrue hfalse hrun ihcondition ihtrue ihfalse ih =>
      cases h' with
      | conditional hcondition' htrue' hfalse' hrun' =>
          obtain ⟨rfl, hmiddle⟩ := ihcondition hcondition'
          obtain rfl := (List.cons.inj hmiddle).2
          obtain ⟨rfl, hlast⟩ := ihtrue htrue'
          simp only [List.cons.injEq, true_and] at hlast
          subst hlast
          obtain ⟨rfl, htail⟩ := ihfalse hfalse'
          obtain rfl := (List.cons.inj htail).2
          exact ih hrun'
  | stop h =>
      cases h' with
      | stop => exact ⟨rfl, rfl⟩
      | binary hrank => exact absurd hrank (h _ rfl)
      | cast hrank => exact absurd hrank (h _ rfl)
      | index => exact absurd trivial (h _ rfl)
      | call => exact absurd trivial (h _ rfl)
      | method => exact absurd trivial (h _ rfl)
  | binary hrank hright hrun ihright ih =>
      cases h' with
      | stop h' => exact absurd hrank (h' _ rfl)
      | binary hrank' hright' hrun' =>
          obtain ⟨rfl, rfl⟩ := ihright hright'
          exact ih hrun'
  | cast hrank htokens hend hrun ih =>
      cases h' with
      | stop h' => exact absurd hrank (h' _ rfl)
      | cast hrank' htokens' hend' hrun' =>
          obtain ⟨rfl, rfl⟩ := pathRest_unique (htokens.symm.trans htokens') hend hend'
          exact ih hrun'
  | index hindex hrun ihindex ih =>
      cases h' with
      | stop h' => exact absurd trivial (h' _ rfl)
      | index hindex' hrun' =>
          obtain ⟨rfl, htail⟩ := ihindex hindex'
          obtain rfl := (List.cons.inj htail).2
          exact ih hrun'
  | call hrun ih =>
      cases h' with
      | stop h' => exact absurd trivial (h' _ rfl)
      | call hrun' => exact ih hrun'
  | method hrun ih =>
      cases h' with
      | stop h' => exact absurd trivial (h' _ rfl)
      | method hrun' => exact ih hrun'
  | empty hrun ih =>
      cases h' with
      | empty hrun' => exact ih hrun'
      | first hrun' => exact absurd hrun' Runs.not_closed
  | first hrun ih =>
      cases h' with
      | empty => exact absurd hrun Runs.not_closed
      | first hrun' => exact ih hrun'
  | argument hargument hrun ihargument ih =>
      cases h' with
      | argument hargument' hrun' =>
          obtain ⟨rfl, htail⟩ := ihargument hargument'
          obtain rfl := (List.cons.inj htail).2
          exact ih hrun'
      | lastArgument hargument' => cases (ihargument hargument').2
  | lastArgument hargument hrun ihargument ih =>
      cases h' with
      | argument hargument' => cases (ihargument hargument').2
      | lastArgument hargument' hrun' =>
          obtain ⟨rfl, htail⟩ := ihargument hargument'
          obtain rfl := (List.cons.inj htail).2
          exact ih hrun'

/-! ## Derivations are read -/

/-- Whether a token may stand behind a phrase of the rank that belongs to a larger phrase. -/
def Follows (rank : Nat) : Token → Prop
  | .operator op => operatorRank op ≤ rank
  | .asKeyword => 5 ≤ rank
  | .openParen | .openBracket | .dot => 7 ≤ rank
  | .colons => False
  | _ => True

def FollowedBy (rank : Nat) (tokens : List Token) : Prop :=
  ∀ token ∈ tokens.head?, Follows rank token

theorem followedBy_cons {rank : Nat} {token : Token} {tokens : List Token}
    (h : Follows rank token) : FollowedBy rank (token :: tokens) := by
  intro other hother
  obtain rfl := Option.some.inj hother
  exact h

theorem FollowedBy.head?_ne_colons {rank : Nat} {tokens : List Token}
    (h : FollowedBy rank tokens) : tokens.head? ≠ some .colons :=
  fun hhead => h _ hhead

theorem FollowedBy.weaken {rank lower : Nat} {tokens : List Token} (h : FollowedBy lower tokens)
    (hle : lower ≤ rank) : FollowedBy rank tokens := by
  intro token htoken
  have hfollows := h token htoken
  cases token with
  | operator | asKeyword | openParen | openBracket | dot =>
      simp only [Follows] at hfollows ⊢
      omega
  | colons => exact hfollows
  | _ => trivial

/-- The last operand of a phrase ends where the phrase ends. -/
theorem not_extends_of_followedBy {rank operand : Nat} {tokens : List Token}
    (h : FollowedBy rank tokens) (hrank : rank ≤ 6) (hlast : rank < operand ∨ 5 < operand) :
    ∀ token ∈ tokens.head?, ¬ Extends operand token := by
  intro token htoken hextends
  have hfollows := h token htoken
  cases token with
  | operator op =>
      have hlow := operatorRank_le op
      simp only [Follows, Extends] at hfollows hextends
      omega
  | asKeyword =>
      simp only [Follows, Extends] at hfollows hextends
      omega
  | openParen | openBracket | dot =>
      simp only [Follows] at hfollows
      omega
  | _ => exact hextends

/-- What a derivation promises a reader: it reads the phrase and goes on behind its tree. -/
def Read (rank : Nat) (tokens : List Token) (t : Tree) : Prop :=
  ∀ ⦃lower : Nat⦄ ⦃tail rest : List Token⦄ ⦃u : Tree⦄, lower ≤ rank → FollowedBy rank tail →
    Runs (.behind lower t) tail u rest → Runs (.operand lower) (tokens ++ tail) u rest

/-- A phrase that a token ends is read on its own. -/
theorem Read.closed {rank : Nat} {tokens tail : List Token} {t : Tree} {token : Token}
    (h : Read rank tokens t) (hfollows : Follows rank token) (hends : ¬ Extends rank token) :
    Runs (.operand rank) (tokens ++ token :: tail) t (token :: tail) := by
  refine h le_rfl (followedBy_cons hfollows) (.stop fun other hother => ?_)
  obtain rfl := Option.some.inj hother
  exact hends

theorem Read.last {rank operand : Nat} {tokens tail : List Token} {t : Tree}
    (h : Read operand tokens t) (hfollowed : FollowedBy rank tail) (hle : rank ≤ operand)
    (hrank : rank ≤ 6) (hlast : rank < operand ∨ 5 < operand) :
    Runs (.operand operand) (tokens ++ tail) t tail :=
  h le_rfl (hfollowed.weaken hle) (.stop (not_extends_of_followedBy hfollowed hrank hlast))

theorem runs_arguments {rank : Nat} {callee : Callee} {u : Tree} {tail rest : List Token}
    {arguments : List (List Token × Tree)} (hne : arguments ≠ [])
    (h : ∀ a ∈ arguments, Read 0 a.1 a.2) (read : List Tree)
    (hrun : Runs (.behind rank (callee.call (read ++ arguments.map Prod.snd))) tail u rest) :
    Runs (.arguments rank callee read) (commaSeparated arguments ++ .closeParen :: tail) u rest := by
  induction arguments generalizing read with
  | nil => exact absurd rfl hne
  | cons first arguments ih =>
      have hfirst := h first (by simp)
      cases arguments with
      | nil =>
          have hlast : Runs (.operand 0) (first.1 ++ .closeParen :: tail) first.2
              (.closeParen :: tail) := hfirst.closed trivial id
          exact .lastArgument (by simpa [commaSeparated] using hlast) hrun
      | cons second arguments =>
          have htail := ih (by simp) (fun a ha => h a (List.mem_cons_of_mem _ ha))
            (read ++ [first.2]) (by simpa using hrun)
          have hcomma : commaSeparated (first :: second :: arguments) ++ .closeParen :: tail =
              first.1 ++ .comma ::
                (commaSeparated (second :: arguments) ++ .closeParen :: tail) := by
            simp [commaSeparated, List.intercalate_cons_cons]
          rw [hcomma]
          exact .argument (hfirst.closed trivial id) htail

theorem runs_opened {rank : Nat} {callee : Callee} {u : Tree} {tail rest : List Token}
    {arguments : List (List Token × Tree)} (h : ∀ a ∈ arguments, Read 0 a.1 a.2)
    (hrun : Runs (.behind rank (callee.call (arguments.map Prod.snd))) tail u rest) :
    Runs (.opened rank callee) (commaSeparated arguments ++ .closeParen :: tail) u rest := by
  by_cases hne : arguments = []
  · subst hne
    exact .empty hrun
  · exact .first (runs_arguments hne h [] hrun)

/-- The reader finds the tree of every derivation. -/
theorem Derives.runs {rank : Nat} {tokens : List Token} {t : Tree} (h : Derives rank tokens t) :
    Read rank tokens t := by
  induction h with
  | truth value => exact fun _ _ _ _ _ _ hrun => .truth hrun
  | path part parts =>
      exact fun _ _ _ _ _ hfollowed hrun => .path rfl hfollowed.head?_ne_colons hrun
  | number h => exact fun _ _ _ _ _ _ hrun => .number h hrun
  | group h ih =>
      intro lower tail rest u hle hfollowed hrun
      rw [List.cons_append, List.append_assoc]
      exact .group (ih.closed trivial id) hrun
  | index hrank harray hindex iharray ihindex =>
      intro lower tail rest u hle hfollowed hrun
      rw [List.append_assoc, List.cons_append, List.append_assoc]
      refine iharray (hle.trans hrank) (followedBy_cons le_rfl) ?_
      exact .index (ihindex.closed trivial id) hrun
  | call arguments hrank hfunction harguments ihfunction iharguments =>
      intro lower tail rest u hle hfollowed hrun
      rw [List.append_assoc, List.cons_append, List.append_assoc]
      exact ihfunction (hle.trans hrank) (followedBy_cons le_rfl)
        (.call (runs_opened iharguments hrun))
  | method name arguments hrank hreceiver harguments ihreceiver iharguments =>
      intro lower tail rest u hle hfollowed hrun
      rw [List.append_assoc, List.cons_append, List.cons_append, List.cons_append,
        List.append_assoc]
      exact ihreceiver (hle.trans hrank) (followedBy_cons le_rfl)
        (.method (runs_opened iharguments hrun))
  | negative hrank h ih =>
      intro lower tail rest u hle hfollowed hrun
      rw [List.cons_append]
      exact .negative (ih.last hfollowed hrank hrank (by omega)) hrun
  | not hrank h ih =>
      intro lower tail rest u hle hfollowed hrun
      rw [List.cons_append]
      exact .not (ih.last hfollowed hrank hrank (by omega)) hrun
  | cast part parts hrank h ih =>
      intro lower tail rest u hle hfollowed hrun
      rw [List.append_assoc, List.cons_append, List.cons_append]
      refine ih (hle.trans hrank) (followedBy_cons le_rfl) ?_
      exact .cast (hle.trans hrank) rfl hfollowed.head?_ne_colons hrun
  | binary op hrank hleft hright hgeneric ihleft ihright =>
      intro lower tail rest u hle hfollowed hrun
      rw [List.append_assoc, List.cons_append]
      have hlow := operatorRank_le op
      have hleftRank := operatorRank_le_leftRank op
      refine ihleft (by omega) (followedBy_cons hleftRank) ?_
      exact .binary (hle.trans hrank) (ihright.last hfollowed (by omega) (by omega) (by omega)) hrun
  | conditional hcondition htrue hfalse ihcondition ihtrue ihfalse =>
      intro lower tail rest u hle hfollowed hrun
      simp only [List.cons_append, List.append_assoc]
      exact .conditional (ihcondition.closed trivial id) (ihtrue.closed trivial id)
        (ihfalse.closed trivial id) hrun

/-- A list of tokens has at most one tree. -/
theorem Derives.unique {tokens : List Token} {t u : Tree} (h : Derives 0 tokens t)
    (h' : Derives 0 tokens u) : t = u := by
  have hend : FollowedBy 0 [] := by simp [FollowedBy]
  have hstop : ∀ v, Runs (.behind 0 v) [] v [] := fun v => .stop (by simp)
  exact (Runs.unique (h.runs le_rfl hend (hstop t)) (h'.runs le_rfl hend (hstop u))).1

/-! ## Chains of comparisons -/

/-- Words and comparisons. -/
def Token.IsCompared : Token → Prop
  | .word _ => True
  | .operator (.logic op) => op.isAssociative = false
  | _ => False

/-- Without parentheses a phrase compares at most two words, since comparisons do not associate. -/
theorem Derives.length_of_compared {rank : Nat} {tokens : List Token} {t : Tree}
    (h : Derives rank tokens t) (htokens : ∀ token ∈ tokens, token.IsCompared) :
    tokens.length = 1 ∨ tokens.length = 3 ∧ rank ≤ 2 := by
  induction h with
  | path part parts =>
      cases parts with
      | nil => exact Or.inl rfl
      | cons second parts => exact absurd (htokens .colons (by simp [pathRest])) id
  | truth value => exact absurd (htokens (.truth value) (by simp)) id
  | @number rank chars n h => exact absurd (htokens (.number chars) (by simp)) id
  | group h => exact absurd (htokens .openParen (by simp)) id
  | index => exact absurd (htokens .openBracket (by simp)) id
  | call => exact absurd (htokens .openParen (by simp)) id
  | method => exact absurd (htokens .dot (by simp)) id
  | negative => exact absurd (htokens (.operator .minus) (by simp)) id
  | not => exact absurd (htokens .bang (by simp)) id
  | cast => exact absurd (htokens .asKeyword (by simp)) id
  | conditional => exact absurd (htokens .ifKeyword (by simp)) id
  | @binary rank left right l r op hrank hleft hright hgeneric ihleft ihright =>
      have hop : (Token.operator op).IsCompared := htokens _ (by simp)
      have hranks : leftRank op = 3 ∧ operatorRank op = 2 := by
        cases op with
        | logic op => cases op <;> first | exact ⟨rfl, rfl⟩ | cases hop
        | _ => exact hop.elim
      have hleftLength := ihleft fun token h => htokens token (by simp [h])
      have hrightLength := ihright fun token h => htokens token (by simp [h])
      rw [hranks.1] at hleftLength
      rw [hranks.2] at hrank hrightLength
      refine Or.inr ⟨?_, hrank⟩
      rw [List.length_append, List.length_cons]
      omega

end ElementKernel.RustSource
