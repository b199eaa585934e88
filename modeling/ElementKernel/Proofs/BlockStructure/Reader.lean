import ElementKernel.Proofs.CSource.Numerals
import ElementKernel.Proofs.RustSource.Tokens

/-!
# Reading the lines of a program

A reader of statements that knows a program by its lines only.  In C the head of a loop governs the
next statement, which is a block in braces or a single statement, and never a declaration.  In Rust
the body of a loop is always in braces.  Comments are no statements, and the blanks in front of a
line have no meaning.  Lines are taken as they stand, so a backslash does not join two of them.

The reader returns the blocks it has found, and for every line the number of loops and scopes
around it.
-/

namespace ElementKernel

/-- The head of a loop with the text of its index. -/
structure Header where
  index : List Char
  first : Nat
  past : Nat
  deriving DecidableEq, Repr

/-- The statements of a program in their blocks. -/
inductive Outline where
  /-- A statement without statements inside of it. -/
  | simple (text : List Char)
  | declaration (text : List Char)
  | loop (header : Header) (body : List Outline)
  | scope (body : List Outline)
  deriving Repr

/-- What a block in braces is: the body of a loop or a scope. -/
def Outline.ofBlock (body : List Outline) : Option Header → Outline
  | some header => .loop header body
  | none => .scope body

/-! ## Heads of loops -/

/-- The number at the end of a text, and what stands in front of it. -/
def splitNatural? (text : List Char) : Option (List Char × Nat) := do
  let number ← CSource.natural? (text.rtakeWhile Char.isDigit)
  return (text.rdropWhile Char.isDigit, number)

namespace Header

/-- The head of a loop of C, as in `for (int i = 0; i < 3; ++i)`. -/
def ofC? (text : List Char) : Option Header :=
  match text.splitOn ';' with
  | [start, test, step] => do
      let index ← (← step.dropPrefix? " ++".toList).dropSuffix? ")".toList
      let startFront := "for (int ".toList ++ index ++ " = ".toList
      let testFront := " ".toList ++ index ++ " < ".toList
      let first ← CSource.natural? (← start.dropPrefix? startFront)
      let past ← CSource.natural? (← test.dropPrefix? testFront)
      return ⟨index, first, past⟩
  | _ => none

/-- The head of a loop of Rust and the brace behind it, as in `for i in 0..3 \x7b`. -/
def ofRust? (text : List Char) : Option Header := do
  let (range, past) ← splitNatural? (← text.dropSuffix? " \x7b".toList)
  let (head, first) ← splitNatural? (← range.dropSuffix? "..".toList)
  let index ← (← head.dropPrefix? "for ".toList).dropSuffix? " in ".toList
  return ⟨index, first, past⟩

end Header

/-! ## Lines -/

/-- What a line contributes to the statements of a program. -/
inductive Line where
  | comment
  /-- The head of a loop, which governs the next statement. -/
  | header (header : Header)
  /-- The head of a loop together with the brace in front of its body. -/
  | openLoop (header : Header)
  | openBrace
  | closeBrace
  | declaration (text : List Char)
  | simple (text : List Char)
  deriving DecidableEq, Repr

def firstWord (text : List Char) : List Char := text.takeWhile RustSource.isWordChar

/-- The words that declarations start with. -/
def Dialect.declarators : Dialect → List (List Char)
  | .c => ["double".toList, "static".toList, "alignas".toList]
  | .rust => ["let".toList, "static".toList]

def Line.ofText? (d : Dialect) (text : List Char) : Option Line :=
  if "//".toList.isPrefixOf text then some .comment
  else if text = ['\x7b'] then some .openBrace
  else if text = ['\x7d'] then some .closeBrace
  else if firstWord text = "for".toList then
    match d with
    | .c => (Header.ofC? text).map .header
    | .rust => (Header.ofRust? text).map .openLoop
  else if text.getLast? = some ';' then
    if firstWord text ∈ d.declarators then some (.declaration text)
    -- Another semicolon would end a statement in front of the last one.
    else if ';' ∈ text.dropLast then none
    else some (.simple text)
  else none

/-! ## Blocks -/

/-- A block that is read, with what was read in front of it: the statements of the block around it
and the heads of loops that govern it from there.  Its opener is the loop that it is the body of. -/
structure OpenBlock where
  opener : Option Header
  before : List Outline
  headers : List Header

/-- What has been read of a program: the last statements of the innermost block, the heads of loops
behind them, innermost first, and the blocks around. -/
structure ReaderState where
  items : List Outline := []
  headers : List Header := []
  blocks : List OpenBlock := []

namespace ReaderState

/-- The number of loops and scopes around the next statement. -/
def depth (s : ReaderState) : Nat := s.headers.length + (s.blocks.map (·.headers.length + 1)).sum

/-- A statement with the loops whose heads stand in front of it. -/
def govern (headers : List Header) (item : Outline) : Outline :=
  headers.foldl (fun item header => .loop header [item]) item

def give (s : ReaderState) (item : Outline) : ReaderState :=
  { s with items := s.items ++ [govern s.headers item], headers := [] }

/-- The head of a loop waits for the next statement. -/
def await (s : ReaderState) (header : Header) : ReaderState :=
  { s with headers := header :: s.headers }

def enter (s : ReaderState) (opener : Option Header) : ReaderState :=
  ⟨[], [], ⟨opener, s.items, s.headers⟩ :: s.blocks⟩

/-- Reads one line.  A brace that closes nothing and the declaration of a variable without a block
of its own are errors. -/
def step (s : ReaderState) : Line → Option ReaderState
  | .comment => some s
  | .header header => some (s.await header)
  | .openLoop header => some (s.enter (some header))
  | .openBrace =>
      match s.headers with
      | [] => some (s.enter none)
      | header :: headers => some (enter { s with headers } (some header))
  | .closeBrace =>
      match s.headers, s.blocks with
      | [], ⟨opener, items, headers⟩ :: blocks =>
          some (give ⟨items, headers, blocks⟩ (.ofBlock s.items opener))
      | _, _ => none
  | .declaration text => if s.headers = [] then some (s.give (.declaration text)) else none
  | .simple text => some (s.give (.simple text))

/-- The number of loops and scopes around a line.  A brace stands where the loop or the scope does
that it belongs to. -/
def level (s : ReaderState) : Line → Nat
  | .openBrace => depth { s with headers := s.headers.tail }
  | .closeBrace => s.depth - 1
  | _ => s.depth

end ReaderState

def isBlank (c : Char) : Bool := c = ' '

/-- The number of blanks in front of a line. -/
def indentation (text : List Char) : Nat := (text.takeWhile isBlank).length

/-- Reads lines, with the number of loops and scopes around each of them. -/
def readLines (d : Dialect) : ReaderState → List (List Char) → Option (List Nat × ReaderState)
  | s, [] => some ([], s)
  | s, text :: rest => do
      let line ← Line.ofText? d (text.dropWhile isBlank)
      let next ← s.step line
      let (levels, last) ← readLines d next rest
      return (s.level line :: levels, last)

/-- The lines of a text.  Empty ones are left out. -/
def textLines (text : String) : List (List Char) := (text.toList.splitOn '\n').filter (· ≠ [])

/-- Reads a whole program, in which every head of a loop governs a statement and every block is
closed. -/
def readProgram (d : Dialect) (text : String) : Option (List Nat × List Outline) := do
  let (levels, last) ← readLines d {} (textLines text)
  if last.headers.isEmpty ∧ last.blocks.isEmpty then return (levels, last.items) else none

theorem readLines_append {d : Dialect} {s mid last : ReaderState} {a b : List (List Char)}
    {first second : List Nat} (ha : readLines d s a = some (first, mid))
    (hb : readLines d mid b = some (second, last)) :
    readLines d s (a ++ b) = some (first ++ second, last) := by
  induction a generalizing s first with
  | nil =>
      obtain ⟨rfl, rfl⟩ := Prod.mk.inj (Option.some.inj ha)
      exact hb
  | cons text rest ih =>
      rw [readLines] at ha
      obtain ⟨line, hline, ha⟩ := Option.bind_eq_some_iff.1 ha
      obtain ⟨next, hnext, ha⟩ := Option.bind_eq_some_iff.1 ha
      obtain ⟨⟨levels, end'⟩, hrest, ha⟩ := Option.bind_eq_some_iff.1 ha
      obtain ⟨rfl, rfl⟩ := Prod.mk.inj (Option.some.inj ha)
      rw [List.cons_append, readLines, hline, Option.bind_eq_bind, Option.bind_some, hnext,
        Option.bind_eq_bind, Option.bind_some, ih hrest]
      rfl

/-! ## Heads that are read back -/

theorem dropPrefix?_append (a b : List Char) : (a ++ b).dropPrefix? a = some b :=
  List.dropPrefix?_eq_some_iff.2 ⟨a, rfl, beq_self_eq_true a⟩

theorem dropSuffix?_append (a b : List Char) : (a ++ b).dropSuffix? b = some a :=
  List.dropSuffix?_eq_some_iff.2 ⟨b, rfl, beq_self_eq_true b⟩

theorem toList_toString_nat (n : Nat) : (toString n).toList = Decimal.digits n := by
  rw [Nat.toString_eq_repr, Nat.toList_repr]
  rfl

theorem natural?_digits (n : Nat) : CSource.natural? (Decimal.digits n) = some n := by
  rw [CSource.natural?_of_digits (Decimal.digits_ne_nil n) (Decimal.digits_isDigit n),
    Decimal.digits, Nat.ofDigitChars_ten_toDigits]

theorem splitNatural?_append {text : List Char} {last : Char} (hlast : text.getLast? = some last)
    (h : last.isDigit = false) (n : Nat) :
    splitNatural? (text ++ Decimal.digits n) = some (text, n) := by
  have hdigits : ∀ c ∈ (Decimal.digits n).reverse, c.isDigit := fun c hc =>
    Decimal.digits_isDigit n c (List.mem_reverse.1 hc)
  have hhead : ∀ c ∈ text.reverse.head?, c.isDigit = false := by
    rw [List.head?_reverse, hlast]
    simpa using h
  obtain ⟨htake, hdrop⟩ := CSource.takeWhile_dropWhile_append hdigits hhead
  rw [splitNatural?, List.rtakeWhile, List.rdropWhile, List.reverse_append, htake, hdrop,
    List.reverse_reverse, List.reverse_reverse, natural?_digits]
  rfl

theorem splitOn_three {a b c : List Char} (ha : ';' ∉ a) (hb : ';' ∉ b) (hc : ';' ∉ c) :
    (a ++ [';'] ++ b ++ [';'] ++ c).splitOn ';' = [a, b, c] := by
  have htext : a ++ [';'] ++ b ++ [';'] ++ c = [';'].intercalate [a, b, c] := by
    simp [List.intercalate_cons_cons]
  have hparts : ∀ part ∈ [a, b, c], ';' ∉ part := by simp [ha, hb, hc]
  rw [htext, List.splitOn_intercalate ';' hparts (List.cons_ne_nil _ _)]

theorem Header.ofC?_text {index : String} (h : ';' ∉ index.toList) (first past : Nat) :
    ofC? (s!"for (int {index} = {first}; {index} < {past}; ++{index})").toList =
      some ⟨index.toList, first, past⟩ := by
  have hdigits : ∀ n, ';' ∉ Decimal.digits n := fun n hmem =>
    absurd (Decimal.digits_isDigit n _ hmem) (by decide)
  have htext : (s!"for (int {index} = {first}; {index} < {past}; ++{index})").toList =
      ("for (int ".toList ++ index.toList ++ " = ".toList ++ Decimal.digits first) ++ [';'] ++
        (" ".toList ++ index.toList ++ " < ".toList ++ Decimal.digits past) ++ [';'] ++
        (" ++".toList ++ (index.toList ++ ")".toList)) := by
    simp [toString, ← toList_toString_nat]
  rw [htext, ofC?, splitOn_three]
  · simp only [dropPrefix?_append, dropSuffix?_append, natural?_digits, Option.bind_eq_bind,
      Option.bind_some, Option.pure_def]
  all_goals simp [h, hdigits]

theorem Header.ofRust?_text (index : String) (first past : Nat) :
    ofRust? (s!"for {index} in {first}..{past} " ++ "\x7b").toList =
      some ⟨index.toList, first, past⟩ := by
  have htext : (s!"for {index} in {first}..{past} " ++ "\x7b").toList =
      ("for ".toList ++ (index.toList ++ " in ".toList) ++ Decimal.digits first ++ "..".toList ++
        Decimal.digits past) ++ " \x7b".toList := by
    simp [toString, ← toList_toString_nat]
  have hdots : ∀ front : List Char, (front ++ "..".toList).getLast? = some '.' := fun front => by
    rw [List.getLast?_append]
    rfl
  have hblank : ∀ front : List Char, ("for ".toList ++ (front ++ " in ".toList)).getLast? =
      some ' ' := fun front => by
    rw [List.getLast?_append, List.getLast?_append]
    rfl
  have hpast := splitNatural?_append (hdots ("for ".toList ++ (index.toList ++ " in ".toList) ++
    Decimal.digits first)) (by decide) past
  have hfirst := splitNatural?_append (hblank index.toList) (by decide) first
  rw [htext, ofRust?, dropSuffix?_append]
  simp only [Option.bind_eq_bind, Option.bind_some, hpast, dropSuffix?_append, hfirst,
    dropPrefix?_append, Option.pure_def]

end ElementKernel
