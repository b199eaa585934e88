import ElementKernel.Decimal.Layout
import ElementKernel.Decimal.Nearest
import ElementKernel.Interchange.Json

/-!
JSON values as text.

A reader takes what it understands off the front of the characters.  Arrays and objects are read up
to a bounded depth.  The members of an object are put into the order of their keys, and of those
with one key the last counts.  Whole numbers without point and exponent that fit into 64 bits stay
exact; every other number is the nearest float, and one that is too large for a float is not read.
-/

namespace ElementKernel

namespace JsonText

abbrev Reader (α : Type) := List Char → Option (α × List Char)

def isBlank (c : Char) : Bool := c = ' ' || c = '\t' || c = '\n' || c = '\r'

def skipBlanks (cs : List Char) : List Char := cs.dropWhile isBlank

/-! ## Strings -/

def hexValue? (c : Char) : Option Nat :=
  if '0' ≤ c ∧ c ≤ '9' then some (c.toNat - '0'.toNat)
  else if 'a' ≤ c ∧ c ≤ 'f' then some (c.toNat - 'a'.toNat + 10)
  else if 'A' ≤ c ∧ c ≤ 'F' then some (c.toNat - 'A'.toNat + 10)
  else none

/-- The number that four hexadecimal digits stand for. -/
def codeUnit? (a b c d : Char) : Option Nat := do
  let high := (← hexValue? a) * 16 + (← hexValue? b)
  let low := (← hexValue? c) * 16 + (← hexValue? d)
  return high * 256 + low

def isHighSurrogate (unit : Nat) : Bool := 0xD800 ≤ unit && unit < 0xDC00

def isLowSurrogate (unit : Nat) : Bool := 0xDC00 ≤ unit && unit < 0xE000

/-- The character of a pair of surrogates. -/
def surrogatePair (high low : Nat) : Char :=
  Char.ofNat (0x10000 + (high - 0xD800) * 0x400 + (low - 0xDC00))

/-- The character that a backslash and a letter stand for. -/
def escaped? : Char → Option Char
  | '"' => some '"'
  | '\\' => some '\\'
  | '/' => some '/'
  | 'b' => some '\x08'
  | 'f' => some '\x0c'
  | 'n' => some '\n'
  | 'r' => some '\r'
  | 't' => some '\t'
  | _ => none

/-- Reads up to the closing quotation mark.  `done` holds the characters before, last one first. -/
def readString (done : List Char) : Reader String
  | [] => none
  | '"' :: rest => some (String.ofList done.reverse, rest)
  | '\\' :: 'u' :: a :: b :: c :: d :: rest =>
      match codeUnit? a b c d with
      | none => none
      | some unit =>
          if isHighSurrogate unit then
            match rest with
            | '\\' :: 'u' :: a :: b :: c :: d :: rest =>
                match codeUnit? a b c d with
                | none => none
                | some low =>
                    if isLowSurrogate low then readString (surrogatePair unit low :: done) rest
                    else none
            | _ => none
          else if isLowSurrogate unit then none
          else readString (Char.ofNat unit :: done) rest
  | '\\' :: letter :: rest =>
      match escaped? letter with
      | none => none
      | some c => readString (c :: done) rest
  | c :: rest => if c = '\\' ∨ c.toNat < 0x20 then none else readString (c :: done) rest

/-! ## Numbers -/

def readDigits (cs : List Char) : List Char × List Char := cs.span Char.isDigit

/-- One digit or more. -/
def readSomeDigits : Reader (List Char) := fun cs =>
  let (digits, rest) := readDigits cs
  if digits.isEmpty then none else some (digits, rest)

/-- The digits before the point, which do not start with a zero unless it is the only one. -/
def readWhole : Reader (List Char) := fun cs => do
  let (digits, rest) ← readSomeDigits cs
  if digits.head? = some '0' ∧ 1 < digits.length then none else some (digits, rest)

/-- The digits behind the point, nothing if there is no point. -/
def readPlaces : Reader (Option (List Char))
  | '.' :: rest => do
      let (digits, rest) ← readSomeDigits rest
      return (some digits, rest)
  | rest => some (none, rest)

def number (digits : List Char) : Nat := Nat.ofDigitChars 10 digits 0

/-- The exponent, nothing if there is none. -/
def readExponent : Reader (Option Int) := fun cs =>
  let signed (sign : Int) (rest : List Char) : Option (Option Int × List Char) := do
    let (digits, rest) ← readSomeDigits rest
    return (some (sign * number digits), rest)
  match cs with
  | 'e' :: '+' :: rest | 'E' :: '+' :: rest => signed 1 rest
  | 'e' :: '-' :: rest | 'E' :: '-' :: rest => signed (-1) rest
  | 'e' :: rest | 'E' :: rest => signed 1 rest
  | rest => some (none, rest)

/-- Whether a number of this sign and size is kept as an integer.  Minus zero is not. -/
def isExact (negative : Bool) (magnitude : Nat) : Bool :=
  if negative then 0 < magnitude && 2 * magnitude ≤ Word.limit else magnitude < Word.limit

def readMagnitude (negative : Bool) : Reader JsonValue := fun cs => do
  let (whole, rest) ← readWhole cs
  let (places, rest) ← readPlaces rest
  let (exponent, rest) ← readExponent rest
  if places.isNone ∧ exponent.isNone ∧ isExact negative (number whole) then
    let n : Int := number whole
    return (.integer (if negative then -n else n), rest)
  else
    let places := places.getD []
    let x ← Decimal.toFloat? ⟨number (whole ++ places), exponent.getD 0 - places.length⟩
    return (.float (if negative then -x else x), rest)

def readNumber : Reader JsonValue
  | '-' :: rest => readMagnitude true rest
  | rest => readMagnitude false rest

/-! ## Values -/

def readWord (word : String) (value : JsonValue) : Reader JsonValue := fun cs =>
  let expected := word.toList
  if expected.isPrefixOf cs then some (value, cs.drop expected.length) else none

/-- Reads items with commas between them up to the closing bracket, at most `bound` of them.
`done` holds the items before, last one first. -/
def readItems {α : Type} (item : Reader α) (close : Char) :
    Nat → List α → Reader (List α)
  | 0, _, _ => none
  | bound + 1, done, cs =>
      match item cs with
      | none => none
      | some (found, rest) =>
          match skipBlanks rest with
          | [] => none
          | c :: rest =>
              if c = close then some ((found :: done).reverse, rest)
              else if c = ',' then readItems item close bound (found :: done) rest
              else none

/-- Reads what follows an opening bracket. -/
def readSequence {α : Type} (item : Reader α) (close : Char) (bound : Nat) : Reader (List α) :=
  fun cs =>
    match skipBlanks cs with
    | [] => none
    | c :: rest => if c = close then some ([], rest) else readItems item close bound [] (c :: rest)

/-- A member of an object. -/
def readMember (value : Reader JsonValue) : Reader (String × JsonValue) := fun cs =>
  match skipBlanks cs with
  | '"' :: rest => do
      let (key, rest) ← readString [] rest
      match skipBlanks rest with
      | ':' :: rest => do
          let (content, rest) ← value rest
          return ((key, content), rest)
      | _ => none
  | _ => none

/-- Reads a value with at most `depth` levels of arrays and objects, each of at most `bound`
items. -/
def readValue (bound : Nat) : Nat → Reader JsonValue := fun depth cs =>
  match skipBlanks cs with
  | '"' :: rest => do
      let (s, rest) ← readString [] rest
      return (.string s, rest)
  | '[' :: rest =>
      match depth with
      | 0 => none
      | depth + 1 => do
          let (items, rest) ← readSequence (readValue bound depth) ']' bound rest
          return (.array items, rest)
  | '\x7b' :: rest =>
      match depth with
      | 0 => none
      | depth + 1 => do
          let (members, rest) ←
            readSequence (readMember (readValue bound depth)) '\x7d' bound rest
          return (.object (OrderedMap.ofList members).entries, rest)
  | 't' :: rest => readWord "rue" (.bool true) rest
  | 'f' :: rest => readWord "alse" (.bool false) rest
  | 'n' :: rest => readWord "ull" .null rest
  | rest => readNumber rest

/-- How many arrays and objects may be nested. -/
def maxDepth : Nat := 127

/-- The value that a text stands for.  Every item takes a character, so none of the lists is longer
than the text. -/
def read (text : String) : Option JsonValue := do
  let (value, rest) ← readValue text.length maxDepth text.toList
  if (skipBlanks rest).isEmpty then some value else none

/-! ## Writing -/

def escapedChar (c : Char) : List Char :=
  if c = '"' ∨ c = '\\' then ['\\', c]
  else if c.toNat < 0x20 then
    '\\' :: 'u' :: '0' :: '0' :: (Nat.digitChar (c.toNat / 16)) :: [Nat.digitChar (c.toNat % 16)]
  else [c]

def quoted (s : String) : String :=
  "\"" ++ String.ofList (s.toList.flatMap escapedChar) ++ "\""

def between (opening closing : String) (parts : List String) : String :=
  opening ++ ", ".intercalate parts ++ closing

mutual

/-- The text of a value.  A float that is whole keeps a place behind the point, and one that is not
finite is null. -/
def write : JsonValue → String
  | .null => "null"
  | .bool b => if b then "true" else "false"
  | .integer n => toString n
  | .float x => if x.isFinite then Decimal.shortestText x else "null"
  | .string s => quoted s
  | .array items => between "[" "]" (writeItems items)
  | .object members => between "\x7b" "\x7d" (writeMembers members)

def writeItems : List JsonValue → List String
  | [] => []
  | item :: rest => write item :: writeItems rest

def writeMembers : List (String × JsonValue) → List String
  | [] => []
  | (key, value) :: rest => (quoted key ++ ": " ++ write value) :: writeMembers rest

end

end JsonText

end ElementKernel
