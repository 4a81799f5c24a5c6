import ElmNavigation.Json.Value

/-! Reading JSON. The grammar is the strict one: no comments, no trailing commas, no text after the
value, blanks are space, tab, carriage return and line feed, and numbers of any size are written
without leading zeros. A reader takes its part from the front of the text and gives the rest back.
The reader of a value is closed over itself by `value`, whose first argument bounds the nesting. -/

namespace ElmNavigation.Json

/-- Takes a part of the text, and gives it back with the rest. -/
abbrev Reader (α : Type) := List Char → Option (α × List Char)

def isBlank (c : Char) : Bool :=
  c == ' ' || c == '\t' || c == '\r' || c == '\n'

def skipBlanks (text : List Char) : List Char :=
  text.dropWhile isBlank

/-- Cuts a text at the quote that closes a literal. A backslash takes the next character along. -/
def closingQuote : Reader (List Char)
  | [] => none
  | '"' :: rest => some ([], rest)
  | '\\' :: c :: rest => (closingQuote rest).map fun (literal, rest) => ('\\' :: c :: literal, rest)
  | c :: rest => (closingQuote rest).map fun (literal, rest) => (c :: literal, rest)

/-- A literal after its opening quote; its escapes have to be well formed. -/
def literal : Reader (List Char) := fun text => do
  let (literal, rest) ← closingQuote text
  if (units? literal).isSome then some (literal, rest) else none

/-- One or more digits. -/
def digits : Reader (List Char) := fun text =>
  let run := text.takeWhile Char.isDigit
  if run.isEmpty then none else some (run, text.drop run.length)

/-- The digits before the point: a zero stands alone. -/
def wholePart : Reader (List Char)
  | '0' :: rest => some (['0'], rest)
  | text => digits text

/-- A point with digits, or nothing. -/
def fraction : Reader (List Char)
  | '.' :: rest => (digits rest).map fun (run, rest) => ('.' :: run, rest)
  | text => some ([], text)

/-- The sign of an exponent, or nothing. -/
def exponentSign : List Char → List Char × List Char
  | '+' :: rest => (['+'], rest)
  | '-' :: rest => (['-'], rest)
  | text => ([], text)

/-- An exponent, or nothing. -/
def exponent : Reader (List Char)
  | [] => some ([], [])
  | c :: rest =>
      if c = 'e' ∨ c = 'E' then
        let (sign, rest) := exponentSign rest
        (digits rest).map fun (run, rest) => (c :: sign ++ run, rest)
      else some ([], c :: rest)

/-- A number without its sign. -/
def magnitude : Reader (List Char) := fun text => do
  let (whole, rest) ← wholePart text
  let (fraction, rest) ← fraction rest
  let (exponent, rest) ← exponent rest
  some (whole ++ fraction ++ exponent, rest)

/-- A number. -/
def numeral : Reader (List Char)
  | '-' :: rest => (magnitude rest).map fun (digits, rest) => ('-' :: digits, rest)
  | text => magnitude text

/-- The items of an array after its opening bracket or a comma, up to the closing bracket. The
second argument bounds their number. -/
def items (value : Reader Json) : Nat → Reader (List Json)
  | 0, _ => none
  | count + 1, text => do
      let (item, rest) ← value text
      match skipBlanks rest with
      | ',' :: rest => (items value count rest).map fun (items, rest) => (item :: items, rest)
      | ']' :: rest => some ([item], rest)
      | _ => none

/-- A key with its value. -/
def member (value : Reader Json) : Reader (List Char × Json) := fun text =>
  match skipBlanks text with
  | '"' :: rest => do
      let (key, rest) ← literal rest
      match skipBlanks rest with
      | ':' :: rest => do
          let (value, rest) ← value rest
          some ((key, value), rest)
      | _ => none
  | _ => none

/-- The members of an object after its opening brace or a comma, up to the closing brace. The second
argument bounds their number. -/
def members (value : Reader Json) : Nat → Reader (List (List Char × Json))
  | 0, _ => none
  | count + 1, text => do
      let (entry, rest) ← member value text
      match skipBlanks rest with
      | ',' :: rest => (members value count rest).map fun (entries, rest) => (entry :: entries, rest)
      | '}' :: rest => some ([entry], rest)
      | _ => none

/-- An array after its opening bracket. -/
def arrayBody (value : Reader Json) : Reader Json := fun text =>
  match skipBlanks text with
  | ']' :: rest => some (.array [], rest)
  | text => (items value text.length text).map fun (items, rest) => (.array items, rest)

/-- An object after its opening brace. -/
def objectBody (value : Reader Json) : Reader Json := fun text =>
  match skipBlanks text with
  | '}' :: rest => some (.object [], rest)
  | text => (members value text.length text).map fun (members, rest) => (.object members, rest)

/-- A value whose first character is not blank, given a reader for the values inside it. -/
def valueBody (value : Reader Json) : Reader Json
  | '{' :: rest => objectBody value rest
  | '[' :: rest => arrayBody value rest
  | '"' :: rest => (literal rest).map fun (literal, rest) => (.string literal, rest)
  | 'n' :: 'u' :: 'l' :: 'l' :: rest => some (.null, rest)
  | 't' :: 'r' :: 'u' :: 'e' :: rest => some (.bool true, rest)
  | 'f' :: 'a' :: 'l' :: 's' :: 'e' :: rest => some (.bool false, rest)
  | text => (numeral text).map fun (digits, rest) => (.number digits, rest)

/-- A value with at most the given depth of nesting. -/
def value : Nat → Reader Json
  | 0, _ => none
  | depth + 1, text => valueBody (value depth) (skipBlanks text)

/-- The value that a text writes. No value nests deeper than its text is long. -/
def parse? (text : List Char) : Option Json :=
  match value (text.length + 1) text with
  | some (value, rest) => if (skipBlanks rest).isEmpty then some value else none
  | none => none

end ElmNavigation.Json
