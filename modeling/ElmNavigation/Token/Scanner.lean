import ElmNavigation.Text.Utf8
import ElmNavigation.Text.Word
import ElmNavigation.Token.Kind

/-! Reading one token. `munch` looks at the character that begins a token and at the text after it,
and says what kind of token this is and how many further characters belong to it; a `none` for the
kind is a failure that still takes its characters. Each class of first character has a reader of
its own.

Comments and strings that may run over lines are read byte by byte, since both their markers and
the escape sign are single bytes. The number of bytes is turned into a number of characters at the
end. -/

namespace ElmNavigation.Token

open Text

/-- The kind of a token and the number of characters that it takes after its first. -/
structure Munch where
  /-- No kind if the text begins like a literal and does not end like one, or begins like nothing. -/
  kind : Option Kind
  extra : Nat
  deriving DecidableEq, Repr

/-- Space, tab, carriage return and form feed separate tokens and belong to none. -/
def isBlank (c : Char) : Bool :=
  c == ' ' || c == '\t' || c == '\r' || c == '\x0c'

/-- The characters that operators consist of. -/
def isSymbol (c : Char) : Bool :=
  "+-*/<>=|&^!?~%@#$\\:.".toList.contains c

/-- How many characters at the start of the text satisfy `p`. -/
def runLength (p : Char → Bool) (text : List Char) : Nat :=
  (text.takeWhile p).length

/-- The bytes of a block comment after its opening marker, up to and with the marker that closes
it, or to the end if none does; `depth` counts the further comments open inside. -/
def blockCommentBytes : Nat → List UInt8 → Nat
  | _, [] => 0
  | depth, first :: rest =>
      match first, rest with
      | 0x7b, 0x2d :: rest => 2 + blockCommentBytes (depth + 1) rest
      | 0x2d, 0x7d :: rest =>
          match depth with
          | 0 => 2
          | depth + 1 => 2 + blockCommentBytes depth rest
      | _, rest => 1 + blockCommentBytes depth rest

/-- The bytes of a string after its opening triple quote, up to and with the closing one, or to the
end if there is none. A backslash takes the byte after it along. -/
def longStringBytes : List UInt8 → Nat
  | [] => 0
  | 0x5c :: _ :: rest => 2 + longStringBytes rest
  | 0x22 :: 0x22 :: 0x22 :: _ => 3
  | _ :: rest => 1 + longStringBytes rest

/-- The characters of a block comment after its opening marker. -/
def blockCommentLength (text : List Char) : Nat :=
  charsWithin (blockCommentBytes 0 (octets text)) text

/-- The characters of a string after its opening triple quote. -/
def longStringLength (text : List Char) : Nat :=
  charsWithin (longStringBytes (octets text)) text

/-- The characters of a one-line string after its opening quote that form whole units: a character
that is no quote, backslash or line break, or a backslash with a character that is no line break. -/
def stringUnits : List Char → Nat
  | [] => 0
  | c :: text =>
      if c = '\\' then
        match text with
        | [] => 0
        | d :: text => if d = '\n' then 0 else 2 + stringUnits text
      else if c = '"' ∨ c = '\n' then 0
      else 1 + stringUnits text

/-- A string literal, after its opening quote. -/
def stringLiteral (text : List Char) : Munch :=
  match text with
  | '"' :: '"' :: body => ⟨some .stringLiteral, 2 + longStringLength body⟩
  | _ =>
      let units := stringUnits text
      match text.drop units with
      | '"' :: _ => ⟨some .stringLiteral, units + 1⟩
      | _ => ⟨none, units⟩

/-- A character literal, after its opening quote. An escape may be longer than one character. -/
def charLiteral (text : List Char) : Munch :=
  match text with
  | '\\' :: c :: text =>
      if c = '\n' then ⟨none, 0⟩
      else
        let body := runLength (fun d => d ≠ '\'' && d ≠ '\n') text
        match text.drop body with
        | '\'' :: _ => ⟨some .charLiteral, 2 + body + 1⟩
        | _ => ⟨none, 2 + body⟩
  | c :: '\'' :: _ =>
      if c = '\'' ∨ c = '\\' ∨ c = '\n' then ⟨none, 0⟩ else ⟨some .charLiteral, 2⟩
  | _ => ⟨none, 0⟩

/-- A word that begins with `first`. -/
def word (first : Char) (text : List Char) : Munch :=
  let rest := text.takeWhile isWordChar
  let kind :=
    if first.isUpper then .upperName
    else if first.isDigit then .number
    else Kind.ofWord (String.ofList (first :: rest))
  ⟨some kind, rest.length⟩

/-- A run of symbol characters that begins with `first`, or a comment to the end of the line if it
begins with two hyphens. -/
def symbols (first : Char) (text : List Char) : Munch :=
  if first = '-' ∧ text.head? = some '-' then ⟨some .comment, runLength (· ≠ '\n') text⟩
  else
    let rest := text.takeWhile isSymbol
    ⟨some (Kind.ofSymbols (String.ofList (first :: rest))), rest.length⟩

/-- A bracket or a comma, or a block comment. -/
def punctuation (kind : Kind) (text : List Char) : Munch :=
  match kind, text with
  | .openBrace, '-' :: body => ⟨some .comment, 1 + blockCommentLength body⟩
  | kind, _ => ⟨some kind, 0⟩

/-- The token that begins with the character `first`, which is no blank, and goes on in `text`. -/
def munch (first : Char) (text : List Char) : Munch :=
  if first.isAlphanum then word first text
  else if isSymbol first then symbols first text
  else
    match Kind.ofPunctuation? first with
    | some kind => punctuation kind text
    | none =>
        if first = '\n' then ⟨some .newline, runLength (· = '\n') text⟩
        else if first = '"' then stringLiteral text
        else if first = '\'' then charLiteral text
        else if first = '_' then ⟨some .underscore, 0⟩
        else ⟨none, 0⟩

end ElmNavigation.Token
