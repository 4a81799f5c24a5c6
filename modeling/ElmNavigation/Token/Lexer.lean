import ElmNavigation.Text.LineIndex
import ElmNavigation.Token.Scanner

/-! The tokens of a text. `lexemes` cuts a text into pieces with nothing between them but blanks;
`tokens` leaves the comments out and gives every piece that could not be read the kind `unknown`, so
that reading tokens never fails. `placed` adds to each token the position at which it begins. -/

namespace ElmNavigation

/-- A piece of text as it was cut: its kind, if it could be read, its characters and the offset of
the first of them. -/
structure Lexeme where
  kind : Option Kind
  chars : List Char
  start : Nat
  deriving DecidableEq, Repr

namespace Lexeme

def stop (lexeme : Lexeme) : Nat :=
  lexeme.start + Text.byteLength lexeme.chars

def span (lexeme : Lexeme) : Span :=
  ⟨lexeme.start, lexeme.stop⟩

end Lexeme

/-- A token that declarations are read from. -/
structure Token where
  kind : Kind
  chars : List Char
  start : Nat
  deriving DecidableEq, Repr

namespace Token

def stop (token : Token) : Nat :=
  token.start + Text.byteLength token.chars

def span (token : Token) : Span :=
  ⟨token.start, token.stop⟩

/-- The text of a token. -/
def text (token : Token) : String :=
  String.ofList token.chars

/-- Cuts a text that begins at `offset`. The second argument is the number of characters that still
belong to the piece before. -/
def cut (offset : Nat) : Nat → List Char → List Lexeme
  | _, [] => []
  | owed + 1, c :: text => cut (offset + c.utf8Size) owed text
  | 0, c :: text =>
      if isBlank c then cut (offset + c.utf8Size) 0 text
      else
        let taken := munch c text
        ⟨taken.kind, c :: text.take taken.extra, offset⟩ :: cut (offset + c.utf8Size) taken.extra text

/-- All pieces of a text, comments and failures included. -/
def lexemes (text : List Char) : List Lexeme :=
  cut 0 0 text

/-- The token that a piece of text stands for: none for a comment. -/
def ofLexeme? (lexeme : Lexeme) : Option Token :=
  match lexeme.kind with
  | some .comment => none
  | some kind => some ⟨kind, lexeme.chars, lexeme.start⟩
  | none => some ⟨.unknown, lexeme.chars, lexeme.start⟩

/-- The tokens of a text. -/
def tokens (text : List Char) : List Token :=
  (lexemes text).filterMap ofLexeme?

end Token

/-- A token with the position of its first character. -/
structure PlacedToken extends Token where
  position : Position
  deriving DecidableEq, Repr

/-- The tokens of a text with their positions. -/
def Token.placed (text : List Char) : List PlacedToken :=
  let index := Text.LineIndex.ofText text
  (tokens text).map fun token => ⟨token, index.position token.start⟩

end ElmNavigation
