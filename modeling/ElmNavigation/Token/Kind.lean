/-! The kinds of token of Elm source text, as far as its declarations need them. Words that open or
join declarations are kinds of their own; every run of symbol characters without a meaning in a
declaration is one `operator`. -/

namespace ElmNavigation

inductive Kind where
  | moduleWord
  | portWord
  | effectWord
  | whereWord
  | importWord
  | asWord
  | exposingWord
  | typeWord
  | aliasWord
  | lowerName
  | upperName
  | underscore
  | number
  | stringLiteral
  | charLiteral
  | openParen
  | closeParen
  | openBrace
  | closeBrace
  | openBracket
  | closeBracket
  | comma
  | colon
  | equals
  | pipe
  | arrow
  | dotDot
  | dot
  | operator
  | newline
  | comment
  /-- Text that no other kind takes. -/
  | unknown
  deriving DecidableEq, Repr

namespace Kind

/-- The reserved words. -/
def reserved : List (String × Kind) :=
  [("module", moduleWord), ("port", portWord), ("effect", effectWord), ("where", whereWord),
    ("import", importWord), ("as", asWord), ("exposing", exposingWord), ("type", typeWord),
    ("alias", aliasWord)]

/-- The kind of a word that begins with a small letter. -/
def ofWord (word : String) : Kind :=
  (reserved.lookup word).getD lowerName

/-- Whether a word is reserved. -/
def isReserved (word : String) : Bool :=
  (reserved.lookup word).isSome

/-- The runs of symbol characters with a meaning in a declaration. -/
def marks : List (String × Kind) :=
  [(":", colon), ("=", equals), ("|", pipe), ("->", arrow), ("..", dotDot), (".", dot)]

/-- The kind of a maximal run of symbol characters. -/
def ofSymbols (run : String) : Kind :=
  (marks.lookup run).getD operator

/-- The brackets and the comma, which are tokens by themselves. -/
def ofPunctuation? : Char → Option Kind
  | '(' => some openParen
  | ')' => some closeParen
  | '{' => some openBrace
  | '}' => some closeBrace
  | '[' => some openBracket
  | ']' => some closeBracket
  | ',' => some comma
  | _ => none

/-- A kind as messages name it. -/
def describe : Kind → String
  | moduleWord => "module"
  | portWord => "port"
  | effectWord => "effect"
  | whereWord => "where"
  | importWord => "import"
  | asWord => "as"
  | exposingWord => "exposing"
  | typeWord => "type"
  | aliasWord => "alias"
  | lowerName => "lowercase identifier"
  | upperName => "uppercase identifier"
  | underscore => "_"
  | number => "number"
  | stringLiteral => "string literal"
  | charLiteral => "char literal"
  | openParen => "("
  | closeParen => ")"
  | openBrace => "\x7b"
  | closeBrace => "\x7d"
  | openBracket => "["
  | closeBracket => "]"
  | comma => ","
  | colon => ":"
  | equals => "="
  | pipe => "|"
  | arrow => "->"
  | dotDot => ".."
  | dot => "."
  | operator => "operator"
  | newline => "newline"
  | comment => "comment"
  | unknown => "unrecognized character"

/-- Whether a token of this kind can name a value, a field or a type variable. A reserved word that
means something only inside a header is such a name everywhere else. -/
def isName : Kind → Bool
  | lowerName | asWord | exposingWord | portWord | effectWord | whereWord | aliasWord => true
  | _ => false

def isOpener : Kind → Bool
  | openParen | openBrace | openBracket => true
  | _ => false

def isCloser : Kind → Bool
  | closeParen | closeBrace | closeBracket => true
  | _ => false

end Kind

end ElmNavigation
