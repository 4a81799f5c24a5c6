import ElmNavigation.Token.Lexer

/-! Which tokens belong to a construct. A construct owns every token of its first line and every
later token that is indented past its first one; a closing bracket also belongs to it while more
brackets were opened in it than closed. The first token that it does not own ends it, and line
breaks count for nothing.

A `Cursor` is a place in the tokens of a file, with the number of brackets that the construct has
open there. `lookahead` finds a token without moving, `advance` moves past the next one, and `view`
lists all tokens that the construct owns from the cursor on. -/

namespace ElmNavigation

/-- The place of a construct's first token. -/
structure Layout where
  line : Nat
  column : Nat
  deriving DecidableEq, Repr

/-- The number of open brackets after a token; a closing bracket without an opening one does not
count. -/
def Kind.nest (kind : Kind) (depth : Nat) : Nat :=
  if kind.isOpener then depth + 1 else if kind.isCloser then depth - 1 else depth

namespace Layout

def ofToken (token : PlacedToken) : Layout :=
  ⟨token.position.line, token.position.column⟩

/-- Whether a construct owns a token before which `depth` of its brackets are open. -/
def owns (layout : Layout) (depth : Nat) (token : PlacedToken) : Bool :=
  token.position.line == layout.line || layout.column < token.position.column
    || (0 < depth && token.kind.isCloser)

/-- Whether a token can be looked at: inside a construct the construct has to own it, and between
constructs, where there is no layout, every token can. -/
def admits (layout : Option Layout) (depth : Nat) (token : PlacedToken) : Bool :=
  match layout with
  | none => true
  | some layout => layout.owns depth token

/-- The `n`-th token that can be looked at, with its number in the file, where `index` numbers the
first token of the list. -/
def seek (layout : Option Layout) : Nat → Nat → Nat → List PlacedToken → Option (Nat × PlacedToken)
  | _, _, _, [] => none
  | depth, index, n, token :: rest =>
      if token.kind = .newline then seek layout depth (index + 1) n rest
      else if admits layout depth token then
        match n with
        | 0 => some (index, token)
        | n + 1 => seek layout (token.kind.nest depth) (index + 1) n rest
      else none

/-- The tokens that a construct owns, without line breaks. -/
def view (layout : Layout) : Nat → List PlacedToken → List PlacedToken
  | _, [] => []
  | depth, token :: rest =>
      if token.kind = .newline then layout.view depth rest
      else if layout.owns depth token then token :: layout.view (token.kind.nest depth) rest
      else []

end Layout

/-- A place in the tokens of a file. -/
structure Cursor where
  /-- The number of tokens before this place. -/
  index : Nat
  /-- The number of brackets that the construct has open. -/
  depth : Nat
  /-- The tokens from this place on. -/
  ahead : List PlacedToken
  deriving Repr

namespace Cursor

/-- The `n`-th token from here that can be looked at, with its number in the file. -/
def lookahead (layout : Option Layout) (cursor : Cursor) (n : Nat) : Option (Nat × PlacedToken) :=
  Layout.seek layout cursor.depth cursor.index n cursor.ahead

/-- Whether the `n`-th token has the given kind. -/
def sees (layout : Option Layout) (cursor : Cursor) (n : Nat) (kind : Kind) : Bool :=
  (cursor.lookahead layout n).any fun (_, token) => token.kind == kind

/-- The place after the next token. -/
def advance (layout : Option Layout) (cursor : Cursor) : Option Cursor :=
  (cursor.lookahead layout 0).map fun (index, token) =>
    ⟨index + 1, token.kind.nest cursor.depth, cursor.ahead.drop (index + 1 - cursor.index)⟩

/-- The place after the next `n` tokens, or after all if they are fewer. -/
def advanceBy (layout : Option Layout) : Nat → Cursor → Cursor
  | 0, cursor => cursor
  | n + 1, cursor =>
      match cursor.advance layout with
      | some next => next.advanceBy layout n
      | none => cursor

/-- The tokens that the construct owns from here on. -/
def view (layout : Layout) (cursor : Cursor) : List PlacedToken :=
  layout.view cursor.depth cursor.ahead

end Cursor

end ElmNavigation
