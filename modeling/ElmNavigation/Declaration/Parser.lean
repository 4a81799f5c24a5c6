import ElmNavigation.Declaration.Grammar
import ElmNavigation.Declaration.Layout

/-! Reading the declarations of a text. The tokens of a file fall into constructs: each begins at the
first token that the one before has left over, line breaks apart. A construct that opens like a
declaration either is one, and takes the tokens that the grammar used, or is rejected with a
diagnostic; one that opens otherwise is passed over. In the last two cases the construct takes the
rest of its line. -/

namespace ElmNavigation

/-- What is wrong with a declaration, and where. -/
structure Diagnostic where
  message : String
  span : Span
  deriving DecidableEq, Repr

/-- A diagnostic as text. -/
def Diagnostic.display (diagnostic : Diagnostic) : String :=
  "Syntax error: " ++ diagnostic.message

/-- The diagnostic for a mismatch in a construct whose last token ends at `stop`. -/
def Mismatch.diagnostic (stop : Nat) (mismatch : Mismatch) : Diagnostic :=
  match mismatch with
  | found _ token => ⟨mismatch.message, token.span⟩
  | ended _ => ⟨mismatch.message, ⟨stop, stop⟩⟩

/-- What became of a construct. -/
inductive Outcome where
  | accepted (statement : Statement)
  /-- It does not open like a declaration. -/
  | passed
  | rejected (diagnostic : Diagnostic)
  deriving Repr

/-- A construct of a file. -/
structure Construct where
  /-- The number of its first token in the file. -/
  index : Nat
  first : PlacedToken
  /-- The number of tokens that it takes, line breaks among them included. -/
  taken : Nat
  outcome : Outcome
  deriving Repr

/-- The result of reading a file. -/
inductive ParseResult where
  | parsed (statements : List Statement)
  /-- Reading came to a stop before the end. -/
  | failed
  deriving Repr

def ParseResult.succeeded : ParseResult → Bool
  | parsed _ => true
  | failed => false

def ParseResult.statements : ParseResult → List Statement
  | parsed statements => statements
  | failed => []

/-- The declaration that opens at the cursor, if any does. -/
def Cursor.opening? (layout : Layout) (cursor : Cursor) : Option Opening :=
  match cursor.lookahead layout 0 with
  | none => none
  | some (_, first) =>
      match first.kind with
      | .moduleWord => some (.header .plain)
      | .portWord => if cursor.sees layout 1 .moduleWord then some (.header .port) else none
      | .effectWord => if cursor.sees layout 1 .moduleWord then some (.header .effect) else none
      | .importWord => some .imported
      | .typeWord => if cursor.sees layout 1 .aliasWord then some .aliased else some .union
      | _ => none

/-- The number of tokens up to and with the next line break. -/
def lineLength : List PlacedToken → Nat
  | [] => 0
  | token :: rest => if token.kind = .newline then 1 else lineLength rest + 1

namespace Construct

/-- The tokens of a construct as its grammar sees them. -/
def sentence (layout : Layout) (cursor : Cursor) : List Token :=
  (cursor.view layout).map (·.toToken)

/-- The end of the last token of a sentence. -/
def lastStop (sentence : List Token) : Nat :=
  (sentence.getLast?.map Token.stop).getD 0

/-- The construct that begins at the cursor, with the token `first`. -/
def read (first : PlacedToken) (cursor : Cursor) : Construct :=
  let layout := Layout.ofToken first
  match cursor.opening? layout with
  | none => ⟨cursor.index, first, lineLength cursor.ahead, .passed⟩
  | some opening =>
      let sentence := sentence layout cursor
      match Rule.declaration opening first.position (sentence.drop opening.words) with
      | .ok (statement, rest) =>
          let next := cursor.advanceBy layout (sentence.length - rest.length)
          ⟨cursor.index, first, next.index - cursor.index, .accepted statement⟩
      | .error mismatch =>
          ⟨cursor.index, first, lineLength cursor.ahead, .rejected (mismatch.diagnostic (lastStop sentence))⟩

/-- The constructs of the tokens from number `index` on, of which the first `owed` belong to the
construct before. There are none to give if a construct takes no token. -/
def readAll (index : Nat) : Nat → List PlacedToken → Option (List Construct)
  | _, [] => some []
  | owed + 1, _ :: rest => readAll (index + 1) owed rest
  | 0, token :: rest =>
      if token.kind = .newline then readAll (index + 1) 0 rest
      else
        let construct := read token ⟨index, 0, token :: rest⟩
        match construct.taken with
        | 0 => none
        | taken + 1 => (readAll (index + 1) taken rest).map (construct :: ·)

def statement? (construct : Construct) : Option Statement :=
  match construct.outcome with
  | .accepted statement => some statement
  | _ => none

def diagnostic? (construct : Construct) : Option Diagnostic :=
  match construct.outcome with
  | .rejected diagnostic => some diagnostic
  | _ => none

end Construct

/-- The constructs of a text. -/
def constructs? (text : List Char) : Option (List Construct) :=
  Construct.readAll 0 0 (Token.placed text)

/-- The declarations of a text, and a diagnostic for each one that had to be rejected. -/
def parseWithDiagnostics (source : String) : ParseResult × List Diagnostic :=
  match constructs? source.toList with
  | some constructs =>
      (.parsed (constructs.filterMap Construct.statement?), constructs.filterMap Construct.diagnostic?)
  | none => (.failed, [])

/-- The declarations of a text. -/
def parse (source : String) : ParseResult :=
  (parseWithDiagnostics source).1

end ElmNavigation
