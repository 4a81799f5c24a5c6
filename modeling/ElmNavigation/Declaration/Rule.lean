import ElmNavigation.Token.Lexer

/-! Rules of a grammar over tokens. A rule takes tokens from the front of a list and gives a value
with the tokens that are left, or a `Mismatch`: what it expected, and the token that it found in its
place, if there was one. A rule never looks at positions, so line breaks and indentation are settled
before a rule is applied. -/

namespace ElmNavigation

/-- What a rule can ask for. -/
inductive Expected where
  | token (kind : Kind)
  | name
  | exposedName
  | type
  deriving DecidableEq, Repr

/-- What was asked for as messages name it. -/
def Expected.describe : Expected → String
  | token kind => kind.describe
  | name => "lowercase name"
  | exposedName => "exposed name"
  | type => "type"

/-- Why a rule does not apply. -/
inductive Mismatch where
  | found (expected : Expected) (token : Token)
  /-- The tokens were at an end. -/
  | ended (expected : Expected)
  deriving DecidableEq, Repr

/-- A mismatch as a message. -/
def Mismatch.message : Mismatch → String
  | found expected token => "expected " ++ expected.describe ++ ", found " ++ token.kind.describe
  | ended expected => "expected " ++ expected.describe ++ ", found end of declaration"

/-- Takes a value from the front of a list of tokens. -/
abbrev Rule := StateT (List Token) (Except Mismatch)

namespace Rule

/-- A token of the given kind. -/
def token (kind : Kind) : Rule Token
  | [] => .error (.ended (.token kind))
  | token :: rest => if token.kind = kind then .ok (token, rest) else .error (.found (.token kind) token)

/-- A token of the given kind if one is next, and nothing otherwise. -/
def optional (kind : Kind) : Rule Bool
  | [] => .ok (false, [])
  | token :: rest => if token.kind = kind then .ok (true, rest) else .ok (false, token :: rest)

/-- The name of a value, a field or a type variable. -/
def name : Rule String
  | [] => .error (.ended .name)
  | token :: rest => if token.kind.isName then .ok (token.text, rest) else .error (.found .name token)

/-- The name of a type, without a qualifier. -/
def upperName : Rule String := do
  return (← token .upperName).text

/-- The number of tokens that are left. -/
def remaining : Rule Nat := fun tokens => .ok (tokens.length, tokens)

/-- Further items, each after a separator; at most `count`. -/
def further {α : Type} (separator : Kind) (item : Rule α) : Nat → Rule (List α)
  | 0 => pure []
  | count + 1 => do
      if ← optional separator then
        let first ← item
        let rest ← further separator item count
        return first :: rest
      else
        return []

/-- One or more items with separators between them. -/
def separated {α : Type} (separator : Kind) (item : Rule α) : Rule (List α) := do
  let first ← item
  let rest ← further separator item (← remaining)
  return first :: rest

/-- The parts of a qualified name that follow a part ending at `stop`: a dot and a further part, with
no gap on either side of the dot. -/
def qualified (stop : Nat) : List Token → List String × List Token
  | dot :: part :: rest =>
      if dot.kind = .dot ∧ dot.start = stop ∧ part.kind = .upperName ∧ part.start = dot.stop then
        let (parts, rest) := qualified part.stop rest
        (part.text :: parts, rest)
      else ([], dot :: part :: rest)
  | tokens => ([], tokens)

/-- A name of a module, a type or a constructor, with its qualifier if it has one. -/
def path : Rule String := do
  let first ← token .upperName
  let parts ← fun tokens => .ok (qualified first.stop tokens)
  return ".".intercalate (first.text :: parts)

end Rule

end ElmNavigation
