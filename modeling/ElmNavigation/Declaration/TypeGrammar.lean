import ElmNavigation.Declaration.Rule
import ElmNavigation.Declaration.Tree

/-! The grammar of type annotations.

    type     := applied ("->" applied)*
    applied  := path atom* | atom
    atom     := path | name | record | group
    record   := "{" "}" | "{" [name "|"] field ("," field)* "}"
    field    := name ":" type
    group    := "(" ")" | "(" type ")" | "(" type "," type ("," type)* ")"

Each rule is given the rule for the types inside it, and `typeOfDepth` closes the circle: its first
argument bounds how deep types may nest, which is never more than there are tokens. -/

namespace ElmNavigation.Rule

/-- Whether an atom begins here. -/
def startsAtom : List Token → Bool
  | [] => false
  | token :: _ =>
      token.kind == .upperName || token.kind == .openBrace || token.kind == .openParen || token.kind.isName

/-- The base of an extensible record with its bar, if the next two tokens are that. -/
def recordBase : Rule (Option String)
  | base :: bar :: rest =>
      if base.kind.isName ∧ bar.kind = .pipe then .ok (some base.text, rest)
      else .ok (none, base :: bar :: rest)
  | tokens => .ok (none, tokens)

/-- A field of a record. -/
def field (type : Rule TypeExpr) : Rule (Field TypeExpr) := do
  let name ← name
  let _ ← token .colon
  let type ← type
  return ⟨name, type⟩

/-- A record with at least one field, after its opening brace. -/
def recordFields (type : Rule TypeExpr) : Rule TypeExpr := do
  let base ← recordBase
  let fields ← separated .comma (field type)
  let _ ← token .closeBrace
  return match base with
    | some base => .extensible base fields
    | none => .record fields

/-- A record, after its opening brace. -/
def record (type : Rule TypeExpr) : Rule TypeExpr := do
  if ← optional .closeBrace then return .record [] else recordFields type

/-- A type or a tuple in parentheses, after the opening one. -/
def groupItems (type : Rule TypeExpr) : Rule TypeExpr := do
  let items ← separated .comma type
  let _ ← token .closeParen
  return match items with
    | [only] => only
    | items => .tuple items

/-- A group, after its opening parenthesis. -/
def group (type : Rule TypeExpr) : Rule TypeExpr := do
  if ← optional .closeParen then return .tuple [] else groupItems type

/-- A type that needs no parentheses as an argument. -/
def atom (type : Rule TypeExpr) : Rule TypeExpr
  | [] => .error (.ended .type)
  | first :: rest =>
      match first.kind with
      | .upperName => (path <&> (.named · [])) (first :: rest)
      | .openBrace => record type rest
      | .openParen => group type rest
      | kind => if kind.isName then .ok (.var first.text, rest) else .error (.found .type first)

/-- Arguments, as long as one begins; at most `count`. -/
def arguments (type : Rule TypeExpr) : Nat → Rule (List TypeExpr)
  | 0 => pure []
  | count + 1 => do
      if startsAtom (← get) then
        let first ← atom type
        let rest ← arguments type count
        return first :: rest
      else
        return []

/-- A constructor: a name with its arguments. -/
def constructor (type : Rule TypeExpr) : Rule Constructor := do
  let name ← path
  let args ← arguments type (← remaining)
  return ⟨name, args⟩

/-- A type other than a function without parentheses. -/
def applied (type : Rule TypeExpr) : Rule TypeExpr := fun tokens =>
  match tokens with
  | first :: _ =>
      if first.kind = .upperName then (constructor type <&> fun named => .named named.name named.args) tokens
      else atom type tokens
  | [] => atom type []

/-- A type, given the rule for the types inside it. -/
def typeBody (type : Rule TypeExpr) : Rule TypeExpr := do
  let parts ← separated .arrow (applied type)
  return match parts with
    | [only] => only
    | parts => .function parts

/-- A type in which types nest less deep than the argument says. -/
def typeOfDepth : Nat → Rule TypeExpr
  | 0 => fun _ => .error (.ended .type)
  | depth + 1 => typeBody (typeOfDepth depth)

/-- A type. -/
def type : Rule TypeExpr := fun tokens =>
  typeOfDepth (tokens.length + 1) tokens

end ElmNavigation.Rule
