import ElmNavigation.Declaration.TypeGrammar

/-! The grammar of declarations, after the words that open them.

    header   := path [where block, in an effect module] [exposing]
    imported := path ["as" upper] [exposing]
    union    := upper name* "=" constructor ("|" constructor)*
    aliased  := upper name* "=" type
    exposing := "exposing" "(" ".." ")" | "exposing" "(" item ("," item)* ")"
    item     := name | upper ["(" ".." ")"] | "(" operator ")" -/

namespace ElmNavigation

/-- The words that open a declaration, and so decide which rule it has to follow. -/
inductive Opening where
  | header (kind : ModuleKind)
  | imported
  | union
  | aliased
  deriving DecidableEq, Repr

/-- The number of words. -/
def Opening.words : Opening → Nat
  | header .plain => 1
  | header .port => 2
  | header .effect => 2
  | imported => 1
  | union => 1
  | aliased => 2

namespace Rule

/-- The mark that exposes a type's constructors, if the next two tokens begin it. -/
def constructorsMark : Rule Bool
  | opener :: dots :: rest =>
      if opener.kind = .openParen ∧ dots.kind = .dotDot then
        (token .closeParen <&> fun _ => true) rest
      else .ok (false, opener :: dots :: rest)
  | tokens => .ok (false, tokens)

/-- An exposed operator, after its opening parenthesis. -/
def exposedOperator : Rule ExposedItem := do
  let symbol ← token .operator
  let _ ← token .closeParen
  return .operator symbol.text

/-- An entry of an `exposing` list. -/
def exposedItem : Rule ExposedItem
  | [] => .error (.ended .exposedName)
  | first :: rest =>
      match first.kind with
      | .upperName => (constructorsMark <&> (.type first.text ·)) rest
      | .openParen => exposedOperator rest
      | kind =>
          if kind.isName then .ok (.value first.text, rest) else .error (.found .exposedName first)

/-- The list of an `exposing` clause, after its opening parenthesis. -/
def exposedItems : Rule Exposing := do
  let items ← separated .comma exposedItem
  let _ ← token .closeParen
  return .list items

/-- What an `exposing` clause exposes, after its opening parenthesis. -/
def exposed : Rule Exposing := do
  if ← optional .dotDot then
    let _ ← token .closeParen
    return .all
  else
    exposedItems

/-- An `exposing` clause, if there is one. -/
def exposing : Rule Exposing := do
  if ← optional .exposingWord then
    let _ ← token .openParen
    exposed
  else
    return .nothing

/-- The rest of a block in braces, up to the brace that closes it; `depth` counts the further braces
open inside. -/
def closeBlock : Nat → Rule Unit
  | _, [] => .error (.ended (.token .closeBrace))
  | depth, token :: rest =>
      if token.kind = .openBrace then closeBlock (depth + 1) rest
      else if token.kind = .closeBrace then
        match depth with
        | 0 => .ok ((), rest)
        | depth + 1 => closeBlock depth rest
      else closeBlock depth rest

/-- The block of an effect module, if there is one. -/
def whereBlock : Rule Unit := do
  if ← optional .whereWord then
    let _ ← token .openBrace
    closeBlock 0
  else
    return ()

/-- A module header after its words. -/
def header (kind : ModuleKind) (position : Position) : Rule ModuleHeader := do
  let name ← path
  if kind = .effect then whereBlock
  let exposed ← exposing
  return ⟨kind, name, exposed, position⟩

/-- The short name of an import, if it has one. -/
def shortName : Rule (Option String) := do
  if ← optional .asWord then return some (← upperName) else return none

/-- An import after its word. -/
def imported (position : Position) : Rule Import := do
  let moduleName ← path
  let shortName ← shortName
  let exposed ← exposing
  return ⟨moduleName, shortName, exposed, position⟩

/-- The parameters of a declared type. -/
def parameters : Rule Unit := fun tokens =>
  .ok ((), tokens.dropWhile (·.kind.isName))

/-- The name of a declared type with its parameters and the equals sign. -/
def declaredName : Rule String := do
  let name ← upperName
  parameters
  let _ ← token .equals
  return name

/-- A type declaration after its word. -/
def union (position : Position) : Rule UnionType := do
  let name ← declaredName
  let constructors ← separated .pipe (constructor type)
  return ⟨name, constructors, position⟩

/-- A type alias after its words. -/
def aliased (position : Position) : Rule TypeAlias := do
  let name ← declaredName
  let annotation ← type
  return ⟨name, annotation, position⟩

/-- A declaration after its opening words. -/
def declaration (opening : Opening) (position : Position) : Rule Statement :=
  match opening with
  | .header kind => header kind position <&> .header
  | .imported => imported position <&> .imported
  | .union => union position <&> .union
  | .aliased => aliased position <&> .aliased

end Rule

end ElmNavigation
