import ElmNavigation.Json.Quoted

/-! JSON values, and their written forms: on one line without blanks, or over lines with an indent
of two columns for each level. Numbers and strings are kept as they are written, and the members of
an object in the order of the text. -/

namespace ElmNavigation

inductive Json where
  | null
  | bool (value : Bool)
  | number (digits : List Char)
  /-- A string by its literal, without the quotes. -/
  | string (literal : List Char)
  | array (items : List Json)
  /-- Each member is the literal of its key with its value. -/
  | object (members : List (List Char × Json))
  deriving Repr, Inhabited

namespace Json

def ofText (text : String) : Json :=
  string (encode text)

def ofNat (n : Nat) : Json :=
  number (toString n).toList

/-- A value that may be missing: `null` if it is. -/
def ofOption (value? : Option Json) : Json :=
  value?.getD null

/-- A list of texts. -/
def ofTexts (texts : List String) : Json :=
  array (texts.map ofText)

/-- An object by its keys, given as texts. -/
def fields (members : List (String × Json)) : Json :=
  object (members.map fun (key, value) => (encode key, value))

/-- A literal with its quotes. -/
def quoted (literal : List Char) : String :=
  "\"" ++ String.ofList literal ++ "\""

mutual

/-- The form on one line, without blanks. -/
def compact : Json → String
  | null => "null"
  | bool value => if value then "true" else "false"
  | number digits => String.ofList digits
  | string literal => quoted literal
  | array items => "[" ++ ",".intercalate (compactItems items) ++ "]"
  | object members => "\x7b" ++ ",".intercalate (compactMembers members) ++ "\x7d"

def compactItems : List Json → List String
  | [] => []
  | item :: items => compact item :: compactItems items

def compactMembers : List (List Char × Json) → List String
  | [] => []
  | (key, value) :: members => (quoted key ++ ":" ++ compact value) :: compactMembers members

end

/-- A line break and the indent of a level. -/
def newLine (level : Nat) : String :=
  "\n" ++ String.ofList (List.replicate (2 * level) ' ')

/-- Entries between brackets, each on a line of its own, one level deeper than the brackets. -/
def block (opener closer : String) (level : Nat) (entries : List String) : String :=
  if entries.isEmpty then opener ++ closer
  else
    opener ++ newLine (level + 1) ++ ("," ++ newLine (level + 1)).intercalate entries
      ++ newLine level ++ closer

mutual

/-- The form over lines of a value that stands at a level. -/
def prettyAt (level : Nat) : Json → String
  | null => "null"
  | bool value => if value then "true" else "false"
  | number digits => String.ofList digits
  | string literal => quoted literal
  | array items => block "[" "]" level (prettyItems (level + 1) items)
  | object members => block "\x7b" "\x7d" level (prettyMembers (level + 1) members)

def prettyItems (level : Nat) : List Json → List String
  | [] => []
  | item :: items => prettyAt level item :: prettyItems level items

def prettyMembers (level : Nat) : List (List Char × Json) → List String
  | [] => []
  | (key, value) :: members => (quoted key ++ ": " ++ prettyAt level value) :: prettyMembers level members

end

/-- The form over lines. -/
def pretty (value : Json) : String :=
  prettyAt 0 value

end Json

end ElmNavigation
