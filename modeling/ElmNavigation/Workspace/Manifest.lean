import ElmNavigation.Json.Reader

/-! The manifest of a project, `elm.json`: the kind of project and the directories with its sources.
Both may be missing or `null`. Other members are passed over as long as they are well formed; a
member that counts may stand only once. The two values may also be given as an array. -/

namespace ElmNavigation

structure Manifest where
  kind : Option String
  sourceDirectories : Option (List String)
  deriving DecidableEq, Repr

namespace Manifest

/-- The directories to search: those that are listed, or the usual one of a package. -/
def sourceDirs (manifest : Manifest) : List String :=
  match manifest.sourceDirectories, manifest.kind with
  | some directories, _ => directories
  | none, some kind => if kind == "package" then ["src"] else []
  | none, none => []

/-- A text. -/
def text? : Json → Option String
  | .string literal => Json.decode? literal
  | _ => none

/-- A text or `null`. -/
def kind? : Json → Option (Option String)
  | .null => some none
  | value => (text? value).map some

/-- A list of texts or `null`. -/
def directories? : Json → Option (Option (List String))
  | .null => some none
  | .array items => (items.mapM text?).map some
  | _ => none

/-- The value of a member that stands at most once, read by `read`. -/
def member? {α : Type} (members : List (String × Json)) (key : String) (read : Json → Option (Option α)) :
    Option (Option α) :=
  match members.filter (·.1 == key) with
  | [] => some none
  | [(_, value)] => read value
  | _ => none

/-- Members with their keys as texts. -/
def decodeKeys? (members : List (List Char × Json)) : Option (List (String × Json)) :=
  members.mapM fun (key, value) => (Json.decode? key).map (·, value)

/-- The manifest that a value describes. -/
def ofJson? : Json → Option Manifest
  | .object members => do
      let members ← decodeKeys? members
      let kind ← member? members "type" kind?
      let directories ← member? members "source-directories" directories?
      return ⟨kind, directories⟩
  | .array [kind, directories] => do
      return ⟨← kind? kind, ← directories? directories⟩
  | _ => none

/-- The manifest that a text describes. -/
def parse? (text : String) : Option Manifest :=
  (Json.parse? text.toList).bind ofJson?

end Manifest

end ElmNavigation
