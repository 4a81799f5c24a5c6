/-! Paths of files. A path is a text that is shown as it was given, but compared by its components:
empty parts count for nothing, and neither does a `.` unless a relative path begins with it. In the
order of components the root comes first, then the leading `.`, then `..`, then names by their
characters. -/

namespace ElmNavigation

structure Path where
  text : String
  deriving DecidableEq, Repr

/-- A part of a path that counts in comparisons. -/
inductive Component where
  | root
  /-- A `.` at the start of a relative path. -/
  | here
  | up
  | name (text : String)
  deriving DecidableEq, Repr

/-- A sort key: lists of numbers in their lexicographic order. -/
def Component.key : Component → List Nat
  | root => [0]
  | here => [1]
  | up => [2]
  | name text => 3 :: text.toList.map Char.toNat

namespace Path

/-- The parts of a text between slashes. -/
def segments : List Char → List (List Char)
  | [] => [[]]
  | c :: text =>
      if c = '/' then [] :: segments text
      else
        match segments text with
        | [] => [[c]]
        | first :: rest => (c :: first) :: rest

/-- Parts with slashes between them. -/
def joinSegments (parts : List (List Char)) : List Char :=
  ['/'].intercalate parts

/-- The component that a part stands for. -/
def component? (segment : List Char) : Option Component :=
  if segment = [] ∨ segment = ['.'] then none
  else if segment = ['.', '.'] then some .up
  else some (.name (String.ofList segment))

def isAbsolute (path : Path) : Bool :=
  path.text.toList.head? == some '/'

/-- Whether a relative path begins with the part `.`. -/
def beginsHere (path : Path) : Bool :=
  (segments path.text.toList).head? == some ['.']

/-- The components of a path. -/
def components (path : Path) : List Component :=
  let body := (segments path.text.toList).filterMap component?
  if path.isAbsolute then .root :: body else if path.beginsHere then .here :: body else body

/-- Whether two paths have the same components. -/
def same (left right : Path) : Bool :=
  left.components == right.components

def key (path : Path) : List (List Nat) :=
  path.components.map Component.key

/-- Whether a path comes before another. -/
def lt (left right : Path) : Bool :=
  left.key < right.key

/-- Whether a path does not come after another. -/
def le (left right : Path) : Bool :=
  !right.lt left

/-- A path below another. An absolute one stands for itself. -/
def join (base : Path) (below : String) : Path :=
  if (Path.mk below).isAbsolute then ⟨below⟩
  else if base.text.toList.getLast?.all (· == '/') then ⟨base.text ++ below⟩
  else ⟨base.text ++ "/" ++ below⟩

/-- What stands before the body of a path: its root, or its leading `.`. -/
def lead (path : Path) : List Char :=
  if path.isAbsolute then ['/'] else if path.beginsHere then ['.'] else []

/-- Parts without those at the end that count for nothing. -/
def trimEnd (parts : List (List Char)) : List (List Char) :=
  (parts.reverse.dropWhile fun part => part == [] || part == ['.']).reverse

/-- The path without its last component. The root has no parent, and neither has the empty path. -/
def parent? (path : Path) : Option Path :=
  let lead := path.lead
  match trimEnd (segments (path.text.toList.drop lead.length)) with
  | [] => if path.beginsHere then some ⟨""⟩ else none
  | parts => some ⟨String.ofList (lead ++ joinSegments (trimEnd parts.dropLast))⟩

/-- A path and at most `count` of the paths above it, each the parent of the one before. -/
def ascend : Nat → Path → List Path
  | 0, path => [path]
  | count + 1, path =>
      path :: match path.parent? with
        | some parent => ascend count parent
        | none => []

/-- A path and all paths above it. A parent is shorter than its child. -/
def ancestors (path : Path) : List Path :=
  path.ascend path.text.length

/-- What follows the last dot of a file name, unless nothing stands before that dot. -/
def extensionOf? (name : String) : Option String :=
  let reversed := name.toList.reverse
  match reversed.dropWhile (· ≠ '.') with
  | _ :: _ :: _ => some (String.ofList (reversed.takeWhile (· ≠ '.')).reverse)
  | _ => none

/-- The extension of the file that a path names. -/
def extension? (path : Path) : Option String :=
  match path.components.getLast? with
  | some (.name name) => extensionOf? name
  | _ => none

end Path

end ElmNavigation
