import ElmNavigation.Path

/-! A file system as a value: a tree of directories and files, and the directory that relative paths
begin at. A path is followed part by part; every part needs a directory to stand in, so a slash after
the name of a file is an error even at the end of a path. -/

namespace ElmNavigation

inductive FileTree where
  | file (bytes : ByteArray)
  | directory (entries : List (String × FileTree))

namespace FileTree

/-- An empty directory. -/
def empty : FileTree :=
  directory []

instance : Inhabited FileTree := ⟨empty⟩

/-- The entries of a directory; a file has none. -/
def entries : FileTree → List (String × FileTree)
  | file _ => []
  | directory entries => entries

/-- The entry of a directory with the given name. -/
def child? (tree : FileTree) (name : String) : Option FileTree :=
  tree.entries.lookup name

/-- What is found by following names from the top. -/
def get? (tree : FileTree) : List String → Option FileTree
  | [] => some tree
  | name :: names => (tree.child? name).bind fun child => child.get? names

/-- A directory in which `name` stands for `child`. A file gives way to a directory. -/
def put (tree : FileTree) (name : String) (child : FileTree) : FileTree :=
  if (tree.child? name).isSome then
    directory (tree.entries.map fun entry => if entry.1 == name then (name, child) else entry)
  else directory (tree.entries ++ [(name, child)])

/-- The tree with `content` at the place that the names lead to. Missing directories are made. -/
def set (content : FileTree) : List String → FileTree → FileTree
  | [], _ => content
  | name :: names, tree => tree.put name (set content names ((tree.child? name).getD empty))

/-- The tree with a directory at the place that the names lead to. What is there already stays. -/
def makeDirectory (names : List String) (tree : FileTree) : FileTree :=
  if (tree.get? names).isSome then tree else set empty names tree

/-- The tree without what is at the place that the names lead to. -/
def remove : List String → FileTree → FileTree
  | [], tree => tree
  | [name], tree => directory (tree.entries.filter fun entry => entry.1 != name)
  | name :: names, tree =>
      match tree.child? name with
      | some child => tree.put name (child.remove names)
      | none => tree

end FileTree

/-- Why a file cannot be read. -/
inductive FileError where
  | notFound
  | notDirectory
  | isDirectory
  | nameTooLong
  | nulInName
  | notUtf8
  deriving DecidableEq, Repr

/-- An error as text. -/
def FileError.message : FileError → String
  | notFound => "No such file or directory (os error 2)"
  | notDirectory => "Not a directory (os error 20)"
  | isDirectory => "Is a directory (os error 21)"
  | nameTooLong => "File name too long (os error 36)"
  | nulInName => "file name contained an unexpected NUL byte"
  | notUtf8 => "stream did not contain valid UTF-8"

structure FileSystem where
  root : FileTree
  /-- The names that lead from the root to the directory that relative paths begin at. -/
  workingDirectory : List String

namespace FileSystem

/-- The longest name of a file, in bytes. -/
def maxName : Nat := 255

/-- The bytes of the longest path and of the mark that ends it. -/
def maxPath : Nat := 4096

/-- One step of a path, from the place that the names lead to. -/
def step (system : FileSystem) (place : List String) (segment : List Char) : Except FileError (List String) :=
  match system.root.get? place with
  | none => .error .notFound
  | some (.file _) => .error .notDirectory
  | some (.directory entries) =>
      match Path.component? segment with
      | some .up => .ok place.dropLast
      | some (.name name) =>
          if maxName < name.utf8ByteSize then .error .nameTooLong
          else if (entries.lookup name).isSome then .ok (place ++ [name])
          else .error .notFound
      | _ => .ok place

/-- The steps of a path, one after the other. -/
def steps (system : FileSystem) : List String → List (List Char) → Except FileError (List String)
  | place, [] => .ok place
  | place, segment :: segments =>
      match system.step place segment with
      | .ok place => system.steps place segments
      | .error error => .error error

/-- Whether a path has too many bytes to be handed to the system. -/
def isTooLong (path : Path) : Bool :=
  maxPath ≤ path.text.utf8ByteSize

/-- The names that lead from the root to what a path names, where the path is followed part by part and
may be of any length. -/
def resolve (system : FileSystem) (path : Path) : Except FileError (List String) :=
  if path.text.toList.contains '\x00' then .error .nulInName
  else if path.text.isEmpty then .error .notFound
  else system.steps (if path.isAbsolute then [] else system.workingDirectory) (Path.segments path.text.toList)

/-- The names that lead from the root to what a path names, where the path is handed over as a whole. -/
def locate (system : FileSystem) (path : Path) : Except FileError (List String) :=
  if path.text.toList.contains '\x00' then .error .nulInName
  else if isTooLong path then .error .nameTooLong
  else system.resolve path

/-- What a path names. -/
def node (system : FileSystem) (path : Path) : Except FileError FileTree :=
  match system.locate path with
  | .ok place =>
      match system.root.get? place with
      | some tree => .ok tree
      | none => .error .notFound
  | .error error => .error error

def isFile (system : FileSystem) (path : Path) : Bool :=
  match system.node path with
  | .ok (.file _) => true
  | _ => false

def isDirectory (system : FileSystem) (path : Path) : Bool :=
  match system.node path with
  | .ok (.directory _) => true
  | _ => false

/-- The text of a file. -/
def readText (system : FileSystem) (path : Path) : Except FileError String :=
  match system.node path with
  | .ok (.file bytes) =>
      match String.fromUTF8? bytes with
      | some text => .ok text
      | none => .error .notUtf8
  | .ok (.directory _) => .error .isDirectory
  | .error error => .error error

/-- The absolute path that names lead along from the root. -/
def absolutePath (place : List String) : Path :=
  if place.isEmpty then ⟨"/"⟩ else ⟨String.join (place.map ("/" ++ ·))⟩

/-- The absolute path, without `.` and `..`, of what a path names. Only this path has to be short
enough. -/
def canonical (system : FileSystem) (path : Path) : Except FileError Path :=
  match system.resolve path with
  | .ok place => if isTooLong (absolutePath place) then .error .nameTooLong else .ok (absolutePath place)
  | .error error => .error error

end FileSystem

end ElmNavigation
