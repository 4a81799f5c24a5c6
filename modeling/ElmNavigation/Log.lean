import ElmNavigation.Path

/-! The events that a run reports about its work. A warning is always shown, a detail only on
demand. An event is written as its level, the part of the program that it comes from, a message and
named values. -/

namespace ElmNavigation

inductive LogLevel where
  | warning
  | detail
  deriving DecidableEq, Repr

inductive LogEvent where
  /-- Two files declare one module; the second becomes its owner. -/
  | moduleTaken (name : String) (previous winner : Path)
  /-- No file declares an imported module. -/
  | importUnresolved (file : Path) (name : String)
  | fileNotIndexed (path : Path)
  | fileUnparsed (path : Path)
  | manifestIgnored (root : Path) (error : String)
  /-- A source directory cannot be walked. -/
  | entrySkipped (directory : Path) (error : String)
  | filesFound (root : Path) (count : Nat)
  | fileExcluded (error : String)
  deriving DecidableEq, Repr

namespace LogEvent

def level : LogEvent → LogLevel
  | moduleTaken .. | manifestIgnored .. | entrySkipped .. | fileExcluded .. => .warning
  | importUnresolved .. | fileNotIndexed .. | fileUnparsed .. | filesFound .. => .detail

/-- The part of the program that an event comes from. -/
def target : LogEvent → String
  | moduleTaken .. | importUnresolved .. => "elmdef::depgraph"
  | fileNotIndexed .. => "elmdef::resolve"
  | fileUnparsed .. => "elmdef::index"
  | manifestIgnored .. | entrySkipped .. | filesFound .. | fileExcluded .. => "elmdef::workspace"

def message : LogEvent → String
  | moduleTaken .. => "module declared by more than one file"
  | importUnresolved .. => "import does not resolve to a project file"
  | fileNotIndexed .. => "requesting file is not indexed"
  | fileUnparsed .. => "parse failed, file excluded"
  | manifestIgnored .. => "ignoring manifest, searching the whole project"
  | entrySkipped .. => "skipping unreadable directory entry"
  | filesFound .. => "found source files"
  | fileExcluded .. => "excluding file"

/-- The named values of an event. -/
def values : LogEvent → List (String × String)
  | moduleTaken name previous winner =>
      [("module", name), ("previous", previous.text), ("winner", winner.text)]
  | importUnresolved file name => [("file", file.text), ("module", name)]
  | fileNotIndexed path => [("path", path.text)]
  | fileUnparsed path => [("path", path.text)]
  | manifestIgnored root error => [("root", root.text), ("error", error)]
  | entrySkipped directory error => [("dir", directory.text), ("error", error)]
  | filesFound root count => [("root", root.text), ("count", toString count)]
  | fileExcluded error => [("error", error)]

/-- The word for a level. -/
def levelWord (event : LogEvent) : String :=
  match event.level with
  | .warning => "WARN"
  | .detail => "DEBUG"

/-- An event as one line. -/
def display (event : LogEvent) : String :=
  event.levelWord ++ " " ++ event.target ++ ": " ++ event.message
    ++ String.join (event.values.map fun (name, value) => " " ++ name ++ "=" ++ value)

/-- Whether an event is shown in a run with the given verbosity. -/
def isShown (verbosity : Nat) (event : LogEvent) : Bool :=
  event.level == .warning || 0 < verbosity

end LogEvent

end ElmNavigation
