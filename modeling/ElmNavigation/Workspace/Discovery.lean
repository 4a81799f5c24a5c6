import ElmNavigation.Project.Record
import ElmNavigation.Workspace.FileSystem
import ElmNavigation.Workspace.Manifest

/-! Finding the files of a project. The source roots are the directories that the manifest lists, or
the project root itself; below them every file with the extension `elm` belongs to the project,
except in directories that are hidden or hold what others have installed, and in directories whose
path is too long to open them. -/

namespace ElmNavigation

/-- Why a project cannot be read. -/
inductive WorkspaceError where
  | missingRoot (path : Path)
  | unreadable (path : Path) (error : FileError)
  | badManifest
  deriving DecidableEq, Repr

/-- An error as text. -/
def WorkspaceError.message : WorkspaceError → String
  | missingRoot path => "project root '" ++ path.text ++ "' is not a directory"
  | unreadable path error => "could not read '" ++ path.text ++ "': " ++ error.message
  | badManifest => "Manifest error:"

namespace Workspace

def manifestFile : String := "elm.json"

/-- The directories that are not searched, besides hidden ones. -/
def skippedNames : List String := ["elm-stuff", "node_modules"]

/-- Whether a directory with this name is not searched. -/
def isSkipped (name : String) : Bool :=
  name.toList.head? == some '.' || skippedNames.contains name

/-- Whether a path names a file with Elm source. -/
def isSource (path : Path) : Bool :=
  path.extension? == some "elm"

/-- The manifest of a project, if it has one. -/
def readManifest (system : FileSystem) (root : Path) : Except WorkspaceError (Option Manifest) :=
  let path := root.join manifestFile
  if system.isFile path then
    match system.readText path with
    | .error error => .error (.unreadable path error)
    | .ok text =>
        match Manifest.parse? text with
        | some manifest => .ok (some manifest)
        | none => .error .badManifest
  else .ok none

/-- The source directories of a project: none if its manifest is missing or cannot be read. -/
def sourceDirs (system : FileSystem) (root : Path) : List String :=
  match readManifest system root with
  | .ok (some manifest) => manifest.sourceDirs
  | .ok none | .error _ => []

/-- The directories to search for source files. -/
def sourceRoots (system : FileSystem) (root : Path) : List Path :=
  match sourceDirs system root with
  | [] => [root]
  | directories => directories.map root.join

/-- Whether an entry of a directory is not searched. -/
def isPruned (name : String) : FileTree → Bool
  | .file _ => false
  | .directory _ => isSkipped name

mutual

/-- The source files at and below a path, where `tree` is what the path names. -/
def walk (path : Path) : FileTree → List Path
  | .file _ => if isSource path then [path] else []
  | .directory entries => if FileSystem.isTooLong path then [] else walkEntries path entries

/-- The source files at and below the entries of a directory. -/
def walkEntries (path : Path) : List (String × FileTree) → List Path
  | [] => []
  | (name, tree) :: entries =>
      (if isPruned name tree then [] else walk (path.join name) tree) ++ walkEntries path entries

end

mutual

/-- The directories that a walk cannot open, at and below a path. -/
def unopened (path : Path) : FileTree → List Path
  | .file _ => []
  | .directory entries => if FileSystem.isTooLong path then [path] else unopenedEntries path entries

/-- The directories that a walk cannot open, at and below the entries of a directory. -/
def unopenedEntries (path : Path) : List (String × FileTree) → List Path
  | [] => []
  | (name, tree) :: entries =>
      (if isPruned name tree then [] else unopened (path.join name) tree) ++ unopenedEntries path entries

end

/-- The source files of a source root; a root that cannot be found has none. -/
def filesBelow (system : FileSystem) (root : Path) : List Path :=
  match system.node root with
  | .ok tree => walk root tree
  | .error _ => []

/-- Paths without those that have the same components as the one before. -/
def unique : List Path → List Path
  | [] => []
  | path :: paths =>
      match unique paths with
      | [] => [path]
      | next :: rest => if path.same next then path :: rest else path :: next :: rest

/-- The source files of a project, in order and without repeats. -/
def sourceFiles (system : FileSystem) (root : Path) : Except WorkspaceError (List Path) :=
  if system.isDirectory root then
    .ok (unique (((sourceRoots system root).flatMap (filesBelow system)).mergeSort Path.le))
  else .error (.missingRoot root)

/-- A source file with its text. -/
def readSource (system : FileSystem) (path : Path) : Except WorkspaceError SourceFile :=
  match system.readText path with
  | .ok text => .ok ⟨path, text⟩
  | .error error => .error (.unreadable path error)

/-- The source files that can be read. -/
def readable (system : FileSystem) (paths : List Path) : List SourceFile :=
  paths.filterMap fun path => (readSource system path).toOption

/-- The source files of a project with their texts. -/
def loadProject (system : FileSystem) (root : Path) : Except WorkspaceError (List SourceFile) :=
  (sourceFiles system root).map (readable system)

/-- A directory by a path that is not empty. -/
def named (directory : Path) : Path :=
  if directory.text.isEmpty then ⟨"."⟩ else directory

/-- The directory to take for the root of the project of a file: the nearest one above the file that
has a manifest, or the directory of the file. -/
def projectRoot (system : FileSystem) (file : Path) : Path :=
  let directory := named (file.parent?.getD ⟨""⟩)
  ((directory.ancestors.map named).find? fun above => system.isFile (above.join manifestFile)).getD directory

end Workspace

end ElmNavigation
