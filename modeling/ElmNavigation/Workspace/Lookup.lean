import ElmNavigation.Project.Definition
import ElmNavigation.Workspace.Discovery

/-! Questions about a project on disk. Its root and the file that a question comes from are made
absolute first, so that the file is found among those of the project however it was named. -/

namespace ElmNavigation.Workspace

/-- The absolute path of what has to exist. -/
def canonical (system : FileSystem) (path : Path) : Except WorkspaceError Path :=
  (system.canonical path).mapError (.unreadable path)

/-- The absolute paths of a project root and of a file. -/
def canonicalPair (system : FileSystem) (root file : Path) : Except WorkspaceError (Path × Path) :=
  if system.isDirectory root then do
    let root ← canonical system root
    let file ← canonical system file
    return (root, file)
  else .error (.missingRoot root)

/-- The answer to a query from a file of the project at `root`. -/
def findDefinition (system : FileSystem) (root file : Path) (query : Query) :
    Except WorkspaceError (Option Definition) := do
  let (root, file) ← canonicalPair system root file
  let files ← loadProject system root
  return query.answer? files file

/-- The dependency graph of the project at `root`. -/
def indexProject (system : FileSystem) (root : Path) : Except WorkspaceError DependencyGraph :=
  (loadProject system root).map DependencyGraph.ofFiles

end ElmNavigation.Workspace
