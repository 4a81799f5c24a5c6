import ElmNavigation.Log
import ElmNavigation.Project.Definition
import ElmNavigation.Workspace.Discovery

/-! What the log says about the work on a project: one function for each activity, which lists the
events of that activity in the order in which they occur. -/

namespace ElmNavigation

namespace Workspace

/-- The source roots of a project are determined. -/
def rootEvents (system : FileSystem) (root : Path) : List LogEvent :=
  match readManifest system root with
  | .error error => [.manifestIgnored root error.message]
  | .ok _ => []

/-- A file or directory on the way through a source root cannot be used. -/
def skipEvent (root path : Path) (error : FileError) : LogEvent :=
  .entrySkipped root ("IO error for operation on " ++ path.text ++ ": " ++ error.message)

/-- A source root is walked. -/
def walkEvents (system : FileSystem) (root : Path) : List LogEvent :=
  match system.node root with
  | .error error => [skipEvent root root error]
  | .ok tree => (unopened root tree).map (skipEvent root · .nameTooLong)

/-- The source files of a project are read. -/
def loadEvents (system : FileSystem) (root : Path) : List LogEvent :=
  match sourceFiles system root with
  | .error _ => []
  | .ok paths =>
      rootEvents system root ++ (sourceRoots system root).flatMap (walkEvents system)
        ++ [.filesFound root paths.length]
        ++ paths.filterMap fun path =>
          match readSource system path with
          | .error error => some (.fileExcluded error.message)
          | .ok _ => none

end Workspace

namespace ModuleTable

/-- Files declare their modules, one after the other. -/
def declareEvents : ModuleTable → List FileRecord → List LogEvent
  | _, [] => []
  | table, record :: records =>
      let taken :=
        match record.moduleName with
        | some name => (table.owner? name).toList.map (.moduleTaken name · record.path)
        | none => []
      taken ++ declareEvents (table.addRecord record) records

end ModuleTable

namespace DependencyGraph

/-- The graph of files is built from their records. -/
def buildEvents (records : List FileRecord) : List LogEvent :=
  let sorted := records.mergeSort FileRecord.le
  let modules := ModuleTable.ofRecords sorted
  ModuleTable.empty.declareEvents sorted ++ sorted.flatMap fun record =>
    record.imports.filterMap fun decl =>
      if (modules.owner? decl.moduleName).isSome then none
      else some (.importUnresolved record.path decl.moduleName)

/-- The graph of source files is built. -/
def ofFilesEvents (files : List SourceFile) : List LogEvent :=
  (files.filter fun file => (FileRecord.ofSource? file).isNone).map (.fileUnparsed ·.path)
    ++ buildEvents (indexFiles files)

/-- A name is looked up. -/
def resolveEvents (graph : DependencyGraph) (path : Path) : List LogEvent :=
  if (graph.node? path).isSome then [] else [.fileNotIndexed path]

end DependencyGraph

/-- A query is answered. Nothing is looked up if there is no name under the caret. -/
def Query.events (query : Query) (files : List SourceFile) (path : Path) : List LogEvent :=
  match query.name? files path with
  | some _ =>
      DependencyGraph.ofFilesEvents files ++ (DependencyGraph.ofFiles files).resolveEvents path
  | none => []

end ElmNavigation
