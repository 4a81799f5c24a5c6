import ElmNavigation.Project.Record

/-! The files of a project and what they depend on. A module name belongs to the file that declares
it; of several files with one name the last in the order of paths is its owner, and the name is
ambiguous. A file depends on the owners of the modules that it imports. -/

namespace ElmNavigation

/-- Which file owns which module. -/
structure ModuleTable where
  owners : List (String × Path)
  /-- The names with more than one file, in the order in which that was noticed. -/
  ambiguous : List String
  deriving DecidableEq, Repr

namespace ModuleTable

def empty : ModuleTable :=
  ⟨[], []⟩

def owner? (table : ModuleTable) (name : String) : Option Path :=
  table.owners.lookup name

/-- A file declares a module, and so takes it from a file that owned it before. -/
def declare (table : ModuleTable) (name : String) (path : Path) : ModuleTable :=
  if (table.owner? name).isSome then
    { owners := table.owners.map fun entry => if entry.1 == name then (name, path) else entry
      ambiguous := if table.ambiguous.contains name then table.ambiguous else table.ambiguous ++ [name] }
  else { table with owners := table.owners ++ [(name, path)] }

/-- The table after one more file. -/
def addRecord (table : ModuleTable) (record : FileRecord) : ModuleTable :=
  match record.moduleName with
  | some name => table.declare name record.path
  | none => table

/-- The table of files that are given in the order of their paths. -/
def ofRecords (records : List FileRecord) : ModuleTable :=
  records.foldl addRecord empty

end ModuleTable

/-- A file of a project with the files that it depends on. -/
structure Node where
  record : FileRecord
  dependencies : List Path
  deriving DecidableEq, Repr

structure DependencyGraph where
  /-- The files in the order of their paths, each path once. -/
  nodes : List Node
  modules : ModuleTable
  deriving DecidableEq, Repr

namespace Node

/-- Dependencies of the file at `path` with one more. A file does not depend on itself, and a
dependency counts once. -/
def addDependency (path : Path) (dependencies : List Path) (target : Path) : List Path :=
  if path.same target || dependencies.any (·.same target) then dependencies else dependencies ++ [target]

/-- The owners of the imported modules. -/
def targets (modules : ModuleTable) (record : FileRecord) : List Path :=
  record.imports.filterMap fun decl => modules.owner? decl.moduleName

/-- The node of a file. -/
def ofRecord (modules : ModuleTable) (record : FileRecord) : Node where
  record := record
  dependencies := (targets modules record).foldl (addDependency record.path) []

/-- Puts a node into nodes in the order of paths; it takes the place of one with the same path. -/
def insert (node : Node) : List Node → List Node
  | [] => [node]
  | first :: rest =>
      if node.record.path.same first.record.path then node :: rest
      else if node.record.path.lt first.record.path then node :: first :: rest
      else first :: node.insert rest

end Node

namespace DependencyGraph

/-- The graph of files given by their records, in any order. Of records with the same path the last
one counts. -/
def build (records : List FileRecord) : DependencyGraph :=
  let sorted := records.mergeSort FileRecord.le
  let modules := ModuleTable.ofRecords sorted
  { nodes := sorted.foldl (fun nodes record => (Node.ofRecord modules record).insert nodes) []
    modules := modules }

/-- The graph of source files. -/
def ofFiles (files : List SourceFile) : DependencyGraph :=
  build (indexFiles files)

/-- The node of a file. -/
def node? (graph : DependencyGraph) (path : Path) : Option Node :=
  graph.nodes.find? (·.record.path.same path)

/-- What a file depends on; nothing if it is not in the graph. -/
def dependenciesOf (graph : DependencyGraph) (path : Path) : List Path :=
  ((graph.node? path).map Node.dependencies).getD []

/-- The file that owns a module. -/
def modulePath? (graph : DependencyGraph) (name : String) : Option Path :=
  graph.modules.owner? name

def ambiguousModules (graph : DependencyGraph) : List String :=
  graph.modules.ambiguous

end DependencyGraph

end ElmNavigation
