import ElmNavigation.Declaration.Parser
import ElmNavigation.Path

/-! What a file offers to a project: the module that it declares, the modules that it imports and
the types that it declares, all in the order of the source. -/

namespace ElmNavigation

/-- A file with its text. -/
structure SourceFile where
  path : Path
  text : String
  deriving DecidableEq, Repr

/-- A declared type and the position of its declaration. -/
structure TypeEntry where
  name : String
  position : Position
  deriving DecidableEq, Repr

structure FileRecord where
  path : Path
  /-- The name in the first module header, if there is one. -/
  moduleName : Option String
  imports : List Import
  /-- Every declared type; a name that is declared twice is here twice. -/
  types : List TypeEntry
  deriving DecidableEq, Repr

namespace Statement

/-- The module that a header names. -/
def headerName? : Statement → Option String
  | header decl => some decl.name
  | _ => none

def import? : Statement → Option Import
  | imported decl => some decl
  | _ => none

/-- The entry of a statement that declares a type. -/
def typeEntry? (statement : Statement) : Option TypeEntry :=
  statement.declaredType?.map (⟨·, statement.position⟩)

end Statement

namespace FileRecord

/-- The record of a file with the given declarations. -/
def ofStatements (path : Path) (statements : List Statement) : FileRecord where
  path := path
  moduleName := statements.findSome? Statement.headerName?
  imports := statements.filterMap Statement.import?
  types := statements.filterMap Statement.typeEntry?

/-- The record of a file that was read; a file that could not be read has none. -/
def ofResult? (path : Path) : ParseResult → Option FileRecord
  | .parsed statements => some (ofStatements path statements)
  | .failed => none

/-- The record of a source file. -/
def ofSource? (file : SourceFile) : Option FileRecord :=
  ofResult? file.path (parse file.text)

/-- The first declaration of a name. -/
def lookup? (record : FileRecord) (name : String) : Option TypeEntry :=
  record.types.find? (·.name == name)

/-- Whether a record comes no later than another in the order of paths. -/
def le (left right : FileRecord) : Bool :=
  left.path.le right.path

end FileRecord

/-- The records of files in the order of their paths. -/
def indexFiles (files : List SourceFile) : List FileRecord :=
  (files.filterMap FileRecord.ofSource?).mergeSort FileRecord.le

end ElmNavigation
