import ElmNavigation.Project.Graph
import ElmNavigation.Text.Caret

/-! Where a type name that is used in a file is declared: in the file itself, or else in the first
of the files it depends on that declares the name. Aliases, qualifiers and `exposing` lists do not
matter, and what the imported files import themselves does not either. -/

namespace ElmNavigation

/-- The declaration of a name. -/
structure Definition where
  path : Path
  name : String
  position : Position
  deriving DecidableEq, Repr

/-- The declaration of a name in a file. -/
def FileRecord.definition? (record : FileRecord) (name : String) : Option Definition :=
  (record.lookup? name).map fun entry => ⟨record.path, entry.name, entry.position⟩

/-- The declaration of a name that is used in the file at `path`. -/
def DependencyGraph.resolve? (graph : DependencyGraph) (path : Path) (name : String) : Option Definition :=
  match graph.node? path with
  | none => none
  | some node =>
      (node.record.definition? name).or
        (node.dependencies.findSome? fun dependency =>
          (graph.node? dependency).bind fun node => node.record.definition? name)

/-- The declaration of a name that is used in one of the given files. -/
def resolveDefinition? (files : List SourceFile) (path : Path) (name : String) : Option Definition :=
  (DependencyGraph.ofFiles files).resolve? path name

/-- The word under a caret in one of the given files. -/
def wordIn? (files : List SourceFile) (path : Path) (line column : Nat) : Option String :=
  (files.find? (·.path.same path)).bind fun file => Text.wordAt? file.text line column

/-- The declaration of the name under a caret. -/
def definitionAt? (files : List SourceFile) (path : Path) (line column : Nat) : Option Definition :=
  (wordIn? files path line column).bind (resolveDefinition? files path)

/-- What is asked for: a name, or the name under a caret. -/
inductive Query where
  | symbol (name : String)
  | caret (line column : Nat)
  deriving DecidableEq, Repr

/-- The name that is asked for. -/
def Query.name? (query : Query) (files : List SourceFile) (path : Path) : Option String :=
  match query with
  | symbol name => some name
  | caret line column => wordIn? files path line column

/-- The answer to a query from the file at `path`. -/
def Query.answer? (query : Query) (files : List SourceFile) (path : Path) : Option Definition :=
  match query with
  | symbol name => resolveDefinition? files path name
  | caret line column => definitionAt? files path line column

end ElmNavigation
