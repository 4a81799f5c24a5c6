import ElmNavigation.CommandLine.Arguments
import ElmNavigation.Declaration.Printer
import ElmNavigation.Declaration.Report
import ElmNavigation.Project.Encoding
import ElmNavigation.Workspace.Lookup
import ElmNavigation.Workspace.Trace

/-! Running a command: from a file system and a request to what is printed, reported and logged, and
to an exit code. -/

namespace ElmNavigation.CommandLine

/-- What a run leaves behind. On the error channel the events come first, then the reports, then the
text. -/
structure Result where
  code : Nat
  output : String
  errorText : String
  events : List LogEvent
  reports : List Report
  deriving DecidableEq, Repr

namespace Result

/-- A run that only prints. -/
def printed (output : String) : Result :=
  ⟨0, output, "", [], []⟩

/-- A run that fails with a line of text. -/
def failed (line : String) : Result :=
  ⟨1, "", line ++ "\n", [], []⟩

def withEvents (result : Result) (events : List LogEvent) : Result :=
  { result with events := events }

def withReports (result : Result) (reports : List Report) : Result :=
  { result with reports := reports }

end Result

/-- Lines of text, each with its line break. -/
def lines (texts : List String) : String :=
  String.join (texts.map (· ++ "\n"))

/-- Runs a command on the text of a file. -/
def onFile (system : FileSystem) (file : Path) (use : String → Result) : Result :=
  match system.readText file with
  | .ok source => use source
  | .error error => .failed ("error: could not read '" ++ file.text ++ "': " ++ error.message)

/-- Prints the declarations of a source text. -/
def parseSource (file : Path) (json : Bool) (source : String) : Result :=
  let result := ElmNavigation.parse source
  if json then .printed (result.toJson.pretty ++ "\n")
  else if result.succeeded then
    .printed (lines (result.statements.map fun statement =>
      statement.position.display ++ "  " ++ statement.display))
  else .failed ("error [" ++ file.text ++ "]: parse failed")

/-- Reports the declarations of a source text that were rejected. -/
def checkSource (file : Path) (source : String) : Result :=
  let (result, diagnostics) := parseWithDiagnostics source
  let reports := diagnostics.map (Report.ofDiagnostic source file.text)
  if !result.succeeded then (Result.failed ("error [" ++ file.text ++ "]: parse failed")).withReports reports
  else if diagnostics.isEmpty then .printed (file.text ++ ": ok\n")
  else
    (Result.failed
      (file.text ++ ": " ++ toString diagnostics.length ++ " declaration(s) skipped")).withReports reports

/-- The lines that describe a file of a graph. -/
def nodeLines (node : Node) : List String :=
  let title := match node.record.moduleName with
    | some name => " (module " ++ name ++ ")"
    | none => " (no module header)"
  (node.record.path.text ++ title)
    :: node.dependencies.map ("    imports " ++ ·.text)
    ++ node.record.types.map fun entry => "    type " ++ entry.name ++ " at " ++ entry.position.display

/-- Prints a graph. -/
def printGraph (json : Bool) (graph : DependencyGraph) : Result :=
  if json then .printed (graph.toJson.pretty ++ "\n")
  else
    { Result.printed (lines (graph.nodes.flatMap nodeLines)) with
      errorText := lines (graph.ambiguousModules.map fun name =>
        "warning: module " ++ name ++ " is declared by more than one file") }

/-- Prints the graph of a project. -/
def indexRoot (system : FileSystem) (root : Path) (json : Bool) : Result :=
  match Workspace.loadProject system root with
  | .error error => .failed ("error: " ++ error.message)
  | .ok files =>
      (printGraph json (DependencyGraph.ofFiles files)).withEvents
        (Workspace.loadEvents system root ++ DependencyGraph.ofFilesEvents files)

/-- Prints where a definition is. -/
def printDefinition : Except WorkspaceError (Option Definition) → Result
  | .ok (some definition) => .printed (definition.path.text ++ ":" ++ definition.position.display ++ "\n")
  | .ok none => .failed "no definition found"
  | .error error => .failed ("error: " ++ error.message)

/-- The events of a search for a definition. -/
def definitionEvents (system : FileSystem) (root file : Path) (query : Query) : List LogEvent :=
  match Workspace.canonicalPair system root file with
  | .error _ => []
  | .ok (root, file) =>
      Workspace.loadEvents system root ++
        match Workspace.loadProject system root with
        | .ok files => query.events files file
        | .error _ => []

/-- Runs a command. -/
def runCommand (system : FileSystem) : Command → Result
  | .parse file json => onFile system file (parseSource file json)
  | .check file => onFile system file (checkSource file)
  | .index root json => indexRoot system root json
  | .definition file query root =>
      let root := root.getD (Workspace.projectRoot system file)
      (printDefinition (Workspace.findDefinition system root file query)).withEvents
        (definitionEvents system root file query)

/-- The name and version of the program. -/
def versionText : String := "elmdef 0.1.0\n"

/-- How the program is called. -/
def usageText : String :=
  lines ["Go to definition for Elm type names", "", "Usage: elmdef [OPTIONS] <COMMAND>", "", "Commands:",
    "  parse FILE [--json]", "  check FILE", "  index [ROOT] [--json]",
    "  definition FILE [SYMBOL] [--line LINE --column COLUMN] [--root ROOT]", "", "Options:",
    "  -v, --verbose", "  -h, --help", "  -V, --version"]

/-- Answers a request. Only the events that it wants to see are kept. -/
def answer (system : FileSystem) : Request → Result
  | .run verbosity command =>
      let result := runCommand system command
      result.withEvents (result.events.filter (·.isShown verbosity))
  | .help => .printed usageText
  | .version => .printed versionText
  | .refused => ⟨2, "", usageText, [], []⟩

/-- Runs the program on a command line. -/
def run (system : FileSystem) (words : List String) : Result :=
  answer system (Request.parse words)

end ElmNavigation.CommandLine
