import ElmNavigation.CommandLine.Run

/-! The program. It reads from the disk what a request may look at, answers the request on that, and
prints the answer. Of a directory it reads what belongs to a project: manifests and source files with
their contents, and the names of the rest. -/

namespace ElmNavigation.CommandLine

/-- The names that lead from the root to the place a path names, if every part of it exists. -/
def normalize (start : List String) (segments : List (List Char)) : List String :=
  segments.foldl (fun place segment =>
    match Path.component? segment with
    | some .up => place.dropLast
    | some (.name name) => place ++ [name]
    | _ => place) start

/-- Whether the contents of a file may matter. -/
def isRead (path : Path) : Bool :=
  Workspace.isSource path || path.components.getLast? == some (.name Workspace.manifestFile)

/-- What is on the disk at a path, without the directories that are never searched. -/
partial def readTree (text : String) : IO FileTree := do
  let path := (← IO.currentDir) / text
  if ← path.isDir then
    let mut entries := #[]
    for entry in ← path.readDir do
      let isDirectory ← entry.path.isDir
      unless isDirectory && Workspace.isSkipped entry.fileName do
        entries := entries.push (entry.fileName, ← readTree entry.path.toString)
    return .directory entries.toList
  else if isRead ⟨text⟩ then
    return .file (← IO.FS.readBinFile text)
  else
    return .file .empty

/-- The file system with what is on the disk at the places along a path; at the end of the path with
all that is below, if `deep` is set, and with the contents of a file. -/
def load (deep : Bool) (system : FileSystem) (path : Path) : IO FileSystem := do
  let segments := Path.segments path.text.toList
  let start := if path.isAbsolute then [] else system.workingDirectory
  let mut tree := system.root
  for count in List.range (segments.length + 1) do
    let place := normalize start (segments.take count)
    let text := (FileSystem.absolutePath place).text
    let onDisk := (← IO.currentDir) / text
    if ← onDisk.isDir then
      if deep && count == segments.length then
        tree := FileTree.set (← readTree text) place tree
      else
        tree := tree.makeDirectory place
    else if ← onDisk.pathExists then
      if count == segments.length then
        tree := FileTree.set (.file (← IO.FS.readBinFile text)) place tree
      else
        tree := FileTree.set (.file .empty) place tree
  return { system with root := tree }

/-- The file system with a project. -/
def loadWorkspace (system : FileSystem) (root : Path) : IO FileSystem := do
  let system ← load true system root
  (Workspace.sourceRoots system root).foldlM (load true) system

/-- The file system with all that a command may look at. -/
def loadFor (system : FileSystem) : Command → IO FileSystem
  | .parse file _ => load false system file
  | .check file => load false system file
  | .index root _ => loadWorkspace system root
  | .definition file _ root => do
      let above := (Workspace.named (file.parent?.getD ⟨""⟩)).ancestors.map Workspace.named
      let system ← (above.map (·.join Workspace.manifestFile)).foldlM (load false) system
      let root := root.getD (Workspace.projectRoot system file)
      let system ← load false (← loadWorkspace system root) file
      match system.canonical root with
      | .ok root => (Workspace.sourceRoots system root).foldlM (load true) system
      | .error _ => return system

/-- The file system as it is seen from the working directory. -/
def emptySystem : IO FileSystem := do
  let place := normalize [] (Path.segments (← IO.currentDir).toString.toList)
  return ⟨FileTree.empty.makeDirectory place, place⟩

/-- A report as lines of text. -/
def reportLines (report : Report) : List String :=
  ("Warning: " ++ report.title)
    :: match report.mark with
      | some mark => ["  " ++ mark.location ++ ((mark.label.map (": " ++ ·)).getD "")]
      | none => []

/-- Prints an answer. -/
def print (result : Result) : IO Unit := do
  (← IO.getStdout).putStr result.output
  (← IO.getStderr).putStr (lines (result.events.map LogEvent.display)
    ++ lines (result.reports.flatMap reportLines) ++ result.errorText)

end ElmNavigation.CommandLine

open ElmNavigation CommandLine in
/-- Runs the program on its command line and gives its exit code. -/
def main (words : List String) : IO UInt32 := do
  let request := Request.parse words
  let system ← emptySystem
  let system ← match request with
    | .run _ command => loadFor system command
    | _ => pure system
  let result := answer system request
  print result
  return result.code.toUInt32
