import ElmNavigation.Proofs.Project.Resolution
import ElmNavigation.Proofs.Workspace.Search
import ElmNavigation.Workspace.Lookup

/-! Which files of a project on disk can be queried from. A query compares the absolute path of its file
with the paths that the search finds from the absolute path of the root. The search begins at the same
places however the root is spelled, and what it finds below a source directory without `..` has the
components of an absolute path. What it finds below a source directory with a part `..` never has them. So
a query from a file is answered if one source directory without `..` leads to the file, and not answered
if none does. -/

namespace ElmNavigation

/-- A query from a path that no file has is not answered. -/
theorem Query.answer?_eq_none {files : List SourceFile}
    (hdistinct : files.Pairwise fun left right => left.path.same right.path = false) {path : Path}
    (h : ∀ file ∈ files, file.path.same path = false) (query : Query) : query.answer? files path = none := by
  have hfind : files.find? (·.path.same path) = none := by
    refine List.find?_eq_none.mpr fun file hmem => ?_
    rw [h file hmem]
    decide
  cases query with
  | symbol name =>
      rw [answer?, resolveDefinition?, DependencyGraph.resolve?, node?_ofFiles hdistinct, hfind]
      rfl
  | caret line column =>
      rw [answer?, definitionAt?, wordIn?, hfind]
      rfl

namespace Workspace

open FileSystem

variable {system : FileSystem} {root file top target : Path}

/-- The manifest is the same for all paths to one place that are short enough. -/
theorem sourceDirs_eq_of_resolve {left right : Path} {place : List String}
    (hleft : system.resolve left = .ok place) (hright : system.resolve right = .ok place)
    (hshort : isTooLong (left.join manifestFile) = false)
    (hshort' : isTooLong (right.join manifestFile) = false) :
    sourceDirs system left = sourceDirs system right := by
  refine sourceDirs_congr fun tree => ?_
  rw [node_eq_ok, node_eq_ok, hshort, hshort', resolve_join_congr hleft hright]

/-! ### Searching from an absolute path -/

section

variable {place : List String} {entries : List (String × FileTree)} {start found : Path}

/-- Where the search from a root begins, the source directories with a part `..` left out. -/
def StartsWithoutUp (system : FileSystem) (root start : Path) : Prop :=
  (∃ directory ∈ sourceDirs system root,
      ['.', '.'] ∉ Path.segments directory.toList ∧ start = root.join directory) ∨
    start = root ∧ sourceDirs system root = []

/-- The starts of the search from an absolute path that have no part `..` are those of source directories
without one. -/
theorem startsWithoutUp_iff (hsystem : system.WellFormed)
    (hplace : system.root.get? place = some (.directory entries)) :
    StartsWithoutUp system (absolutePath place) start ↔
      start ∈ sourceRoots system (absolutePath place) ∧ ['.', '.'] ∉ Path.segments start.text.toList := by
  have hne := (resolve_eq_ok.mp (resolve_absolutePath hsystem hplace)).2.1
  have hupTop := up_notMem_absolutePath hsystem hplace
  rw [mem_sourceRoots]
  constructor
  · rintro (⟨directory, hmem, hup, rfl⟩ | ⟨rfl, hnil⟩)
    · refine ⟨.inl ⟨directory, hmem, rfl⟩, fun hjoin => ?_⟩
      rcases Path.mem_segments_join hne hjoin with hbase | hbelow
      · exact hupTop hbase
      · exact hup hbelow
    · exact ⟨.inr ⟨rfl, hnil⟩, hupTop⟩
  · rintro ⟨⟨directory, hmem, rfl⟩ | hroot, hup⟩
    · exact .inl ⟨directory, hmem, fun hbelow => hup (Path.mem_segments_join_of_below hne hbelow), rfl⟩
    · exact .inr hroot

/-- The search from the absolute path of a root begins at the same places as that from another path to the
root. -/
theorem StartsWithoutUp.exists_absolutePath (hsystem : system.WellFormed)
    (hroot : system.resolve root = .ok place) (hplace : system.root.get? place = some (.directory entries))
    (hdirs : sourceDirs system (absolutePath place) = sourceDirs system root)
    (hstart : StartsWithoutUp system root start) :
    ∃ start', StartsWithoutUp system (absolutePath place) start' ∧
      system.resolve start' = system.resolve start := by
  have htop := resolve_absolutePath hsystem hplace
  rcases hstart with ⟨directory, hmem, hup, rfl⟩ | ⟨rfl, hnil⟩
  · rw [← hdirs] at hmem
    exact ⟨_, .inl ⟨directory, hmem, hup, rfl⟩, resolve_join_congr htop hroot directory⟩
  · exact ⟨absolutePath place, .inr ⟨rfl, hdirs.trans hnil⟩, htop.trans hroot.symm⟩

/-- What is found from an absolute path is absolute. -/
theorem isAbsolute_of_mem_filesBelow (htop : top.isAbsolute = true) (hstart : start ∈ sourceRoots system top)
    (hfound : found ∈ filesBelow system start) : found.isAbsolute = true := by
  obtain ⟨tree, _, hfound⟩ := mem_filesBelow_iff.mp hfound
  refine hfound.isAbsolute ?_
  obtain ⟨directory, _, rfl⟩ | ⟨rfl, _⟩ := mem_sourceRoots.mp hstart
  · exact Path.isAbsolute_join htop directory
  · exact htop

/-- The search adds no part `..` to the path at which it begins. -/
theorem up_mem_iff_of_mem_filesBelow (hsystem : system.WellFormed)
    (hfound : found ∈ filesBelow system start) :
    ['.', '.'] ∈ Path.segments found.text.toList ↔ ['.', '.'] ∈ Path.segments start.text.toList := by
  obtain ⟨tree, hnode, hfound⟩ := mem_filesBelow_iff.mp hfound
  obtain ⟨_, startPlace, hstartPlace, htree⟩ := node_eq_ok.mp hnode
  exact hfound.up_mem_iff hsystem hstartPlace htree

/-- What is found from an absolute path leads where its components say, if none of them is `..`. -/
theorem resolve_of_components (hsystem : system.WellFormed) (htop : top.isAbsolute = true)
    (hstart : start ∈ sourceRoots system top) (hfound : found ∈ filesBelow system start)
    (hcomponents : found.components = .root :: place.map .name) : system.resolve found = .ok place := by
  have habsolute := isAbsolute_of_mem_filesBelow htop hstart hfound
  obtain ⟨tree, hnode, hfound⟩ := mem_filesBelow_iff.mp hfound
  obtain ⟨_, startPlace, hstartPlace, htree⟩ := node_eq_ok.mp hnode
  obtain ⟨foundPlace, bytes, hfoundPlace, _⟩ := hfound.exists_place hsystem hstartPlace htree
  have hnames := components_of_resolve habsolute (Path.up_notMem_of_components hcomponents) hfoundPlace
  rw [hcomponents] at hnames
  have hinjective : Function.Injective Component.name := fun _ _ h => Component.name.inj h
  rw [hfoundPlace, List.map_injective_iff.mpr hinjective (List.cons.inj hnames).2]

/-- Whether the search from a root comes to a file, however spelled, without a source directory with a
part `..`. -/
def FoundWithoutUp (system : FileSystem) (root file : Path) : Prop :=
  ∃ start, StartsWithoutUp system root start ∧
    ∃ found ∈ filesBelow system start, system.resolve found = system.resolve file

/-- A file that is found without `..` is found so from the absolute path of the root. -/
theorem FoundWithoutUp.at_absolutePath (hsystem : system.WellFormed)
    (hroot : system.resolve root = .ok place) (hplace : system.root.get? place = some (.directory entries))
    (hmanifest : isTooLong (root.join manifestFile) = false)
    (hlimits : WithinLimits system (absolutePath place)) (h : FoundWithoutUp system root file) :
    FoundWithoutUp system (absolutePath place) file := by
  have hdirs :=
    sourceDirs_eq_of_resolve (resolve_absolutePath hsystem hplace) hroot hlimits.manifest hmanifest
  obtain ⟨start, hstart, other, hother, hfile⟩ := h
  obtain ⟨start', hstart', hresolve⟩ := hstart.exists_absolutePath hsystem hroot hplace hdirs
  have hmem := ((startsWithoutUp_iff hsystem hplace).mp hstart').1
  obtain ⟨tree, hnode, hbelow⟩ := mem_filesBelow_iff.mp hother
  obtain ⟨_, startPlace, hstartPlace, htree⟩ := node_eq_ok.mp hnode
  rw [hstartPlace] at hresolve
  have hnode' : system.node start' = .ok tree :=
    node_eq_ok.mpr ⟨hlimits.starts start' hmem, startPlace, hresolve, htree⟩
  obtain ⟨found, hfound, hsame⟩ :=
    hbelow.transfer hsystem hstartPlace hresolve htree (hlimits.opened start' hmem tree hnode')
  exact ⟨start', hstart', found, mem_filesBelow_iff.mpr ⟨tree, hnode', hfound⟩, hsame.trans hfile⟩

/-- From an absolute path a file is found without `..` exactly if it is found by a path whose components
are the names that lead to the file. -/
theorem foundWithoutUp_iff (hsystem : system.WellFormed)
    (hplace : system.root.get? place = some (.directory entries)) {filePlace : List String}
    (hfilePlace : system.resolve file = .ok filePlace) :
    FoundWithoutUp system (absolutePath place) file ↔
      ∃ start ∈ sourceRoots system (absolutePath place), ∃ found ∈ filesBelow system start,
        found.components = .root :: filePlace.map .name := by
  have habsolute := isAbsolute_absolutePath place
  constructor
  · rintro ⟨start, hstart, found, hmem, hfile⟩
    obtain ⟨hstart, hup⟩ := (startsWithoutUp_iff hsystem hplace).mp hstart
    rw [← up_mem_iff_of_mem_filesBelow hsystem hmem] at hup
    refine ⟨start, hstart, found, hmem, ?_⟩
    exact components_of_resolve (isAbsolute_of_mem_filesBelow habsolute hstart hmem) hup
      (hfile.trans hfilePlace)
  · rintro ⟨start, hstart, found, hmem, hcomponents⟩
    have hresolve := resolve_of_components hsystem habsolute hstart hmem hcomponents
    have hup := Path.up_notMem_of_components hcomponents
    rw [up_mem_iff_of_mem_filesBelow hsystem hmem] at hup
    exact ⟨start, (startsWithoutUp_iff hsystem hplace).mpr ⟨hstart, hup⟩, found, hmem,
      hresolve.trans hfilePlace.symm⟩

end

theorem exists_entries_of_isDirectory {place : List String} (hdirectory : system.isDirectory root = true)
    (hroot : system.resolve root = .ok place) :
    ∃ entries, system.root.get? place = some (.directory entries) := by
  obtain ⟨entries, hnode⟩ := isDirectory_iff.mp hdirectory
  obtain ⟨_, place', hplace', hentries⟩ := node_eq_ok.mp hnode
  rw [hroot] at hplace'
  cases hplace'
  exact ⟨entries, hentries⟩

/-- The search from the absolute path of a directory does not fail. -/
theorem sourceFiles_absolutePath (hsystem : system.WellFormed) {place : List String}
    {entries : List (String × FileTree)} (hshort : isTooLong (absolutePath place) = false)
    (hplace : system.root.get? place = some (.directory entries)) :
    sourceFiles system (absolutePath place) =
      .ok (unique
        (((sourceRoots system (absolutePath place)).flatMap (filesBelow system)).mergeSort Path.le)) := by
  have hnode := node_eq_ok.mpr ⟨hshort, place, resolve_absolutePath hsystem hplace, hplace⟩
  exact sourceFiles_eq_ok.mpr ⟨isDirectory_iff.mpr ⟨entries, hnode⟩, rfl⟩

/-! ### Files with their texts -/

theorem mem_readable {paths : List Path} {path : Path} {text : String} (hmem : path ∈ paths)
    (htext : system.readText path = .ok text) : (⟨path, text⟩ : SourceFile) ∈ readable system paths := by
  refine List.mem_filterMap.mpr ⟨path, hmem, ?_⟩
  rw [readSource, htext]
  rfl

theorem path_eq_of_readSource {path : Path} {file : SourceFile}
    (h : (readSource system path).toOption = some file) : file.path = path := by
  rw [readSource] at h
  split at h
  · cases h
    rfl
  · cases h

theorem path_mem_of_mem_readable {paths : List Path} {file : SourceFile} (h : file ∈ readable system paths) :
    file.path ∈ paths := by
  obtain ⟨path, hmem, hread⟩ := List.mem_filterMap.mp h
  rwa [path_eq_of_readSource hread]

theorem pairwise_readable {paths : List Path} (h : paths.Pairwise fun left right => left.same right = false) :
    (readable system paths).Pairwise fun left right => left.path.same right.path = false := by
  refine List.pairwise_filterMap.mpr (h.imp fun hdiffer left hleft right hright => ?_)
  rw [path_eq_of_readSource hleft, path_eq_of_readSource hright]
  exact hdiffer

/-- Of the paths by which a file is found one is kept, and its text can be read. -/
theorem exists_mem_readable (hsystem : system.WellFormed) (htop : top.isAbsolute = true)
    (hlimits : WithinLimits system top) {paths : List Path} (hpaths : sourceFiles system top = .ok paths)
    {start found : Path} (hstart : start ∈ sourceRoots system top) (hfound : found ∈ filesBelow system start)
    {place : List String} (hcomponents : found.components = .root :: place.map .name) {bytes : ByteArray}
    (hplace : system.root.get? place = some (.file bytes)) {text : String}
    (htext : String.fromUTF8? bytes = some text) :
    ∃ kept : Path, kept.same (absolutePath place) = true ∧
      (⟨kept, text⟩ : SourceFile) ∈ readable system paths := by
  obtain ⟨kept, hkept, hsame⟩ := exists_mem_of_start hpaths hstart hfound
  obtain ⟨keptStart, hkeptStart, hkeptBelow⟩ := exists_start_of_mem hpaths hkept
  rw [Path.same_iff, hcomponents] at hsame
  have hkeptPlace := resolve_of_components hsystem htop hkeptStart hkeptBelow hsame
  have hnode := node_eq_ok.mpr ⟨hlimits.files _ hkeptStart _ hkeptBelow, place, hkeptPlace, hplace⟩
  refine ⟨kept, ?_, mem_readable hkept (readText_eq_ok.mpr ⟨bytes, hnode, htext⟩)⟩
  rw [Path.same_iff, hsame, components_absolutePath hsystem hplace]

/-! ### Queries -/

/-- A query from a file is answered from the files that the search from the absolute path of the root
finds. -/
theorem findDefinition_eq (hdirectory : system.isDirectory root = true)
    (hroot : system.canonical root = .ok top) (hfile : system.canonical file = .ok target) {paths : List Path}
    (hpaths : sourceFiles system top = .ok paths) (query : Query) :
    findDefinition system root file query = .ok (query.answer? (readable system paths) target) := by
  rw [findDefinition, canonicalPair, if_pos hdirectory, Workspace.canonical, Workspace.canonical,
    hroot, hfile]
  show (loadProject system top).bind _ = _
  rw [loadProject, hpaths]
  rfl

/-- No query from a file is answered if the search from the absolute path of the root finds the file nowhere
but below source directories with a part `..`. -/
theorem findDefinition_eq_none_of_up (hsystem : system.WellFormed)
    (hdirectory : system.isDirectory root = true) (hroot : system.canonical root = .ok top)
    (hfile : system.canonical file = .ok target) (hup : ¬ FoundWithoutUp system top file) (query : Query) :
    findDefinition system root file query = .ok none := by
  obtain ⟨place, hplace, hshort, rfl⟩ := exists_place_of_canonical hroot
  obtain ⟨filePlace, hfilePlace, _, rfl⟩ := exists_place_of_canonical hfile
  obtain ⟨entries, hentries⟩ := exists_entries_of_isDirectory hdirectory hplace
  obtain ⟨_, hfileTree⟩ := hsystem.exists_get?_of_resolve hfilePlace
  have hpaths := sourceFiles_absolutePath hsystem hshort hentries
  rw [findDefinition_eq hdirectory hroot hfile hpaths]
  refine congrArg Except.ok (Query.answer?_eq_none (pairwise_readable (pairwise_sourceFiles hpaths)) ?_ query)
  intro listed hlisted
  rw [Bool.eq_false_iff]
  intro hsame
  refine hup ((foundWithoutUp_iff hsystem hentries hfilePlace).mpr ?_)
  obtain ⟨start, hstart, hbelow⟩ := exists_start_of_mem hpaths (path_mem_of_mem_readable hlisted)
  refine ⟨start, hstart, listed.path, hbelow, ?_⟩
  rw [Path.same_iff.mp hsame, components_absolutePath hsystem hfileTree]

/-- A query from a file is answered if the search from the absolute path of the root finds the file below
a source directory without a part `..`: a type that the file declares is found at its first declaration,
in the file that the absolute path names. -/
theorem exists_findDefinition_of_found (hsystem : system.WellFormed)
    (hdirectory : system.isDirectory root = true) (hroot : system.canonical root = .ok top)
    (hfile : system.canonical file = .ok target) (hlimits : WithinLimits system top)
    (hfound : FoundWithoutUp system top file) {text : String} (htext : system.readText file = .ok text)
    {name : String} (hname : ∃ statement ∈ (parse text).statements, statement.declaredType? = some name) :
    ∃ path first, path.same target = true ∧
      (parse text).statements.find? (·.declaredType? = some name) = some first ∧
      findDefinition system root file (.symbol name) = .ok (some ⟨path, name, first.position⟩) := by
  obtain ⟨place, hplace, hshort, rfl⟩ := exists_place_of_canonical hroot
  obtain ⟨filePlace, hfilePlace, _, rfl⟩ := exists_place_of_canonical hfile
  obtain ⟨entries, hentries⟩ := exists_entries_of_isDirectory hdirectory hplace
  obtain ⟨bytes, hnode, hbytes⟩ := readText_eq_ok.mp htext
  obtain ⟨_, filePlace', hfilePlace', hfileTree⟩ := node_eq_ok.mp hnode
  rw [hfilePlace] at hfilePlace'
  cases hfilePlace'
  obtain ⟨statement, hstatement, hdeclared⟩ := hname
  obtain ⟨first, hfirst⟩ :
      ∃ first, (parse text).statements.find? (·.declaredType? = some name) = some first :=
    Option.isSome_iff_exists.mp (List.find?_isSome.mpr ⟨statement, hstatement, decide_eq_true hdeclared⟩)
  obtain ⟨start, hstart, found, hbelow, hcomponents⟩ :=
    (foundWithoutUp_iff hsystem hentries hfilePlace).mp hfound
  have hpaths := sourceFiles_absolutePath hsystem hshort hentries
  obtain ⟨kept, hsame, hkept⟩ := exists_mem_readable hsystem (isAbsolute_absolutePath place) hlimits hpaths
    hstart hbelow hcomponents hfileTree hbytes
  refine ⟨kept, first, hsame, hfirst, ?_⟩
  rw [findDefinition_eq hdirectory hroot hfile hpaths]
  refine congrArg Except.ok
    (resolveDefinition?_of_own (pairwise_readable (pairwise_sourceFiles hpaths)) hkept hsame ?_)
  show ((parse text).statements.find? _).map _ = _
  rw [hfirst]
  rfl

/-- Every file of a project can be queried from if no source directories are listed, or if one without a
part `..` leads to the file by some path: a type that the file declares is found at its first declaration,
in the file that the absolute path names. -/
theorem exists_findDefinition_of_mem_sourceFiles (hsystem : system.WellFormed)
    (hroot : system.canonical root = .ok top) (hfile : system.canonical file = .ok target)
    (hmanifest : isTooLong (root.join manifestFile) = false) (hlimits : WithinLimits system top)
    {paths : List Path} (hpaths : sourceFiles system root = .ok paths) (hmem : file ∈ paths)
    (hup : sourceDirs system root = [] ∨
      ∃ directory ∈ sourceDirs system root, ['.', '.'] ∉ Path.segments directory.toList ∧
        ∃ found ∈ filesBelow system (root.join directory), system.resolve found = system.resolve file)
    {text : String} (htext : system.readText file = .ok text) {name : String}
    (hname : ∃ statement ∈ (parse text).statements, statement.declaredType? = some name) :
    ∃ path first, path.same target = true ∧
      (parse text).statements.find? (·.declaredType? = some name) = some first ∧
      findDefinition system root file (.symbol name) = .ok (some ⟨path, name, first.position⟩) := by
  have hdirectory := (sourceFiles_eq_ok.mp hpaths).1
  obtain ⟨place, hplace, _, rfl⟩ := exists_place_of_canonical hroot
  obtain ⟨entries, hentries⟩ := exists_entries_of_isDirectory hdirectory hplace
  have hfound : FoundWithoutUp system root file := by
    rcases hup with hnil | ⟨directory, hlisted, hup, hfound⟩
    · obtain ⟨start, hstart, hbelow⟩ := exists_start_of_mem hpaths hmem
      have hstart : start = root := by simpa [mem_sourceRoots, hnil] using hstart
      exact ⟨start, .inr ⟨hstart, hnil⟩, file, hbelow, rfl⟩
    · exact ⟨_, .inl ⟨directory, hlisted, hup, rfl⟩, hfound⟩
  exact exists_findDefinition_of_found hsystem hdirectory hroot hfile hlimits
    (hfound.at_absolutePath hsystem hplace hentries hmanifest hlimits) htext hname

/-! ### A project with one source directory -/

/-- A project whose manifest lists one source directory, with sources in `src` and sources beside the
project. -/
def exampleProject (directory : String) : FileSystem where
  root := .directory
    [("app", .directory
        [("elm.json", .file ("\x7b\"source-directories\": [\"" ++ directory ++ "\"]\x7d").toUTF8),
          ("src", .directory [("Main.elm", .file "type Msg = NoOp".toUTF8)])]),
      ("shared", .directory [("Shared.elm", .file "type alias Id = Int".toUTF8)])]
  workingDirectory := []

theorem exampleProject_wellFormed (directory : String) : (exampleProject directory).WellFormed := by
  have hfields : ∀ name ∈ ["app", "elm.json", "src", "Main.elm", "shared", "Shared.elm"],
      Path.component? name.toList = some (.name name) ∧ '/' ∉ name.toList ∧ '\x00' ∉ name.toList ∧
        name.utf8ByteSize ≤ maxName := by
    decide +kernel
  have hname : ∀ name ∈ ["app", "elm.json", "src", "Main.elm", "shared", "Shared.elm"], IsFileName name := by
    intro name hmem
    obtain ⟨hcomponent, hslash, hnul, hshort⟩ := hfields name hmem
    exact ⟨hcomponent, hslash, hnul, hshort⟩
  have hsrc : FileTree.WellFormed (.directory [("Main.elm", .file "type Msg = NoOp".toUTF8)]) :=
    .cons (hname _ (by simp)) (by simp) (.file _) .empty
  have hshared : FileTree.WellFormed (.directory [("Shared.elm", .file "type alias Id = Int".toUTF8)]) :=
    .cons (hname _ (by simp)) (by simp) (.file _) .empty
  refine ⟨.cons (hname _ (by simp)) (by simp) ?_ (.cons (hname _ (by simp)) (by simp) hshared .empty),
    ⟨_, rfl⟩⟩
  exact .cons (hname _ (by simp)) (by simp) (.file _) (.cons (hname _ (by simp)) (by simp) hsrc .empty)

theorem exampleProject_withinLimits : WithinLimits (exampleProject "src") ⟨"/app"⟩ where
  manifest := by decide +kernel
  starts := by decide +kernel
  opened := by
    have hstarts : sourceRoots (exampleProject "src") ⟨"/app"⟩ = [⟨"/app/src"⟩] := by decide +kernel
    rw [hstarts]
    intro start hstart tree hnode
    obtain rfl := List.mem_singleton.mp hstart
    cases hnode
    decide +kernel
  files := by decide +kernel

/-- A file below `src` can be queried from. -/
theorem exists_findDefinition_of_main :
    ∃ path, path.same ⟨"/app/src/Main.elm"⟩ = true ∧
      findDefinition (exampleProject "src") ⟨"app"⟩ ⟨"app/src/Main.elm"⟩ (.symbol "Msg") =
        .ok (some ⟨path, "Msg", ⟨0, 0, 0⟩⟩) := by
  have hpaths : sourceFiles (exampleProject "src") ⟨"app"⟩ = .ok [⟨"app/src/Main.elm"⟩] := by decide +kernel
  have hup : ∃ directory ∈ sourceDirs (exampleProject "src") ⟨"app"⟩,
      ['.', '.'] ∉ Path.segments directory.toList ∧
      ∃ found ∈ filesBelow (exampleProject "src") (Path.join ⟨"app"⟩ directory),
        (exampleProject "src").resolve found = (exampleProject "src").resolve ⟨"app/src/Main.elm"⟩ :=
    ⟨"src", by decide +kernel, by decide, ⟨"app/src/Main.elm"⟩, by decide +kernel, rfl⟩
  have hname : ∃ statement ∈ (parse "type Msg = NoOp").statements, statement.declaredType? = some "Msg" := by
    decide +kernel
  have hposition :
      ((parse "type Msg = NoOp").statements.find? (·.declaredType? = some "Msg")).map Statement.position =
        some ⟨0, 0, 0⟩ := by
    decide +kernel
  have hroot : (exampleProject "src").canonical ⟨"app"⟩ = .ok ⟨"/app"⟩ := by decide +kernel
  have hfile : (exampleProject "src").canonical ⟨"app/src/Main.elm"⟩ = .ok ⟨"/app/src/Main.elm"⟩ := by
    decide +kernel
  obtain ⟨path, first, hsame, hfirst, hanswer⟩ := exists_findDefinition_of_mem_sourceFiles
    (exampleProject_wellFormed "src") hroot hfile (by decide +kernel) exampleProject_withinLimits hpaths
    (.head _) (.inr hup) (by decide +kernel) hname
  rw [hfirst, Option.map_some, Option.some.injEq] at hposition
  rw [hposition] at hanswer
  exact ⟨path, hsame, hanswer⟩

/-- A file below `../shared` belongs to the project and declares a type, but a query from it is not
answered. -/
theorem findDefinition_shared_eq_none :
    sourceFiles (exampleProject "../shared") ⟨"app"⟩ = .ok [⟨"app/../shared/Shared.elm"⟩] ∧
      (exampleProject "../shared").readText ⟨"app/../shared/Shared.elm"⟩ = .ok "type alias Id = Int" ∧
      (parse "type alias Id = Int").statements.map (fun statement =>
        (statement.declaredType?, statement.position)) = [(some "Id", ⟨0, 0, 0⟩)] ∧
      (exampleProject "../shared").canonical ⟨"app/../shared/Shared.elm"⟩ = .ok ⟨"/shared/Shared.elm"⟩ ∧
      findDefinition (exampleProject "../shared") ⟨"app"⟩ ⟨"app/../shared/Shared.elm"⟩ (.symbol "Id") =
        .ok none := by
  decide +kernel

end Workspace

end ElmNavigation
