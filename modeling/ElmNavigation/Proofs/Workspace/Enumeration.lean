import ElmNavigation.Proofs.Workspace.Lookup

/-! Which files make up a project. They are described by the names that lead to them from a source root: a
regular file with the extension `elm`, on the way to which no directory below the source root is hidden or
holds what others have installed. The search lists exactly these, each once and in the order of paths, as
far as it can open the directories on the way. -/

namespace ElmNavigation.Workspace

open FileSystem

variable {system : FileSystem} {root start path found : Path} {tree : FileTree} {names : List String}

/-- The path along names that begins where another path ends. -/
def along (start : Path) (names : List String) : Path :=
  names.foldl Path.join start

/-- Whether directories with this name are searched. -/
def IsSearched (name : String) : Prop :=
  name.toList.head? ≠ some '.' ∧ name ≠ "elm-stuff" ∧ name ≠ "node_modules"

theorem isSkipped_eq_false_iff {name : String} : isSkipped name = false ↔ IsSearched name := by
  simp [isSkipped, skippedNames, IsSearched]

/-- The places at which the search begins: the source directories of the manifest, or the root of the
project if there are none or there is no manifest that can be read. -/
def IsSourceRoot (system : FileSystem) (root start : Path) : Prop :=
  (∃ manifest directory, readManifest system root = .ok (some manifest) ∧ directory ∈ manifest.sourceDirs ∧
    start = root.join directory) ∨
  (start = root ∧ ∀ manifest, readManifest system root = .ok (some manifest) → manifest.sourceDirs = [])

theorem mem_sourceRoots_iff : start ∈ sourceRoots system root ↔ IsSourceRoot system root start := by
  rw [mem_sourceRoots, IsSourceRoot]
  delta sourceDirs
  cases readManifest system root with
  | error error => simp
  | ok manifest => cases manifest <;> simp

/-- Names that lead from the start of a search to a source file. Directories on the way have to be
searched, but not the one in which the search starts. -/
structure LeadsToSource (system : FileSystem) (start : Path) (names : List String) : Prop where
  file : ∃ place bytes, system.resolve start = .ok place ∧
    system.root.get? (place ++ names) = some (.file bytes)
  extension : (along start names).extension? = some "elm"
  searched : ∀ name ∈ names.dropLast, IsSearched name

/-- Whether a path is that of a regular file. -/
def NamesFile (system : FileSystem) (path : Path) : Prop :=
  ∃ place bytes, system.resolve path = .ok place ∧ system.root.get? place = some (.file bytes)

/-- No directory on the way has a path that is too long to open it. -/
def CanOpen (start : Path) (names : List String) : Prop :=
  ∀ front, front <+: names.dropLast → isTooLong (along start front) = false

/-! ### Walks by names -/

/-- What a walk finds is reached by names through directories that are searched. -/
theorem Found.exists_names (htree : tree.WellFormed) (h : Found path tree found) :
    ∃ names bytes, tree.get? names = some (.file bytes) ∧ found = along path names ∧ isSource found = true ∧
      ∀ name ∈ names.dropLast, IsSearched name := by
  induction h with
  | @file path bytes hsource => exact ⟨[], bytes, rfl, rfl, hsource, by simp⟩
  | @entry path found entries name child _ hmem hpruned _ ih =>
      cases htree with
      | directory hdistinct _ hchildren =>
          obtain ⟨names, bytes, hfile, rfl, hsource, hsearched⟩ := ih (hchildren _ hmem)
          have hlookup := FileTree.lookup_of_mem hdistinct hmem
          refine ⟨name :: names, bytes, ?_, rfl, hsource, ?_⟩
          · show (entries.lookup name).bind _ = _
            rw [hlookup]
            exact hfile
          · cases names with
            | nil => simp
            | cons next names =>
                -- something is found below the entry, so it is a directory
                cases child with
                | file bytes => cases hfile
                | directory _ =>
                    rw [List.dropLast_cons_of_ne_nil (List.cons_ne_nil _ _)]
                    exact List.forall_mem_cons.mpr ⟨isSkipped_eq_false_iff.mp hpruned, hsearched⟩

/-- What names lead to through directories that are searched is found, if these can be opened. -/
theorem found_of_names {bytes : ByteArray} (hfile : tree.get? names = some (.file bytes))
    (hsource : isSource (along path names) = true) (hsearched : ∀ name ∈ names.dropLast, IsSearched name)
    (hopen : CanOpen path names) : Found path tree (along path names) := by
  induction names generalizing path tree with
  | nil =>
      cases hfile
      exact .file hsource
  | cons name names ih =>
      obtain ⟨child, hchild, hrest⟩ := Option.bind_eq_some_iff.mp hfile
      cases tree with
      | file _ => cases hchild
      | directory entries =>
          have hfirst := hopen [] List.nil_prefix
          cases names with
          | nil =>
              cases hrest
              exact .entry hfirst (FileTree.mem_of_lookup hchild) rfl (.file hsource)
          | cons next names =>
              rw [List.dropLast_cons_of_ne_nil (List.cons_ne_nil _ _)] at hsearched
              obtain ⟨hname, hsearched⟩ := List.forall_mem_cons.mp hsearched
              have hpruned : isPruned name child = false := by
                cases child with
                | file _ => rfl
                | directory _ => exact isSkipped_eq_false_iff.mpr hname
              refine .entry hfirst (FileTree.mem_of_lookup hchild) hpruned (ih hrest hsource hsearched ?_)
              intro front hfront
              refine hopen (name :: front) ?_
              rw [List.dropLast_cons_of_ne_nil (List.cons_ne_nil _ _)]
              exact List.cons_prefix_cons.mpr ⟨rfl, hfront⟩

theorem exists_leadsToSource_of_mem (hsystem : system.WellFormed) (h : found ∈ filesBelow system start) :
    NamesFile system found ∧ ∃ names, LeadsToSource system start names ∧ found = along start names := by
  obtain ⟨tree, hnode, hfound⟩ := mem_filesBelow_iff.mp h
  obtain ⟨_, place, hplace, htree⟩ := node_eq_ok.mp hnode
  obtain ⟨names, bytes, hfile, rfl, hsource, hsearched⟩ := hfound.exists_names (hsystem.tree.get? htree)
  refine ⟨hfound.exists_place hsystem hplace htree, names, ⟨⟨place, bytes, hplace, ?_⟩, ?_, hsearched⟩, rfl⟩
  · rw [FileTree.get?_append, htree]
    exact hfile
  · exact beq_iff_eq.mp hsource

theorem LeadsToSource.mem_filesBelow (h : LeadsToSource system start names) (hopen : CanOpen start names) :
    along start names ∈ filesBelow system start := by
  obtain ⟨place, bytes, hplace, hfile⟩ := h.file
  rw [FileTree.get?_append] at hfile
  obtain ⟨tree, htree, hfile⟩ := Option.bind_eq_some_iff.mp hfile
  have hnode := node_eq_ok.mpr ⟨hopen [] List.nil_prefix, place, hplace, htree⟩
  have hsource : isSource (along start names) = true := beq_iff_eq.mpr h.extension
  exact mem_filesBelow_iff.mpr ⟨tree, hnode, found_of_names hfile hsource h.searched hopen⟩

/-! ### The list -/

theorem pairwise_lt_sourceFiles {paths : List Path} (h : sourceFiles system root = .ok paths) :
    paths.Pairwise fun left right => left.lt right = true := by
  have hdistinct := pairwise_sourceFiles h
  have hsorted : paths.Pairwise fun left right => left.le right = true := by
    obtain ⟨_, rfl⟩ := sourceFiles_eq_ok.mp h
    exact (pairwise_mergeSort _).sublist (unique_sublist _)
  refine (hsorted.and hdistinct).imp ?_
  rintro left right ⟨hle, hdiffer⟩
  rw [Path.lt_iff]
  apply lt_of_le_of_ne (Path.le_iff.mp hle)
  rw [Ne, Path.key_eq_iff, hdiffer]
  decide

/-- The source files of a project: a root that is no directory is an error; otherwise the paths are listed
in ascending order, every one of them is that of a source file below a source root, and every source file
below a source root is listed if the directories on the way to it can be opened. -/
theorem sourceFiles_enumerates (hsystem : system.WellFormed) (root : Path) :
    (system.isDirectory root = false → sourceFiles system root = .error (.missingRoot root)) ∧
      (system.isDirectory root = true → ∃ paths, sourceFiles system root = .ok paths ∧
        paths.Pairwise (fun left right => left.lt right = true) ∧
        (∀ path ∈ paths, NamesFile system path ∧ ∃ start names, IsSourceRoot system root start ∧
          LeadsToSource system start names ∧ path = along start names) ∧
        ∀ start names, IsSourceRoot system root start → LeadsToSource system start names →
          CanOpen start names → ∃ path ∈ paths, path.same (along start names) = true) := by
  refine ⟨fun hroot => ?_, fun hroot => ?_⟩
  · rw [sourceFiles, hroot]
    rfl
  · obtain ⟨paths, hpaths⟩ : ∃ paths, sourceFiles system root = .ok paths :=
      ⟨_, sourceFiles_eq_ok.mpr ⟨hroot, rfl⟩⟩
    refine ⟨paths, hpaths, pairwise_lt_sourceFiles hpaths, ?_, ?_⟩
    · intro path hmem
      obtain ⟨start, hstart, hbelow⟩ := exists_start_of_mem hpaths hmem
      obtain ⟨hfile, names, hnames, rfl⟩ := exists_leadsToSource_of_mem hsystem hbelow
      exact ⟨hfile, start, names, mem_sourceRoots_iff.mp hstart, hnames, rfl⟩
    · intro start names hstart hnames hopen
      exact exists_mem_of_start hpaths (mem_sourceRoots_iff.mpr hstart) (hnames.mem_filesBelow hopen)

/-- A project that lists a directory under two paths, and one that does not exist. -/
def overlappingProject : FileSystem :=
  exampleProject "src\", \"./src/\", \"nope"

/-- A file that is found below two source directories is listed once. -/
theorem sourceFiles_enumerates_overlapping :
    sourceFiles overlappingProject ⟨"nope"⟩ = .error (.missingRoot ⟨"nope"⟩) ∧
      sourceFiles overlappingProject ⟨"app"⟩ = .ok [⟨"app/src/Main.elm"⟩] ∧
      ∃ path ∈ [(⟨"app/src/Main.elm"⟩ : Path)], path.same (along ⟨"app/./src/"⟩ ["Main.elm"]) = true := by
  have hsystem : overlappingProject.WellFormed := exampleProject_wellFormed _
  have hfound : (sourceRoots overlappingProject ⟨"app"⟩).flatMap (filesBelow overlappingProject) =
      [⟨"app/src/Main.elm"⟩, ⟨"app/./src/Main.elm"⟩] := by
    decide +kernel
  have hsorted : [(⟨"app/src/Main.elm"⟩ : Path), ⟨"app/./src/Main.elm"⟩].Pairwise (Path.le · ·) := by
    decide +kernel
  have hpaths : sourceFiles overlappingProject ⟨"app"⟩ = .ok [⟨"app/src/Main.elm"⟩] := by
    refine sourceFiles_eq_ok.mpr ⟨by decide +kernel, ?_⟩
    rw [hfound, List.mergeSort_of_pairwise hsorted]
    decide +kernel
  have hmanifest :
      readManifest overlappingProject ⟨"app"⟩ = .ok (some ⟨none, some ["src", "./src/", "nope"]⟩) := by
    decide +kernel
  have hstart : IsSourceRoot overlappingProject ⟨"app"⟩ ⟨"app/./src/"⟩ :=
    .inl ⟨_, "./src/", hmanifest, .tail _ (.head _), by decide +kernel⟩
  have hnames : LeadsToSource overlappingProject ⟨"app/./src/"⟩ ["Main.elm"] :=
    ⟨⟨["app", "src"], _, by decide +kernel, rfl⟩, by decide +kernel, by simp⟩
  have hopen : CanOpen ⟨"app/./src/"⟩ ["Main.elm"] := by
    intro front hfront
    obtain rfl := List.prefix_nil.mp hfront
    decide +kernel
  obtain ⟨_, henumerates⟩ := sourceFiles_enumerates hsystem ⟨"app"⟩
  obtain ⟨paths, hpaths', _, _, hlisted⟩ := henumerates (by decide +kernel)
  obtain rfl := Except.ok.inj (hpaths.symm.trans hpaths')
  exact ⟨(sourceFiles_enumerates hsystem ⟨"nope"⟩).1 (by decide +kernel), hpaths,
    hlisted _ _ hstart hnames hopen⟩

end ElmNavigation.Workspace
