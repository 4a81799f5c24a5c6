import ElmNavigation.Proofs.Workspace.Places
import ElmNavigation.Workspace.Discovery

/-! What the search for source files finds. A walk finds the files with source that can be reached through
entries that are searched; two walks that begin at one place find the same files, each by paths of its
own. Of the paths that are found, sorting and removing repeats keeps one for every list of components. -/

namespace ElmNavigation.Workspace

open FileSystem

/-! ### Walks -/

/-- What a walk finds: the path itself if it is that of a file with source, or what is found at an entry. -/
inductive Found : Path → FileTree → Path → Prop where
  | file {path : Path} {bytes : ByteArray} (hsource : isSource path = true) : Found path (.file bytes) path
  | entry {path found : Path} {entries : List (String × FileTree)} {name : String} {child : FileTree}
      (hopen : isTooLong path = false) (hmem : (name, child) ∈ entries)
      (hpruned : isPruned name child = false)
      (hfound : Found (path.join name) child found) : Found path (.directory entries) found

theorem mem_walkEntries_iff {path found : Path} {entries : List (String × FileTree)} :
    found ∈ walkEntries path entries ↔
      ∃ entry ∈ entries, isPruned entry.1 entry.2 = false ∧ found ∈ walk (path.join entry.1) entry.2 := by
  induction entries with
  | nil => simp [walkEntries]
  | cons entry entries ih =>
      obtain ⟨name, child⟩ := entry
      rw [walkEntries, List.mem_append, ih, List.exists_mem_cons_iff]
      cases isPruned name child <;> simp

theorem mem_unopenedEntries_iff {path closed : Path} {entries : List (String × FileTree)} :
    closed ∈ unopenedEntries path entries ↔
      ∃ entry ∈ entries, isPruned entry.1 entry.2 = false ∧
        closed ∈ unopened (path.join entry.1) entry.2 := by
  induction entries with
  | nil => simp [unopenedEntries]
  | cons entry entries ih =>
      obtain ⟨name, child⟩ := entry
      rw [unopenedEntries, List.mem_append, ih, List.exists_mem_cons_iff]
      cases isPruned name child <;> simp

theorem found_of_mem_walk {path found : Path} (tree : FileTree) (h : found ∈ walk path tree) :
    Found path tree found := by
  match tree with
  | .file bytes =>
      rw [walk] at h
      split_ifs at h with hsource
      · obtain rfl := List.mem_singleton.mp h
        exact .file hsource
      · cases h
  | .directory entries =>
      rw [walk] at h
      split_ifs at h with hlong
      · cases h
      · obtain ⟨⟨name, child⟩, hmem, hpruned, hfound⟩ := mem_walkEntries_iff.mp h
        have hsize := List.sizeOf_lt_of_mem hmem
        exact .entry (Bool.not_eq_true _ ▸ hlong) hmem hpruned (found_of_mem_walk child hfound)
termination_by tree
decreasing_by
  simp only [FileTree.directory.sizeOf_spec, Prod.mk.sizeOf_spec] at hsize ⊢
  omega

theorem mem_walk_iff {path found : Path} {tree : FileTree} :
    found ∈ walk path tree ↔ Found path tree found := by
  refine ⟨found_of_mem_walk tree, fun h => ?_⟩
  induction h with
  | file hsource => rw [walk, if_pos hsource]; exact .head _
  | entry hopen hmem hpruned _ ih =>
      rw [walk, hopen, if_neg (by decide)]
      exact mem_walkEntries_iff.mpr ⟨_, hmem, hpruned, ih⟩

/-- A walk that can open every directory. -/
theorem of_unopened_eq_nil {path : Path} {entries : List (String × FileTree)}
    (h : unopened path (.directory entries) = []) :
    isTooLong path = false ∧
      ∀ entry ∈ entries, isPruned entry.1 entry.2 = false → unopened (path.join entry.1) entry.2 = [] := by
  rw [unopened] at h
  split_ifs at h with hlong
  refine ⟨Bool.not_eq_true _ ▸ hlong, fun entry hmem hpruned => ?_⟩
  refine List.eq_nil_iff_forall_not_mem.mpr fun closed hclosed => ?_
  have hall := List.eq_nil_iff_forall_not_mem.mp h closed
  exact hall (mem_unopenedEntries_iff.mpr ⟨entry, hmem, hpruned, hclosed⟩)

theorem isSource_congr {left right : Path} (h : left.components.getLast? = right.components.getLast?) :
    isSource left = isSource right := by
  unfold isSource Path.extension?
  rw [h]

namespace Found

variable {system : FileSystem} {path path' found : Path} {tree : FileTree} {place : List String}

theorem isAbsolute (h : Found path tree found) (habsolute : path.isAbsolute = true) :
    found.isAbsolute = true := by
  induction h with
  | file _ => exact habsolute
  | entry _ _ _ _ ih => exact ih (Path.isAbsolute_join habsolute _)

/-- What is found leads to a file below the place to which the path leads. -/
theorem exists_place (hsystem : system.WellFormed) (h : Found path tree found)
    (hpath : system.resolve path = .ok place) (hplace : system.root.get? place = some tree) :
    ∃ place bytes, system.resolve found = .ok place ∧ system.root.get? place = some (.file bytes) := by
  induction h generalizing place with
  | @file path bytes _ => exact ⟨place, bytes, hpath, hplace⟩
  | entry _ hmem _ _ ih =>
      cases hsystem.tree.get? hplace with
      | directory hdistinct hnames _ =>
          have hchild := FileTree.lookup_of_mem hdistinct hmem
          exact ih (resolve_join_name hpath hplace (hnames _ hmem) hchild)
            ((FileTree.get?_concat hplace).trans hchild)

/-- What is found has a part `..` exactly if the path has one. -/
theorem up_mem_iff (hsystem : system.WellFormed) (h : Found path tree found)
    (hpath : system.resolve path = .ok place) (hplace : system.root.get? place = some tree) :
    ['.', '.'] ∈ Path.segments found.text.toList ↔ ['.', '.'] ∈ Path.segments path.text.toList := by
  induction h generalizing place with
  | file _ => exact Iff.rfl
  | entry _ hmem _ _ ih =>
      cases hsystem.tree.get? hplace with
      | directory hdistinct hnames _ =>
          have hchild := FileTree.lookup_of_mem hdistinct hmem
          have hname := hnames _ hmem
          have hbase := (resolve_eq_ok.mp hpath).2.1
          rw [ih (resolve_join_name hpath hplace hname hchild) ((FileTree.get?_concat hplace).trans hchild)]
          refine ⟨fun hjoin => ?_, Path.mem_segments_join_of_base hbase hname.isAbsolute_eq_false (by decide)⟩
          exact (Path.mem_segments_join hbase hjoin).resolve_right hname.up_notMem

/-- Another path to the same place finds the same file, if every directory on its way can be opened. -/
theorem transfer (hsystem : system.WellFormed) (h : Found path tree found)
    (hpath : system.resolve path = .ok place) (hpath' : system.resolve path' = .ok place)
    (hplace : system.root.get? place = some tree) (hopen : unopened path' tree = []) :
    ∃ found', Found path' tree found' ∧ system.resolve found' = system.resolve found := by
  induction h generalizing path' place with
  | @file path bytes hsource =>
      have hlast : path'.components.getLast? = path.components.getLast? :=
        (getLast?_components_of_resolve hpath' hplace).trans
        (getLast?_components_of_resolve hpath hplace).symm
      exact ⟨path', .file ((isSource_congr hlast).trans hsource), hpath'.trans hpath.symm⟩
  | @entry path found entries name child _ hmem hpruned _ ih =>
      obtain ⟨hshort, hentries⟩ := of_unopened_eq_nil hopen
      cases hsystem.tree.get? hplace with
      | directory hdistinct hnames _ =>
          have hchild := FileTree.lookup_of_mem hdistinct hmem
          have hname := hnames _ hmem
          have hopen : unopened (path'.join name) child = [] := hentries (name, child) hmem hpruned
          obtain ⟨found', hfound', hresolve⟩ := ih (resolve_join_name hpath hplace hname hchild)
            (resolve_join_name hpath' hplace hname hchild) ((FileTree.get?_concat hplace).trans hchild) hopen
          exact ⟨found', .entry hshort hmem hpruned hfound', hresolve⟩

end Found

theorem mem_filesBelow_iff {system : FileSystem} {start found : Path} : found ∈ filesBelow system start ↔
    ∃ tree, system.node start = .ok tree ∧ Found start tree found := by
  rw [filesBelow]
  cases system.node start with
  | error error => simp
  | ok tree => simp [mem_walk_iff]

/-! ### Repeats -/

theorem unique_sublist (paths : List Path) : (unique paths).Sublist paths := by
  induction paths with
  | nil => exact .slnil
  | cons path paths ih =>
      rw [unique]
      split
      · exact (List.nil_sublist paths).cons_cons path
      · next next rest hunique =>
          rw [hunique] at ih
          split_ifs
          · exact ((List.sublist_cons_self next rest).trans ih).cons_cons path
          · exact ih.cons_cons path

/-- A path that is left out has the same components as one that is kept. -/
theorem exists_mem_unique {paths : List Path} {path : Path} (h : path ∈ paths) :
    ∃ kept ∈ unique paths, kept.same path = true := by
  induction paths with
  | nil => cases h
  | cons first paths ih =>
      rw [unique]
      rcases List.mem_cons.mp h with rfl | h
      · split
        · exact ⟨path, .head _, Path.same_refl path⟩
        · split_ifs <;> exact ⟨path, .head _, Path.same_refl path⟩
      · obtain ⟨kept, hkept, hsame⟩ := ih h
        split
        · next hunique =>
            rw [hunique] at hkept
            cases hkept
        · next next rest hunique =>
            rw [hunique] at hkept
            split_ifs with hfirst
            · rcases List.mem_cons.mp hkept with rfl | hkept
              · exact ⟨first, .head _, by rw [Path.same_congr_left hfirst, hsame]⟩
              · exact ⟨kept, .tail _ hkept, hsame⟩
            · exact ⟨kept, .tail _ hkept, hsame⟩

/-- Of sorted paths no two that are kept have the same components. -/
theorem pairwise_unique {paths : List Path} (h : paths.Pairwise fun left right => left.le right = true) :
    (unique paths).Pairwise fun left right => left.same right = false := by
  induction paths with
  | nil => exact .nil
  | cons first paths ih =>
      obtain ⟨hfirst, hrest⟩ := List.pairwise_cons.mp h
      have hdistinct := ih hrest
      rw [unique]
      split
      · exact List.pairwise_singleton _ _
      · next next rest hunique =>
          rw [hunique] at hdistinct
          obtain ⟨hnext, hlater⟩ := List.pairwise_cons.mp hdistinct
          split_ifs with hsame
          · refine .cons (fun later hmem => ?_) hlater
            rw [Path.same_congr_left hsame, hnext later hmem]
          · refine .cons (fun later hmem => Bool.eq_false_iff.mpr fun hlater => hsame ?_) hdistinct
            -- a path between two with the same components has them too
            have hsorted := hrest.sublist (unique_sublist paths)
            have hmemNext : next ∈ unique paths := by
              rw [hunique]
              exact .head _
            rw [hunique] at hsorted
            have hle : next.le later = true := by
              rcases List.mem_cons.mp hmem with rfl | hmem
              · exact Path.le_iff.mpr le_rfl
              · exact List.rel_of_pairwise_cons hsorted hmem
            have hback : later.le first = true :=
              Path.le_iff.mpr (Path.key_eq_iff.mpr hlater).ge
            exact Path.same_of_le_of_le (hfirst next ((unique_sublist paths).subset hmemNext))
              (Path.le_trans hle hback)

/-! ### The source files of a project -/

variable {system : FileSystem} {root : Path} {paths : List Path}

theorem sourceFiles_eq_ok : sourceFiles system root = .ok paths ↔ system.isDirectory root = true ∧
    unique (((sourceRoots system root).flatMap (filesBelow system)).mergeSort Path.le) = paths := by
  rw [sourceFiles]
  split_ifs with hdirectory <;> simp [hdirectory]

theorem exists_start_of_mem (h : sourceFiles system root = .ok paths) {path : Path} (hmem : path ∈ paths) :
    ∃ start ∈ sourceRoots system root, path ∈ filesBelow system start := by
  obtain ⟨_, rfl⟩ := sourceFiles_eq_ok.mp h
  have hsorted := (unique_sublist _).subset hmem
  exact List.mem_flatMap.mp (List.mem_mergeSort.mp hsorted)

theorem exists_mem_of_start (h : sourceFiles system root = .ok paths) {start path : Path}
    (hstart : start ∈ sourceRoots system root) (hmem : path ∈ filesBelow system start) :
    ∃ kept ∈ paths, kept.same path = true := by
  obtain ⟨_, rfl⟩ := sourceFiles_eq_ok.mp h
  exact exists_mem_unique (List.mem_mergeSort.mpr (List.mem_flatMap.mpr ⟨start, hstart, hmem⟩))

theorem pairwise_mergeSort (paths : List Path) :
    (paths.mergeSort Path.le).Pairwise fun left right => left.le right = true := by
  apply List.pairwise_mergeSort
  · intro left middle right hleft hright
    exact Path.le_trans hleft hright
  · intro left right
    rw [Bool.or_eq_true]
    exact Path.le_total left right

theorem pairwise_sourceFiles (h : sourceFiles system root = .ok paths) :
    paths.Pairwise fun left right => left.same right = false := by
  obtain ⟨_, rfl⟩ := sourceFiles_eq_ok.mp h
  exact pairwise_unique (pairwise_mergeSort _)

/-- The search begins at the source directories, or at the root if there are none. -/
theorem mem_sourceRoots {start : Path} : start ∈ sourceRoots system root ↔
    (∃ directory ∈ sourceDirs system root, start = root.join directory) ∨
      start = root ∧ sourceDirs system root = [] := by
  unfold sourceRoots
  cases sourceDirs system root with
  | nil => simp
  | cons first rest => simp [eq_comm]

/-- The source directories by what the path of the manifest names. -/
theorem sourceDirs_eq (system : FileSystem) (root : Path) : sourceDirs system root =
    match system.node (root.join manifestFile) with
    | .ok (.file bytes) => (((String.fromUTF8? bytes).bind Manifest.parse?).map Manifest.sourceDirs).getD []
    | _ => [] := by
  delta sourceDirs
  rw [readManifest, isFile, readText]
  cases system.node (root.join manifestFile) with
  | error error => rfl
  | ok tree =>
      cases tree with
      | directory entries => rfl
      | file bytes =>
          dsimp only
          rw [if_pos rfl]
          cases String.fromUTF8? bytes with
          | none => rfl
          | some text =>
              dsimp only [Option.bind_some]
              cases Manifest.parse? text <;> rfl

/-- Where the manifest is the same, so are the source directories. -/
theorem sourceDirs_congr {left right : Path}
    (h : ∀ tree, system.node (left.join manifestFile) = .ok tree ↔
      system.node (right.join manifestFile) = .ok tree) :
    sourceDirs system left = sourceDirs system right := by
  rw [sourceDirs_eq, sourceDirs_eq]
  cases hleft : system.node (left.join manifestFile) with
  | ok tree => rw [(h tree).mp hleft]
  | error error =>
      cases hright : system.node (right.join manifestFile) with
      | error error' => rfl
      | ok tree =>
          rw [(h tree).mpr hright] at hleft
          cases hleft

/-- No path that the search for the source files of a project uses is too long. -/
structure WithinLimits (system : FileSystem) (root : Path) : Prop where
  manifest : isTooLong (root.join manifestFile) = false
  starts : ∀ start ∈ sourceRoots system root, isTooLong start = false
  opened : ∀ start ∈ sourceRoots system root, ∀ tree, system.node start = .ok tree → unopened start tree = []
  files : ∀ start ∈ sourceRoots system root, ∀ path ∈ filesBelow system start, isTooLong path = false

end ElmNavigation.Workspace
