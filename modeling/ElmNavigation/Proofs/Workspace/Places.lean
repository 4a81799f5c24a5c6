import ElmNavigation.Proofs.Path
import ElmNavigation.Workspace.FileSystem

/-! Where paths lead in a file system. A path below another leads on from where that one leads, however
the two are spelled. The absolute path of a place leads to that place, and an absolute path without `..`
has the components of the absolute path of the place to which it leads. -/

namespace ElmNavigation

/-! ### Trees -/

/-- Whether a text can be the name of a file. -/
structure IsFileName (name : String) : Prop where
  component : Path.component? name.toList = some (.name name)
  slash : '/' ∉ name.toList
  nul : '\x00' ∉ name.toList
  short : name.utf8ByteSize ≤ FileSystem.maxName

theorem IsFileName.isAbsolute_eq_false {name : String} (h : IsFileName name) :
    (Path.mk name).isAbsolute = false := by
  rw [Path.isAbsolute, beq_eq_false_iff_ne]
  exact fun hhead => h.slash (List.mem_of_head? hhead)

theorem IsFileName.up_notMem {name : String} (h : IsFileName name) :
    ['.', '.'] ∉ Path.segments name.toList := by
  rw [Path.segments_of_notMem h.slash]
  intro hmem
  have hcomponent := h.component
  rw [← List.mem_singleton.mp hmem] at hcomponent
  cases hcomponent

namespace FileTree

/-- A tree in which every entry has a name of its own. -/
inductive WellFormed : FileTree → Prop where
  | file (bytes : ByteArray) : WellFormed (.file bytes)
  | directory {entries : List (String × FileTree)} (hdistinct : (entries.map Prod.fst).Nodup)
      (hnames : ∀ entry ∈ entries, IsFileName entry.1) (hchildren : ∀ entry ∈ entries, WellFormed entry.2) :
      WellFormed (.directory entries)

theorem mem_of_lookup {name : String} {child : FileTree} {entries : List (String × FileTree)}
    (h : entries.lookup name = some child) : (name, child) ∈ entries := by
  obtain ⟨before, after, rfl, _⟩ := List.lookup_eq_some_iff.mp h
  simp

theorem lookup_of_mem {name : String} {child : FileTree} {entries : List (String × FileTree)}
    (hdistinct : (entries.map Prod.fst).Nodup) (h : (name, child) ∈ entries) :
    entries.lookup name = some child := by
  induction entries with
  | nil => cases h
  | cons entry entries ih =>
      obtain ⟨hnew, hdistinct⟩ := List.nodup_cons.mp hdistinct
      rcases List.mem_cons.mp h with rfl | h
      · simp
      · have hne : name ≠ entry.1 := by
          rintro rfl
          exact hnew (List.mem_map.mpr ⟨_, h, rfl⟩)
        rw [List.lookup_cons, beq_false_of_ne hne, ih hdistinct h]

theorem get?_append (tree : FileTree) (names names' : List String) :
    tree.get? (names ++ names') = (tree.get? names).bind fun child => child.get? names' := by
  induction names generalizing tree with
  | nil => rfl
  | cons name names ih =>
      rw [List.cons_append, get?, get?, Option.bind_assoc]
      congr 1
      funext child
      exact ih child

theorem get?_concat {tree : FileTree} {place : List String} {entries : List (String × FileTree)}
    {name : String} (h : tree.get? place = some (.directory entries)) :
    tree.get? (place ++ [name]) = entries.lookup name := by
  rw [get?_append, h]
  show (entries.lookup name).bind some = entries.lookup name
  cases entries.lookup name <;> rfl

/-- What stands in front of something in a tree is a directory. -/
theorem exists_directory_of_get?_concat {tree child : FileTree} {place : List String} {name : String}
    (h : tree.get? (place ++ [name]) = some child) :
    ∃ entries, tree.get? place = some (.directory entries) ∧ entries.lookup name = some child := by
  have hchild := h
  rw [get?_append] at h
  obtain ⟨parent, hparent, h⟩ := Option.bind_eq_some_iff.mp h
  cases parent with
  | file bytes => cases h
  | directory entries => exact ⟨entries, hparent, by rw [← get?_concat hparent, hchild]⟩

theorem exists_directory_of_dropLast {tree : FileTree} {place : List String}
    {entries : List (String × FileTree)} (h : tree.get? place = some (.directory entries)) :
    ∃ entries, tree.get? place.dropLast = some (.directory entries) := by
  rcases List.eq_nil_or_concat place with rfl | ⟨parent, name, rfl⟩
  · exact ⟨entries, h⟩
  · rw [List.concat_eq_append] at h ⊢
    obtain ⟨above, habove, _⟩ := exists_directory_of_get?_concat h
    exact ⟨above, by rw [List.dropLast_concat, habove]⟩

namespace WellFormed

theorem empty : WellFormed (.directory []) :=
  .directory List.nodup_nil (fun _ h => nomatch h) (fun _ h => nomatch h)

theorem cons {name : String} {child : FileTree} {entries : List (String × FileTree)} (hname : IsFileName name)
    (hnew : name ∉ entries.map Prod.fst) (hchild : child.WellFormed) (h : WellFormed (.directory entries)) :
    WellFormed (.directory ((name, child) :: entries)) := by
  cases h with
  | directory hdistinct hnames hchildren =>
      exact .directory (List.nodup_cons.mpr ⟨hnew, hdistinct⟩) (List.forall_mem_cons.mpr ⟨hname, hnames⟩)
        (List.forall_mem_cons.mpr ⟨hchild, hchildren⟩)

theorem get? {tree child : FileTree} (htree : tree.WellFormed) {place : List String}
    (h : tree.get? place = some child) : child.WellFormed := by
  induction place generalizing tree with
  | nil =>
      cases h
      exact htree
  | cons name place ih =>
      obtain ⟨next, hnext, hrest⟩ := Option.bind_eq_some_iff.mp h
      cases htree with
      | file bytes => cases hnext
      | directory _ _ hchildren => exact ih (hchildren _ (mem_of_lookup hnext)) hrest

theorem isFileName_of_mem {tree child : FileTree} (htree : tree.WellFormed) {place : List String}
    (h : tree.get? place = some child) : ∀ name ∈ place, IsFileName name := by
  induction place generalizing tree with
  | nil => simp
  | cons first place ih =>
      obtain ⟨next, hnext, hrest⟩ := Option.bind_eq_some_iff.mp h
      cases htree with
      | file bytes => cases hnext
      | directory _ hnames hchildren =>
          have hmem := mem_of_lookup hnext
          intro name hname
          rcases List.mem_cons.mp hname with rfl | hname
          · exact hnames _ hmem
          · exact ih (hchildren _ hmem) hrest name hname

end WellFormed

end FileTree

namespace FileSystem

/-- A file system whose tree is well formed and whose working directory is a directory. -/
structure WellFormed (system : FileSystem) : Prop where
  tree : system.root.WellFormed
  working : ∃ entries, system.root.get? system.workingDirectory = some (.directory entries)

/-! ### Steps -/

variable {system : FileSystem}

/-- What a step can do: it needs a directory to stand in, and stays there, leaves it or enters one of its
entries. -/
theorem step_cases {place next : List String} {segment : List Char}
    (h : system.step place segment = .ok next) :
    ∃ entries, system.root.get? place = some (.directory entries) ∧
      ((Path.component? segment = none ∧ next = place) ∨
        (Path.component? segment = some .up ∧ next = place.dropLast) ∨
        ∃ name child, Path.component? segment = some (.name name) ∧ entries.lookup name = some child ∧
          next = place ++ [name]) := by
  rw [step] at h
  split at h
  · cases h
  · cases h
  · next entries hplace =>
      refine ⟨entries, hplace, ?_⟩
      rw [Path.component?] at h ⊢
      split_ifs at h ⊢
      · cases h
        exact .inl ⟨rfl, rfl⟩
      · cases h
        exact .inr (.inl ⟨rfl, rfl⟩)
      · dsimp only at h
        split_ifs at h with hlong hfound
        cases h
        obtain ⟨child, hchild⟩ := Option.isSome_iff_exists.mp hfound
        exact .inr (.inr ⟨_, child, rfl, hchild, rfl⟩)

theorem step_empty {place : List String} {entries : List (String × FileTree)}
    (h : system.root.get? place = some (.directory entries)) : system.step place [] = .ok place := by
  rw [step, h]
  rfl

theorem step_name {place : List String} {entries : List (String × FileTree)} {name : String}
    {child : FileTree} (hname : IsFileName name) (hplace : system.root.get? place = some (.directory entries))
    (hchild : entries.lookup name = some child) : system.step place name.toList = .ok (place ++ [name]) := by
  rw [step, hplace]
  dsimp only
  rw [hname.component]
  dsimp only
  rw [if_neg (Nat.not_lt.mpr hname.short), hchild]
  rfl

theorem steps_append (place : List String) (front back : List (List Char)) :
    system.steps place (front ++ back) = (system.steps place front).bind fun next =>
      system.steps next back := by
  induction front generalizing place with
  | nil => rfl
  | cons segment front ih =>
      rw [List.cons_append, steps, steps]
      cases system.step place segment with
      | error error => rfl
      | ok next => exact ih next

theorem exists_step_of_steps {place next : List String} {front : List (List Char)} {last : List Char}
    (h : system.steps place (front ++ [last]) = .ok next) :
    ∃ reached, system.steps place front = .ok reached ∧ system.step reached last = .ok next := by
  rw [steps_append] at h
  cases hreached : system.steps place front with
  | error error =>
      rw [hreached] at h
      cases h
  | ok reached =>
      refine ⟨reached, rfl, ?_⟩
      rw [hreached, Except.bind, steps] at h
      split at h
      · next hstep =>
          cases h
          exact hstep
      · cases h

theorem steps_names {place names : List String} {child : FileTree} (hnames : ∀ name ∈ names, IsFileName name)
    (h : system.root.get? (place ++ names) = some child) :
    system.steps place (names.map String.toList) = .ok (place ++ names) := by
  induction names generalizing place with
  | nil => rw [List.append_nil]; rfl
  | cons name names ih =>
      rw [List.append_cons] at h
      have hnext := h
      rw [FileTree.get?_append] at hnext
      obtain ⟨next, hnext, _⟩ := Option.bind_eq_some_iff.mp hnext
      obtain ⟨entries, hplace, hlookup⟩ := FileTree.exists_directory_of_get?_concat hnext
      rw [List.map_cons, steps, step_name (hnames _ (.head _)) hplace hlookup]
      dsimp only
      rw [ih (fun other hmem => hnames other (.tail _ hmem)) h, ← List.append_cons]

/-- Steps from something in the tree lead to something in the tree. -/
theorem exists_get?_of_steps {place next : List String} {segments : List (List Char)}
    (h : system.steps place segments = .ok next) {tree : FileTree}
    (hplace : system.root.get? place = some tree) : ∃ tree, system.root.get? next = some tree := by
  induction segments generalizing place tree with
  | nil =>
      cases h
      exact ⟨tree, hplace⟩
  | cons segment segments ih =>
      rw [steps] at h
      split at h
      · next middle hstep =>
          obtain ⟨entries, hdirectory, ⟨_, rfl⟩ | ⟨_, rfl⟩ | ⟨name, child, _, hchild, rfl⟩⟩ :=
            step_cases hstep
          · exact ih h hdirectory
          · obtain ⟨above, habove⟩ := FileTree.exists_directory_of_dropLast hdirectory
            exact ih h habove
          · exact ih h ((FileTree.get?_concat hdirectory).trans hchild)
      · cases h

/-- Without `..` every step that counts enters a directory or a file. -/
theorem exists_names_of_steps {place next : List String} {segments : List (List Char)}
    (h : system.steps place segments = .ok next) (hup : ['.', '.'] ∉ segments) :
    ∃ names, segments.filterMap Path.component? = names.map Component.name ∧ next = place ++ names := by
  induction segments generalizing place with
  | nil =>
      cases h
      exact ⟨[], rfl, (List.append_nil _).symm⟩
  | cons segment segments ih =>
      obtain ⟨hfirst, hup⟩ := not_or.mp (mt List.mem_cons.mpr hup)
      rw [steps] at h
      split at h
      · next middle hstep =>
          obtain ⟨names, hnames, rfl⟩ := ih h hup
          obtain ⟨_, _, ⟨hnone, rfl⟩ | ⟨hsome, _⟩ | ⟨name, _, hsome, _, rfl⟩⟩ := step_cases hstep
          · exact ⟨names, by rw [List.filterMap_cons, hnone, hnames], rfl⟩
          · rw [Path.component?] at hsome
            split_ifs at hsome
            all_goals simp_all
          · refine ⟨name :: names, by rw [List.filterMap_cons, hsome, hnames]; rfl, by simp⟩
      · cases h

/-! ### Resolving paths -/

theorem resolve_eq_ok {path : Path} {place : List String} : system.resolve path = .ok place ↔
    '\x00' ∉ path.text.toList ∧ path.text ≠ "" ∧
      system.steps (if path.isAbsolute then [] else system.workingDirectory)
        (Path.segments path.text.toList) = .ok place := by
  rw [resolve]
  by_cases hnul : '\x00' ∈ path.text.toList
  · simp [hnul]
  · by_cases hempty : path.text = ""
    · simp [hempty]
    · simp [hnul, hempty]

theorem node_eq_ok {path : Path} {tree : FileTree} : system.node path = .ok tree ↔
    isTooLong path = false ∧ ∃ place, system.resolve path = .ok place ∧
      system.root.get? place = some tree := by
  rw [node, locate]
  by_cases hnul : path.text.toList.contains '\x00' = true
  · have hresolve : system.resolve path = .error .nulInName := by rw [resolve, if_pos hnul]
    rw [if_pos hnul]
    simp [hresolve]
  · rw [if_neg hnul]
    cases hlong : isTooLong path with
    | true => simp
    | false =>
        cases hresolve : system.resolve path with
        | error error => simp
        | ok place => cases hplace : system.root.get? place <;> simp [hplace]

theorem readText_eq_ok {path : Path} {text : String} : system.readText path = .ok text ↔
    ∃ bytes, system.node path = .ok (.file bytes) ∧ String.fromUTF8? bytes = some text := by
  rw [readText]
  cases system.node path with
  | error error => simp
  | ok tree =>
      cases tree with
      | directory entries => simp
      | file bytes => cases htext : String.fromUTF8? bytes <;> simp [htext]

theorem isDirectory_iff {path : Path} : system.isDirectory path = true ↔
    ∃ entries, system.node path = .ok (.directory entries) := by
  rw [isDirectory]
  cases system.node path with
  | error error => simp
  | ok tree => cases tree <;> simp

theorem isFile_iff {path : Path} :
    system.isFile path = true ↔ ∃ bytes, system.node path = .ok (.file bytes) := by
  rw [isFile]
  cases system.node path with
  | error error => simp
  | ok tree => cases tree <;> simp

theorem exists_place_of_canonical {path canonical : Path} (h : system.canonical path = .ok canonical) :
    ∃ place, system.resolve path = .ok place ∧ isTooLong canonical = false ∧
      canonical = absolutePath place := by
  rw [FileSystem.canonical] at h
  split at h
  · next place hplace =>
      split_ifs at h with hlong
      cases h
      exact ⟨place, hplace, Bool.not_eq_true _ ▸ hlong, rfl⟩
  · cases h

/-- A relative path below another leads on from where that one leads. -/
theorem resolve_join {base : Path} {place : List String} (hbase : system.resolve base = .ok place)
    {below : String} (hbelow : (Path.mk below).isAbsolute = false) (hnul : '\x00' ∉ below.toList) :
    system.resolve (base.join below) = system.steps place (Path.segments below.toList) := by
  obtain ⟨hnulBase, hempty, hsteps⟩ := resolve_eq_ok.mp hbase
  obtain ⟨front, hfront, hjoin⟩ := Path.exists_toList_join hempty hbelow
  have habsolute : (base.join below).isAbsolute = base.isAbsolute := by
    rw [Path.isAbsolute, Path.isAbsolute, hjoin]
    rcases hfront with hfront | hfront
    · cases front with
      | nil => exact absurd (String.toList_eq_nil_iff.mp hfront) hempty
      | cons c front => rw [hfront]; rfl
    · cases front <;> rw [hfront] <;> rfl
  have hnulJoin : '\x00' ∉ (base.join below).text.toList := by
    rw [hjoin]
    rcases hfront with hfront | hfront <;> rw [hfront] at hnulBase <;> simp_all
  have hne : (base.join below).text ≠ "" := fun hnil => by simp [hnil] at hjoin
  -- a slash at the end of the first path is one more step, which stays where it is
  have hplace : system.steps (if base.isAbsolute then [] else system.workingDirectory) (Path.segments front) =
      .ok place := by
    rcases hfront with hfront | hfront
    · rwa [hfront] at hsteps
    · rw [hfront, Path.segments_append] at hsteps
      obtain ⟨reached, hreached, hstep⟩ := exists_step_of_steps hsteps
      obtain ⟨_, hdirectory, _⟩ := step_cases hstep
      rw [step_empty hdirectory] at hstep
      cases hstep
      exact hreached
  rw [resolve, if_neg (by simpa using hnulJoin), if_neg (by simpa using hne), habsolute, hjoin,
    Path.segments_append, steps_append, hplace]
  rfl

/-- Paths that lead to one place lead to one place from there on. -/
theorem resolve_join_congr {left right : Path} {place : List String} (hleft : system.resolve left = .ok place)
    (hright : system.resolve right = .ok place) (below : String) :
    system.resolve (left.join below) = system.resolve (right.join below) := by
  cases hbelow : (Path.mk below).isAbsolute with
  | true => rw [Path.join, Path.join, if_pos hbelow, if_pos hbelow]
  | false =>
      by_cases hnul : '\x00' ∈ below.toList
      · have hcontains : ∀ {base : Path}, base.text ≠ "" →
            (base.join below).text.toList.contains '\x00' = true := by
          intro base hbase
          obtain ⟨front, _, hjoin⟩ := Path.exists_toList_join hbase hbelow
          simp [hjoin, hnul]
        rw [resolve, resolve, if_pos (hcontains (resolve_eq_ok.mp hleft).2.1),
          if_pos (hcontains (resolve_eq_ok.mp hright).2.1)]
      · rw [resolve_join hleft hbelow hnul, resolve_join hright hbelow hnul]

/-- An entry of a directory is found under its name. -/
theorem resolve_join_name {base : Path} {place : List String} (hbase : system.resolve base = .ok place)
    {entries : List (String × FileTree)} (hplace : system.root.get? place = some (.directory entries))
    {name : String} (hname : IsFileName name) {child : FileTree} (hchild : entries.lookup name = some child) :
    system.resolve (base.join name) = .ok (place ++ [name]) := by
  rw [resolve_join hbase hname.isAbsolute_eq_false hname.nul, Path.segments_of_notMem hname.slash, steps,
    step_name hname hplace hchild]
  rfl

/-! ### Absolute paths -/

theorem toList_absolutePath {place : List String} (h : place ≠ []) :
    (absolutePath place).text.toList = place.flatMap fun name => '/' :: name.toList := by
  rw [absolutePath, if_neg (by simpa using h)]
  dsimp only
  rw [String.toList_join, List.flatMap_map]
  simp

theorem isAbsolute_absolutePath (place : List String) : (absolutePath place).isAbsolute = true := by
  cases place with
  | nil => rfl
  | cons name place =>
      rw [Path.isAbsolute, toList_absolutePath (List.cons_ne_nil _ _)]
      rfl

theorem WellFormed.exists_root (hsystem : system.WellFormed) :
    ∃ entries, system.root.get? [] = some (.directory entries) := by
  obtain ⟨entries, hworking⟩ := hsystem.working
  cases hplace : system.workingDirectory with
  | nil => exact ⟨entries, by rw [← hworking, hplace]⟩
  | cons name place =>
      rw [hplace, ← List.nil_append (name :: place), List.append_cons, FileTree.get?_append] at hworking
      obtain ⟨next, hnext, _⟩ := Option.bind_eq_some_iff.mp hworking
      obtain ⟨entries, hroot, _⟩ := FileTree.exists_directory_of_get?_concat hnext
      exact ⟨entries, hroot⟩

/-- What a path leads to is in the tree. -/
theorem WellFormed.exists_get?_of_resolve (hsystem : system.WellFormed) {path : Path} {place : List String}
    (h : system.resolve path = .ok place) : ∃ tree, system.root.get? place = some tree := by
  obtain ⟨_, _, hsteps⟩ := resolve_eq_ok.mp h
  obtain ⟨_, hroot⟩ := hsystem.exists_root
  obtain ⟨_, hworking⟩ := hsystem.working
  split_ifs at hsteps
  · exact exists_get?_of_steps hsteps hroot
  · exact exists_get?_of_steps hsteps hworking

variable (hsystem : system.WellFormed) {place : List String} {tree : FileTree}
  (hplace : system.root.get? place = some tree)

include hsystem hplace

/-- The parts of the absolute path of a place are its names. -/
theorem segments_absolutePath (hne : place ≠ []) :
    Path.segments (absolutePath place).text.toList = [] :: place.map String.toList := by
  have hnames := hsystem.tree.isFileName_of_mem hplace
  rw [toList_absolutePath hne]
  exact Path.segments_names (fun name hmem => (hnames name hmem).slash) List.not_mem_nil

/-- The absolute path of a place leads to it. -/
theorem resolve_absolutePath : system.resolve (absolutePath place) = .ok place := by
  have hnames := hsystem.tree.isFileName_of_mem hplace
  obtain ⟨entries, hroot⟩ := hsystem.exists_root
  refine resolve_eq_ok.mpr ?_
  rw [if_pos (isAbsolute_absolutePath place)]
  by_cases hne : place = []
  · subst hne
    refine ⟨by decide, by decide, ?_⟩
    show system.steps [] [[], []] = .ok []
    rw [steps, step_empty hroot]
    dsimp only
    rw [steps, step_empty hroot]
    rfl
  · refine ⟨?_, ?_, ?_⟩
    · rw [toList_absolutePath hne]
      simpa using fun name hmem => (hnames name hmem).nul
    · intro hempty
      have htext := toList_absolutePath hne
      rw [hempty] at htext
      cases place with
      | nil => exact hne rfl
      | cons name place => cases htext
    · rw [segments_absolutePath hsystem hplace hne, steps, step_empty hroot]
      exact steps_names hnames hplace

theorem up_notMem_absolutePath : ['.', '.'] ∉ Path.segments (absolutePath place).text.toList := by
  have hnames := hsystem.tree.isFileName_of_mem hplace
  by_cases hne : place = []
  · subst hne
    decide
  · rw [segments_absolutePath hsystem hplace hne]
    intro hmem
    rcases List.mem_cons.mp hmem with h | hmem
    · cases h
    · obtain ⟨name, hname, htext⟩ := List.mem_map.mp hmem
      have hcomponent := (hnames name hname).component
      rw [htext] at hcomponent
      cases hcomponent

omit hsystem hplace in
/-- An absolute path without `..` has the names of the place to which it leads for components. -/
theorem components_of_resolve {path : Path} (habsolute : path.isAbsolute = true)
    (hup : ['.', '.'] ∉ Path.segments path.text.toList) (h : system.resolve path = .ok place) :
    path.components = .root :: place.map .name := by
  obtain ⟨_, _, hsteps⟩ := resolve_eq_ok.mp h
  rw [if_pos habsolute] at hsteps
  obtain ⟨names, hnames, rfl⟩ := exists_names_of_steps hsteps hup
  rw [Path.components, if_pos habsolute, hnames]

theorem components_absolutePath : (absolutePath place).components = .root :: place.map .name :=
  components_of_resolve (isAbsolute_absolutePath place) (up_notMem_absolutePath hsystem hplace)
    (resolve_absolutePath hsystem hplace)

omit hsystem hplace in
/-- The last component of a path to a file is the name of the file. -/
theorem getLast?_components_of_resolve {path : Path} (h : system.resolve path = .ok place) {bytes : ByteArray}
    (hfile : system.root.get? place = some (.file bytes)) :
    path.components.getLast? = place.getLast?.map .name := by
  obtain ⟨_, _, hsteps⟩ := resolve_eq_ok.mp h
  obtain ⟨front, last, hsegments⟩ : ∃ front last, Path.segments path.text.toList = front ++ [last] :=
    ⟨_, _, (List.dropLast_append_getLast (Path.segments_ne_nil _)).symm⟩
  rw [hsegments] at hsteps
  obtain ⟨reached, _, hstep⟩ := exists_step_of_steps hsteps
  obtain ⟨entries, hreached, ⟨_, rfl⟩ | ⟨_, rfl⟩ | ⟨name, _, hname, _, rfl⟩⟩ := step_cases hstep
  · rw [hreached] at hfile
    cases hfile
  · obtain ⟨above, habove⟩ := FileTree.exists_directory_of_dropLast hreached
    rw [habove] at hfile
    cases hfile
  · have hbody : (front ++ [last]).filterMap Path.component? = front.filterMap Path.component? ++
        [.name name] := by
      rw [List.filterMap_append, List.filterMap_cons, hname]
      rfl
    rw [Path.components, hsegments, hbody]
    split_ifs <;> simp [List.getLast?_cons]

end FileSystem

end ElmNavigation
