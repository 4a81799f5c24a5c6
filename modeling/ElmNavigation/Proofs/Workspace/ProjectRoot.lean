import ElmNavigation.Proofs.Path.Parent
import ElmNavigation.Proofs.Workspace.Lookup

/-! The root that is taken for the project of a file. The search for it goes up by the spelling of the
path, while directories contain each other in the tree. The two agree as long as only names are left out:
a path without its last name leads to the directory above. A `..` that is left out leads back into a
directory that need not contain the file. -/

namespace ElmNavigation

/-- The number of parts `..` of a path. -/
def Path.ups (path : Path) : Nat :=
  path.components.count .up

namespace FileSystem

variable {system : FileSystem} {place next : List String}

/-! ### Following components -/

/-- Where a component of a path leads from a place. -/
def follow (system : FileSystem) (place : List String) : Component → Option (List String)
  | .root => some []
  | .here => some place
  | .up =>
      match system.root.get? place with
      | some (.directory _) => some place.dropLast
      | _ => none
  | .name name =>
      match system.root.get? place with
      | some (.directory entries) => if (entries.lookup name).isSome then some (place ++ [name]) else none
      | _ => none

/-- What a component can do: all but the root need a directory to stand in or stay where they are. -/
theorem follow_cases {component : Component} (h : system.follow place component = some next)
    (hroot : component ≠ .root) :
    (component = .here ∧ next = place) ∨
      ∃ entries, system.root.get? place = some (.directory entries) ∧
        ((component = .up ∧ next = place.dropLast) ∨
          ∃ name child, component = .name name ∧ entries.lookup name = some child ∧
            next = place ++ [name]) := by
  cases component with
  | root => contradiction
  | here =>
      cases h
      exact .inl ⟨rfl, rfl⟩
  | up =>
      rw [follow] at h
      split at h
      · next entries hplace =>
          cases h
          exact .inr ⟨entries, hplace, .inl ⟨rfl, rfl⟩⟩
      · cases h
  | name name =>
      rw [follow] at h
      split at h
      · next entries hplace =>
          split_ifs at h with hfound
          cases h
          obtain ⟨child, hchild⟩ := Option.isSome_iff_exists.mp hfound
          exact .inr ⟨entries, hplace, .inr ⟨name, child, rfl, hchild, rfl⟩⟩
      · cases h

theorem follow_up {entries : List (String × FileTree)}
    (h : system.root.get? place = some (.directory entries)) :
    system.follow place .up = some place.dropLast := by
  simp [follow, h]

theorem follow_name {entries : List (String × FileTree)} {name : String} {child : FileTree}
    (h : system.root.get? place = some (.directory entries)) (hchild : entries.lookup name = some child) :
    system.follow place (.name name) = some (place ++ [name]) := by
  simp [follow, h, hchild]

theorem eq_concat_of_follow_name {name : String} (h : system.follow place (.name name) = some next) :
    next = place ++ [name] := by
  obtain ⟨hhere, _⟩ | ⟨_, _, ⟨hup, _⟩ | ⟨_, _, hname, _, rfl⟩⟩ := follow_cases h (by simp)
  · cases hhere
  · cases hup
  · cases hname
    rfl

/-- The steps of a path follow its components. -/
theorem follow_of_steps {segments : List (List Char)} (h : system.steps place segments = .ok next) :
    (segments.filterMap Path.component?).foldlM system.follow place = some next := by
  induction segments generalizing place with
  | nil =>
      cases h
      rfl
  | cons segment segments ih =>
      rw [steps] at h
      split at h
      · next middle hstep =>
          obtain ⟨entries, hplace, ⟨hnone, rfl⟩ | ⟨hup, rfl⟩ | ⟨name, child, hname, hchild, rfl⟩⟩ :=
            step_cases hstep
          · simpa [List.filterMap_cons, hnone] using ih h
          · simpa [List.filterMap_cons, hup, follow_up hplace] using ih h
          · simpa [List.filterMap_cons, hname, follow_name hplace hchild] using ih h
      · cases h

theorem step_of_component?_eq_none {segment : List Char} (hsegment : Path.component? segment = none)
    {entries : List (String × FileTree)} (h : system.root.get? place = some (.directory entries)) :
    system.step place segment = .ok place := by
  simp [step, h, hsegment]

theorem step_of_follow (hsystem : system.WellFormed) {segment : List Char} {component : Component}
    (hsegment : Path.component? segment = some component) (h : system.follow place component = some next) :
    system.step place segment = .ok next := by
  obtain ⟨rfl, _⟩ | ⟨entries, hplace, ⟨rfl, rfl⟩ | ⟨name, child, rfl, hchild, rfl⟩⟩ :=
    follow_cases h (Path.of_component?_eq_some hsegment).1
  · exact absurd rfl (Path.of_component?_eq_some hsegment).2
  · simp [step, hplace, hsegment]
  · have hshort : name.utf8ByteSize ≤ maxName := by
      cases hsystem.tree.get? hplace with
      | directory _ hnames _ => exact (hnames _ (FileTree.mem_of_lookup hchild)).short
    simp [step, hplace, hsegment, hchild, Nat.not_lt.mpr hshort]

/-- Components that lead to a directory begin in one. -/
theorem exists_directory_of_follow {segments : List (List Char)}
    (h : (segments.filterMap Path.component?).foldlM system.follow place = some next)
    {entries : List (String × FileTree)} (hnext : system.root.get? next = some (.directory entries)) :
    ∃ entries, system.root.get? place = some (.directory entries) := by
  cases hcomponents : segments.filterMap Path.component? with
  | nil =>
      rw [hcomponents] at h
      cases h
      exact ⟨entries, hnext⟩
  | cons component components =>
      have hmem : component ∈ segments.filterMap Path.component? := by simp [hcomponents]
      obtain ⟨segment, _, hsegment⟩ := List.mem_filterMap.mp hmem
      obtain ⟨hroot, hhere⟩ := Path.of_component?_eq_some hsegment
      rw [hcomponents] at h
      obtain ⟨middle, hmiddle, _⟩ := Option.bind_eq_some_iff.mp h
      obtain ⟨rfl, _⟩ | ⟨above, hplace, _⟩ := follow_cases hmiddle hroot
      · contradiction
      · exact ⟨above, hplace⟩

/-- Components that lead to a directory are the steps of every path that has them. -/
theorem steps_of_follow (hsystem : system.WellFormed) {segments : List (List Char)}
    (h : (segments.filterMap Path.component?).foldlM system.follow place = some next)
    {entries : List (String × FileTree)} (hnext : system.root.get? next = some (.directory entries)) :
    system.steps place segments = .ok next := by
  induction segments generalizing place with
  | nil =>
      cases h
      rfl
  | cons segment segments ih =>
      obtain ⟨above, hplace⟩ := exists_directory_of_follow h hnext
      cases hsegment : Path.component? segment with
      | none =>
          rw [List.filterMap_cons_none hsegment] at h
          rw [steps, step_of_component?_eq_none hsegment hplace]
          exact ih h
      | some component =>
          rw [List.filterMap_cons_some hsegment] at h
          obtain ⟨middle, hmiddle, hrest⟩ := Option.bind_eq_some_iff.mp h
          rw [steps, step_of_follow hsystem hsegment hmiddle]
          exact ih hrest

/-- The steps of a path begin at the root or at the working directory, and so do its components. -/
theorem follow_components (system : FileSystem) (path : Path) :
    path.components.foldlM system.follow system.workingDirectory =
      ((Path.segments path.text.toList).filterMap Path.component?).foldlM system.follow
        (if path.isAbsolute then [] else system.workingDirectory) := by
  unfold Path.components
  split_ifs <;> rfl

theorem follow_of_resolve {path : Path} (h : system.resolve path = .ok place) :
    path.components.foldlM system.follow system.workingDirectory = some place := by
  rw [follow_components]
  exact follow_of_steps (resolve_eq_ok.mp h).2.2

end FileSystem

namespace Workspace

open FileSystem

variable {system : FileSystem} {path : Path} {place : List String}

theorem named_empty : named ⟨""⟩ = ⟨"."⟩ := rfl

theorem named_of_ne (h : path.text ≠ "") : named path = path := by
  unfold named
  rw [if_neg (by simpa using h)]

theorem ups_named (path : Path) : (named path).ups = path.ups := by
  by_cases hempty : path = ⟨""⟩
  · subst hempty
    rfl
  · rw [named_of_ne fun htext => hempty (congrArg Path.mk htext)]

/-- A path that leads to a directory, where the empty path stands for the working directory. -/
structure LeadsTo (system : FileSystem) (path : Path) (place : List String) : Prop where
  nul : '\x00' ∉ path.text.toList
  follow : path.components.foldlM system.follow system.workingDirectory = some place
  directory : ∃ entries, system.root.get? place = some (.directory entries)

namespace LeadsTo

theorem of_resolve (h : system.resolve path = .ok place)
    (hplace : ∃ entries, system.root.get? place = some (.directory entries)) : LeadsTo system path place :=
  ⟨(resolve_eq_ok.mp h).1, follow_of_resolve h, hplace⟩

theorem resolve (hsystem : system.WellFormed) (h : LeadsTo system path place) :
    system.resolve (named path) = .ok place := by
  obtain ⟨entries, hplace⟩ := h.directory
  have hfollow := h.follow
  by_cases hempty : path = ⟨""⟩
  · subst hempty
    rw [named_empty]
    exact resolve_eq_ok.mpr ⟨by decide, by decide, steps_of_follow hsystem hfollow hplace⟩
  · have hne : path.text ≠ "" := fun htext => hempty (congrArg Path.mk htext)
    rw [named_of_ne hne]
    rw [follow_components] at hfollow
    exact resolve_eq_ok.mpr ⟨h.nul, hne, steps_of_follow hsystem hfollow hplace⟩

/-- One step up by the spelling of a path is one step up in the tree, unless a `..` is left out: that is a
step back down. -/
theorem parent {parent : Path} (h : LeadsTo system path place) (hparent : path.parent? = some parent) :
    ∃ above, LeadsTo system parent above ∧
      (parent.ups < path.ups ∧ place = above.dropLast ∨
        parent.ups = path.ups ∧ (place = above ∨ ∃ name, place = above ++ [name])) := by
  obtain ⟨last, hcomponents, hroot⟩ := Path.components_parent? hparent
  have hfollow := h.follow
  rw [hcomponents, List.foldlM_append] at hfollow
  obtain ⟨above, habove, hlast⟩ := Option.bind_eq_some_iff.mp hfollow
  have hnul : '\x00' ∉ parent.text.toList := fun hmem => h.nul ((Path.parent?_isPrefix hparent).subset hmem)
  have hlast : system.follow above last = some place := by simpa using hlast
  obtain ⟨rfl, rfl⟩ | ⟨entries, hentries, ⟨rfl, rfl⟩ | ⟨name, _, rfl, _, rfl⟩⟩ := follow_cases hlast hroot
  · exact ⟨place, ⟨hnul, habove, h.directory⟩, .inr ⟨by simp [Path.ups, hcomponents], .inl rfl⟩⟩
  · exact ⟨above, ⟨hnul, habove, entries, hentries⟩, .inl ⟨by simp [Path.ups, hcomponents], rfl⟩⟩
  · exact ⟨above, ⟨hnul, habove, entries, hentries⟩, .inr ⟨by simp [Path.ups, hcomponents], .inr ⟨name, rfl⟩⟩⟩

end LeadsTo

/-! ### Going up -/

/-- Every directory at or above `place` and below `top` was looked at and refused by `test`. -/
def RefusedBetween (system : FileSystem) (test : Path → Bool) (seen : List Path)
    (place top : List String) : Prop :=
  ∀ between, top <+: between → between <+: place → between ≠ top →
    ∃ above ∈ seen, system.resolve (named above) = .ok between ∧ test (named above) = false

namespace RefusedBetween

variable {test : Path → Bool} {seen : List Path} {above top : List String}

theorem refl (system : FileSystem) (test : Path → Bool) (seen : List Path) (place : List String) :
    RefusedBetween system test seen place place := by
  intro between hbelow habove hne
  exact absurd (habove.eq_of_length_le hbelow.length_le) hne

/-- A path that leads to `above` or higher up than it adds nothing to what lies between. -/
theorem cons_of_prefix (h : RefusedBetween system test seen above top) (hplace : place <+: above) :
    RefusedBetween system test (path :: seen) place top := by
  intro between hbelow habove hne
  obtain ⟨other, hmem, hother⟩ := h between hbelow (habove.trans hplace) hne
  exact ⟨other, .tail _ hmem, hother⟩

/-- A directory that is refused lies between what is above it and what is below. -/
theorem cons_of_concat (h : RefusedBetween system test seen above top) {name : String}
    (hresolve : system.resolve (named path) = .ok (above ++ [name])) (htest : test (named path) = false) :
    RefusedBetween system test (path :: seen) (above ++ [name]) top := by
  intro between hbelow habove hne
  rcases List.prefix_concat_iff.mp habove with rfl | habove
  · exact ⟨path, .head _, hresolve, htest⟩
  · exact h.cons_of_prefix List.prefix_rfl between hbelow habove hne

end RefusedBetween

/-- Going up from a directory, the first path that passes a test leads to a directory. All directories
between the two were refused, and if no `..` is left out then the one reached is the one that was left or
contains it. -/
theorem LeadsTo.find?_ascend (hsystem : system.WellFormed) {test : Path → Bool} {count : Nat} {top : Path}
    (h : LeadsTo system path place) (hfind : ((path.ascend count).map named).find? test = some top) :
    ∃ topPlace, system.resolve top = .ok topPlace ∧
      (∃ entries, system.root.get? topPlace = some (.directory entries)) ∧
      RefusedBetween system test (path.ascend count) place topPlace ∧
      top.ups ≤ path.ups ∧ (top.ups = path.ups → topPlace <+: place) := by
  induction count generalizing path place with
  | zero =>
      rw [Path.ascend, List.map_singleton, List.find?_singleton] at hfind
      split_ifs at hfind
      cases hfind
      exact ⟨place, h.resolve hsystem, h.directory, .refl _ _ _ _, (ups_named path).le,
        fun _ => List.prefix_rfl⟩
  | succ count ih =>
      rw [Path.ascend, List.map_cons, List.find?_cons] at hfind
      cases htest : test (named path) with
      | true =>
          obtain rfl : named path = top := by simpa [htest] using hfind
          exact ⟨place, h.resolve hsystem, h.directory, .refl _ _ _ _, (ups_named path).le,
            fun _ => List.prefix_rfl⟩
      | false =>
          cases hparent : path.parent? with
          | none => simp [htest, hparent] at hfind
          | some parent =>
              simp only [htest, hparent] at hfind
              obtain ⟨above, habove, hups⟩ := h.parent hparent
              obtain ⟨topPlace, hresolve, hdirectory, hrefused, hle, hcontains⟩ := ih habove hfind
              refine ⟨topPlace, hresolve, hdirectory, ?_⟩
              rw [Path.ascend, hparent]
              rcases hups with ⟨hlt, rfl⟩ | ⟨hsame, rfl | ⟨name, rfl⟩⟩
              -- a path that ends in `..` leads above its parent, so nothing new lies between
              · exact ⟨hrefused.cons_of_prefix (List.dropLast_prefix above), by omega, by omega⟩
              · exact ⟨hrefused.cons_of_prefix List.prefix_rfl, by omega, fun heq => hcontains (by omega)⟩
              · refine ⟨hrefused.cons_of_concat (h.resolve hsystem) htest, by omega, fun heq => ?_⟩
                exact (hcontains (by omega)).trans (List.prefix_append above [name])

/-! ### The root of a project -/

/-- The directory of a file. -/
def ownDirectory (file : Path) : Path :=
  named (file.parent?.getD ⟨""⟩)

/-- The path of a file without its last name leads to the directory that holds the file. -/
theorem exists_parent?_of_file {file : Path} {home : List String} {name : String} {bytes : ByteArray}
    (hfile : system.resolve file = .ok (home ++ [name]))
    (hbytes : system.root.get? (home ++ [name]) = some (.file bytes)) :
    ∃ parent, file.parent? = some parent ∧ LeadsTo system parent home ∧ parent.ups = file.ups := by
  have hlast := getLast?_components_of_resolve hfile hbytes
  rw [List.getLast?_concat, Option.map_some] at hlast
  obtain ⟨front, hfront⟩ := List.getLast?_eq_some_iff.mp hlast
  obtain ⟨parent, hparent⟩ := Path.exists_parent? hfront
  obtain ⟨last, hcomponents, _⟩ := Path.components_parent? hparent
  obtain ⟨rfl, hname⟩ := List.append_inj' (hfront.symm.trans hcomponents) rfl
  obtain rfl := (List.cons.inj hname).1
  -- the last component is a step from the place of the parent, so that place is `home`
  have hfollow := follow_of_resolve hfile
  rw [hcomponents, List.foldlM_append] at hfollow
  obtain ⟨above, habove, hstep⟩ := Option.bind_eq_some_iff.mp hfollow
  have hstep : system.follow above (.name name) = some (home ++ [name]) := by simpa using hstep
  obtain rfl : home = above := (List.append_inj' (eq_concat_of_follow_name hstep) rfl).1
  obtain ⟨entries, hentries, _⟩ := FileTree.exists_directory_of_get?_concat hbytes
  refine ⟨parent, hparent, ⟨fun hmem => ?_, habove, entries, hentries⟩, by simp [Path.ups, hcomponents]⟩
  exact (resolve_eq_ok.mp hfile).1 ((Path.parent?_isPrefix hparent).subset hmem)

theorem leadsTo_ownDirectory (hsystem : system.WellFormed) {file : Path}
    (hfile : system.resolve file = .ok place) {bytes : ByteArray}
    (hbytes : system.root.get? place = some (.file bytes)) :
    LeadsTo system (ownDirectory file) place.dropLast ∧ (ownDirectory file).ups = file.ups := by
  rcases List.eq_nil_or_concat place with rfl | ⟨home, name, rfl⟩
  · obtain ⟨entries, hroot⟩ := hsystem.exists_root
    rw [hroot] at hbytes
    cases hbytes
  · rw [List.concat_eq_append] at hfile hbytes ⊢
    obtain ⟨parent, hparent, hleads, hups⟩ := exists_parent?_of_file hfile hbytes
    rw [List.dropLast_concat, ownDirectory, hparent, Option.getD_some, ups_named]
    exact ⟨.of_resolve (hleads.resolve hsystem) hleads.directory, hups⟩

/-- Whether the directory at a place has a manifest. -/
def HoldsManifest (system : FileSystem) (place : List String) : Prop :=
  ∃ bytes, system.root.get? (place ++ [manifestFile]) = some (.file bytes)

theorem isFileName_manifestFile : IsFileName manifestFile :=
  ⟨by decide, by decide, by decide, by decide⟩

theorem holdsManifest_of_isFile (hpath : system.resolve path = .ok place)
    (h : system.isFile (path.join manifestFile) = true) : HoldsManifest system place := by
  have hname := isFileName_manifestFile
  obtain ⟨bytes, hnode⟩ := isFile_iff.mp h
  obtain ⟨_, reached, hreached, hbytes⟩ := node_eq_ok.mp hnode
  rw [resolve_join hpath hname.isAbsolute_eq_false hname.nul, Path.segments_of_notMem hname.slash] at hreached
  have hfollow : system.follow place (.name manifestFile) = some reached := by
    simpa [hname.component] using follow_of_steps hreached
  obtain rfl := eq_concat_of_follow_name hfollow
  exact ⟨bytes, hbytes⟩

theorem isFile_of_holdsManifest (hpath : system.resolve path = .ok place)
    (hshort : isTooLong (path.join manifestFile) = false) (h : HoldsManifest system place) :
    system.isFile (path.join manifestFile) = true := by
  obtain ⟨bytes, hbytes⟩ := h
  obtain ⟨entries, hplace, hmanifest⟩ := FileTree.exists_directory_of_get?_concat hbytes
  have hresolve := resolve_join_name hpath hplace isFileName_manifestFile hmanifest
  exact isFile_iff.mpr ⟨bytes, node_eq_ok.mpr ⟨hshort, _, hresolve, hbytes⟩⟩

/-- Directories on the way up that were refused have no manifest, unless the paths to one are too long. -/
theorem RefusedBetween.not_holdsManifest {seen : List Path} {top between : List String}
    (h : RefusedBetween system (fun above => system.isFile (above.join manifestFile)) seen place top)
    (hshort : ∀ above ∈ seen, isTooLong ((named above).join manifestFile) = false) (hbelow : top <+: between)
    (habove : between <+: place) (hne : between ≠ top) : ¬ HoldsManifest system between := by
  intro hmanifest
  obtain ⟨above, hmem, hresolve, htest⟩ := h between hbelow habove hne
  have hpass := isFile_of_holdsManifest hresolve (hshort above hmem) hmanifest
  exact Bool.false_ne_true (htest.symm.trans hpass)

theorem projectRoot_eq (system : FileSystem) (file : Path) : projectRoot system file =
    (((ownDirectory file).ancestors.map named).find? fun above =>
      system.isFile (above.join manifestFile)).getD (ownDirectory file) := rfl

theorem named_ownDirectory (file : Path) : named (ownDirectory file) = ownDirectory file := by
  refine named_of_ne ?_
  unfold ownDirectory named
  split_ifs with hempty
  · decide
  · simpa using hempty

/-- The root that is taken for the project of a file is a directory, and one with a manifest unless it is
the directory of the file. No directory between the two has a manifest, unless the path to one is too long
to be opened. The root keeps some of the parts `..` of the file's path, and if it keeps them all, then it
is the directory of the file or contains it. -/
theorem projectRoot_contains (hsystem : system.WellFormed) {file : Path}
    (hfile : system.resolve file = .ok place) {bytes : ByteArray}
    (hbytes : system.root.get? place = some (.file bytes)) :
    ∃ top, system.resolve (projectRoot system file) = .ok top ∧
      (∃ entries, system.root.get? top = some (.directory entries)) ∧
      (top ≠ place.dropLast → HoldsManifest system top) ∧
      ((∀ above ∈ (ownDirectory file).ancestors, isTooLong ((named above).join manifestFile) = false) →
        ∀ between, top <+: between → between <+: place.dropLast → between ≠ top →
          ¬ HoldsManifest system between) ∧
      (projectRoot system file).ups ≤ file.ups ∧
      ((projectRoot system file).ups = file.ups → top <+: place.dropLast) := by
  obtain ⟨hown, hups⟩ := leadsTo_ownDirectory hsystem hfile hbytes
  rw [projectRoot_eq]
  cases hfind : ((ownDirectory file).ancestors.map named).find?
      fun above => system.isFile (above.join manifestFile) with
  | none =>
      rw [Option.getD_none]
      have hresolve := hown.resolve hsystem
      rw [named_ownDirectory] at hresolve
      refine ⟨place.dropLast, hresolve, hown.directory, fun hne => absurd rfl hne, fun hshort _ => ?_,
        hups.le, fun _ => List.prefix_rfl⟩
      exact (RefusedBetween.refl _ _ _ _).not_holdsManifest hshort
  | some root =>
      rw [Option.getD_some]
      obtain ⟨top, hresolve, hdirectory, hrefused, hcontains⟩ := hown.find?_ascend hsystem hfind
      rw [hups] at hcontains
      have htest := List.find?_some hfind
      refine ⟨top, hresolve, hdirectory, fun _ => holdsManifest_of_isFile hresolve htest,
        fun hshort _ => ?_, hcontains⟩
      exact hrefused.not_holdsManifest hshort

/-- A path that goes through another directory first keeps its `..`. -/
theorem projectRoot_contains_shared :
    ∃ top, (exampleProject "src").resolve
        (projectRoot (exampleProject "src") ⟨"shared/../app/src/Main.elm"⟩) = .ok top ∧
      top <+: ["app", "src"] ∧ HoldsManifest (exampleProject "src") top ∧
      ¬ HoldsManifest (exampleProject "src") ["app", "src"] := by
  have hroot : projectRoot (exampleProject "src") ⟨"shared/../app/src/Main.elm"⟩ = ⟨"shared/../app"⟩ := by
    decide +kernel
  have htop : (exampleProject "src").resolve ⟨"shared/../app"⟩ = .ok ["app"] := by decide +kernel
  have hfile : (exampleProject "src").resolve ⟨"shared/../app/src/Main.elm"⟩ =
      .ok ["app", "src", "Main.elm"] := by
    decide +kernel
  obtain ⟨top, hresolve, _, hmanifest, hbetween, _, hcontains⟩ :=
    projectRoot_contains (exampleProject_wellFormed "src") hfile rfl
  rw [hroot] at hresolve hcontains
  obtain rfl : ["app"] = top := Except.ok.inj (htop.symm.trans hresolve)
  refine ⟨["app"], hroot ▸ htop, hcontains (by decide +kernel), hmanifest (by decide), ?_⟩
  exact hbetween (by decide +kernel) ["app", "src"] (by decide) (by decide) (by decide)

/-- Where a `..` is left out the root may be a directory beside that of the file. -/
theorem projectRoot_beside :
    (exampleProject "src").resolve ⟨"app/../shared/Shared.elm"⟩ = .ok ["shared", "Shared.elm"] ∧
      projectRoot (exampleProject "src") ⟨"app/../shared/Shared.elm"⟩ = ⟨"app"⟩ ∧
      (exampleProject "src").resolve ⟨"app"⟩ = .ok ["app"] ∧ ¬ ["app"] <+: ["shared"] := by
  decide +kernel

end Workspace

end ElmNavigation
