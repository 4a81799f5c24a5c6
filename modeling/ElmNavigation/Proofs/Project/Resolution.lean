import ElmNavigation.Project.Definition
import ElmNavigation.Proofs.Project.Graph
import Mathlib.Data.List.Pairwise

/-! Where a name is declared, said without tables and graphs: in the file itself, or else in the owner of
the first imported module that declares it. The graph answers in the same way, whatever the order of the
files: sorting only decides who owns a module, inserting nodes hides none of them, and the dependencies
that are left out are repeated ones and the file itself. -/

namespace ElmNavigation

namespace SourceFile

/-- The declarations of a file. -/
def statements (file : SourceFile) : List Statement :=
  (parse file.text).statements

/-- The name in the first module header. -/
def moduleName? (file : SourceFile) : Option String :=
  file.statements.findSome? Statement.headerName?

/-- The imports in the order of the source. -/
def imports (file : SourceFile) : List Import :=
  file.statements.filterMap Statement.import?

/-- The first declaration of a type with the given name. -/
def definition? (file : SourceFile) (name : String) : Option Definition :=
  (file.statements.find? (·.declaredType? = some name)).map fun statement =>
    ⟨file.path, name, statement.position⟩

end SourceFile

/-- The file with the greatest path among those whose module has the given name. -/
def owner? (files : List SourceFile) (name : String) : Option SourceFile :=
  files.find? fun file => file.moduleName? = some name ∧
    ∀ other ∈ files, other.moduleName? = some name → other.path.le file.path = true

/-- The declaration of a name that is used in the file at `path`, by looking at the files themselves. -/
def directDefinition? (files : List SourceFile) (path : Path) (name : String) : Option Definition :=
  (files.find? (·.path.same path)).bind fun file =>
    (file.definition? name).or <| file.imports.findSome? fun decl =>
      (owner? files decl.moduleName).bind fun owner =>
        if file.path.same owner.path then none else owner.definition? name

/-! ### Records of files -/

namespace SourceFile

/-- The record of a file. -/
def record (file : SourceFile) : FileRecord :=
  .ofStatements file.path file.statements

theorem ofSource?_eq (file : SourceFile) : FileRecord.ofSource? file = some file.record := by
  obtain ⟨constructs, _, hconstructs⟩ := exists_constructs file.text.toList
  have hparse : parse file.text = .parsed (constructs.filterMap Construct.statement?) := by
    rw [parse, parseWithDiagnostics, hconstructs]
  rw [FileRecord.ofSource?, record, statements, hparse]
  rfl

theorem record_definition? (file : SourceFile) (name : String) :
    file.record.definition? name = file.definition? name := by
  have hfind : (file.statements.filterMap Statement.typeEntry?).find? (·.name == name) =
      (file.statements.find? (·.declaredType? = some name)).map fun statement =>
        ⟨name, statement.position⟩ := by
    induction file.statements with
    | nil => rfl
    | cons statement statements ih =>
        rw [List.filterMap_cons, List.find?_cons, Statement.typeEntry?]
        cases hdeclared : statement.declaredType? with
        | none => exact ih
        | some own =>
            rw [Option.map_some]
            dsimp only
            rw [List.find?_cons]
            by_cases hown : own = name
            · simp [hown]
            · have hne : (own == name) = false := beq_false_of_ne hown
              simp [hown, hne, ih]
  rw [FileRecord.definition?, FileRecord.lookup?, record, FileRecord.ofStatements]
  dsimp only
  rw [hfind, Option.map_map]
  rfl

end SourceFile

theorem indexFiles_eq (files : List SourceFile) :
    indexFiles files = (files.map SourceFile.record).mergeSort FileRecord.le := by
  rw [indexFiles]
  congr 1
  induction files with
  | nil => rfl
  | cons file files ih => rw [List.filterMap_cons, SourceFile.ofSource?_eq, ih, List.map_cons]

/-- The records of a project in the order of their paths. -/
theorem mem_sorted_iff {files : List SourceFile} {record : FileRecord} :
    record ∈ (indexFiles files).mergeSort FileRecord.le ↔ ∃ file ∈ files, file.record = record := by
  rw [List.mem_mergeSort, indexFiles_eq, List.mem_mergeSort, List.mem_map]

/-! ### Files with different paths -/

section

variable {files : List SourceFile}
  (hdistinct : files.Pairwise fun left right => left.path.same right.path = false)

include hdistinct

theorem eq_of_same_path {left right : SourceFile} (hleft : left ∈ files) (hright : right ∈ files)
    (hsame : left.path.same right.path = true) : left = right := by
  by_contra hne
  have hsymm : Std.Symm fun left right : SourceFile => left.path.same right.path = false :=
    ⟨fun left right h => by rwa [Path.same_comm]⟩
  have hdiffer := hdistinct.forall hleft hright hne
  rw [hdiffer] at hsame
  cases hsame

theorem find?_path_eq {file : SourceFile} (hmem : file ∈ files) {path : Path}
    (hsame : file.path.same path = true) : files.find? (·.path.same path) = some file := by
  cases hfind : files.find? (·.path.same path) with
  | none => exact absurd hsame (List.find?_eq_none.mp hfind file hmem)
  | some found =>
      have hfound := List.find?_some hfind
      rw [Path.same_comm] at hsame
      rw [eq_of_same_path hdistinct (List.mem_of_find?_eq_some hfind) hmem
        (by rwa [Path.same_congr_left hfound])]

theorem owner?_eq_some {file : SourceFile} {name : String} (hmem : file ∈ files)
    (hname : file.moduleName? = some name)
    (hgreatest : ∀ other ∈ files, other.moduleName? = some name → other.path.le file.path = true) :
    owner? files name = some file := by
  cases hfind : owner? files name with
  | none =>
      have hnone := List.find?_eq_none.mp hfind file hmem
      rw [decide_eq_true_eq] at hnone
      exact absurd ⟨hname, hgreatest⟩ hnone
  | some found =>
      have hfound := List.find?_some hfind
      rw [decide_eq_true_eq] at hfound
      have hmem' := List.mem_of_find?_eq_some hfind
      have hsame := Path.same_of_le_of_le (hgreatest found hmem' hfound.1) (hfound.2 file hmem hname)
      rw [eq_of_same_path hdistinct hmem' hmem hsame]

/-- The table of modules knows the owners. -/
theorem modulePath?_eq (name : String) :
    (DependencyGraph.ofFiles files).modulePath? name = (owner? files name).map SourceFile.path := by
  rw [DependencyGraph.modulePath?, DependencyGraph.ofFiles, DependencyGraph.build]
  dsimp only
  rw [ModuleTable.owner?_ofRecords]
  cases hfind : ((indexFiles files).mergeSort FileRecord.le).reverse.find? (·.moduleName = some name) with
  | none =>
      have hnone : owner? files name = none := by
        rw [owner?, List.find?_eq_none]
        intro file hmem
        have hrecord := List.find?_eq_none.mp hfind file.record
          (List.mem_reverse.mpr (mem_sorted_iff.mpr ⟨file, hmem, rfl⟩))
        rw [decide_eq_true_eq] at hrecord ⊢
        exact fun hfile => hrecord hfile.1
      rw [hnone]
      rfl
  | some record =>
      obtain ⟨hname, later, earlier, hreverse, hlater⟩ := List.find?_eq_some_iff_append.mp hfind
      rw [decide_eq_true_eq] at hname
      have hsorted := FileRecord.pairwise_mergeSort (indexFiles files)
      rw [← List.reverse_reverse ((indexFiles files).mergeSort FileRecord.le), hreverse, List.reverse_append,
        List.reverse_cons, List.append_assoc] at hsorted
      have hmem : record ∈ (indexFiles files).mergeSort FileRecord.le := by
        rw [← List.mem_reverse, hreverse]
        simp
      obtain ⟨file, hfile, rfl⟩ := mem_sorted_iff.mp hmem
      have howner : owner? files name = some file := by
        refine owner?_eq_some hdistinct hfile hname fun other hother hsame => ?_
        have hrecord : other.record ∈ later ++ file.record :: earlier := by
          rw [← hreverse, List.mem_reverse]
          exact mem_sorted_iff.mpr ⟨other, hother, rfl⟩
        rcases List.mem_append.mp hrecord with hrecord | hrecord
        · have hnot := hlater other.record hrecord
          rw [Bool.not_eq_true', decide_eq_false_iff_not] at hnot
          exact absurd hsame hnot
        · rcases List.mem_cons.mp hrecord with hrecord | hrecord
          · rw [show other.path = other.record.path from rfl, hrecord]
            exact Path.le_iff.mpr (le_refl _)
          · exact (List.pairwise_append.mp hsorted).2.2 other.record (List.mem_reverse.mpr hrecord)
              file.record (by simp)
      rw [howner]
      rfl

/-- Every file has its node, and there are no others. -/
theorem node?_ofFiles (path : Path) :
    (DependencyGraph.ofFiles files).node? path =
      (files.find? (·.path.same path)).map fun file =>
        Node.ofRecord (DependencyGraph.ofFiles files).modules file.record := by
  rw [DependencyGraph.ofFiles, DependencyGraph.node?_build]
  cases hfind : ((indexFiles files).mergeSort FileRecord.le).reverse.find? (·.path.same path) with
  | none =>
      have hnone : files.find? (·.path.same path) = none := by
        rw [List.find?_eq_none]
        intro file hmem
        exact List.find?_eq_none.mp hfind file.record
          (List.mem_reverse.mpr (mem_sorted_iff.mpr ⟨file, hmem, rfl⟩))
      rw [hnone]
      rfl
  | some record =>
      obtain ⟨file, hmem, rfl⟩ := mem_sorted_iff.mp (List.mem_reverse.mp (List.mem_of_find?_eq_some hfind))
      have hsame : file.record.path.same path = true :=
        List.find?_some (p := fun record : FileRecord => record.path.same path) hfind
      rw [find?_path_eq hdistinct hmem hsame]
      rfl

/-- A name that a file declares is found in the file. -/
theorem resolveDefinition?_of_own {file : SourceFile} (hmem : file ∈ files) {path : Path}
    (hsame : file.path.same path = true) {name : String} {definition : Definition}
    (h : file.definition? name = some definition) : resolveDefinition? files path name = some definition := by
  rw [resolveDefinition?, DependencyGraph.resolve?, node?_ofFiles hdistinct,
    find?_path_eq hdistinct hmem hsame]
  show (file.record.definition? name).or _ = _
  rw [file.record_definition?, h]
  rfl

/-- The graph resolves a name as the files themselves do: own declarations first, then the owners of the
imported modules in the order of the imports. -/
theorem resolveDefinition?_eq_directDefinition? (path : Path) (name : String) :
    resolveDefinition? files path name = directDefinition? files path name := by
  have hdefinition : ∀ target : Path, ((DependencyGraph.ofFiles files).node? target).bind
      (fun node => node.record.definition? name) =
        (files.find? (·.path.same target)).bind fun file => file.definition? name := by
    intro target
    rw [node?_ofFiles hdistinct, Option.bind_map]
    congr 1
    funext file
    exact file.record_definition? name
  rw [resolveDefinition?, DependencyGraph.resolve?, node?_ofFiles hdistinct, directDefinition?]
  cases hfile : files.find? (·.path.same path) with
  | none => rfl
  | some file =>
      simp only [Option.map_some, Option.bind_some, hdefinition]
      rw [show (Node.ofRecord (DependencyGraph.ofFiles files).modules file.record).record =
        file.record from rfl, SourceFile.record_definition?]
      congr 1
      rw [show (Node.ofRecord (DependencyGraph.ofFiles files).modules file.record).dependencies =
          (Node.targets (DependencyGraph.ofFiles files).modules file.record).foldl
            (Node.addDependency file.path) [] from rfl,
        Node.findSome?_foldl_addDependency ?_ file.path, List.findSome?_nil, Option.none_or, Node.targets,
        ← List.head?_filterMap, List.filterMap_filterMap, List.head?_filterMap]
      · refine congrArg (fun answer => List.findSome? answer file.imports) (funext fun decl => ?_)
        have hmodule := modulePath?_eq hdistinct decl.moduleName
        rw [DependencyGraph.modulePath?] at hmodule
        rw [hmodule]
        cases howner : owner? files decl.moduleName with
        | none => rfl
        | some owner =>
            have hmem := List.mem_of_find?_eq_some howner
            rw [Option.map_some, Option.bind_some, Option.bind_some,
              find?_path_eq hdistinct hmem (Path.same_refl _), Option.bind_some]
      · intro left right hsame
        rw [← hdefinition, ← hdefinition, DependencyGraph.node?_congr _ hsame]

end

/-- Of two files with the same module the one with the greater path is asked. -/
theorem resolveDefinition?_of_two_owners :
    resolveDefinition? [⟨⟨"b.elm"⟩, "module T\ntype U = B"⟩, ⟨⟨"a.elm"⟩, "module T\n\ntype U = A"⟩,
        ⟨⟨"main.elm"⟩, "import T"⟩] ⟨"main.elm"⟩ "U" =
      some ⟨⟨"b.elm"⟩, "U", ⟨1, 0, 9⟩⟩ := by
  rw [resolveDefinition?_eq_directDefinition? (by decide +kernel)]
  decide +kernel

end ElmNavigation
