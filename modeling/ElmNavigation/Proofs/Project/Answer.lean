import ElmNavigation.Proofs.Declaration.Positions
import ElmNavigation.Proofs.Project.Resolution

/-! What an answer points at. Whatever file an answer comes from, it is the first declaration of the name
there: its offset is that of a word `type`, its line and column are those of the offset, and the name
follows the word. -/

namespace ElmNavigation

/-- An answer is the first declaration of the name in one of the files. -/
theorem exists_definition?_of_resolve {files : List SourceFile}
    (hdistinct : files.Pairwise fun left right => left.path.same right.path = false) {path : Path}
    {name : String} {definition : Definition} (h : resolveDefinition? files path name = some definition) :
    ∃ file ∈ files, file.definition? name = some definition := by
  have hnode : ∀ {path : Path} {node : Node}, (DependencyGraph.ofFiles files).node? path = some node →
      node.record.definition? name = some definition →
      ∃ file ∈ files, file.definition? name = some definition := by
    intro path node hnode hdefinition
    rw [node?_ofFiles hdistinct] at hnode
    obtain ⟨file, hfile, rfl⟩ := Option.map_eq_some_iff.mp hnode
    exact ⟨file, List.mem_of_find?_eq_some hfile, by rw [← file.record_definition?]; exact hdefinition⟩
  rw [resolveDefinition?, DependencyGraph.resolve?] at h
  cases hfound : (DependencyGraph.ofFiles files).node? path with
  | none =>
      rw [hfound] at h
      cases h
  | some node =>
      rw [hfound] at h
      rcases Option.or_eq_some_iff.mp h with hown | ⟨_, himported⟩
      · exact hnode hfound hown
      · obtain ⟨dependency, _, hdependency⟩ := List.exists_of_findSome?_eq_some himported
        obtain ⟨target, htarget, hdefinition⟩ := Option.bind_eq_some_iff.mp hdependency
        exact hnode htarget hdefinition

/-- A declaration of a type stands at a word `type` that the name follows. -/
theorem SourceFile.exists_keyword_of_mem_statements {file : SourceFile} {statement : Statement}
    (hmem : statement ∈ file.statements) {name : String} (hname : statement.declaredType? = some name) :
    ∃ before keyword after, Token.tokens file.text.toList = before ++ keyword :: after ∧
      keyword.kind = .typeWord ∧ keyword.start = statement.position.offset ∧
      statement.position = (Text.LineIndex.ofText file.text.toList).position statement.position.offset ∧
      ∃ token, Token.declaredName? after = some token ∧ token.kind = .upperName ∧ token.text = name := by
  obtain ⟨constructs, hreads, _⟩ := exists_constructs file.text.toList
  have hstatements : file.statements = constructs.filterMap Construct.statement? := by
    rw [statements, parse, parseWithDiagnostics_of_reads hreads]
    rfl
  rw [hstatements] at hmem
  obtain ⟨construct, hconstruct, hstatement⟩ := List.mem_filterMap.mp hmem
  have hposition := hreads.statement_position hconstruct hstatement
  obtain ⟨before, first, rest, hplaced, hkind, rfl⟩ := hreads.exists_of_mem hconstruct
  obtain ⟨hword, token, htoken, hupper, htext⟩ :=
    Construct.declaredName?_of_accepted hkind (Construct.statement?_eq_some.mp hstatement) hname
  rw [Construct.read_first] at hposition
  have hfirst : first ∈ Token.placed file.text.toList := by
    rw [hplaced]
    simp
  have hoffset := Token.offset_of_mem_placed hfirst
  refine ⟨before.map (·.toToken), first.toToken, rest.map (·.toToken), ?_, hword, ?_, ?_, token, htoken,
    hupper, htext⟩
  · rw [← List.map_cons, ← List.map_append, ← hplaced, Token.placed, List.map_map]
    exact (List.map_id _).symm
  · rw [hposition, hoffset]
  · rw [hposition, hoffset]
    exact (Token.mem_placed_iff.mp hfirst).2

/-- The first declaration of a name in a text stands at a word `type` that the name follows. -/
theorem SourceFile.exists_keyword_of_definition? {file : SourceFile} {name : String} {definition : Definition}
    (h : file.definition? name = some definition) :
    ∃ before keyword after, Token.tokens file.text.toList = before ++ keyword :: after ∧
      keyword.kind = .typeWord ∧ keyword.start = definition.position.offset ∧
      definition.position = (Text.LineIndex.ofText file.text.toList).position definition.position.offset ∧
      ∃ token, Token.declaredName? after = some token ∧ token.kind = .upperName ∧ token.text = name := by
  obtain ⟨statement, hfind, rfl⟩ := Option.map_eq_some_iff.mp h
  have hname := List.find?_some hfind
  rw [decide_eq_true_eq] at hname
  exact exists_keyword_of_mem_statements (List.mem_of_find?_eq_some hfind) hname

/-- No declaration of the name stands before the first one. -/
theorem SourceFile.offset_le_of_definition? {file : SourceFile} {name : String} {definition : Definition}
    (h : file.definition? name = some definition) {statement : Statement} (hmem : statement ∈ file.statements)
    (hname : statement.declaredType? = some name) :
    definition.position.offset ≤ statement.position.offset := by
  obtain ⟨constructs, hreads, _⟩ := exists_constructs file.text.toList
  have hpairwise : file.statements.Pairwise fun left right =>
      left.position.offset < right.position.offset := by
    rw [statements, parse, parseWithDiagnostics_of_reads hreads]
    exact pairwise_statements hreads
  obtain ⟨first, hfind, rfl⟩ := Option.map_eq_some_iff.mp h
  obtain ⟨_, before, after, hsplit, hbefore⟩ := List.find?_eq_some_iff_append.mp hfind
  rw [hsplit] at hmem hpairwise
  rcases List.mem_append.mp hmem with hmem | hmem
  · have hother := hbefore statement hmem
    rw [Bool.not_eq_true', decide_eq_false_iff_not] at hother
    exact absurd hname hother
  · rcases List.mem_cons.mp hmem with rfl | hmem
    · exact Nat.le_refl _
    · exact Nat.le_of_lt ((List.pairwise_cons.mp (List.pairwise_append.mp hpairwise).2.1).1 statement hmem)

/-- An answer points at a real declaration of the name: at a word `type` in a file of the project, with
the name after it, and at the first such declaration there. -/
theorem exists_declaration_of_resolveDefinition? {files : List SourceFile}
    (hdistinct : files.Pairwise fun left right => left.path.same right.path = false) {path : Path}
    {name : String} {definition : Definition} (h : resolveDefinition? files path name = some definition) :
    definition.name = name ∧ ∃ file ∈ files, file.path = definition.path ∧
      (∃ before keyword after, Token.tokens file.text.toList = before ++ keyword :: after ∧
        keyword.kind = .typeWord ∧ keyword.start = definition.position.offset ∧
        definition.position = (Text.LineIndex.ofText file.text.toList).position definition.position.offset ∧
        ∃ token, Token.declaredName? after = some token ∧ token.kind = .upperName ∧ token.text = name) ∧
      ∀ statement ∈ (parse file.text).statements, statement.position.offset < definition.position.offset →
        statement.declaredType? ≠ some name := by
  obtain ⟨file, hmem, hdefinition⟩ := exists_definition?_of_resolve hdistinct h
  obtain ⟨statement, _, rfl⟩ := Option.map_eq_some_iff.mp hdefinition
  refine ⟨rfl, file, hmem, rfl, SourceFile.exists_keyword_of_definition? hdefinition, ?_⟩
  intro other hother hlt hname
  exact absurd (SourceFile.offset_le_of_definition? hdefinition hother hname) (Nat.not_le_of_lt hlt)

/-- The first of two declarations, with its opening words on two lines. -/
theorem exists_declaration_of_alias_on_two_lines :
    ∃ file ∈ [(⟨⟨"a.elm"⟩, "\n\ntype\n alias U = A\ntype U = B"⟩ : SourceFile)], file.path = ⟨"a.elm"⟩ ∧
      ∃ before keyword after, Token.tokens file.text.toList = before ++ keyword :: after ∧
        keyword.kind = .typeWord ∧ keyword.start = 2 ∧
        ∃ token, Token.declaredName? after = some token ∧ token.kind = .upperName ∧ token.text = "U" := by
  have hresolve : resolveDefinition? [⟨⟨"a.elm"⟩, "\n\ntype\n alias U = A\ntype U = B"⟩] ⟨"a.elm"⟩ "U" =
      some ⟨⟨"a.elm"⟩, "U", ⟨2, 0, 2⟩⟩ := by
    rw [resolveDefinition?, DependencyGraph.ofFiles, indexFiles_eq, List.map_singleton,
      List.mergeSort_singleton, DependencyGraph.build, List.mergeSort_singleton]
    decide +kernel
  obtain ⟨_, file, hmem, hpath, ⟨before, keyword, after, htokens, hword, hstart, _, hname⟩, _⟩ :=
    exists_declaration_of_resolveDefinition? (List.pairwise_singleton _ _) hresolve
  exact ⟨file, hmem, hpath, before, keyword, after, htokens, hword, hstart, hname⟩

end ElmNavigation
