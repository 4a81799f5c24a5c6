import ElmNavigation.Proofs.Project.Answer
import ElmNavigation.Proofs.Text.Caret
import ElmNavigation.Proofs.Token.Words
import Mathlib.Data.List.Nodup

/-! The word under a caret and the token under it. A caret is given by line and column, which lead back to
the place that they were taken from. There the word is found by a scan to both sides, while the token was
cut by reading all the text before it; the two are the same wherever no underscore stands directly before
the token. Before the name of a declared type stands a word or a line break, so a caret on that name
always leads to the name's first declaration. -/

namespace ElmNavigation

namespace Token

open Text

/-- The caret on any character of a word finds the word, unless an underscore stands before it. -/
theorem wordAt?_of_isWord {source : String} {token : Token} (hmem : token ∈ tokens source.toList)
    (hkind : token.kind.isWord = true)
    (hbefore : ∀ before after, source.toList = before ++ (token.chars ++ after) →
      token.start = byteLength before → before.getLast? ≠ some '_')
    {offset : Nat} (hstart : token.start ≤ offset) (hstop : offset < token.stop) :
    wordAt? source ((LineIndex.ofText source.toList).position offset).line
      ((LineIndex.ofText source.toList).position offset).column = some token.text := by
  obtain ⟨before, after, _, htext, hplace, _, hrun, hafter, hlast⟩ := exists_run_of_isWord hmem hkind
  have hend : ∀ c ∈ before.getLast?, isWordChar c = false := by
    intro c hc
    rw [← Bool.not_eq_true]
    intro hword
    obtain ⟨rfl, _⟩ := hlast c hc hword
    exact hbefore before after htext hplace hc
  -- a word has one byte for each character, so the offset is the end of some of its characters
  have hsize := byteLength_of_isWordChar hrun
  obtain ⟨left, right, hsplit, hoffset⟩ : ∃ left right, token.chars = left ++ right ∧
      offset = byteLength (before ++ left) := by
    refine ⟨token.chars.take (offset - token.start), token.chars.drop (offset - token.start),
      (List.take_append_drop _ _).symm, ?_⟩
    rw [stop, hsize] at hstop
    rw [byteLength_append, byteLength_of_isWordChar fun c hc => hrun c (List.mem_of_mem_take hc),
      List.length_take, ← hplace]
    omega
  have hne : right ≠ [] := by
    rintro rfl
    rw [stop, hsplit, List.append_nil, hplace, ← byteLength_append] at hstop
    omega
  rw [hsplit] at hrun
  have hwhole : source.toList = before ++ left ++ (right ++ after) := by
    rw [htext, hsplit, List.append_assoc, List.append_assoc]
  rw [wordAt?, hwhole, hoffset, LineIndex.position_ofText, LineIndex.offset?_endOf]
  dsimp only
  rw [wordAtOffset?_of_run (fun c hc => hrun c (List.mem_append_left _ hc))
    (fun c hc => hrun c (List.mem_append_right _ hc)) hne hend hafter, text, hsplit]
  rfl

/-! ### The name of a declared type -/

theorem nodup_tokens (text : List Char) : (tokens text).Nodup := by
  refine (pairwise_tokens text).imp_of_mem fun {left right} hleft _ hle heq => ?_
  have hlt := start_lt_stop_of_mem_tokens hleft
  rw [← heq] at hle
  omega

/-- Between the word `type` and the name of the type stand line breaks and the word `alias`. -/
theorem exists_split_of_declaredName? {after : List Token} {token : Token}
    (h : declaredName? after = some token) :
    ∃ skipped rest, after = skipped ++ token :: rest ∧
      ∀ other ∈ skipped, other.kind = .newline ∨ other.kind = .aliasWord := by
  have hbreaks : ∀ {skipped : List Token}, (∀ other ∈ skipped, ¬ decide (other.kind ≠ .newline) = true) →
      ∀ other ∈ skipped, other.kind = .newline ∨ other.kind = .aliasWord := by
    intro skipped hskipped other hother
    have hbreak := hskipped other hother
    rw [decide_eq_true_eq, Decidable.not_not] at hbreak
    exact .inl hbreak
  rw [declaredName?] at h
  split at h
  · cases h
  · next first rest hfilter =>
      obtain ⟨skipped, later, rfl, hskipped, _, hlater⟩ := List.filter_eq_cons_iff.mp hfilter
      split at h
      · next halias =>
          obtain ⟨others, rfl⟩ := List.head?_eq_some_iff.mp h
          obtain ⟨skipped', later', rfl, hskipped', _, _⟩ := List.filter_eq_cons_iff.mp hlater
          refine ⟨skipped ++ first :: skipped', later', by rw [List.append_assoc]; rfl, ?_⟩
          intro other hother
          rcases List.mem_append.mp hother with hother | hother
          · exact hbreaks hskipped other hother
          · rcases List.mem_cons.mp hother with rfl | hother
            · exact .inr halias
            · exact hbreaks hskipped' other hother
      · obtain rfl := Option.some.inj h
        exact ⟨skipped, later, rfl, hbreaks hskipped⟩

/-- No underscore stands before the name of a declared type. -/
theorem getLast?_before_declaredName {text front back : List Char} {before after : List Token}
    {keyword token : Token} (htokens : tokens text = before ++ keyword :: after)
    (hword : keyword.kind = .typeWord) (hname : declaredName? after = some token)
    (hkind : token.kind.isWord = true) (htext : text = front ++ (token.chars ++ back))
    (hstart : token.start = byteLength front) : front.getLast? ≠ some '_' := by
  intro hunderscore
  obtain ⟨skipped, rest, rfl, hskipped⟩ := exists_split_of_declaredName? hname
  have hmem : token ∈ tokens text := by
    rw [htokens]
    simp
  obtain ⟨front', back', rest', htext', hstart', htokens', _, _, hlast⟩ := exists_run_of_isWord hmem hkind
  obtain ⟨rfl, _⟩ := append_inj_of_byteLength (htext.symm.trans htext') (hstart.symm.trans hstart')
  obtain ⟨_, last, hlast, hlastKind⟩ := hlast '_' hunderscore rfl
  -- the tokens before the name are those up to the word `type` and the ones that are skipped
  have hsplit : tokens front ++ token :: rest' = (before ++ keyword :: skipped) ++ token :: rest := by
    rw [← htokens', htokens, List.append_assoc]
    rfl
  have honce := nodup_tokens text
  rw [htokens', List.nodup_middle, List.nodup_cons, List.mem_append, not_or] at honce
  have hsame := ((List.append_cons_inj_of_notMem honce.1.1 honce.1.2).mp hsplit).1
  rw [hsame, List.getLast?_append, List.getLast?_cons, Option.some_or, Option.some.injEq] at hlast
  have hmem' : last ∈ keyword :: skipped := by
    rw [← hlast]
    cases hcases : skipped.getLast? with
    | none => exact .head _
    | some other => exact .tail _ (List.mem_of_getLast? hcases)
  rcases List.mem_cons.mp hmem' with rfl | hmem'
  · rw [hword] at hlastKind
    cases hlastKind
  · rcases hskipped last hmem' with hkind' | hkind' <;> rw [hkind'] at hlastKind <;> cases hlastKind

end Token

/-- A declared name has a first declaration. -/
theorem SourceFile.exists_definition? {file : SourceFile} {statement : Statement}
    (hmem : statement ∈ file.statements) {name : String} (hname : statement.declaredType? = some name) :
    ∃ definition, file.definition? name = some definition := by
  have hfind : (file.statements.find? (·.declaredType? = some name)).isSome = true :=
    List.find?_isSome.mpr ⟨statement, hmem, decide_eq_true hname⟩
  obtain ⟨first, hfirst⟩ := Option.isSome_iff_exists.mp hfind
  exact ⟨_, by rw [definition?, hfirst]; rfl⟩

theorem definitionAt?_eq {files : List SourceFile}
    (hdistinct : files.Pairwise fun left right => left.path.same right.path = false) {file : SourceFile}
    (hmem : file ∈ files) {line column : Nat} {word : String}
    (hword : Text.wordAt? file.text line column = some word) :
    definitionAt? files file.path line column = resolveDefinition? files file.path word := by
  rw [definitionAt?, wordIn?, find?_path_eq hdistinct hmem (Path.same_refl _), Option.bind_some, hword,
    Option.bind_some]

/-- **The word under a caret is the token under it.** On any byte of a name, a reserved word or a number
of a file, unless the byte before it is that of an underscore, the caret finds the text of the token, and
so its definition. On any byte of the name of a declared type it finds the first declaration of this name
in the file. -/
theorem definitionAt?_of_token {files : List SourceFile}
    (hdistinct : files.Pairwise fun left right => left.path.same right.path = false) {file : SourceFile}
    (hmem : file ∈ files) :
    (∀ token ∈ Token.tokens file.text.toList, token.kind.isWord = true →
      (∀ i, i + 1 = token.start → (Text.octets file.text.toList)[i]? ≠ some 0x5f) →
      ∀ offset, token.start ≤ offset → offset < token.stop →
        let caret := (Text.LineIndex.ofText file.text.toList).position offset
        Text.wordAt? file.text caret.line caret.column = some token.text ∧
          definitionAt? files file.path caret.line caret.column =
            resolveDefinition? files file.path token.text) ∧
    ∀ statement ∈ (parse file.text).statements, ∀ name, statement.declaredType? = some name →
      ∃ before keyword after token definition,
        Token.tokens file.text.toList = before ++ keyword :: after ∧ keyword.kind = .typeWord ∧
        keyword.start = statement.position.offset ∧ Token.declaredName? after = some token ∧
        token.text = name ∧
        file.definition? name = some definition ∧
        ∀ offset, token.start ≤ offset → offset < token.stop →
          let caret := (Text.LineIndex.ofText file.text.toList).position offset
          definitionAt? files file.path caret.line caret.column = some definition := by
  constructor
  · intro token htoken hkind hbefore offset hstart hstop caret
    have hword : Text.wordAt? file.text caret.line caret.column = some token.text := by
      refine Token.wordAt?_of_isWord htoken hkind (fun before after htext hplace hlast => ?_) hstart hstop
      obtain ⟨front, rfl⟩ := List.getLast?_eq_some_iff.mp hlast
      rw [Text.byteLength_append] at hplace
      refine hbefore (Text.byteLength front) hplace.symm ?_
      rw [htext, List.append_assoc, Text.octets_append,
        List.getElem?_append_right (Nat.le_of_eq (Text.length_octets front)), Text.length_octets,
        Nat.sub_self]
      rfl
    exact ⟨hword, definitionAt?_eq hdistinct hmem hword⟩
  · intro statement hstatement name hname
    obtain ⟨before, keyword, after, htokens, hkeyword, hplace, _, token, htoken, hupper, htext⟩ :=
      SourceFile.exists_keyword_of_mem_statements hstatement hname
    obtain ⟨definition, hdefinition⟩ := SourceFile.exists_definition? hstatement hname
    refine ⟨before, keyword, after, token, definition, htokens, hkeyword, hplace, htoken, htext,
      hdefinition, ?_⟩
    intro offset hstart hstop caret
    have hkind : token.kind.isWord = true := by
      rw [hupper]
      rfl
    have hmemToken : token ∈ Token.tokens file.text.toList := by
      obtain ⟨skipped, rest, rfl, _⟩ := Token.exists_split_of_declaredName? htoken
      rw [htokens]
      simp
    have hword : Text.wordAt? file.text caret.line caret.column = some token.text := by
      refine Token.wordAt?_of_isWord hmemToken hkind (fun front back hwhole hfront => ?_) hstart hstop
      exact Token.getLast?_before_declaredName htokens hkeyword htoken hkind hwhole hfront
    rw [definitionAt?_eq hdistinct hmem hword, htext]
    exact resolveDefinition?_of_own hdistinct hmem (Path.same_refl _) hdefinition

/-- The caret on the last letter of a name that is declared for the second time. -/
theorem definitionAt?_of_token_declared_twice :
    Text.wordAt? "\x7b-é-\x7dtype Uv = A\ntype Uv = B" 1 6 = some "Uv" ∧
      definitionAt? [⟨⟨"a.elm"⟩, "\x7b-é-\x7dtype Uv = A\ntype Uv = B"⟩] ⟨"a.elm"⟩ 1 6 =
        some ⟨⟨"a.elm"⟩, "Uv", ⟨0, 5, 6⟩⟩ := by
  have hmem : (⟨⟨"a.elm"⟩, "\x7b-é-\x7dtype Uv = A\ntype Uv = B"⟩ : SourceFile) ∈
      [(⟨⟨"a.elm"⟩, "\x7b-é-\x7dtype Uv = A\ntype Uv = B"⟩ : SourceFile)] := .head _
  have hcaret : (Text.LineIndex.ofText "\x7b-é-\x7dtype Uv = A\ntype Uv = B".toList).position 24 =
      ⟨1, 6, 24⟩ := by
    decide +kernel
  have hresolve : resolveDefinition? [⟨⟨"a.elm"⟩, "\x7b-é-\x7dtype Uv = A\ntype Uv = B"⟩] ⟨"a.elm"⟩ "Uv" =
      some ⟨⟨"a.elm"⟩, "Uv", ⟨0, 5, 6⟩⟩ := by
    rw [resolveDefinition?, DependencyGraph.ofFiles, indexFiles_eq, List.map_singleton,
      List.mergeSort_singleton, DependencyGraph.build, List.mergeSort_singleton]
    decide +kernel
  obtain ⟨hwords, _⟩ := definitionAt?_of_token (List.pairwise_singleton _ _) hmem
  have hbefore : ∀ i, i + 1 = 23 →
      (Text.octets "\x7b-é-\x7dtype Uv = A\ntype Uv = B".toList)[i]? ≠ some 0x5f := by
    intro i hi
    obtain rfl : i = 22 := by omega
    decide +kernel
  obtain ⟨hword, hanswer⟩ := hwords ⟨.upperName, ['U', 'v'], 23⟩ (by decide +kernel) rfl hbefore 24
    (by decide) (by decide)
  rw [hcaret] at hword hanswer
  exact ⟨hword, hanswer.trans hresolve⟩

end ElmNavigation
