import ElmNavigation.Token.Kind

/-! The kinds of words and of runs of symbol characters. Both are found in a table, and what the table
does not list has one kind of its own. -/

namespace ElmNavigation

theorem lookup_eq_none_of_notMem {table : List (String × Kind)} {word : String}
    (h : word ∉ table.map Prod.fst) : table.lookup word = none := by
  rw [List.lookup_eq_none_iff]
  intro entry hentry
  refine bne_iff_ne.mpr fun hword => h ?_
  rw [hword]
  exact List.mem_map_of_mem hentry

theorem lookup_getD_mem (table : List (String × Kind)) (default : Kind) (word : String) :
    (table.lookup word).getD default ∈ default :: table.map Prod.snd := by
  cases hlookup : table.lookup word with
  | none => exact .head _
  | some kind =>
      obtain ⟨before, after, hsplit, _⟩ := List.lookup_eq_some_iff.mp hlookup
      refine List.mem_cons_of_mem _ ?_
      rw [hsplit]
      simp

namespace Kind

theorem isName_ofWord (word : String) :
    (ofWord word).isName = true ↔ word ∉ ["module", "import", "type"] := by
  by_cases hmem : word ∈ reserved.map Prod.fst
  · have hall : ∀ word ∈ reserved.map Prod.fst, (ofWord word).isName = true ↔
        word ∉ ["module", "import", "type"] := by
      decide
    exact hall word hmem
  · have hall : ∀ word ∈ ["module", "import", "type"], word ∈ reserved.map Prod.fst := by decide
    rw [ofWord, lookup_eq_none_of_notMem hmem]
    exact ⟨fun _ hword => hmem (hall word hword), fun _ => rfl⟩

theorem ofWord_ne {word : String} {kind : Kind} (h : kind ∉ lowerName :: reserved.map Prod.snd) :
    ofWord word ≠ kind := by
  rintro rfl
  exact h (lookup_getD_mem reserved lowerName word)

theorem ofSymbols_eq_operator (run : String) :
    ofSymbols run = .operator ↔ run ∉ [":", "=", "|", "->", "..", "."] := by
  by_cases hmem : run ∈ marks.map Prod.fst
  · have hall : ∀ run ∈ marks.map Prod.fst, ofSymbols run = .operator ↔
        run ∉ [":", "=", "|", "->", "..", "."] := by
      decide
    exact hall run hmem
  · rw [ofSymbols, lookup_eq_none_of_notMem hmem]
    exact ⟨fun _ => hmem, fun _ => rfl⟩

theorem ofSymbols_mem (run : String) : ofSymbols run ∈ operator :: marks.map Prod.snd :=
  lookup_getD_mem marks operator run

end Kind

end ElmNavigation
