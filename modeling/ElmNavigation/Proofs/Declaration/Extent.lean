import ElmNavigation.Proofs.Declaration.Names
import ElmNavigation.Proofs.Declaration.Positions

/-! How far declarations extend. A construct takes the tokens from its first one up to the place where it
was left, and the next construct begins no earlier; the tokens that an accepted construct takes, line
breaks apart, are exactly the sentence of its declaration. -/

namespace ElmNavigation

namespace Construct

/-- The tokens that a construct takes from those of its file, line breaks apart. -/
def used (tokens : List PlacedToken) (construct : Construct) : List PlacedToken :=
  ((tokens.drop construct.index).take construct.taken).filter (·.kind ≠ .newline)

/-- What an accepted construct takes is the sentence of its declaration. -/
theorem declaration_of_accepted {first : PlacedToken} {index : Nat} {tokens : List PlacedToken}
    {statement : Statement} (h : (read first ⟨index, 0, tokens⟩).outcome = .accepted statement) :
    Sentence.Declaration first.position
      (((tokens.take (read first ⟨index, 0, tokens⟩).taken).filter (·.kind ≠ .newline)).map (·.toToken))
      statement := by
  rw [read_eq] at h ⊢
  rw [ofView] at h ⊢
  cases hopening : Opening.ofView ((Layout.ofToken first).view 0 tokens) with
  | none =>
      rw [hopening] at h
      cases h
  | some opening =>
      rw [hopening] at h
      dsimp only at h ⊢
      have hwords :
          ((((Layout.ofToken first).view 0 tokens).map (·.toToken)).take opening.words).map Token.kind =
            Sentence.openingKinds opening := by
        rw [← Opening.kinds_of_ofView hopening, List.map_take, List.map_take, List.map_map]
        rfl
      split at h
      · next accepted left hok =>
          cases h
          obtain ⟨body, hsentence, hbody⟩ := exists_body_of_ok hok
          dsimp only
          rw [Layout.filter_take_reach, List.map_take]
          generalize ((Layout.ofToken first).view 0 tokens).map (·.toToken) = sentence at hsentence hwords ⊢
          have hused : sentence.take (sentence.length - left.length) =
              sentence.take opening.words ++ body := by
            have hlength := congrArg List.length hsentence
            rw [← List.append_assoc] at hsentence hlength
            rw [List.length_append] at hlength
            rw [hlength, Nat.add_sub_cancel]
            generalize sentence.take opening.words ++ body = front at hsentence ⊢
            rw [hsentence, List.take_left]
          rw [hused]
          exact .intro hwords hbody
      · cases h

/-- The tokens that a construct takes are the sentence of its declaration, if it has one. -/
theorem Reads.declaration_used {tokens : List PlacedToken} {constructs : List Construct}
    (h : Reads 0 tokens constructs) {construct : Construct} (hmem : construct ∈ constructs)
    {statement : Statement} (hstatement : construct.statement? = some statement) :
    Sentence.Declaration statement.position ((construct.used tokens).map (·.toToken)) statement := by
  rw [h.statement_position hmem hstatement]
  obtain ⟨before, first, rest, rfl, _, rfl⟩ := h.exists_of_mem hmem
  rw [Nat.zero_add] at hstatement ⊢
  rw [used, read_index, read_first, List.drop_left]
  exact declaration_of_accepted (statement?_eq_some.mp hstatement)

theorem Reads.le_index {index : Nat} {tokens : List PlacedToken} {constructs : List Construct}
    (h : Reads index tokens constructs) {construct : Construct} (hmem : construct ∈ constructs) :
    index ≤ construct.index := by
  obtain ⟨before, token, rest, _, _, rfl⟩ := h.exists_of_mem hmem
  rw [read_index]
  exact Nat.le_add_right _ _

/-- No construct begins before the one before it ends. -/
theorem Reads.pairwise_extent {index : Nat} {tokens : List PlacedToken} {constructs : List Construct}
    (h : Reads index tokens constructs) :
    constructs.Pairwise fun left right => left.index + left.taken ≤ right.index := by
  induction h with
  | done index => exact .nil
  | newline _ _ ih => exact ih
  | construct _ hrest ih =>
      refine .cons (fun later hlater => ?_) ih
      rw [read_index]
      exact hrest.le_index hlater

end Construct

/-- Every declaration that is read is spelled by the tokens that its construct takes, line breaks apart:
from the token at its position on they are the sentence of which it is the tree. They spell its names, in
their order, and what is left out besides words and marks are type parameters or the block of an effect
module. Different declarations take different tokens, in the order of the text. -/
theorem parse_statements_spelled (source : String) :
    ∃ constructs, constructs? source.toList = some constructs ∧
      (parse source).statements = constructs.filterMap Construct.statement? ∧
      (constructs.Pairwise fun left right => left.index + left.taken ≤ right.index) ∧
      ∀ construct ∈ constructs, ∀ statement, construct.statement? = some statement →
        (Token.placed source.toList)[construct.index]? = some construct.first ∧
        construct.first.position = statement.position ∧
        Sentence.Declaration statement.position
          ((construct.used (Token.placed source.toList)).map (·.toToken)) statement ∧
        ∃ front omitted back,
          (construct.used (Token.placed source.toList)).map (·.toToken) = front ++ (omitted ++ back) ∧
          Sentence.Spelled (front ++ back) statement.names ∧ Sentence.LeftOut statement omitted := by
  obtain ⟨constructs, hreads, hconstructs⟩ := exists_constructs source.toList
  refine ⟨constructs, hconstructs, ?_, hreads.pairwise_extent, ?_⟩
  · rw [parse, parseWithDiagnostics_of_reads hreads]
    rfl
  · intro construct hmem statement hstatement
    have hposition := hreads.statement_position hmem hstatement
    have hdeclaration := hreads.declaration_used hmem hstatement
    exact ⟨hreads.getElem?_index hmem, hposition.symm, hdeclaration, hdeclaration.spelled⟩

/-- A block with braces inside belongs to the sentence of its header and is left out of the tree; the line
before it, with an open bracket, has no part in it. -/
theorem parse_statements_spelled_where_block :
    ∃ constructs, constructs? "f = (\neffect module A where \x7b b \x7b\n \x7d\x7d".toList = some constructs ∧
      ∃ construct ∈ constructs, construct.index = 4 ∧ construct.taken = 10 ∧
        Sentence.Declaration ⟨1, 0, 6⟩
          ((construct.used
            (Token.placed "f = (\neffect module A where \x7b b \x7b\n \x7d\x7d".toList)).map (·.toToken))
          (.header ⟨.effect, "A", .nothing, ⟨1, 0, 6⟩⟩) := by
  obtain ⟨constructs, hconstructs, _, _, hall⟩ :=
    parse_statements_spelled "f = (\neffect module A where \x7b b \x7b\n \x7d\x7d"
  have hread : constructs? "f = (\neffect module A where \x7b b \x7b\n \x7d\x7d".toList =
      some [⟨0, ⟨⟨.lowerName, ['f'], 0⟩, ⟨0, 0, 0⟩⟩, 4, .passed⟩,
        ⟨4, ⟨⟨.effectWord, "effect".toList, 6⟩, ⟨1, 0, 6⟩⟩, 10,
          .accepted (.header ⟨.effect, "A", .nothing, ⟨1, 0, 6⟩⟩)⟩] := rfl
  obtain rfl := Option.some.inj (hconstructs.symm.trans hread)
  obtain ⟨_, _, hdeclaration, _⟩ := hall _ (.tail _ (.head _)) _ rfl
  exact ⟨_, hconstructs, _, .tail _ (.head _), rfl, rfl, hdeclaration⟩

end ElmNavigation
