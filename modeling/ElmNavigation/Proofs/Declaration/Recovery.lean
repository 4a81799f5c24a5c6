import ElmNavigation.Proofs.Declaration.Concatenation
import ElmNavigation.Proofs.Declaration.Positions
import Mathlib.Data.List.Nodup

/-! No declaration is lost without a trace. A construct that opens like a declaration is accepted or
rejected, and what rejects it is marked at a token of its own or at its end, never before it; any other
construct leaves nothing behind. And whatever is wrong with the text before it, a token that begins a line
begins a construct, unless it is a closing bracket. -/

namespace ElmNavigation

/-! ### What a rejection marks -/

/-- The token that a rule did not expect is one of those that it was given. -/
theorem Rule.mem_of_declaration_found {opening : Opening} {position : Position} {tokens : List Token}
    {expected : Expected} {token : Token}
    (h : declaration opening position tokens = .error (.found expected token)) : token ∈ tokens := by
  -- a rule cannot tell a token of the list from itself, so what it reports is such a token
  have hlike : Token.Likeness fun a b => b = a ∧ a ∈ tokens := by
    refine ⟨?_, ?_, ?_⟩
    · rintro a _ ⟨rfl, _⟩
      rfl
    · rintro a _ ⟨rfl, _⟩ _
      rfl
    · rintro a _ c _ ⟨rfl, _⟩ ⟨rfl, _⟩ _
      exact Iff.rfl
  have hsame : List.Forall₂ (fun a b => b = a ∧ a ∈ tokens) tokens tokens :=
    List.forall₂_same.mpr fun token hmem => ⟨rfl, hmem⟩
  have hagree := declaration_respects hlike.simulation opening position position hsame
  rw [h] at hagree
  generalize declaration opening position tokens = result at hagree
  cases hagree with
  | found _ htoken => exact htoken.2

namespace Construct

theorem exists_lastStop_eq {sentence : List Token} (h : sentence ≠ []) :
    ∃ token ∈ sentence, lastStop sentence = token.stop := by
  obtain ⟨last, hlast⟩ := Option.ne_none_iff_exists'.mp (mt List.getLast?_eq_none_iff.mp h)
  exact ⟨last, List.mem_of_getLast? hlast, by rw [lastStop, hlast]; rfl⟩

/-- A rejection marks a token of its construct, or the end of one. -/
theorem exists_span_of_rejected {opening : Opening} {position : Position} {sentence : List Token}
    {mismatch : Mismatch}
    (h : Rule.declaration opening position (sentence.drop opening.words) = .error mismatch)
    (hne : sentence ≠ []) :
    ∃ token ∈ sentence, (mismatch.diagnostic (lastStop sentence)).span = token.span ∨
      (mismatch.diagnostic (lastStop sentence)).span = ⟨token.stop, token.stop⟩ := by
  cases mismatch with
  | found expected token => exact ⟨token, List.mem_of_mem_drop (Rule.mem_of_declaration_found h), .inl rfl⟩
  | ended expected =>
      obtain ⟨last, hmem, hlast⟩ := exists_lastStop_eq hne
      refine ⟨last, hmem, .inr ?_⟩
      rw [← hlast]
      rfl

/-- A rejection marks no place before a token that all others follow. -/
theorem start_le_of_rejected {opening : Opening} {position : Position} {sentence : List Token}
    {mismatch : Mismatch}
    (h : Rule.declaration opening position (sentence.drop opening.words) = .error mismatch)
    (hne : sentence ≠ []) {start : Nat} (hstart : ∀ token ∈ sentence, start ≤ token.start) :
    start ≤ (mismatch.diagnostic (lastStop sentence)).span.start := by
  obtain ⟨token, hmem, hspan | hspan⟩ := exists_span_of_rejected h hne
  · rw [hspan]
    exact hstart token hmem
  · rw [hspan]
    exact Nat.le_trans (hstart token hmem) (Nat.le_add_right _ _)

/-! ### What opens like a declaration -/

/-- The tokens that a construct owns, among those of its file. -/
def owned (tokens : List PlacedToken) (construct : Construct) : List PlacedToken :=
  (Layout.ofToken construct.first).view 0 (tokens.drop construct.index)

/-- Whether a construct begins with `module`, `import` or `type`, or with `port` or `effect` and owns a
`module` as its next token. -/
def OpensDeclaration (tokens : List PlacedToken) (construct : Construct) : Prop :=
  construct.first.kind ∈ [.moduleWord, .importWord, .typeWord] ∨
    construct.first.kind ∈ [.portWord, .effectWord] ∧
      ∃ next ∈ (construct.owned tokens)[1]?, next.kind = .moduleWord

end Construct

theorem Opening.isSome_ofView_cons (first : PlacedToken) (rest : List PlacedToken) :
    (ofView (first :: rest)).isSome = true ↔ first.kind ∈ [.moduleWord, .importWord, .typeWord] ∨
      first.kind ∈ [.portWord, .effectWord] ∧ ∃ next ∈ rest[0]?, next.kind = .moduleWord := by
  rw [ofView, List.getElem?_cons_zero, List.getElem?_cons_succ]
  dsimp only
  split
  · next hkind => simp [hkind]
  · next hkind => simp [hkind, Option.any_eq_true]
  · next hkind => simp [hkind, Option.any_eq_true]
  · next hkind => simp [hkind]
  · next hkind =>
      rw [hkind]
      split <;> simp
  · next hmodule hport heffect himport htype =>
      refine iff_of_false Bool.false_ne_true ?_
      rintro (hword | ⟨hword, _⟩)
      · simp only [List.mem_cons, List.not_mem_nil, or_false] at hword
        exact hword.elim hmodule (·.elim himport htype)
      · simp only [List.mem_cons, List.not_mem_nil, or_false] at hword
        exact hword.elim hport heffect

namespace Construct

/-- A construct that opens like a declaration is accepted at its own position, or rejected from its own
start on; any other is passed over. -/
theorem read_outcome {first : PlacedToken} {rest : List PlacedToken} (hkind : first.kind ≠ .newline)
    (hrest : ∀ token ∈ rest, first.start ≤ token.start) (index : Nat) :
    (Opening.ofView ((Layout.ofToken first).view 0 (first :: rest)) = none ∧
        (read first ⟨index, 0, first :: rest⟩).outcome = .passed) ∨
      (∃ opening, Opening.ofView ((Layout.ofToken first).view 0 (first :: rest)) = some opening) ∧
        ((∃ statement, (read first ⟨index, 0, first :: rest⟩).outcome = .accepted statement ∧
            statement.position = first.position) ∨
          ∃ diagnostic, (read first ⟨index, 0, first :: rest⟩).outcome = .rejected diagnostic ∧
            first.start ≤ diagnostic.span.start) := by
  have hview := Layout.view_cons_of_owns hkind (Layout.owns_ofToken 0 first) rest
  have hsub := (Layout.view_prefix (Layout.ofToken first) 0 (first :: rest)).subset
  rw [read_eq, ofView]
  cases hopening : Opening.ofView ((Layout.ofToken first).view 0 (first :: rest)) with
  | none => exact .inl ⟨rfl, rfl⟩
  | some opening =>
      refine .inr ⟨⟨opening, rfl⟩, ?_⟩
      dsimp only
      split
      · next statement left hok =>
          obtain ⟨body, _, hbody⟩ := exists_body_of_ok hok
          exact .inl ⟨statement, rfl, hbody.position_eq⟩
      · next mismatch herror =>
          refine .inr ⟨_, rfl, start_le_of_rejected herror (by rw [hview]; exact List.cons_ne_nil _ _) ?_⟩
          intro token hmem
          obtain ⟨placed, hplaced, rfl⟩ := List.mem_map.mp hmem
          rcases List.mem_cons.mp (List.mem_filter.mp (hsub hplaced)).1 with rfl | hlater
          · exact Nat.le_refl _
          · exact hrest placed hlater

/-- What a construct leaves behind: one declaration or one diagnostic if it opens like a declaration, and
nothing otherwise. -/
theorem Reads.contribution {text : List Char} {constructs : List Construct}
    (h : Reads 0 (Token.placed text) constructs) {construct : Construct} (hmem : construct ∈ constructs) :
    (construct.OpensDeclaration (Token.placed text) →
        (∃ statement, construct.statement? = some statement ∧ construct.diagnostic? = none ∧
            statement.position = construct.first.position) ∨
          ∃ diagnostic, construct.statement? = none ∧ construct.diagnostic? = some diagnostic ∧
            construct.first.start ≤ diagnostic.span.start) ∧
      (¬ construct.OpensDeclaration (Token.placed text) → construct.statement? = none ∧
        construct.diagnostic? = none) := by
  obtain ⟨before, first, rest, hplaced, hkind, rfl⟩ := h.exists_of_mem hmem
  have hrest : ∀ token ∈ rest, first.start ≤ token.start := by
    intro token htoken
    have hpairwise := Token.pairwise_placed text
    rw [hplaced] at hpairwise
    have hlt := (List.pairwise_cons.mp (List.pairwise_append.mp hpairwise).2.1).1 token htoken
    rw [Token.offset_of_mem_placed (by rw [hplaced]; simp),
      Token.offset_of_mem_placed (by rw [hplaced]; simp [htoken])] at hlt
    exact Nat.le_of_lt hlt
  have hopens : (read first ⟨0 + before.length, 0, first :: rest⟩).OpensDeclaration (Token.placed text) ↔
      (Opening.ofView ((Layout.ofToken first).view 0 (first :: rest))).isSome = true := by
    rw [OpensDeclaration, owned, read_first, read_index, hplaced, Nat.zero_add, List.drop_left,
      Layout.view_cons_of_owns hkind (Layout.owns_ofToken 0 first), Opening.isSome_ofView_cons,
      List.getElem?_cons_succ]
  rw [hopens, read_first]
  rcases read_outcome hkind hrest (0 + before.length) with ⟨hnone, hpassed⟩ | ⟨⟨opening, hopening⟩, houtcome⟩
  · rw [hnone]
    refine ⟨nofun, fun _ => ?_⟩
    rw [statement?, diagnostic?, hpassed]
    exact ⟨rfl, rfl⟩
  · rw [hopening]
    refine ⟨fun _ => ?_, fun hclosed => absurd rfl hclosed⟩
    rcases houtcome with ⟨statement, haccepted, hposition⟩ | ⟨diagnostic, hrejected, hstart⟩
    · refine .inl ⟨statement, ?_, ?_, hposition⟩
      · rw [statement?, haccepted]
      · rw [diagnostic?, haccepted]
    · refine .inr ⟨diagnostic, ?_, ?_, hstart⟩
      · rw [statement?, hrejected]
      · rw [diagnostic?, hrejected]

/-! ### Where constructs begin -/

theorem Reads.eq_of_reads {index : Nat} {tokens : List PlacedToken} {constructs constructs' : List Construct}
    (h : Reads index tokens constructs) (h' : Reads index tokens constructs') : constructs = constructs' :=
  Option.some.inj (h.readAll_eq.symm.trans h'.readAll_eq)

/-- The first token begins a construct, if it is no line break. -/
theorem Reads.mem_map_first {index : Nat} {token : PlacedToken} {rest : List PlacedToken}
    {constructs : List Construct} (h : Reads index (token :: rest) constructs)
    (hkind : token.kind ≠ .newline) : token ∈ constructs.map Construct.first := by
  cases h with
  | newline hnewline _ => exact absurd hnewline hkind
  | construct _ _ =>
      rw [List.map_cons, read_first]
      exact .head _

/-- Constructs begin one behind the other. -/
theorem Reads.pairwise_start {text : List Char} {constructs : List Construct}
    (h : Reads 0 (Token.placed text) constructs) :
    constructs.Pairwise fun left right => left.first.start < right.first.start := by
  have hoffsets := (Token.pairwise_placed text).sublist h.map_first_sublist
  rw [List.pairwise_map] at hoffsets
  refine hoffsets.imp_of_mem fun {left right} hleft hright hlt => ?_
  rwa [Token.offset_of_mem_placed (h.map_first_sublist.subset (List.mem_map_of_mem hleft)),
    Token.offset_of_mem_placed (h.map_first_sublist.subset (List.mem_map_of_mem hright))] at hlt

/-- A token that begins a line begins a construct, unless it is a closing bracket. -/
theorem Reads.mem_first_of_column_zero {text : List Char} {constructs : List Construct}
    (h : Reads 0 (Token.placed text) constructs) {token : PlacedToken} (hmem : token ∈ Token.placed text)
    (hkind : token.kind ≠ .newline) (hcloser : token.kind.isCloser = false)
    (hcolumn : token.position.column = 0) : token ∈ constructs.map Construct.first := by
  obtain ⟨before, after, rfl, hlength, hbreaks, hafter, hbefore, hfresh⟩ :=
    Token.exists_split_of_mem_placed hmem hkind hcloser hcolumn
  obtain ⟨first, hhead, rfl⟩ := hbreaks.head?_placed_of_mem hbefore hmem hlength.symm
  -- what is read before the token does not reach over it
  obtain ⟨constructs₁, hreads₁⟩ := exists_reads 0 (Token.placed before)
  obtain ⟨constructs₂, hreads₂⟩ := exists_reads (0 + (Token.placed before).length) ((Token.placed after).map
    (PlacedToken.move (before.count '\n') (Text.byteLength before)))
  have hwhole := hreads₁.append (hbreaks.closed hafter hbefore hfresh) hreads₂
  rw [← hbreaks.placed_append hbefore] at hwhole
  obtain ⟨rest, hplaced⟩ := List.head?_eq_some_iff.mp hhead
  rw [hplaced, List.map_cons] at hreads₂
  rw [h.eq_of_reads hwhole, List.map_append]
  exact List.mem_append_right _ (hreads₂.mem_map_first hkind)

end Construct

/-- Every token that begins a line, if it is neither a line break nor a closing bracket, begins exactly
one construct. A construct that opens like a declaration contributes one declaration, at its own position,
or one diagnostic, which marks nothing before its start, and never both; any other construct contributes
nothing. Constructs, and so the declarations, come in the order of the text. -/
theorem parseWithDiagnostics_accounts (source : String) :
    ∃ constructs, constructs? source.toList = some constructs ∧
      parseWithDiagnostics source =
        (.parsed (constructs.filterMap Construct.statement?), constructs.filterMap Construct.diagnostic?) ∧
      (∀ token ∈ Token.placed source.toList, token.kind ≠ .newline → token.kind.isCloser = false →
        token.position.column = 0 → (constructs.map Construct.first).count token = 1) ∧
      (∀ construct ∈ constructs, (Token.placed source.toList)[construct.index]? = some construct.first ∧
        (construct.OpensDeclaration (Token.placed source.toList) →
          (∃ statement, construct.statement? = some statement ∧ construct.diagnostic? = none ∧
              statement.position = construct.first.position) ∨
            ∃ diagnostic, construct.statement? = none ∧ construct.diagnostic? = some diagnostic ∧
              construct.first.start ≤ diagnostic.span.start) ∧
        (¬ construct.OpensDeclaration (Token.placed source.toList) →
          construct.statement? = none ∧ construct.diagnostic? = none)) ∧
      (constructs.Pairwise fun left right => left.first.start < right.first.start) ∧
      (constructs.filterMap Construct.statement?).Pairwise fun left right =>
        left.position.offset < right.position.offset := by
  obtain ⟨constructs, hreads, hconstructs⟩ := exists_constructs source.toList
  refine ⟨constructs, hconstructs, parseWithDiagnostics_of_reads hreads, ?_,
    fun construct hmem => ⟨hreads.getElem?_index hmem, hreads.contribution hmem⟩, hreads.pairwise_start,
    pairwise_statements hreads⟩
  intro token hmem hkind hcloser hcolumn
  have hnodup : (constructs.map Construct.first).Nodup := by
    rw [List.Nodup, List.pairwise_map]
    refine hreads.pairwise_start.imp fun hlt heq => ?_
    rw [heq] at hlt
    exact absurd hlt (Nat.lt_irrefl _)
  exact List.count_eq_one_of_mem hnodup (hreads.mem_first_of_column_zero hmem hkind hcloser hcolumn)

/-- An `import` that begins a line after an open brace begins a construct of its own. -/
theorem parseWithDiagnostics_accounts_open_brace :
    ∃ constructs, constructs? "type A = \x7b\nimport B".toList = some constructs ∧
      (constructs.map Construct.first).count ⟨⟨.importWord, "import".toList, 11⟩, ⟨1, 0, 11⟩⟩ = 1 := by
  obtain ⟨constructs, hconstructs, _, hbegins, _⟩ := parseWithDiagnostics_accounts "type A = \x7b\nimport B"
  have hmem : (⟨⟨.importWord, "import".toList, 11⟩, ⟨1, 0, 11⟩⟩ : PlacedToken) ∈
      Token.placed "type A = \x7b\nimport B".toList := by
    decide +kernel
  exact ⟨constructs, hconstructs, hbegins _ hmem (by decide) (by decide) rfl⟩

end ElmNavigation
