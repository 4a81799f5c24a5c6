import ElmNavigation.Proofs.Declaration.Constructs
import ElmNavigation.Proofs.Token.Breaks

/-! Where declarations stand. A declaration has the position of the first token of its construct, and
constructs begin at tokens of the text, one behind the other; so the positions of declarations are
positions of tokens, and they come in the order of the text. The name of a declared type is the token
after its opening words. -/

namespace ElmNavigation

namespace Construct

theorem statement?_eq_some {construct : Construct} {statement : Statement} :
    construct.statement? = some statement ↔ construct.outcome = .accepted statement := by
  rw [statement?]
  split
  · next accepted houtcome => rw [houtcome, Option.some.injEq, Outcome.accepted.injEq]
  · next hother =>
      constructor
      · intro h
        cases h
      · intro h
        exact absurd h (hother statement)

theorem Reads.statement_position {index : Nat} {tokens : List PlacedToken} {constructs : List Construct}
    (h : Reads index tokens constructs) {construct : Construct} (hmem : construct ∈ constructs)
    {statement : Statement} (hstatement : construct.statement? = some statement) :
    statement.position = construct.first.position := by
  obtain ⟨before, first, rest, _, _, rfl⟩ := h.exists_of_mem hmem
  obtain ⟨opening, words, body, left, _, _, _, hbody⟩ :=
    exists_body_of_accepted (statement?_eq_some.mp hstatement)
  rw [hbody.position_eq, read_first]

end Construct

namespace Token

theorem offset_of_mem_placed {text : List Char} {token : PlacedToken} (hmem : token ∈ placed text) :
    token.position.offset = token.start := by
  obtain ⟨before, after, _, _, hstart, hposition⟩ := exists_endOf_of_mem_placed hmem
  rw [hposition, hstart]
  rfl

theorem pairwise_placed (text : List Char) :
    (placed text).Pairwise fun left right => left.position.offset < right.position.offset := by
  have hstops : (placed text).Pairwise fun left right => left.stop ≤ right.start := by
    rw [placed, List.pairwise_map]
    exact pairwise_tokens text
  refine hstops.imp_of_mem fun {left right} hleft hright hle => ?_
  have hlt := start_lt_stop_of_mem_tokens (mem_placed_iff.mp hleft).1
  rw [offset_of_mem_placed hleft, offset_of_mem_placed hright]
  omega

end Token

/-- Declarations come in the order of their positions. -/
theorem pairwise_statements {text : List Char} {constructs : List Construct}
    (h : Construct.Reads 0 (Token.placed text) constructs) :
    (constructs.filterMap Construct.statement?).Pairwise fun left right =>
      left.position.offset < right.position.offset := by
  have hfirst := (Token.pairwise_placed text).sublist h.map_first_sublist
  rw [List.pairwise_map] at hfirst
  rw [List.pairwise_filterMap]
  refine hfirst.imp_of_mem fun {left right} hleft hright hlt statement hstatement statement' hstatement' => ?_
  rwa [h.statement_position hleft hstatement, h.statement_position hright hstatement']

/-! ### Names of declared types -/

/-- The token that names a declared type, among the tokens after the word `type`: the first that is no
line break, or the one after it if that is the word `alias`. -/
def Token.declaredName? (after : List Token) : Option Token :=
  match after.filter (·.kind ≠ .newline) with
  | [] => none
  | first :: rest => if first.kind = .aliasWord then rest.head? else some first

theorem Token.declaredName?_of_prefix {after view : List Token}
    (h : view <+: after.filter (·.kind ≠ .newline)) :
    (∀ first rest, view = first :: rest → first.kind ≠ .aliasWord → declaredName? after = some first) ∧
      ∀ word first rest, view = word :: first :: rest → word.kind = .aliasWord →
        declaredName? after = some first := by
  obtain ⟨tail, htail⟩ := h
  rw [declaredName?, ← htail]
  constructor
  · rintro first rest rfl hkind
    exact if_neg hkind
  · rintro word first rest rfl hkind
    exact if_pos hkind

/-- A construct that declares a type begins with the word `type`, and the name of the type follows. -/
theorem Construct.declaredName?_of_accepted {first : PlacedToken} {rest : List PlacedToken} {index : Nat}
    {statement : Statement} {name : String} (hkind : first.kind ≠ .newline)
    (h : (read first ⟨index, 0, first :: rest⟩).outcome = .accepted statement)
    (hname : statement.declaredType? = some name) :
    first.kind = .typeWord ∧ ∃ token, Token.declaredName? (rest.map (·.toToken)) = some token ∧
      token.kind = .upperName ∧ token.text = name := by
  obtain ⟨opening, words, body, left, _, hsentence, hwords, hbody⟩ := exists_body_of_accepted h
  rw [Layout.view_cons_of_owns hkind (Layout.owns_ofToken 0 first), List.map_cons] at hsentence
  have hprefix : ((Layout.ofToken first).view (first.kind.nest 0) rest).map (·.toToken) <+:
      (rest.map (·.toToken)).filter (·.kind ≠ .newline) := by
    rw [List.filter_map]
    exact (Layout.view_prefix _ _ rest).map _
  obtain ⟨hplain, halias⟩ := Token.declaredName?_of_prefix hprefix
  cases hbody with
  | header _ _ _ => cases hname
  | imported _ _ _ => cases hname
  | union hdeclared _ =>
      obtain ⟨hupper, _, _⟩ := hdeclared
      cases hname
      obtain ⟨word, rfl, hword⟩ := List.map_eq_singleton_iff.mp hwords
      rw [List.singleton_append, List.cons_append, List.cons_append] at hsentence
      obtain ⟨hfirst, hview⟩ := List.cons.inj hsentence
      refine ⟨by rw [hfirst]; exact hword, _, hplain _ _ hview ?_, hupper, rfl⟩
      rw [hupper]
      decide
  | aliased hdeclared _ =>
      obtain ⟨hupper, _, _⟩ := hdeclared
      cases hname
      obtain ⟨word, others, rfl, hword, hothers⟩ := List.map_eq_cons_iff.mp hwords
      obtain ⟨second, rfl, hsecond⟩ := List.map_eq_singleton_iff.mp hothers
      rw [List.cons_append, List.singleton_append, List.cons_append, List.cons_append] at hsentence
      obtain ⟨hfirst, hview⟩ := List.cons.inj hsentence
      exact ⟨by rw [hfirst]; exact hword, _, halias _ _ _ hview hsecond, hupper, rfl⟩

end ElmNavigation
