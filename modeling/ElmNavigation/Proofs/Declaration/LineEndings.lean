import ElmNavigation.Proofs.Declaration.LineBreaks
import ElmNavigation.Proofs.Token.LineEndings

/-! Files with carriage returns before their line feeds declare what they declare without them. The tokens
of the two texts run side by side. A run of line feeds falls apart into single ones, and a literal that
fails at a backslash before a line feed takes the backslash with it, which without the carriage return is
an operator of its own; neither is anything that a construct can see. -/

namespace ElmNavigation

open Text

namespace Token

/-- A carriage return may belong to what stands before it. -/
theorem placedFrom_return {front : List Char} (hfront : '\n' ∉ front) (before rest : List Char) :
    placedFrom (before ++ (front ++ ['\r'])) ('\n' :: crlf rest) =
      placedFrom (before ++ crlf front) (crlf ('\n' :: rest)) := by
  rw [crlf_of_notMem hfront, crlf_newline, ← List.append_assoc]
  exact (placedFrom_blank rfl _ _).symm

end Token

/-- A token and its counterpart in the text with carriage returns. A token of unknown kind may get longer. -/
structure PlacedToken.Converted (text : List Char) (token token' : PlacedToken) : Prop where
  kind : token'.kind = token.kind
  chars : token.kind ≠ .unknown → token'.chars = crlf token.chars
  line : token.kind ≠ .stringLiteral → '\n' ∉ token.chars
  place : ∃ before after, text = before ++ (token.chars ++ after) ∧ token.start = byteLength before ∧
    token'.start = byteLength (crlf before) ∧ token.position = Position.endOf before ∧
    token'.position = Position.endOf (crlf before)

/-- A position in the text with carriage returns. -/
def Position.crlf (position : Position) : Position :=
  ⟨position.line, position.column, position.offset + position.line⟩

namespace PlacedToken.Converted

variable {text : List Char}

theorem position_eq {token token' : PlacedToken} (h : Converted text token token') :
    token'.position = token.position.crlf := by
  obtain ⟨before, _, _, _, _, hposition, hposition'⟩ := h.place
  rw [hposition, hposition', endOf_crlf]
  rfl

theorem likeness : PlacedToken.Likeness (Converted text) where
  kind h := h.kind
  text {a b} h hread := by
    have hkinds : ∀ kind : Kind, kind.isName = true ∨ kind = .upperName ∨ kind = .operator →
        kind ≠ .unknown ∧ kind ≠ .stringLiteral := by
      intro kind
      cases kind <;> decide
    obtain ⟨hknown, hstring⟩ := hkinds a.kind hread
    rw [Token.text, Token.text, h.chars hknown, crlf_of_notMem (h.line hstring)]
  touching {a b c d} h h' hjoined := by
    have hknown : a.kind ≠ .unknown := by
      rcases hjoined with hkind | hkind <;> rw [hkind] <;> decide
    obtain ⟨before, after, htext, hstart, hstart', _⟩ := h.place
    obtain ⟨front, back, hfront, hplace, hplace', _⟩ := h'.place
    have hsame : front ++ (c.chars ++ back) = before ++ a.chars ++ after := by
      rw [← hfront, htext, List.append_assoc]
    rw [Token.stop, Token.stop, h.chars hknown, hstart, hstart', hplace, hplace', ← byteLength_append,
      ← byteLength_append, ← crlf_append]
    exact byteLength_crlf_inj hsame
  line h h' := by rw [h.position_eq, h'.position_eq]; rfl
  column h h' := by rw [h.position_eq, h'.position_eq]; rfl

theorem of_piece {before taken rest chars' : List Char} {c : Char} {kind : Option Kind} (hc : c ≠ '\n')
    (hmunch : Token.munch c (taken ++ rest) = ⟨kind, taken.length⟩) (hkind : kind ≠ some .comment)
    (hchars : kind ≠ none → chars' = crlf (c :: taken)) (htext : text = before ++ c :: (taken ++ rest)) :
    Converted text ⟨⟨kind.getD .unknown, c :: taken, byteLength before⟩, Position.endOf before⟩
      ⟨⟨kind.getD .unknown, chars', byteLength (crlf before)⟩, Position.endOf (crlf before)⟩ := by
  refine ⟨rfl, fun hknown => hchars ?_, fun hstring hmem => ?_, before, rest, htext, rfl, rfl, rfl, rfl⟩
  · rintro rfl
    exact hknown rfl
  · rcases (Token.munch_piece hmunch).kind_of_newline_mem hmem with rfl | rfl | rfl
    · exact hc ((Token.munch_piece hmunch).first_of_newline rfl)
    · exact hkind rfl
    · exact hstring rfl

end PlacedToken.Converted

/-! ### Two texts side by side -/

/-- A literal that fails at a backslash before a line break stands beside one that fails behind it. -/
theorem Parallel.escaped {whole before taken rest : List Char} {c : Char} (hc : c ≠ '\n')
    (hblank : Token.isBlank c = false) (hwhole : whole = before ++ c :: (taken ++ '\\' :: '\n' :: rest))
    (htaken : '\n' ∉ taken) (h : Token.munch c (taken ++ '\\' :: '\n' :: rest) = ⟨none, taken.length⟩)
    (h' : Token.munch c (taken ++ ['\\', '\r'] ++ '\n' :: crlf rest) = ⟨none, (taken ++ ['\\', '\r']).length⟩)
    (hrest : Parallel (PlacedToken.Converted whole) (fun _ _ => True)
      (Token.placedFrom (before ++ c :: (taken ++ ['\\'])) ('\n' :: rest))
      (Token.placedFrom (crlf before ++ crlf (c :: (taken ++ ['\\']))) (crlf ('\n' :: rest)))) :
    Parallel (PlacedToken.Converted whole) (fun _ _ => True)
      (Token.placedFrom before (c :: (taken ++ '\\' :: '\n' :: rest)))
      (Token.placedFrom (crlf before) (crlf (c :: (taken ++ '\\' :: '\n' :: rest)))) := by
  have hpiece : '\n' ∉ c :: taken := List.not_mem_cons_of_ne_of_not_mem (Ne.symm hc) htaken
  have hfront : '\n' ∉ c :: (taken ++ ['\\']) := by
    rw [← List.cons_append, List.mem_append, not_or]
    exact ⟨hpiece, by decide⟩
  have hsplit : crlf (c :: (taken ++ '\\' :: '\n' :: rest)) =
      c :: (taken ++ ['\\', '\r'] ++ '\n' :: crlf rest) := by
    rw [crlf_cons hc, crlf_append, crlf_of_notMem htaken, List.append_assoc]
    rfl
  have hslash : Token.placedFrom (before ++ c :: taken) ('\\' :: '\n' :: rest) =
      ⟨⟨.operator, ['\\'], byteLength (before ++ c :: taken)⟩, Position.endOf (before ++ c :: taken)⟩ ::
        Token.placedFrom (before ++ c :: (taken ++ ['\\'])) ('\n' :: rest) := by
    have hoperator := @Token.placedFrom_token '\\' [] ('\n' :: rest) (some .operator) rfl rfl (by decide)
      (before ++ c :: taken)
    rwa [List.append_assoc] at hoperator
  have hend := endOf_append_of_notMem before hpiece
  have hknown : none ≠ some Kind.comment := by decide
  rw [← Token.placedFrom_return hfront] at hrest
  rw [hsplit, Token.placedFrom_token hblank h hknown, Token.placedFrom_token hblank h' hknown, hslash]
  refine .trailing rfl (.of_piece hc h hknown (absurd rfl) hwhole) rfl ?_ ?_ trivial ?_
  · show (Position.endOf (before ++ c :: taken)).line = (Position.endOf before).line
    rw [hend]
  · show (Position.endOf before).column < (Position.endOf (before ++ c :: taken)).column
    rw [hend, List.length_cons]
    dsimp only
    omega
  · rwa [List.cons_append, List.append_assoc] at hrest

/-- The tokens of a text run beside those of the text with carriage returns. -/
theorem parallel_crlf (whole : List Char) :
    Parallel (PlacedToken.Converted whole) (fun _ _ => True) (Token.placed whole)
      (Token.placed (crlf whole)) := by
  refine @parallelBreaks_of_pieces _ _ ['\r', '\n'] [] lineBreak_crlf whole ?_ [] whole rfl
  intro before c text hwhole hc hblank hnext
  have hlater : ∀ front rest, front ≠ [] → c :: text = front ++ rest →
      Parallel (PlacedToken.Converted whole) (fun _ _ => True) (Token.placedFrom (before ++ front) rest)
        (Token.placedFrom (crlf before ++ crlf front) (crlf rest)) := by
    intro front rest hfront htext
    rw [← crlf_append]
    exact hnext front rest hfront htext
  show Parallel _ _ _ (Token.placedFrom (crlf before) (crlf (c :: text)))
  have hcrlf := crlf_cons hc
  cases Token.munch_converts hc text with
  | @whole kind taken rest h h' =>
      have hrest := hlater _ _ (List.cons_ne_nil c taken) rfl
      rw [hcrlf] at hrest
      rw [hcrlf, crlf_append]
      exact .piece hc hblank h h'
        (fun hkind => .of_piece hc h hkind (fun _ => (hcrlf taken).symm) hwhole) hrest
  | @absorbing kind taken rest hkind htaken h h' =>
      have hfront : '\n' ∉ c :: taken := List.not_mem_cons_of_ne_of_not_mem (Ne.symm hc) htaken
      have hrest := hlater _ _ (List.cons_ne_nil c taken) rfl
      rw [← Token.placedFrom_return hfront] at hrest
      have hsplit : crlf (c :: (taken ++ '\n' :: rest)) = c :: (taken ++ ['\r'] ++ '\n' :: crlf rest) := by
        rw [hcrlf, crlf_append, crlf_of_notMem htaken, List.append_assoc]
        rfl
      rw [hsplit]
      exact .piece hc hblank h h'
        (fun hcode => .of_piece hc h hcode (fun hknown => (hkind.elim hknown hcode).elim) hwhole) hrest
  | @escaping taken rest htaken h h' =>
      exact .escaped hc hblank hwhole htaken h h'
        (hlater (c :: (taken ++ ['\\'])) ('\n' :: rest) (List.cons_ne_nil _ _) (by simp))

-- a string that is not closed, with a backslash at the end of its line: the two texts have other tokens
example : (Token.tokens "\"a\\\n\n".toList).map Token.kind = [.unknown, .operator, .newline] ∧
    (Token.tokens (crlf "\"a\\\n\n".toList)).map Token.kind = [.unknown, .newline, .newline] := by
  decide +kernel

/-- **Line endings do not matter.** With a carriage return before every line feed, whether or not there
are others, a text has the same declarations on the same lines and columns, with every offset greater by
the number of its line, and the same messages. -/
theorem parseWithDiagnostics_crlf (source : String) :
    ∃ statements diagnostics diagnostics', parseWithDiagnostics source = (.parsed statements, diagnostics) ∧
      parseWithDiagnostics (String.ofList (crlf source.toList)) =
        (.parsed (statements.map fun statement => statement.place statement.position.crlf), diagnostics') ∧
      diagnostics'.map Diagnostic.message = diagnostics.map Diagnostic.message := by
  have hparallel :
      Parallel (PlacedToken.Converted source.toList) (fun _ _ => True) (Token.placed source.toList)
      (Token.placed (String.ofList (crlf source.toList)).toList) := by
    rw [String.toList_ofList]
    exact parallel_crlf source.toList
  exact parseWithDiagnostics_of_parallel PlacedToken.Converted.likeness (fun _ _ h => h.position_eq) hparallel

end ElmNavigation
