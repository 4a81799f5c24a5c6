import ElmNavigation.Proofs.Declaration.LineBreaks

/-! A text may stand behind a margin. With the same number of spaces before every line, comments and
strings that run over lines get spaces inside, and a run of line feeds falls apart into single ones. But
every token stays on its line, all of them move to the right alike, and a layout only compares columns; so
the declarations and the messages are the same. -/

namespace ElmNavigation

namespace Text

/-- A text with spaces before every line. -/
def indent (spaces : Nat) (text : List Char) : List Char :=
  List.replicate spaces ' ' ++ breakWith ('\n' :: List.replicate spaces ' ') text

theorem newline_notMem_spaces (spaces : Nat) : '\n' ∉ List.replicate spaces ' ' :=
  fun hmem => absurd (List.eq_of_mem_replicate hmem) (by decide)

theorem lineBreak_spaces (spaces : Nat) : LineBreak ('\n' :: List.replicate spaces ' ') where
  count := by rw [List.count_cons_self, List.count_eq_zero.mpr (newline_notMem_spaces spaces)]
  blank := by
    refine List.forall_mem_cons.mpr ⟨.inl rfl, fun d hd => .inr ?_⟩
    rw [List.eq_of_mem_replicate hd]
    rfl

theorem byteLength_spaces (spaces : Nat) : byteLength (List.replicate spaces ' ') = spaces := by
  induction spaces with
  | zero => rfl
  | succ spaces ih =>
      have hsize : ' '.utf8Size = 1 := rfl
      rw [List.replicate_succ, byteLength_cons, ih, hsize, Nat.add_comm]

theorem indent_append (spaces : Nat) (left right : List Char) :
    indent spaces (left ++ right) = indent spaces left ++
      breakWith ('\n' :: List.replicate spaces ' ') right := by
  rw [indent, indent, breakWith_append, List.append_assoc]

end Text

open Text

/-- A position in the text with spaces before every line. -/
def Position.indent (spaces : Nat) (position : Position) : Position :=
  ⟨position.line, position.column + spaces, position.offset + spaces * (position.line + 1)⟩

/-- The end of a text moves to the right with its line. -/
theorem Position.endOf_indent (spaces : Nat) (text : List Char) :
    endOf (Text.indent spaces text) = (endOf text).indent spaces := by
  have hcolumn : (endOf (Text.indent spaces text)).column = (endOf text).column + spaces := by
    obtain ⟨whole, last, rfl, hlast, hwhole⟩ := exists_lastLine text
    have hlast' : '\n' ∉ List.replicate spaces ' ' ++ last := by
      rw [List.mem_append, not_or]
      exact ⟨newline_notMem_spaces spaces, hlast⟩
    have hlength : (List.replicate spaces ' ' ++ last).length = last.length + spaces := by
      rw [List.length_append, List.length_replicate, Nat.add_comm]
    rw [endOf_column hlast hwhole, ← hlength, indent_append, breakWith_of_notMem hlast]
    rcases hwhole with rfl | ⟨rest, rfl⟩
    · rw [Text.indent, breakWith_nil, List.append_nil]
      exact @endOf_column [] _ hlast' (.inl rfl)
    · have hsplit : Text.indent spaces (rest ++ ['\n']) ++ last =
          Text.indent spaces rest ++ ['\n'] ++ (List.replicate spaces ' ' ++ last) := by
        rw [indent_append, breakWith_newline, breakWith_nil, List.append_nil]
        simp only [List.append_assoc, List.cons_append, List.nil_append]
      rw [hsplit]
      exact endOf_column hlast' (.inr ⟨_, rfl⟩)
  have hline : (Text.indent spaces text).count '\n' = text.count '\n' := by
    rw [Text.indent, List.count_append, List.count_eq_zero.mpr (newline_notMem_spaces spaces), Nat.zero_add,
      count_breakWith (lineBreak_spaces spaces)]
  have hoffset : byteLength (Text.indent spaces text) = byteLength text + spaces * (text.count '\n' + 1) := by
    have hfeed : byteLength ('\n' :: List.replicate spaces ' ') = spaces + 1 := by
      rw [byteLength_cons, byteLength_spaces, Nat.add_comm]
      rfl
    rw [Text.indent, byteLength_append, byteLength_spaces, byteLength_breakWith hfeed, Nat.mul_succ]
    omega
  simp only [endOf, indent] at hcolumn ⊢
  rw [hcolumn, hline, hoffset]

/-- A token and its counterpart behind a margin. Only strings can have a margin inside. -/
structure PlacedToken.Indented (spaces : Nat) (text : List Char) (token token' : PlacedToken) : Prop where
  kind : token'.kind = token.kind
  chars : token.kind ≠ .stringLiteral → '\n' ∉ token.chars ∧ token'.chars = token.chars
  place : token.StandsIn text
  place' : token'.StandsIn (Text.indent spaces text)
  position : token'.position = token.position.indent spaces

namespace PlacedToken.Indented

variable {spaces : Nat} {text : List Char}

theorem likeness : PlacedToken.Likeness (Indented spaces text) where
  kind h := h.kind
  text {a b} h hread := by
    have hkinds : ∀ kind : Kind, kind.isName = true ∨ kind = .upperName ∨ kind = .operator →
        kind ≠ .stringLiteral := by
      intro kind
      cases kind <;> decide
    rw [Token.text, Token.text, (h.chars (hkinds a.kind hread)).2]
  touching {a b c d} h h' hjoined := by
    have hkind : a.kind ≠ .stringLiteral := by
      rcases hjoined with hkind | hkind <;> rw [hkind] <;> decide
    obtain ⟨hline, hchars⟩ := h.chars hkind
    have hline' : '\n' ∉ b.chars := by rwa [hchars]
    -- both can be read off the positions, where the spaces cancel
    rw [h.place.touching_iff h'.place hline, h.place'.touching_iff h'.place' hline', h.position,
      h'.position, hchars]
    dsimp only [Position.indent]
    omega
  line h h' := by rw [h.position, h'.position]; rfl
  column h h' := by rw [h.position, h'.position]; exact Nat.add_lt_add_iff_right

theorem of_piece {before taken rest : List Char} {c : Char} {kind : Option Kind} (hc : c ≠ '\n')
    (hmunch : Token.munch c (taken ++ rest) = ⟨kind, taken.length⟩) (hkind : kind ≠ some .comment)
    (htext : text = before ++ c :: (taken ++ rest)) :
    Indented spaces text ⟨⟨kind.getD .unknown, c :: taken, byteLength before⟩, Position.endOf before⟩
      ⟨⟨kind.getD .unknown, c :: breakWith ('\n' :: List.replicate spaces ' ') taken,
        byteLength (Text.indent spaces before)⟩, Position.endOf (Text.indent spaces before)⟩ where
  kind := rfl
  chars hstring := by
    have hline : '\n' ∉ c :: taken := by
      intro hmem
      rcases (Token.munch_piece hmunch).of_newline_mem hmem with ⟨_, hfirst⟩ | ⟨hcomment, _⟩ | ⟨rfl, _⟩
      · exact hc hfirst
      · exact hkind hcomment
      · exact hstring rfl
    exact ⟨hline, by rw [breakWith_of_notMem (List.not_mem_of_not_mem_cons hline)]⟩
  place := ⟨before, rest, htext, rfl, rfl⟩
  place' := by
    refine ⟨Text.indent spaces before, breakWith ('\n' :: List.replicate spaces ' ') rest, ?_, rfl, rfl⟩
    rw [htext, indent_append, breakWith_cons hc, breakWith_append]
    rfl
  position := Position.endOf_indent spaces before

end PlacedToken.Indented

/-- The tokens of a text run beside those of the text behind a margin. -/
theorem parallel_indent (spaces : Nat) (whole : List Char) :
    Parallel (PlacedToken.Indented spaces whole) (fun _ _ => False) (Token.placed whole)
      (Token.placed (indent spaces whole)) := by
  have hspaces : ∀ d ∈ List.replicate spaces ' ', Token.isBlank d = true := by
    intro d hd
    rw [List.eq_of_mem_replicate hd]
    rfl
  have hfeed := lineBreak_spaces spaces
  have hparallel : ParallelBreaks (PlacedToken.Indented spaces whole) (fun _ _ => False)
      ('\n' :: List.replicate spaces ' ') (List.replicate spaces ' ') [] whole := by
    refine parallelBreaks_of_pieces hfeed (fun before c text hwhole hc hblank hlater => ?_) rfl
    obtain ⟨kind, taken, rest, rfl, h, h'⟩ := Token.munch_carries hc hfeed text
    have hrest := hlater _ _ (List.cons_ne_nil c taken) rfl
    rw [ParallelBreaks, breakWith_append, breakWith_cons hc, ← List.append_assoc] at hrest
    rw [ParallelBreaks, breakWith_cons hc, breakWith_append]
    exact .piece hc hblank h h' (fun hkind => .of_piece hc h hkind hwhole) hrest
  have hmargin := Token.placedFrom_blanks hspaces [] (breakWith ('\n' :: List.replicate spaces ' ') whole)
  rw [ParallelBreaks, breakWith_nil, List.append_nil] at hparallel
  rw [List.nil_append] at hmargin
  rwa [← hmargin] at hparallel

-- a run of line feeds is one token, and behind a margin every line feed is one
example : (Token.tokens "a\n\nb".toList).map Token.kind = [.lowerName, .newline, .lowerName] ∧
    (Token.tokens (indent 1 "a\n\nb".toList)).map Token.kind =
      [.lowerName, .newline, .newline, .lowerName] := by
  decide +kernel

/-- **Indentation of the whole does not matter.** With any number of spaces before every line, a text has
the same declarations on the same lines, with every column greater by the number of spaces and every
offset by the spaces that were put before it, and the same messages. -/
theorem parseWithDiagnostics_indent (source : String) (spaces : Nat) :
    ∃ statements diagnostics diagnostics', parseWithDiagnostics source = (.parsed statements, diagnostics) ∧
      parseWithDiagnostics (String.ofList (indent spaces source.toList)) =
        (.parsed (statements.map fun statement => statement.place (statement.position.indent spaces)),
          diagnostics') ∧
      diagnostics'.map Diagnostic.message = diagnostics.map Diagnostic.message := by
  have hparallel := parallel_indent spaces source.toList
  rw [← String.toList_ofList (l := indent spaces source.toList)] at hparallel
  exact parseWithDiagnostics_of_parallel PlacedToken.Indented.likeness (fun _ _ h => h.position) hparallel

end ElmNavigation
