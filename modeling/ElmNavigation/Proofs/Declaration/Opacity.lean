import ElmNavigation.Proofs.Declaration.Parallel
import ElmNavigation.Proofs.Text.Places

/-! Comments and literals are opaque. Two texts that differ only inside one piece, a comment or a literal
in both, have the same tokens but for that piece: those before it are untouched, and those after it are
moved along. If the piece ends on the same line and column in both texts, no token changes its line or
column, so neither rules nor layouts can tell the texts apart. -/

namespace ElmNavigation

open Text

/-- A position after the text `inside`, which stands behind `before`, has given way to `inside'`. -/
def Position.replace (before inside inside' : List Char) (position : Position) : Position :=
  if byteLength (before ++ inside) ≤ position.offset then
    ⟨position.line, position.column, position.offset - byteLength inside + byteLength inside'⟩
  else position

/-- Corresponding tokens of two texts that differ in one piece behind `before`. -/
inductive PlacedToken.Replaced (before inside inside' : List Char) : PlacedToken → PlacedToken → Prop where
  | earlier {token : PlacedToken} (hoffset : token.position.offset = token.start)
      (hstart : token.start < byteLength before) (hstop : token.stop ≤ byteLength before) :
      Replaced before inside inside' token token
  /-- The piece itself, if it is a literal. -/
  | piece {token token' : PlacedToken} (hkind : token'.kind = token.kind)
      (hliteral : token.kind = .stringLiteral ∨ token.kind = .charLiteral)
      (hposition : token'.position = token.position) (hoffset : token.position.offset = token.start)
      (hstart : token.start = byteLength before) (hstart' : token'.start = byteLength before) :
      Replaced before inside inside' token token'
  | later {token token' : PlacedToken} (hkind : token'.kind = token.kind)
      (hchars : token'.chars = token.chars) (hline : token'.position.line = token.position.line)
      (hcolumn : token'.position.column = token.position.column)
      (hoffset : token.position.offset = token.start) (hoffset' : token'.position.offset = token'.start)
      (hstart : byteLength before + byteLength inside ≤ token.start)
      (hstart' : token'.start = token.start - byteLength inside + byteLength inside') :
      Replaced before inside inside' token token'

namespace PlacedToken.Replaced

variable {before inside inside' : List Char} {a b c d : PlacedToken}

theorem kind_eq (h : Replaced before inside inside' a b) : b.kind = a.kind := by
  cases h with
  | earlier => rfl
  | piece hkind => exact hkind
  | later hkind => exact hkind

theorem place_eq (h : Replaced before inside inside' a b) :
    b.position.line = a.position.line ∧ b.position.column = a.position.column := by
  cases h with
  | earlier => exact ⟨rfl, rfl⟩
  | piece _ _ hposition => exact ⟨by rw [hposition], by rw [hposition]⟩
  | later _ _ hline hcolumn => exact ⟨hline, hcolumn⟩

theorem position_eq (hinside : 0 < byteLength inside) (h : Replaced before inside inside' a b) :
    b.position = a.position.replace before inside inside' := by
  rw [Position.replace, byteLength_append]
  cases h with
  | earlier hoffset hstart => rw [if_neg (by omega)]
  | piece _ _ hposition hoffset hstart => rw [if_neg (by omega), hposition]
  | later _ _ hline hcolumn hoffset hoffset' hstart hstart' =>
      have hparts : b.position = ⟨b.position.line, b.position.column, b.position.offset⟩ := rfl
      rw [if_pos (by omega), hparts, hline, hcolumn, hoffset', hstart', hoffset]

/-- No token touches another across the piece, so tokens touch in both texts or in neither. -/
theorem touching (hinside : 0 < byteLength inside) (hinside' : 0 < byteLength inside')
    (h : Replaced before inside inside' a b) (h' : Replaced before inside inside' c d)
    (hjoined : a.kind = .upperName ∨ a.kind = .dot) : d.start = b.stop ↔ c.start = a.stop := by
  cases h with
  | earlier _ hstart hstop =>
      cases h' with
      | earlier => exact Iff.rfl
      | piece _ _ _ _ hpiece hpiece' => rw [hpiece, hpiece']
      | later _ _ _ _ _ _ hlater hlater' => exact iff_of_false (by omega) (by omega)
  | piece _ hliteral =>
      rcases hliteral with hliteral | hliteral <;> rw [hliteral] at hjoined <;>
        rcases hjoined with h | h <;> cases h
  | later _ hchars _ _ _ _ hstart hstart' =>
      have hle : a.start ≤ a.stop := Nat.le_add_right _ _
      have hstop' : b.stop = a.stop - byteLength inside + byteLength inside' := by
        rw [Token.stop, Token.stop, hchars, hstart']
        omega
      cases h' with
      | earlier _ hearlier _ => exact iff_of_false (by omega) (by omega)
      | piece _ _ _ _ hpiece hpiece' => exact iff_of_false (by omega) (by omega)
      | later _ _ _ _ _ _ hlater hlater' => omega

theorem likeness (hinside : 0 < byteLength inside) (hinside' : 0 < byteLength inside') :
    Likeness (Replaced before inside inside') where
  kind := kind_eq
  text := by
    intro a b h hread
    cases h with
    | earlier => rfl
    | piece _ hliteral =>
        rcases hliteral with hliteral | hliteral <;> rw [hliteral] at hread <;>
          rcases hread with h | h | h <;> cases h
    | later _ hchars => rw [Token.text, hchars]; rfl
  touching h h' hjoined := h.touching hinside hinside' h' hjoined
  line h h' := by rw [h.place_eq.1, h'.place_eq.1]
  column h h' := by rw [h.place_eq.2, h'.place_eq.2]

end PlacedToken.Replaced

namespace Token

variable {before inside inside' after : List Char}

/-- The piece that covers a part of a text, as it is read there. -/
theorem exists_piece_of_span {kind : Option Kind} {lexeme : Lexeme}
    (hmem : lexeme ∈ lexemes (before ++ inside ++ after)) (hkind : lexeme.kind = kind)
    (hspan : lexeme.span = ⟨byteLength before, byteLength (before ++ inside)⟩) :
    ∃ c taken, inside = c :: taken ∧ Breaks before (c :: taken ++ after) ∧ isBlank c = false ∧
      munch c (taken ++ after) = ⟨kind, taken.length⟩ := by
  obtain ⟨front, c, taken, back, htext, hbreaks, hc, hmunch, hchars, hstart⟩ := exists_breaks_of_mem_cut hmem
  obtain ⟨hstart', hstop⟩ := Span.mk.inj hspan
  rw [hstart, Nat.zero_add] at hstart'
  rw [List.append_assoc] at htext
  obtain ⟨rfl, hrest⟩ := append_inj_of_byteLength htext hstart'.symm
  have hlength : byteLength inside = byteLength (c :: taken) := by
    rw [Lexeme.stop, hstart, hchars, byteLength_append] at hstop
    omega
  obtain ⟨rfl, rfl⟩ := append_inj_of_byteLength hrest hlength
  exact ⟨c, taken, rfl, hbreaks, hc, by rw [hmunch, hkind]⟩

/-- The tokens before a piece stand where they stand without it. -/
theorem earlier_replaced {token : Token} (hmem : token ∈ tokens before) (rest rest' : List Char) :
    PlacedToken.Replaced before inside inside'
      ⟨token, (LineIndex.ofText (before ++ rest)).position token.start⟩
      ⟨token, (LineIndex.ofText (before ++ rest')).position token.start⟩ := by
  obtain ⟨front, c, taken, back, rfl, _, _, hchars, hstart, _⟩ := exists_breaks_of_mem_tokens hmem
  have hlt := start_lt_stop_of_mem_tokens hmem
  have hstop : token.stop ≤ byteLength (front ++ (c :: taken ++ back)) := by
    rw [stop, hstart, hchars, byteLength_append, byteLength_append]
    omega
  have hposition : ∀ rest, (LineIndex.ofText (front ++ (c :: taken ++ back) ++ rest)).position token.start =
      Position.endOf front := by
    intro rest
    rw [hstart, List.append_assoc, LineIndex.position_ofText]
  rw [hposition, hposition]
  exact .earlier hstart.symm (Nat.lt_of_lt_of_le hlt hstop) hstop

/-- The tokens after a piece are moved along. -/
theorem later_replaced {token : Token} (hmem : token ∈ tokens after)
    (hline : (Position.endOf (before ++ inside')).line = (Position.endOf (before ++ inside)).line)
    (hcolumn : (Position.endOf (before ++ inside')).column = (Position.endOf (before ++ inside)).column) :
    PlacedToken.Replaced before inside inside'
      ⟨token.move (byteLength (before ++ inside)),
        (LineIndex.ofText (before ++ inside ++ after)).position
        (token.move (byteLength (before ++ inside))).start⟩
      ⟨token.move (byteLength (before ++ inside')),
        (LineIndex.ofText (before ++ inside' ++ after)).position
          (token.move (byteLength (before ++ inside'))).start⟩ := by
  obtain ⟨front, c, taken, back, rfl, _, _, _, hstart, _⟩ := exists_breaks_of_mem_tokens hmem
  have hposition : ∀ text, (LineIndex.ofText (text ++ (front ++ (c :: taken ++ back)))).position
      (token.move (byteLength text)).start = Position.endOf (text ++ front) := by
    intro text
    rw [move_start, hstart, Nat.add_comm, ← byteLength_append, ← List.append_assoc, LineIndex.position_ofText]
  have hoffset : ∀ text, (Position.endOf (text ++ front)).offset = (token.move (byteLength text)).start := by
    intro text
    rw [move_start, hstart, Nat.add_comm]
    exact byteLength_append text front
  obtain ⟨hline', hcolumn'⟩ := endOf_append_right hline hcolumn front
  rw [hposition, hposition]
  refine .later rfl rfl hline' hcolumn' (hoffset _) (hoffset _) ?_ ?_
  · show byteLength before + byteLength inside ≤ token.start + byteLength (before ++ inside)
    rw [byteLength_append]
    omega
  · show token.start + byteLength (before ++ inside') =
      token.start + byteLength (before ++ inside) - byteLength inside + byteLength inside'
    rw [byteLength_append, byteLength_append]
    omega

/-- Two texts that differ in one comment or literal have corresponding tokens. -/
theorem forall₂_replaced {kind : Kind} (hkind : kind ∈ [.comment, .stringLiteral, .charLiteral]) {c c' : Char}
    {taken taken' : List Char} (h : Breaks before (c :: taken ++ after)) (hc : isBlank c = false)
    (hmunch : munch c (taken ++ after) = ⟨some kind, taken.length⟩)
    (h' : Breaks before (c' :: taken' ++ after)) (hc' : isBlank c' = false)
    (hmunch' : munch c' (taken' ++ after) = ⟨some kind, taken'.length⟩)
    (hline : (Position.endOf (c' :: taken')).line = (Position.endOf (c :: taken)).line)
    (hcolumn : (Position.endOf (c' :: taken')).column = (Position.endOf (c :: taken)).column) :
    List.Forall₂ (PlacedToken.Replaced before (c :: taken) (c' :: taken'))
      (placed (before ++ (c :: taken ++ after))) (placed (before ++ (c' :: taken' ++ after))) := by
  obtain ⟨hline, hcolumn⟩ := endOf_append_left before hline hcolumn
  rw [placed, placed, h.tokens_piece hc hmunch, h'.tokens_piece hc' hmunch', List.map_append, List.map_append,
    List.map_append, List.map_append]
  refine List.rel_append ?_ (List.rel_append ?_ ?_)
  · rw [List.forall₂_map_left_iff, List.forall₂_map_right_iff]
    exact List.forall₂_same.mpr fun token hmem => earlier_replaced hmem _ _
  · simp only [List.mem_cons, List.not_mem_nil, or_false] at hkind
    rcases hkind with rfl | hliteral
    · exact .nil
    · have htoken : ∀ chars, ofLexeme? ⟨some kind, chars, byteLength before⟩ =
          some ⟨kind, chars, byteLength before⟩ := by
        intro chars
        rcases hliteral with rfl | rfl <;> rfl
      have hposition := LineIndex.position_ofText before
      rw [htoken, htoken]
      exact .cons (.piece rfl hliteral ((hposition _).trans (hposition _).symm)
        (congrArg Position.offset (hposition _)) rfl rfl) .nil
  · rw [List.forall₂_map_left_iff, List.forall₂_map_right_iff, List.forall₂_map_left_iff,
      List.forall₂_map_right_iff]
    refine List.forall₂_same.mpr fun token hmem => ?_
    rw [← List.append_assoc, ← List.append_assoc]
    exact later_replaced hmem hline hcolumn

end Token

/-- **Comments and literals are opaque.** A comment or a literal may be replaced by any other text that is
read as a piece of the same kind at the same place, if it has as many line breaks and as many characters
after the last of them: the declarations stay as they are, on their lines and columns, and so do the
messages. -/
theorem parseWithDiagnostics_replace {before inside inside' after : String} {kind : Kind}
    (hkind : kind ∈ [.comment, .stringLiteral, .charLiteral])
    (h : ∃ lexeme ∈ Token.lexemes (before ++ inside ++ after).toList, lexeme.kind = some kind ∧
      lexeme.span = ⟨byteLength before.toList, byteLength (before ++ inside).toList⟩)
    (h' : ∃ lexeme ∈ Token.lexemes (before ++ inside' ++ after).toList, lexeme.kind = some kind ∧
      lexeme.span = ⟨byteLength before.toList, byteLength (before ++ inside').toList⟩)
    (hline : (Position.endOf inside'.toList).line = (Position.endOf inside.toList).line)
    (hcolumn : (Position.endOf inside'.toList).column = (Position.endOf inside.toList).column) :
    ∃ statements diagnostics diagnostics',
      parseWithDiagnostics (before ++ inside ++ after) = (.parsed statements, diagnostics) ∧
      parseWithDiagnostics (before ++ inside' ++ after) =
        (.parsed (statements.map fun statement => statement.place
          (statement.position.replace before.toList inside.toList inside'.toList)), diagnostics') ∧
      diagnostics'.map Diagnostic.message = diagnostics.map Diagnostic.message := by
  obtain ⟨lexeme, hmem, hlexeme, hspan⟩ := h
  obtain ⟨lexeme', hmem', hlexeme', hspan'⟩ := h'
  simp only [String.toList_append] at hmem hspan hmem' hspan'
  obtain ⟨c, taken, hinside, hbreaks, hc, hmunch⟩ := Token.exists_piece_of_span hmem hlexeme hspan
  obtain ⟨c', taken', hinside', hbreaks', hc', hmunch'⟩ := Token.exists_piece_of_span hmem' hlexeme' hspan'
  have hpos : ∀ {text : List Char} {c taken}, text = c :: taken → 0 < byteLength text := by
    rintro _ c taken rfl
    have := c.utf8Size_pos
    rw [byteLength_cons]
    omega
  have hlike : PlacedToken.Likeness (PlacedToken.Replaced before.toList inside.toList inside'.toList) :=
    PlacedToken.Replaced.likeness (hpos hinside) (hpos hinside')
  have hparallel : Parallel (PlacedToken.Replaced before.toList inside.toList inside'.toList)
      (fun _ _ => False) (Token.placed (before ++ inside ++ after).toList)
      (Token.placed (before ++ inside' ++ after).toList) := by
    refine .of_forall₂ (fun _ _ => hlike.kind) ?_
    simp only [String.toList_append]
    rw [hinside, hinside'] at hline hcolumn ⊢
    rw [List.append_assoc, List.append_assoc]
    exact Token.forall₂_replaced hkind hbreaks hc hmunch hbreaks' hc' hmunch' hline hcolumn
  exact parseWithDiagnostics_of_parallel hlike
    (fun _ _ hreplaced => hreplaced.position_eq (hpos hinside)) hparallel

/-- A declaration behind a comment, on its last line, stays when a declaration inside the comment gives
way. -/
theorem parseWithDiagnostics_replace_comment :
    ∃ statements diagnostics diagnostics',
      parseWithDiagnostics ("type A = B" ++ "\x7b-\ntype C = D-\x7d" ++ "type E = F") =
        (.parsed statements, diagnostics) ∧
      parseWithDiagnostics ("type A = B" ++ "\x7b-é\"\nimport Xy.-\x7d" ++ "type E = F") =
        (.parsed (statements.map fun statement =>
          statement.place (statement.position.replace "type A = B".toList
          "\x7b-\ntype C = D-\x7d".toList "\x7b-é\"\nimport Xy.-\x7d".toList)), diagnostics') ∧
      diagnostics'.map Diagnostic.message = diagnostics.map Diagnostic.message := by
  have hlexeme : (⟨some .comment, "\x7b-\ntype C = D-\x7d".toList, 10⟩ : Lexeme) ∈
      Token.lexemes ("type A = B" ++ "\x7b-\ntype C = D-\x7d" ++ "type E = F").toList := by
    decide +kernel
  have hlexeme' : (⟨some .comment, "\x7b-é\"\nimport Xy.-\x7d".toList, 10⟩ : Lexeme) ∈
      Token.lexemes ("type A = B" ++ "\x7b-é\"\nimport Xy.-\x7d" ++ "type E = F").toList := by
    decide +kernel
  exact parseWithDiagnostics_replace (.head _) ⟨_, hlexeme, rfl, by decide +kernel⟩
    ⟨_, hlexeme', rfl, by decide +kernel⟩ (by decide +kernel) (by decide +kernel)

end ElmNavigation
