import ElmNavigation.Proofs.Text.Boundaries
import ElmNavigation.Proofs.Text.Places

/-! Line and column as coordinates. An offset between two characters has a line and a column, and these
lead back to it; a line and a column that lead anywhere lead to a place which has them. Further on in the
text the line is greater, or the line is the same and the column is greater. So the offsets of a text and
its carets correspond one to one, in the same order, with the end of every line and the end of the text
among them. -/

namespace ElmNavigation.Text

/-- The line and the column of a place lead back to it. -/
theorem LineIndex.offset?_endOf (before after : List Char) :
    (LineIndex.ofText (before ++ after)).offset? (Position.endOf before).line (Position.endOf before).column =
      some (byteLength before) := by
  obtain ⟨whole, last, rfl, hlast, hwhole⟩ := exists_lastLine before
  have hline :
      (LineIndex.ofText (whole ++ last ++ after)).lines[(Position.endOf (whole ++ last)).line]? = _ :=
    LineIndex.getElem?_ofText_lastLine hlast hwhole
  rw [LineIndex.offset?, hline, endOf_column hlast hwhole, firstLine_append hlast]
  dsimp only
  rw [if_pos (by rw [List.length_append]; omega), List.take_left, byteLength_append]

/-- Before a line stand as many line breaks as there are lines before it. -/
theorem exists_whole_of_le_count {text : List Char} {n : Nat} (h : n ≤ text.count '\n') :
    ∃ whole after, text = whole ++ after ∧ whole.count '\n' = n ∧
      (whole = [] ∨ ∃ rest, whole = rest ++ ['\n']) := by
  induction text generalizing n with
  | nil =>
      rw [List.count_nil, Nat.le_zero] at h
      exact ⟨[], [], rfl, h.symm, .inl rfl⟩
  | cons c text ih =>
      cases n with
      | zero => exact ⟨[], c :: text, rfl, rfl, .inl rfl⟩
      | succ n =>
          by_cases hc : c = '\n'
          · subst hc
            rw [List.count_cons_self] at h
            obtain ⟨whole, after, rfl, hcount, hwhole⟩ := ih (Nat.le_of_succ_le_succ h)
            refine ⟨'\n' :: whole, after, rfl, by rw [List.count_cons_self, hcount], .inr ?_⟩
            rcases hwhole with rfl | ⟨rest, rfl⟩
            · exact ⟨[], rfl⟩
            · exact ⟨'\n' :: rest, rfl⟩
          · rw [List.count_cons_of_ne hc] at h
            obtain ⟨whole, after, rfl, hcount, hwhole⟩ := ih h
            refine ⟨c :: whole, after, rfl, by rw [List.count_cons_of_ne hc, hcount], .inr ?_⟩
            rcases hwhole with rfl | ⟨rest, rfl⟩
            · cases hcount
            · exact ⟨c :: rest, rfl⟩

/-- The characters of a line up to a column stand in the text. -/
theorem exists_split_of_le_firstLine {text : List Char} {column : Nat}
    (h : column ≤ (firstLine text).length) :
    ∃ last rest, text = last ++ rest ∧ '\n' ∉ last ∧ last.length = column ∧
      (firstLine text).take column = last := by
  have hsplit : firstLine text ++ text.dropWhile (· ≠ '\n') = text := List.takeWhile_append_dropWhile
  refine ⟨(firstLine text).take column, (firstLine text).drop column ++ text.dropWhile (· ≠ '\n'),
    ?_, ?_, ?_, rfl⟩
  · rw [← List.append_assoc, List.take_append_drop, hsplit]
  · intro hmem
    have hline : decide ('\n' ≠ '\n') = true :=
      List.all_eq_true.mp List.all_takeWhile '\n' (List.mem_of_mem_take hmem)
    exact absurd hline (by decide)
  · rw [List.length_take, Nat.min_eq_left h]

/-- A line and a column that lead anywhere are those of a place. -/
theorem LineIndex.exists_endOf_of_offset? {text : List Char} {line column offset : Nat}
    (h : (LineIndex.ofText text).offset? line column = some offset) :
    ∃ before after, text = before ++ after ∧ offset = byteLength before ∧
      (Position.endOf before).line = line ∧ (Position.endOf before).column = column := by
  have hsize : (LineIndex.ofText text).lines.size = text.count '\n' + 1 := by
    rw [← length_laterLines 0 text]
    rfl
  rw [LineIndex.offset?] at h
  split at h
  · cases h
  · next found hfound =>
      have hlt : line < text.count '\n' + 1 := hsize ▸ (Array.getElem?_eq_some_iff.mp hfound).1
      obtain ⟨whole, after, rfl, rfl, hwhole⟩ := exists_whole_of_le_count (Nat.le_of_lt_succ hlt)
      have hline := @LineIndex.getElem?_ofText_lastLine whole [] after (by simp) hwhole
      rw [List.append_nil, List.nil_append, hfound] at hline
      obtain rfl := Option.some.inj hline
      dsimp only at h
      split at h
      · next hcolumn =>
          obtain ⟨last, rest, rfl, hlast, rfl, htake⟩ := exists_split_of_le_firstLine hcolumn
          rw [htake] at h
          refine ⟨whole ++ last, rest, (List.append_assoc _ _ _).symm, ?_, ?_, endOf_column hlast hwhole⟩
          · rw [byteLength_append]
            exact (Option.some.inj h).symm
          · show (whole ++ last).count '\n' = whole.count '\n'
            rw [List.count_append, List.count_eq_zero.mpr hlast, Nat.add_zero]
      · cases h

/-- Further on in a text the line is greater, or the line is the same and the column is greater. -/
theorem endOf_lt_endOf_append (before : List Char) {between : List Char} (h : between ≠ []) :
    (Position.endOf before).line < (Position.endOf (before ++ between)).line ∨
      (Position.endOf before).line = (Position.endOf (before ++ between)).line ∧
        (Position.endOf before).column < (Position.endOf (before ++ between)).column := by
  by_cases hmem : '\n' ∈ between
  · have hpos : 0 < (Position.endOf between).line := List.count_pos_iff.mpr hmem
    left
    rw [endOf_append_of_mem before hmem]
    exact Nat.lt_add_of_pos_right hpos
  · have hpos := List.length_pos_iff.mpr h
    right
    rw [endOf_append_of_notMem before hmem]
    exact ⟨rfl, Nat.lt_add_of_pos_right hpos⟩

/-- Of two places of a text the one with no more bytes before it does not come later. -/
theorem exists_between_of_le {before before' after after' : List Char}
    (h : before ++ after = before' ++ after') (hle : byteLength before ≤ byteLength before') :
    ∃ between, before' = before ++ between ∧ after = between ++ after' := by
  rcases List.append_eq_append_iff.mp h with hfirst | ⟨between, rfl, rfl⟩
  · exact hfirst
  · have hbytes : byteLength (before' ++ between) = byteLength before' := by
      rw [byteLength_append] at hle ⊢
      omega
    obtain ⟨hbefore, hafter⟩ := append_inj_of_byteLength h hbytes
    exact ⟨[], by rw [List.append_nil, hbefore], hafter⟩

/-- Of two places of a text the one with fewer bytes before it comes first. -/
theorem exists_between_of_lt {before before' after after' : List Char}
    (h : before ++ after = before' ++ after') (hlt : byteLength before < byteLength before') :
    ∃ between, between ≠ [] ∧ before' = before ++ between := by
  obtain ⟨between, rfl, _⟩ := exists_between_of_le h (Nat.le_of_lt hlt)
  refine ⟨between, ?_, rfl⟩
  rintro rfl
  rw [List.append_nil] at hlt
  exact absurd hlt (Nat.lt_irrefl _)

/-- A text has only one place on a given line and column. -/
theorem byteLength_eq_of_endOf {before before' after after' : List Char}
    (h : before ++ after = before' ++ after')
    (hline : (Position.endOf before).line = (Position.endOf before').line)
    (hcolumn : (Position.endOf before).column = (Position.endOf before').column) :
    byteLength before = byteLength before' := by
  rcases Nat.lt_trichotomy (byteLength before) (byteLength before') with hlt | heq | hlt
  · obtain ⟨between, hne, rfl⟩ := exists_between_of_lt h hlt
    have := endOf_lt_endOf_append before hne
    omega
  · exact heq
  · obtain ⟨between, hne, rfl⟩ := exists_between_of_lt h.symm hlt
    have := endOf_lt_endOf_append before' hne
    omega

/-- **Offsets and carets correspond.** The line and column of an offset between two characters lead back
to it, also at the end of a line and at the end of the source; a line and column that lead to an offset
are the line and column of that offset, which stands between two characters; and a greater offset has a
greater line, or a greater column on the same line. -/
theorem LineIndex.offset?_position (source : String) :
    (∀ offset, String.Pos.Raw.IsValid source ⟨offset⟩ →
      let position := (LineIndex.ofText source.toList).position offset
      (LineIndex.ofText source.toList).offset? position.line position.column = some offset ∧
        position.offset = offset) ∧
    (∀ line column offset, (LineIndex.ofText source.toList).offset? line column = some offset →
      String.Pos.Raw.IsValid source ⟨offset⟩ ∧
        ((LineIndex.ofText source.toList).position offset).line = line ∧
        ((LineIndex.ofText source.toList).position offset).column = column) ∧
    ∀ offset offset', String.Pos.Raw.IsValid source ⟨offset⟩ → String.Pos.Raw.IsValid source ⟨offset'⟩ →
      offset < offset' →
      let position := (LineIndex.ofText source.toList).position offset
      let position' := (LineIndex.ofText source.toList).position offset'
      position.line < position'.line ∨ position.line = position'.line ∧
        position.column < position'.column := by
  refine ⟨?_, ?_, ?_⟩
  · intro offset hvalid
    obtain ⟨before, after, hsource, rfl⟩ := exists_split_of_isValid hvalid
    rw [hsource, LineIndex.position_ofText]
    exact ⟨LineIndex.offset?_endOf before after, rfl⟩
  · intro line column offset hoffset
    obtain ⟨before, after, hsource, rfl, hline, hcolumn⟩ := LineIndex.exists_endOf_of_offset? hoffset
    refine ⟨isValid_byteLength hsource, ?_⟩
    rw [hsource, LineIndex.position_ofText]
    exact ⟨hline, hcolumn⟩
  · intro offset offset' hvalid hvalid' hlt
    obtain ⟨before, after, hsource, rfl⟩ := exists_split_of_isValid hvalid
    obtain ⟨before', after', hsource', rfl⟩ := exists_split_of_isValid hvalid'
    obtain ⟨between, hne, rfl⟩ := exists_between_of_lt (hsource.symm.trans hsource') hlt
    have hposition := LineIndex.position_ofText before after
    have hposition' := LineIndex.position_ofText (before ++ between) after'
    rw [← hsource] at hposition
    rw [← hsource'] at hposition'
    dsimp only
    rw [hposition, hposition']
    exact endOf_lt_endOf_append before hne

/-- The end of a line that ends with a carriage return, behind a character of two bytes, and the end of
the text after its last line break. -/
theorem LineIndex.offset?_position_at_ends :
    (LineIndex.ofText "é\r\n\n".toList).offset? 0 2 = some 3 ∧
      (LineIndex.ofText "é\r\n\n".toList).offset? 2 0 = some 5 ∧
      String.Pos.Raw.IsValid "é\r\n\n" ⟨3⟩ ∧ String.Pos.Raw.IsValid "é\r\n\n" ⟨5⟩ ∧
      ((LineIndex.ofText "é\r\n\n".toList).position 3).line <
      ((LineIndex.ofText "é\r\n\n".toList).position 5).line := by
  obtain ⟨_, hback, hless⟩ := LineIndex.offset?_position "é\r\n\n"
  have hend : (LineIndex.ofText "é\r\n\n".toList).offset? 0 2 = some 3 := by decide +kernel
  have hlast : (LineIndex.ofText "é\r\n\n".toList).offset? 2 0 = some 5 := by decide +kernel
  obtain ⟨hvalid, hline, _⟩ := hback 0 2 3 hend
  obtain ⟨hvalid', hline', _⟩ := hback 2 0 5 hlast
  refine ⟨hend, hlast, hvalid, hvalid', ?_⟩
  rcases hless 3 5 hvalid hvalid' (by decide) with hlt | ⟨heq, _⟩
  · exact hlt
  · rw [hline, hline'] at heq
    cases heq

end ElmNavigation.Text
