import ElmNavigation.Proofs.Text.Lines

/-! Places in a text that is put together. A place is the text before it, so two ways to cut a text at the
same number of bytes are one. Where text is added, the line grows by its line breaks, and the column
starts afresh after the last of them; so the position behind an added text depends on that text only
through its own end. -/

namespace ElmNavigation

namespace Text

/-- A text has only one place with a given number of bytes before it. -/
theorem append_inj_of_byteLength {before before' after after' : List Char}
    (h : before ++ after = before' ++ after') (hbytes : byteLength before = byteLength before') :
    before = before' ∧ after = after' := by
  induction before generalizing before' with
  | nil =>
      cases before' with
      | nil => exact ⟨rfl, h⟩
      | cons c before' =>
          have hpos := c.utf8Size_pos
          rw [byteLength_nil, byteLength_cons] at hbytes
          omega
  | cons c before ih =>
      cases before' with
      | nil =>
          have hpos := c.utf8Size_pos
          rw [byteLength_nil, byteLength_cons] at hbytes
          omega
      | cons c' before' =>
          obtain ⟨rfl, hrest⟩ := List.cons.inj h
          rw [byteLength_cons, byteLength_cons] at hbytes
          obtain ⟨rfl, rfl⟩ := ih hrest (by omega)
          exact ⟨rfl, rfl⟩

/-- Text without line breaks moves its end along the line. -/
theorem endOf_append_of_notMem (before : List Char) {text : List Char} (h : '\n' ∉ text) :
    Position.endOf (before ++ text) =
      ⟨(Position.endOf before).line, (Position.endOf before).column + text.length,
        (Position.endOf before).offset + byteLength text⟩ := by
  obtain ⟨whole, last, rfl, hlast, hwhole⟩ := exists_lastLine before
  have hjoined : '\n' ∉ last ++ text := fun hmem => (List.mem_append.mp hmem).elim hlast h
  have hcolumn : (Position.endOf (whole ++ last ++ text)).column = last.length + text.length := by
    rw [List.append_assoc, endOf_column hjoined hwhole, List.length_append]
  have hcolumn' := endOf_column hlast hwhole
  have hcount : (whole ++ last ++ text).count '\n' = (whole ++ last).count '\n' := by
    rw [List.count_append, List.count_eq_zero.mpr h, Nat.add_zero]
  have hbytes := byteLength_append (whole ++ last) text
  simp only [Position.endOf] at hcolumn hcolumn' ⊢
  rw [hcolumn, hcolumn', hcount, hbytes]

/-- Behind text with a line break the column is counted in that text. -/
theorem endOf_append_of_mem (before : List Char) {text : List Char} (h : '\n' ∈ text) :
    Position.endOf (before ++ text) =
      ⟨(Position.endOf before).line + (Position.endOf text).line, (Position.endOf text).column,
        (Position.endOf before).offset + (Position.endOf text).offset⟩ := by
  obtain ⟨whole, last, rfl, hlast, hwhole⟩ := exists_lastLine text
  obtain ⟨rest, rfl⟩ : ∃ rest, whole = rest ++ ['\n'] := by
    rcases hwhole with rfl | hrest
    · exact absurd h hlast
    · exact hrest
  have hjoined : before ++ (rest ++ ['\n']) = [] ∨ ∃ more, before ++ (rest ++ ['\n']) = more ++ ['\n'] :=
    .inr ⟨before ++ rest, by rw [List.append_assoc]⟩
  have hcolumn : (Position.endOf (before ++ (rest ++ ['\n'] ++ last))).column = last.length := by
    rw [← List.append_assoc, endOf_column hlast hjoined]
  have hcolumn' := endOf_column hlast hwhole
  have hbytes := byteLength_append before (rest ++ ['\n'] ++ last)
  have hcount : (before ++ (rest ++ ['\n'] ++ last)).count '\n' =
      before.count '\n' + (rest ++ ['\n'] ++ last).count '\n' := List.count_append
  simp only [Position.endOf] at hcolumn hcolumn' ⊢
  rw [hcolumn, hcolumn', hbytes, hcount]

/-! ### Places on one line and column -/

theorem newline_mem_iff_of_line {text text' : List Char}
    (h : (Position.endOf text').line = (Position.endOf text).line) : '\n' ∈ text' ↔ '\n' ∈ text := by
  have hcount : text'.count '\n' = text.count '\n' := h
  rw [← List.count_pos_iff, ← List.count_pos_iff, hcount]

/-- Texts that end on the same line and column do so behind any text. -/
theorem endOf_append_left (before : List Char) {text text' : List Char}
    (hline : (Position.endOf text').line = (Position.endOf text).line)
    (hcolumn : (Position.endOf text').column = (Position.endOf text).column) :
    (Position.endOf (before ++ text')).line = (Position.endOf (before ++ text)).line ∧
      (Position.endOf (before ++ text')).column = (Position.endOf (before ++ text)).column := by
  by_cases hmem : '\n' ∈ text
  · rw [endOf_append_of_mem before hmem,
      endOf_append_of_mem before ((newline_mem_iff_of_line hline).mpr hmem)]
    exact ⟨by rw [hline], hcolumn⟩
  · have hmem' := mt (newline_mem_iff_of_line hline).mp hmem
    have hlength : ∀ {line : List Char}, '\n' ∉ line → (Position.endOf line).column = line.length := by
      intro line hline
      exact @endOf_column [] line hline (.inl rfl)
    rw [hlength hmem, hlength hmem'] at hcolumn
    rw [endOf_append_of_notMem before hmem, endOf_append_of_notMem before hmem']
    exact ⟨rfl, by rw [hcolumn]⟩

/-- From the same line and column a text leads to the same line and column. -/
theorem endOf_append_right {before before' : List Char}
    (hline : (Position.endOf before').line = (Position.endOf before).line)
    (hcolumn : (Position.endOf before').column = (Position.endOf before).column) (text : List Char) :
    (Position.endOf (before' ++ text)).line = (Position.endOf (before ++ text)).line ∧
      (Position.endOf (before' ++ text)).column = (Position.endOf (before ++ text)).column := by
  by_cases hmem : '\n' ∈ text
  · rw [endOf_append_of_mem before hmem, endOf_append_of_mem before' hmem]
    exact ⟨by rw [hline], rfl⟩
  · rw [endOf_append_of_notMem before hmem, endOf_append_of_notMem before' hmem]
    exact ⟨hline, by rw [hcolumn]⟩

end Text

end ElmNavigation
