import ElmNavigation.Text.LineIndex

/-! The position of an offset by counting. `Position.endOf` reads the end of a text off the text
itself: the line breaks in it, the characters after the last of them, and all its bytes. The halving
search of a `LineIndex` finds the same line as the count, whatever text follows, so the position of an
offset between two characters depends only on the text before it. -/

namespace ElmNavigation

/-- The end of a text by counting. -/
def Position.endOf (text : List Char) : Position :=
  ⟨text.count '\n', (text.reverse.takeWhile (· ≠ '\n')).length, Text.byteLength text⟩

/-- A position with text in front of it that has the given line breaks and bytes, and ends with a
line break. -/
def Position.move (lines bytes : Nat) (position : Position) : Position :=
  ⟨position.line + lines, position.column, position.offset + bytes⟩

@[simp]
theorem Position.move_line (lines bytes : Nat) (position : Position) :
    (position.move lines bytes).line = position.line + lines := rfl

@[simp]
theorem Position.move_column (lines bytes : Nat) (position : Position) :
    (position.move lines bytes).column = position.column := rfl

@[simp]
theorem Position.move_offset (lines bytes : Nat) (position : Position) :
    (position.move lines bytes).offset = position.offset + bytes := rfl

namespace Text

/-- A text falls into whole lines with their breaks and a last line without one. -/
theorem exists_lastLine (text : List Char) :
    ∃ whole last, text = whole ++ last ∧ '\n' ∉ last ∧ (whole = [] ∨ ∃ rest, whole = rest ++ ['\n']) := by
  induction text with
  | nil => exact ⟨[], [], rfl, by simp, Or.inl rfl⟩
  | cons c text ih =>
      obtain ⟨whole, last, rfl, hlast, hwhole⟩ := ih
      rcases hwhole with rfl | ⟨rest, rfl⟩
      · by_cases hc : c = '\n'
        · subst hc
          exact ⟨['\n'], last, rfl, hlast, Or.inr ⟨[], rfl⟩⟩
        · refine ⟨[], c :: last, rfl, ?_, Or.inl rfl⟩
          rw [List.mem_cons, not_or]
          exact ⟨fun h => hc h.symm, hlast⟩
      · exact ⟨c :: (rest ++ ['\n']), last, rfl, hlast, Or.inr ⟨c :: rest, rfl⟩⟩

/-- Back from the end up to the last `stop` stands what comes after it. -/
theorem length_takeWhile_reverse {α : Type} [DecidableEq α] {stop : α} {whole last : List α}
    (hlast : stop ∉ last) (hwhole : whole = [] ∨ ∃ rest, whole = rest ++ [stop]) :
    ((whole ++ last).reverse.takeWhile (· ≠ stop)).length = last.length := by
  have hall : ∀ a ∈ last.reverse, decide (a ≠ stop) = true := by
    intro a ha
    have hne : a ≠ stop := fun h => hlast (h ▸ List.mem_reverse.mp ha)
    exact decide_eq_true hne
  rw [List.reverse_append, List.takeWhile_append_of_pos hall, List.length_append, List.length_reverse]
  rcases hwhole with rfl | ⟨rest, rfl⟩
  · rfl
  · simp

/-- The column of the end of a text is the length of its last line. -/
theorem endOf_column {whole last : List Char} (hlast : '\n' ∉ last)
    (hwhole : whole = [] ∨ ∃ rest, whole = rest ++ ['\n']) :
    (Position.endOf (whole ++ last)).column = last.length :=
  length_takeWhile_reverse hlast hwhole

/-- Text in front that ends with a line break moves the end of a text. -/
theorem endOf_append {before : List Char} (hbefore : before = [] ∨ ∃ rest, before = rest ++ ['\n'])
    (text : List Char) :
    Position.endOf (before ++ text) = (Position.endOf text).move (before.count '\n') (byteLength before) := by
  obtain ⟨whole, last, rfl, hlast, hwhole⟩ := exists_lastLine text
  have hjoined : before ++ whole = [] ∨ ∃ rest, before ++ whole = rest ++ ['\n'] := by
    rcases hwhole with rfl | ⟨rest, rfl⟩
    · simpa using hbefore
    · exact Or.inr ⟨before ++ rest, by simp⟩
  have hcolumn : (Position.endOf (before ++ (whole ++ last))).column =
      (Position.endOf (whole ++ last)).column := by
    rw [← List.append_assoc, endOf_column hlast hjoined, endOf_column hlast hwhole]
  unfold Position.move
  rw [← hcolumn]
  simp [Position.endOf, Nat.add_comm]

/-! ### The lines of a text

Only the offsets at which lines begin matter for the search, so they are followed through a
concatenation first. -/

theorem length_laterLines (offset : Nat) (text : List Char) :
    (laterLines offset text).length = text.count '\n' := by
  induction text generalizing offset with
  | nil => rfl
  | cons c text ih =>
      rw [laterLines]
      split
      · next hc => rw [List.length_cons, ih, hc, List.count_cons_self]
      · next hc => rw [ih, List.count_cons_of_ne (by simpa using hc)]

theorem laterLines_starts_append (offset : Nat) (before after : List Char) :
    (laterLines offset (before ++ after)).map Line.start =
      (laterLines offset before).map Line.start ++
        (laterLines (offset + byteLength before) after).map Line.start := by
  induction before generalizing offset with
  | nil => simp [laterLines]
  | cons c before ih =>
      rw [List.cons_append, laterLines, laterLines]
      split
      · next hc =>
          have hsize : c.utf8Size = 1 := by rw [hc]; rfl
          rw [List.map_cons, List.map_cons, ih, byteLength_cons, hsize, List.cons_append, Nat.add_assoc]
      · rw [ih, byteLength_cons, Nat.add_assoc]

theorem start_of_mem_laterLines {offset : Nat} {text : List Char} {line : Line}
    (hmem : line ∈ laterLines offset text) :
    offset < line.start ∧ line.start ≤ offset + byteLength text := by
  induction text generalizing offset with
  | nil => simp [laterLines] at hmem
  | cons c text ih =>
      have hpos := c.utf8Size_pos
      rw [laterLines] at hmem
      rw [byteLength_cons]
      split at hmem
      · next hc =>
          have hsize : c.utf8Size = 1 := by rw [hc]; rfl
          rcases List.mem_cons.mp hmem with rfl | hmem
          · exact ⟨by show offset < offset + 1; omega, by show offset + 1 ≤ _; omega⟩
          · have := ih hmem
            omega
      · have := ih hmem
        omega

/-- A line that begins after the first character of a text begins no sooner than that character
ends. -/
theorem start_of_mem_laterLines_cons {offset : Nat} {c : Char} {text : List Char} {line : Line}
    (hmem : line ∈ laterLines offset (c :: text)) : offset + c.utf8Size ≤ line.start := by
  rw [laterLines] at hmem
  split at hmem
  · next hc =>
      have hsize : c.utf8Size = 1 := by rw [hc]; rfl
      rcases List.mem_cons.mp hmem with rfl | hmem
      · show offset + c.utf8Size ≤ offset + 1
        omega
      · have := (start_of_mem_laterLines hmem).1
        omega
  · have := (start_of_mem_laterLines hmem).1
    omega

/-- The last line break of a text begins the line that follows it. -/
theorem laterLines_getElem?_last (offset : Nat) (rest after : List Char) :
    (laterLines offset (rest ++ '\n' :: after))[rest.count '\n']? =
      some ⟨offset + byteLength rest + 1, firstLine after⟩ := by
  induction rest generalizing offset with
  | nil => simp [laterLines]
  | cons c rest ih =>
      rw [List.cons_append, laterLines]
      split
      · next hc =>
          have hsize : c.utf8Size = 1 := by rw [hc]; rfl
          rw [hc, List.count_cons_self, List.getElem?_cons_succ, ih, byteLength_cons, ← hc, hsize,
            Nat.add_assoc offset 1]
      · next hc =>
          rw [List.count_cons_of_ne (by simpa using hc), ih, byteLength_cons, Nat.add_assoc offset]

/-! ### The halving search -/

namespace LineIndex

/-- The search keeps a range whose lines before it begin no later than the offset and whose lines after
it begin later; it ends with an empty range. -/
theorem countUpTo_eq {lines : Array Line} {offset bound : Nat}
    (hlow : ∀ i, i < bound → (lines.getD i ⟨0, []⟩).start ≤ offset)
    (hhigh : ∀ i, bound ≤ i → i < lines.size → offset < (lines.getD i ⟨0, []⟩).start) :
    ∀ steps low high, low ≤ bound → bound ≤ high → high ≤ lines.size → high - low ≤ steps →
      countUpTo lines offset steps low high = bound := by
  intro steps
  induction steps with
  | zero =>
      intro low high hl hh _ hsteps
      rw [countUpTo]
      omega
  | succ steps ih =>
      intro low high hl hh hsize hsteps
      rw [countUpTo]
      split
      · next hlt =>
          dsimp only
          split
          · next hmiddle =>
              have hbound : (low + high) / 2 < bound := by
                rcases Nat.lt_or_ge ((low + high) / 2) bound with h | h
                · exact h
                · have := hhigh _ h (by omega)
                  omega
              exact ih _ _ (by omega) hh hsize (by omega)
          · next hmiddle =>
              have hbound : bound ≤ (low + high) / 2 := by
                rcases Nat.lt_or_ge ((low + high) / 2) bound with h | h
                · exact absurd (hlow _ h) hmiddle
                · exact h
              exact ih _ _ hl hbound (by omega) (by omega)
      · omega

/-- The offsets at which the lines begin. -/
def starts (index : LineIndex) : List Nat :=
  index.lines.toList.map Line.start

theorem length_starts (index : LineIndex) : index.starts.length = index.lines.size := by
  rw [starts, List.length_map, Array.length_toList]

theorem getD_start (index : LineIndex) (i : Nat) :
    (index.lines.getD i ⟨0, []⟩).start = index.starts[i]?.getD 0 := by
  rw [starts, Array.getD_eq_getD_getElem?, List.getElem?_map, Array.getElem?_toList]
  cases index.lines[i]? <;> rfl

/-- An offset that lies before the end of the next character divides the lines: those that begin no later
than it are one more than the line breaks in the text before, and all others begin after it. -/
theorem exists_starts_eq_append {before after : List Char} {offset : Nat} (hlow : byteLength before ≤ offset)
    (hhigh : ∀ c rest, after = c :: rest → offset < byteLength before + c.utf8Size) :
    ∃ sooner later, (ofText (before ++ after)).starts = sooner ++ later ∧
      sooner.length = before.count '\n' + 1 ∧
      (∀ start ∈ sooner, start ≤ offset) ∧ ∀ start ∈ later, offset < start := by
  refine ⟨0 :: (laterLines 0 before).map Line.start, (laterLines (byteLength before) after).map Line.start,
    ?_, ?_, ?_, ?_⟩
  · have hsplit := laterLines_starts_append 0 before after
    rw [Nat.zero_add] at hsplit
    show 0 :: (laterLines 0 (before ++ after)).map Line.start = _
    rw [hsplit, List.cons_append]
  · rw [List.length_cons, List.length_map, length_laterLines]
  · intro start hstart
    rcases List.mem_cons.mp hstart with rfl | hstart
    · exact Nat.zero_le _
    · obtain ⟨line, hline, rfl⟩ := List.mem_map.mp hstart
      have := (start_of_mem_laterLines hline).2
      omega
  · intro start hstart
    obtain ⟨line, hline, rfl⟩ := List.mem_map.mp hstart
    cases after with
    | nil => simp [laterLines] at hline
    | cons c rest =>
        have := start_of_mem_laterLines_cons hline
        have := hhigh c rest rfl
        omega

/-- The line of an offset that lies before the end of the next character has as many lines before it as
there are line breaks in the text before. -/
theorem lineAt_ofText {before after : List Char} {offset : Nat} (hlow : byteLength before ≤ offset)
    (hhigh : ∀ c rest, after = c :: rest → offset < byteLength before + c.utf8Size) :
    (ofText (before ++ after)).lineAt offset = before.count '\n' := by
  obtain ⟨sooner, later, hstarts, hlength, hsooner, hlater⟩ := exists_starts_eq_append hlow hhigh
  have hsize : sooner.length + later.length = (ofText (before ++ after)).lines.size := by
    rw [← length_starts, hstarts, List.length_append]
  have hcount : countUpTo (ofText (before ++ after)).lines offset (ofText (before ++ after)).lines.size 0
      (ofText (before ++ after)).lines.size = sooner.length := by
    apply countUpTo_eq
    · intro i hi
      rw [getD_start, hstarts, List.getElem?_append_left hi, List.getElem?_eq_getElem hi, Option.getD_some]
      exact hsooner _ (List.getElem_mem hi)
    · intro i hi hlt
      have hi' : i - sooner.length < later.length := by omega
      rw [getD_start, hstarts, List.getElem?_append_right hi, List.getElem?_eq_getElem hi', Option.getD_some]
      exact hlater _ (List.getElem_mem hi')
    · exact Nat.zero_le _
    · omega
    · exact Nat.le_refl _
    · omega
  rw [lineAt, hcount, hlength]
  rfl

/-- The line that the search finds begins after the last line break before the offset. -/
theorem getElem?_ofText_lastLine {whole last after : List Char} (hlast : '\n' ∉ last)
    (hwhole : whole = [] ∨ ∃ rest, whole = rest ++ ['\n']) :
    (ofText (whole ++ last ++ after)).lines[(whole ++ last).count '\n']? =
      some ⟨byteLength whole, firstLine (last ++ after)⟩ := by
  have hlines : (ofText (whole ++ last ++ after)).lines =
      (⟨0, firstLine (whole ++ last ++ after)⟩ :: laterLines 0 (whole ++ last ++ after)).toArray := rfl
  rw [hlines, List.count_append, List.count_eq_zero.mpr hlast, Nat.add_zero, List.getElem?_toArray]
  rcases hwhole with rfl | ⟨rest, rfl⟩
  · rfl
  · have hcount : (rest ++ ['\n']).count '\n' = rest.count '\n' + 1 := by simp
    have htext : rest ++ ['\n'] ++ last ++ after = rest ++ '\n' :: (last ++ after) := by simp
    rw [hcount, List.getElem?_cons_succ, htext, laterLines_getElem?_last, byteLength_append, Nat.zero_add]
    rfl

theorem getD_ofText_lastLine {whole last after : List Char} (hlast : '\n' ∉ last)
    (hwhole : whole = [] ∨ ∃ rest, whole = rest ++ ['\n']) :
    (ofText (whole ++ last ++ after)).lines.getD ((whole ++ last).count '\n') ⟨0, []⟩ =
      ⟨byteLength whole, firstLine (last ++ after)⟩ := by
  rw [Array.getD_eq_getD_getElem?, getElem?_ofText_lastLine hlast hwhole, Option.getD_some]

end LineIndex

theorem firstLine_append {last : List Char} (hlast : '\n' ∉ last) (after : List Char) :
    firstLine (last ++ after) = last ++ firstLine after := by
  rw [firstLine, List.takeWhile_append_of_pos]
  · rfl
  · intro c hc
    exact decide_eq_true (fun h => hlast (h ▸ hc))

theorem charsIn?_byteLength (text after : List Char) :
    charsIn? (byteLength text) (text ++ after) = some text.length := by
  induction text with
  | nil => cases after <;> rfl
  | cons c text ih =>
      have hpos := c.utf8Size_pos
      obtain ⟨n, hn⟩ : ∃ n, byteLength (c :: text) = n + 1 := ⟨byteLength (c :: text) - 1, by
        rw [byteLength_cons]; omega⟩
      rw [hn, List.cons_append, charsIn?, ← hn, byteLength_cons, if_pos (by omega), Nat.add_sub_cancel_left,
        ih]
      rfl

/-- The position of an offset that lies before the end of the next character, by the line of the text
before. -/
theorem LineIndex.position_ofText_of_lt {whole last after : List Char} {offset : Nat} (hlast : '\n' ∉ last)
    (hwhole : whole = [] ∨ ∃ rest, whole = rest ++ ['\n']) (hlow : byteLength (whole ++ last) ≤ offset)
    (hhigh : ∀ c rest, after = c :: rest → offset < byteLength (whole ++ last) + c.utf8Size)
    (hsize : offset ≤ byteLength (whole ++ last ++ after)) :
    (LineIndex.ofText (whole ++ last ++ after)).position offset =
      ⟨(whole ++ last).count '\n',
        (charsIn? (offset - byteLength whole) (last ++ firstLine after)).getD (offset - byteLength whole),
        offset⟩ := by
  have hmin : min offset (LineIndex.ofText (whole ++ last ++ after)).size = offset := Nat.min_eq_left hsize
  rw [LineIndex.position]
  simp only [hmin, LineIndex.lineAt_ofText hlow hhigh, LineIndex.getD_ofText_lastLine hlast hwhole,
    firstLine_append hlast]

/-- The position of an offset between two characters is the end of the text before it. -/
theorem LineIndex.position_ofText (before after : List Char) :
    (LineIndex.ofText (before ++ after)).position (byteLength before) = Position.endOf before := by
  obtain ⟨whole, last, rfl, hlast, hwhole⟩ := exists_lastLine before
  have hhigh : ∀ c rest, after = c :: rest →
      byteLength (whole ++ last) < byteLength (whole ++ last) + c.utf8Size :=
    fun c _ _ => Nat.lt_add_of_pos_right c.utf8Size_pos
  have hsize : byteLength (whole ++ last) ≤ byteLength (whole ++ last ++ after) := by
    rw [byteLength_append (whole ++ last)]
    exact Nat.le_add_right _ _
  have hbytes : byteLength (whole ++ last) - byteLength whole = byteLength last := by
    rw [byteLength_append]
    omega
  rw [LineIndex.position_ofText_of_lt hlast hwhole (Nat.le_refl _) hhigh hsize, hbytes, charsIn?_byteLength,
    Option.getD_some, ← endOf_column hlast hwhole]
  rfl

end Text

end ElmNavigation
