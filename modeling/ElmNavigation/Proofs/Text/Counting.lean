import ElmNavigation.Proofs.Text.Coordinates
import ElmNavigation.Proofs.Token.Scanner

/-! The position of any offset. An offset past the end is taken for the end, and one inside a character
belongs to the line of that character. So every offset has a last place before it that stands between two
characters; the bytes from there on are none of a line break, and the table of lines finds the line that
counting the breaks before it does. -/

namespace ElmNavigation

open Text

/-- The position of an offset by counting the bytes before it. There are as many lines before as line
breaks, and the column is the number of characters since the last of them, or of bytes if the offset is
inside a character. -/
def Position.counted (source : String) (offset : Nat) : Position :=
  let offset := min offset source.utf8ByteSize
  let bytes := (octets source.toList).take offset
  let column :=
    if String.Pos.Raw.IsValid source ⟨offset⟩ then
      ((String.Pos.Raw.extract source 0 ⟨offset⟩).toList.reverse.takeWhile (· ≠ '\n')).length
    else (bytes.reverse.takeWhile (· ≠ 0x0a)).length
  ⟨bytes.count 0x0a, column, offset⟩

namespace Text

/-- Before an offset stands a last place between two characters. -/
theorem exists_lastPlace {text : List Char} {offset : Nat} (h : offset ≤ byteLength text) :
    ∃ before after, text = before ++ after ∧ byteLength before ≤ offset ∧
      ∀ c rest, after = c :: rest → offset < byteLength before + c.utf8Size := by
  induction text generalizing offset with
  | nil => exact ⟨[], [], rfl, Nat.zero_le _, fun c rest hrest => by cases hrest⟩
  | cons c text ih =>
      rw [byteLength_cons] at h
      rcases Nat.lt_or_ge offset c.utf8Size with hlt | hge
      · refine ⟨[], c :: text, rfl, Nat.zero_le _, ?_⟩
        rintro d rest ⟨⟩
        rwa [byteLength_nil, Nat.zero_add]
      · have hrest : offset - c.utf8Size ≤ byteLength text := by omega
        obtain ⟨before, after, rfl, hlow, hhigh⟩ := ih hrest
        refine ⟨c :: before, after, rfl, by rw [byteLength_cons]; omega, ?_⟩
        intro d rest hrest
        have := hhigh d rest hrest
        rw [byteLength_cons]
        omega

/-- The line breaks of a text are those of its bytes. -/
theorem count_octets (text : List Char) : (octets text).count 0x0a = text.count '\n' := by
  induction text with
  | nil => rfl
  | cons c text ih =>
      rw [octets_cons, List.count_append, ih]
      rcases Nat.lt_or_ge c.toNat 128 with hc | hc
      · rw [utf8EncodeChar_of_lt hc]
        by_cases hbreak : c = '\n'
        · subst hbreak
          rw [List.count_cons_self, Nat.add_comm]
          rfl
        · have hbyte : UInt8.ofNat c.toNat ≠ 0x0a :=
            fun hbyte => hbreak (eq_of_byte_eq (a := '\n') hc (by decide) hbyte)
          rw [List.count_cons_of_ne hbreak, List.count_cons_of_ne hbyte, List.count_nil, Nat.zero_add]
      · have hbyte : (0x0a : UInt8) ∉ String.utf8EncodeChar c := by
          intro hmem
          exact absurd (le_of_mem_utf8EncodeChar hc hmem) (by decide)
        have hbreak : c ≠ '\n' := by
          rintro rfl
          exact absurd hc (by decide)
        rw [List.count_eq_zero.mpr hbyte, Nat.zero_add, List.count_cons_of_ne hbreak]

/-- The bytes before an offset are those up to the last place before it, and some of a longer character. -/
theorem exists_take_octets {before after : List Char} {offset : Nat} (hlow : byteLength before ≤ offset)
    (hhigh : ∀ c rest, after = c :: rest → offset < byteLength before + c.utf8Size)
    (hsize : offset ≤ byteLength (before ++ after)) :
    ∃ inner, (octets (before ++ after)).take offset = octets before ++ inner ∧ (∀ b ∈ inner, 128 ≤ b.toNat) ∧
      offset = byteLength before + inner.length := by
  have hbefore : (octets before).take offset = octets before :=
    List.take_of_length_le (by rw [length_octets]; exact hlow)
  refine ⟨(octets after).take (offset - byteLength before), ?_, ?_, ?_⟩
  · rw [octets_append, List.take_append, hbefore, length_octets]
  · intro b hb
    cases after with
    | nil => cases List.mem_of_mem_take hb
    | cons c rest =>
        have hlt := hhigh c rest rfl
        have hlength := String.length_utf8EncodeChar c
        rw [octets_cons, List.take_append_of_le_length (by omega)] at hb
        refine le_of_mem_utf8EncodeChar ?_ (List.mem_of_mem_take hb)
        -- a character of one byte has no inside
        rcases Nat.lt_or_ge c.toNat 128 with hc | hc
        · rw [utf8Size_of_lt hc] at hlt
          have hzero : offset - byteLength before = 0 := by omega
          rw [hzero, List.take_zero] at hb
          cases hb
        · exact hc
  · rw [byteLength_append] at hsize
    rw [List.length_take, length_octets]
    omega

/-- Where the first bytes of a text are so many characters, these characters have so many bytes. -/
theorem byteLength_of_charsIn? {n count : Nat} {text : List Char} (h : charsIn? n text = some count) :
    byteLength (text.take count) = n := by
  fun_induction charsIn? n text generalizing count with
  | case1 text =>
      obtain rfl := Option.some.inj h
      rfl
  | case2 => cases h
  | case3 n c text hle ih =>
      obtain ⟨rest, hrest, rfl⟩ := Option.map_eq_some_iff.mp h
      rw [List.take_succ_cons, byteLength_cons, ih hrest]
      omega
  | case4 => cases h

/-- The offsets at which lines begin increase. -/
theorem pairwise_laterLines (offset : Nat) (text : List Char) :
    ((laterLines offset text).map Line.start).Pairwise (· < ·) := by
  induction text generalizing offset with
  | nil => exact .nil
  | cons c text ih =>
      rw [laterLines]
      split
      · rw [List.map_cons]
        refine .cons ?_ (ih (offset + 1))
        intro start hstart
        obtain ⟨line, hline, rfl⟩ := List.mem_map.mp hstart
        exact (start_of_mem_laterLines hline).1
      · exact ih (offset + c.utf8Size)

/-- The entry at `place` is the last one of a table that is at most `value`. -/
def LastAtMost (table : List Nat) (value place : Nat) : Prop :=
  ∃ entry, table[place]? = some entry ∧ entry ≤ value ∧
    ∀ i later, place < i → table[i]? = some later → value < later

/-- A value that stands in an ascending table is itself the last entry that is at most the value. -/
theorem LastAtMost.eq_of_found {table : List Nat} {value place exact : Nat} (hsorted : table.Pairwise (· < ·))
    (h : LastAtMost table value place) (hfound : table[exact]? = some value) : place = exact := by
  obtain ⟨entry, hentry, hle, hlater⟩ := h
  rcases Nat.lt_trichotomy place exact with hlt | heq | hlt
  · exact absurd (hlater exact value hlt hfound) (Nat.lt_irrefl value)
  · exact heq
  · obtain ⟨hexact, rfl⟩ := List.getElem?_eq_some_iff.mp hfound
    obtain ⟨hplace, rfl⟩ := List.getElem?_eq_some_iff.mp hentry
    have hless := List.pairwise_iff_getElem.mp hsorted exact place hexact hplace hlt
    omega

/-- A value that does not stand in a table would be inserted behind the last entry that is at most the
value. -/
theorem LastAtMost.eq_of_missing {table : List Nat} {value place insertion : Nat}
    (h : LastAtMost table value place) (hinsertion : insertion ≤ table.length)
    (hbefore : ∀ i entry, i < insertion → table[i]? = some entry → entry < value)
    (hbehind : ∀ i entry, insertion ≤ i → table[i]? = some entry → value < entry) :
    place + 1 = insertion := by
  obtain ⟨entry, hentry, hle, hlater⟩ := h
  rcases Nat.lt_trichotomy (place + 1) insertion with hlt | heq | hlt
  · have hnext := List.getElem?_eq_getElem (l := table) (i := place + 1) (by omega)
    have hless := hbefore _ _ hlt hnext
    have hmore := hlater _ _ (Nat.lt_succ_self place) hnext
    omega
  · exact heq
  · have hmore := hbehind place entry (by omega) hentry
    omega

namespace LineIndex

theorem pairwise_starts (text : List Char) : (ofText text).starts.Pairwise (· < ·) := by
  refine List.Pairwise.cons ?_ (pairwise_laterLines 0 text)
  intro start hstart
  obtain ⟨line, hline, rfl⟩ := List.mem_map.mp hstart
  exact (start_of_mem_laterLines hline).1

/-- The search finds the last line that begins no later than an offset. -/
theorem lastAtMost_lineAt {text : List Char} {offset : Nat} (h : offset ≤ byteLength text) :
    LastAtMost (ofText text).starts offset ((ofText text).lineAt offset) := by
  obtain ⟨before, after, rfl, hlow, hhigh⟩ := exists_lastPlace h
  obtain ⟨sooner, later, hstarts, hlength, hsooner, hlater⟩ := exists_starts_eq_append hlow hhigh
  rw [lineAt_ofText hlow hhigh, hstarts]
  have hlt : before.count '\n' < sooner.length := by omega
  refine ⟨_, by rw [List.getElem?_append_left hlt, List.getElem?_eq_getElem hlt],
    hsooner _ (List.getElem_mem hlt), ?_⟩
  intro i entry hi hentry
  rw [List.getElem?_append_right (by omega)] at hentry
  exact hlater entry (List.mem_of_getElem? hentry)

end LineIndex

/-- An offset past the end counts as the end. -/
theorem counted_min (source : String) (offset : Nat) :
    Position.counted source offset = Position.counted source (min offset source.utf8ByteSize) := by
  simp only [Position.counted, Nat.min_assoc, Nat.min_self]

/-- An offset past the end has the position of the end. -/
theorem LineIndex.position_min (source : String) (offset : Nat) :
    (LineIndex.ofText source.toList).position offset =
      (LineIndex.ofText source.toList).position (min offset source.utf8ByteSize) := by
  have hsize : (LineIndex.ofText source.toList).size = source.utf8ByteSize := (utf8ByteSize_eq source).symm
  simp only [LineIndex.position, hsize, Nat.min_assoc, Nat.min_self]

/-- Between two characters the count is the end of the text before. -/
theorem counted_byteLength {source : String} {before after : List Char}
    (h : source.toList = before ++ after) :
    Position.counted source (byteLength before) = Position.endOf before := by
  have hmin : min (byteLength before) source.utf8ByteSize = byteLength before := by
    rw [utf8ByteSize_eq, h, byteLength_append]
    omega
  have htake : (octets source.toList).take (byteLength before) = octets before := by
    rw [h, octets_append, ← length_octets, List.take_left]
  have hextract : String.Pos.Raw.extract source 0 ⟨byteLength before⟩ = String.ofList before := by
    have hbetween := @extract_byteLength source [] before after h
    rwa [byteLength_nil, Nat.zero_add] at hbetween
  simp only [Position.counted, hmin, if_pos (isValid_byteLength h), hextract, htake, count_octets,
    String.toList_ofList]
  rfl

/-- No first part of a line ends inside a character. -/
theorem charsIn?_eq_none {source : String} {whole rest : List Char} {offset : Nat}
    (htext : source.toList = whole ++ rest) (hlow : byteLength whole ≤ offset)
    (hinside : ¬ String.Pos.Raw.IsValid source ⟨offset⟩) :
    charsIn? (offset - byteLength whole) (firstLine rest) = none := by
  cases hcount : charsIn? (offset - byteLength whole) (firstLine rest) with
  | none => rfl
  | some count =>
      have hbytes := byteLength_of_charsIn? hcount
      have hline : firstLine rest ++ rest.dropWhile (· ≠ '\n') = rest := List.takeWhile_append_dropWhile
      have hsplit : source.toList = (whole ++ (firstLine rest).take count) ++
          ((firstLine rest).drop count ++ rest.dropWhile (· ≠ '\n')) := by
        rw [List.append_assoc, ← List.append_assoc ((firstLine rest).take count), List.take_append_drop,
          hline, htext]
      have hvalid := isValid_byteLength hsplit
      rw [byteLength_append, hbytes, Nat.add_sub_cancel' hlow] at hvalid
      exact absurd hvalid hinside

/-- The bytes since the last line break, where the last place before an offset is on the line `last`. -/
theorem length_takeWhile_octets {whole last : List Char} (hlast : '\n' ∉ last)
    (hwhole : whole = [] ∨ ∃ rest, whole = rest ++ ['\n']) {inner : List UInt8}
    (hinner : ∀ b ∈ inner, 128 ≤ b.toNat) :
    ((octets (whole ++ last) ++ inner).reverse.takeWhile (· ≠ 0x0a)).length =
      byteLength last + inner.length := by
  have hline : (0x0a : UInt8) ∉ octets last ++ inner := by
    intro hmem
    rcases List.mem_append.mp hmem with hmem | hmem
    · have hcount := List.count_pos_iff.mpr hmem
      rw [count_octets] at hcount
      exact hlast (List.count_pos_iff.mp hcount)
    · exact absurd (hinner _ hmem) (by decide)
  have hlines : octets whole = [] ∨ ∃ rest, octets whole = rest ++ [0x0a] := by
    rcases hwhole with rfl | ⟨rest, rfl⟩
    · exact .inl rfl
    · exact .inr ⟨octets rest, octets_append rest ['\n']⟩
  rw [octets_append, List.append_assoc, length_takeWhile_reverse hline hlines, List.length_append,
    length_octets]

/-- Inside a character the count is the line of that character and the bytes since its start. -/
theorem LineIndex.position_of_inside {source : String} {offset : Nat}
    (hle : offset ≤ byteLength source.toList) (hinside : ¬ String.Pos.Raw.IsValid source ⟨offset⟩) :
    (LineIndex.ofText source.toList).position offset = Position.counted source offset := by
  obtain ⟨before, after, htext, hlow, hhigh⟩ := exists_lastPlace hle
  obtain ⟨whole, last, rfl, hlast, hwhole⟩ := exists_lastLine before
  have hmin : min offset source.utf8ByteSize = offset := Nat.min_eq_left (utf8ByteSize_eq source ▸ hle)
  have hsize : offset ≤ byteLength (whole ++ last ++ after) := htext ▸ hle
  obtain ⟨inner, htake, hinner, hoffset⟩ := exists_take_octets hlow hhigh hsize
  have hcount : (octets (whole ++ last) ++ inner).count 0x0a = (whole ++ last).count '\n' := by
    have hnone : (0x0a : UInt8) ∉ inner := fun hmem => absurd (hinner _ hmem) (by decide)
    rw [List.count_append, count_octets, List.count_eq_zero.mpr hnone, Nat.add_zero]
  have hcolumn : byteLength last + inner.length = offset - byteLength whole := by
    rw [byteLength_append] at hoffset
    omega
  have hwholeLe : byteLength whole ≤ offset := by
    rw [byteLength_append] at hlow
    omega
  have hnone := charsIn?_eq_none (htext.trans (List.append_assoc _ _ _)) hwholeLe hinside
  simp only [Position.counted, hmin, if_neg hinside]
  rw [htext, htake, hcount, length_takeWhile_octets hlast hwhole hinner, hcolumn,
    LineIndex.position_ofText_of_lt hlast hwhole hlow hhigh hsize, ← firstLine_append hlast, hnone]
  rfl

/-- **The position of an offset is the count.** An offset past the end is taken for the end; the line is
the number of line breaks before it, and the column the number of characters since the last of them, or of
bytes inside a character. The offsets at which lines begin increase from zero, and the line is the last
one that begins no later than the offset: the one at which the offset stands in the table, or else the one
before the place at which it would be inserted. -/
theorem LineIndex.position_eq_counted (source : String) (offset : Nat) :
    (LineIndex.ofText source.toList).position offset = Position.counted source offset ∧
      (LineIndex.ofText source.toList).starts.Pairwise (· < ·) ∧
      (LineIndex.ofText source.toList).starts.head? = some 0 ∧
      let index := LineIndex.ofText source.toList
      let clamped := min offset source.utf8ByteSize
      LastAtMost index.starts clamped (index.lineAt clamped) ∧
      (∀ exact, index.starts[exact]? = some clamped → index.lineAt clamped = exact) ∧
      ∀ insertion, insertion ≤ index.starts.length →
        (∀ i start, i < insertion → index.starts[i]? = some start → start < clamped) →
        (∀ i start, insertion ≤ i → index.starts[i]? = some start → clamped < start) →
        index.lineAt clamped + 1 = insertion := by
  have hle : min offset source.utf8ByteSize ≤ byteLength source.toList := by
    rw [← utf8ByteSize_eq]
    exact Nat.min_le_right _ _
  have hline := LineIndex.lastAtMost_lineAt hle
  refine ⟨?_, LineIndex.pairwise_starts _, rfl, hline, fun exact =>
    hline.eq_of_found (LineIndex.pairwise_starts _), fun insertion => hline.eq_of_missing⟩
  rw [LineIndex.position_min source, counted_min]
  by_cases hvalid : String.Pos.Raw.IsValid source ⟨min offset source.utf8ByteSize⟩
  · obtain ⟨before, after, htext, hoffset⟩ := exists_split_of_isValid hvalid
    rw [hoffset, counted_byteLength htext, htext, LineIndex.position_ofText]
  · exact LineIndex.position_of_inside hle hvalid

/-- An offset inside a character, one at which a line begins, and one past the end. -/
theorem LineIndex.position_eq_counted_two_byte_character :
    (LineIndex.ofText "é\nb".toList).position 1 = ⟨0, 1, 1⟩ ∧ (LineIndex.ofText "é\nb".toList).lineAt 3 = 1 ∧
      (LineIndex.ofText "é\nb".toList).position 9 = ⟨1, 1, 4⟩ := by
  obtain ⟨hinside, _⟩ := LineIndex.position_eq_counted "é\nb" 1
  obtain ⟨_, _, _, _, hfound, _⟩ := LineIndex.position_eq_counted "é\nb" 3
  obtain ⟨hpast, _⟩ := LineIndex.position_eq_counted "é\nb" 9
  refine ⟨hinside.trans (by decide +kernel), hfound 1 (by decide +kernel), hpast.trans (by decide +kernel)⟩

end Text

end ElmNavigation
