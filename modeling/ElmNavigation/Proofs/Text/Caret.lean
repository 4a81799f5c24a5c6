import ElmNavigation.Proofs.Text.Coordinates
import ElmNavigation.Proofs.Token.Piece
import ElmNavigation.Text.Caret

/-! The word under a caret. The word is found by a scan to both sides, from the place to which line and
column lead. Its characters are ASCII, so it is a run of bytes as well, and it is the longest run of such
bytes around the caret. Which of its bytes the caret stands at does not matter. -/

namespace ElmNavigation.Text

/-! ### The scan to both sides -/

theorem splitAtByte_byteLength (before after : List Char) :
    splitAtByte (byteLength before) (before ++ after) = (before, after) := by
  rw [splitAtByte, charsWithin_byteLength, List.splitAt_eq, List.take_left, List.drop_left]

/-- Inside a run of word characters that goes on to neither side the word is the run. -/
theorem wordAtOffset?_of_run {before left right after : List Char} (hleft : ∀ c ∈ left, isWordChar c = true)
    (hright : ∀ c ∈ right, isWordChar c = true) (hne : right ≠ [])
    (hbefore : ∀ c ∈ before.getLast?, isWordChar c = false)
    (hafter : ∀ c ∈ after.head?, isWordChar c = false) :
    wordAtOffset? (before ++ left ++ (right ++ after)) (byteLength (before ++ left)) =
      some (left ++ right) := by
  have hback : (before ++ left).reverse.takeWhile isWordChar = left.reverse := by
    rw [List.reverse_append]
    refine Token.takeWhile_append_stop (fun c hc => hleft c (List.mem_reverse.mp hc)) fun c hc => ?_
    rw [List.head?_reverse] at hc
    exact hbefore c hc
  have hforth := Token.takeWhile_append_stop hright hafter
  obtain ⟨c, rest, rfl⟩ := List.exists_cons_of_ne_nil hne
  rw [List.cons_append] at hforth
  rw [wordAtOffset?, splitAtByte_byteLength, List.cons_append]
  dsimp only
  rw [if_pos (hright c (.head _)), hback, hforth, List.reverse_reverse]

theorem toNat_lt_of_isWordChar {c : Char} (h : isWordChar c = true) : c.toNat < 128 := by
  rw [isWordChar, Bool.or_eq_true, beq_iff_eq] at h
  rcases h with h | rfl
  · have hclasses : ((decide ('A'.val ≤ c.val ∧ c.val ≤ 'Z'.val) ||
        (decide ('a'.val ≤ c.val) && decide (c.val ≤ 'z'.val))) ||
        (decide ('0'.val ≤ c.val) && decide (c.val ≤ '9'.val))) = true := h
    have hA : 'Z'.val.toNat = 90 := rfl
    have ha : 'z'.val.toNat = 122 := rfl
    have h0 : '9'.val.toNat = 57 := rfl
    simp only [Bool.or_eq_true, Bool.and_eq_true, decide_eq_true_eq, UInt32.le_iff_toNat_le] at hclasses
    show c.val.toNat < 128
    omega
  · decide

theorem byteLength_of_isWordChar {run : List Char} (hrun : ∀ c ∈ run, isWordChar c = true) :
    byteLength run = run.length := by
  induction run with
  | nil => rfl
  | cons c run ih =>
      have hascii := toNat_lt_of_isWordChar (hrun c (.head _))
      rw [byteLength_cons, utf8Size_of_lt hascii, ih fun d hd => hrun d (.tail _ hd), List.length_cons,
        Nat.add_comm]

/-- The word at a place is a run of word characters around the place, and goes on to neither side. -/
theorem exists_run_of_wordAtOffset? {before after word : List Char}
    (h : wordAtOffset? (before ++ after) (byteLength before) = some word) :
    ∃ front back, before ++ after = front ++ (word ++ back) ∧ byteLength front ≤ byteLength before ∧
      byteLength before < byteLength (front ++ word) ∧ (∀ c ∈ word, isWordChar c = true) ∧
      (∀ c ∈ front.getLast?, isWordChar c = false) ∧ ∀ c ∈ back.head?, isWordChar c = false := by
  obtain ⟨left, front, hbefore, hleft, hfront⟩ := Token.exists_run isWordChar before.reverse
  obtain ⟨right, back, rfl, hright, hback⟩ := Token.exists_run isWordChar after
  obtain rfl : before = front.reverse ++ left.reverse := by
    rw [← List.reverse_append, ← hbefore, List.reverse_reverse]
  have hleft' : ∀ c ∈ left.reverse, isWordChar c = true := fun c hc => hleft c (List.mem_reverse.mp hc)
  have hfront' : ∀ c ∈ front.reverse.getLast?, isWordChar c = false := by
    rw [List.getLast?_reverse]
    exact hfront
  have hne : right ≠ [] := by
    rintro rfl
    rw [List.nil_append, wordAtOffset?, splitAtByte_byteLength] at h
    cases back with
    | nil => cases h
    | cons c back =>
        dsimp only at h
        rw [if_neg (by rw [hback c rfl]; exact Bool.false_ne_true)] at h
        cases h
  rw [wordAtOffset?_of_run hleft' hright hne hfront' hback] at h
  obtain rfl := Option.some.inj h
  have hpos : 0 < byteLength right := by
    obtain ⟨c, rest, rfl⟩ := List.exists_cons_of_ne_nil hne
    exact Nat.lt_of_lt_of_le c.utf8Size_pos (Nat.le_add_right _ _)
  refine ⟨front.reverse, back, by simp only [List.append_assoc], ?_, ?_, ?_, hfront', hback⟩
  · rw [byteLength_append]
    exact Nat.le_add_right _ _
  · rw [← List.append_assoc, byteLength_append _ right]
    exact Nat.lt_add_of_pos_right hpos
  · intro c hc
    rcases List.mem_append.mp hc with hc | hc
    · exact hleft' c hc
    · exact hright c hc

/-! ### The run in bytes -/

/-- Whether a byte is an ASCII letter, a digit or an underscore. -/
def isWordByte (b : UInt8) : Bool :=
  (0x41 ≤ b && b ≤ 0x5a) || (0x61 ≤ b && b ≤ 0x7a) || (0x30 ≤ b && b ≤ 0x39) || b == 0x5f

/-- The bytes from `start` up to `stop` belong to a word, and those before and behind them do not. -/
structure IsWordRun (bytes : List UInt8) (start stop : Nat) : Prop where
  inside : ∀ i, start ≤ i → i < stop → ∃ b, bytes[i]? = some b ∧ isWordByte b = true
  before : ∀ i b, i + 1 = start → bytes[i]? = some b → isWordByte b = false
  behind : ∀ b, bytes[stop]? = some b → isWordByte b = false

theorem toNat_lt_of_isWordByte {b : UInt8} (h : isWordByte b = true) : b.toNat < 128 := by
  simp only [isWordByte, Bool.or_eq_true, Bool.and_eq_true, decide_eq_true_eq, UInt8.le_iff_toNat_le,
    beq_iff_eq] at h
  rcases h with ((⟨_, h⟩ | ⟨_, h⟩) | ⟨_, h⟩) | rfl
  · exact Nat.lt_of_le_of_lt h (by decide)
  · exact Nat.lt_of_le_of_lt h (by decide)
  · exact Nat.lt_of_le_of_lt h (by decide)
  · decide

/-- The bytes of a character belong to a word if the character does. -/
theorem isWordByte_of_mem {c : Char} {b : UInt8} (hb : b ∈ String.utf8EncodeChar c) :
    isWordByte b = isWordChar c := by
  rcases Nat.lt_or_ge c.toNat 128 with hc | hc
  · rw [utf8EncodeChar_of_lt hc, List.mem_singleton] at hb
    have hascii : ∀ n : Fin 128, isWordByte (UInt8.ofNat n) = isWordChar (Char.ofNat n) := by decide
    rw [hb, hascii ⟨c.toNat, hc⟩, Char.ofNat_toNat]
  · have hbyte : ¬ isWordByte b = true :=
      fun h => absurd (toNat_lt_of_isWordByte h) (Nat.not_lt_of_le (le_of_mem_utf8EncodeChar hc hb))
    have hchar : ¬ isWordChar c = true := fun h => absurd (toNat_lt_of_isWordChar h) (Nat.not_lt_of_le hc)
    rw [Bool.not_eq_true] at hbyte hchar
    rw [hbyte, hchar]

/-- The bytes of a word belong to it. -/
theorem isWordByte_of_mem_octets {run : List Char} (hrun : ∀ c ∈ run, isWordChar c = true) {b : UInt8}
    (hb : b ∈ octets run) : isWordByte b = true := by
  obtain ⟨c, hc, hmem⟩ := List.mem_flatMap.mp hb
  rw [isWordByte_of_mem hmem, hrun c hc]

/-- At a place stands a byte of the character behind it. -/
theorem exists_getElem?_octets (before : List Char) (c : Char) (rest : List Char) :
    ∃ b, (octets (before ++ c :: rest))[byteLength before]? = some b ∧ b ∈ String.utf8EncodeChar c := by
  have hpos : 0 < (String.utf8EncodeChar c).length := by
    rw [String.length_utf8EncodeChar]
    exact c.utf8Size_pos
  refine ⟨(String.utf8EncodeChar c).get ⟨0, hpos⟩, ?_, List.get_mem _ _⟩
  rw [octets_append, List.getElem?_append_right (Nat.le_of_eq (length_octets before)), length_octets,
    Nat.sub_self, octets_cons, List.getElem?_append_left hpos, List.get_eq_getElem,
    List.getElem?_eq_getElem hpos]

/-- At the end of a text stands no byte. -/
theorem getElem?_octets_byteLength (text : List Char) : (octets text)[byteLength text]? = none :=
  List.getElem?_eq_none (Nat.le_of_eq (length_octets text))

/-- The byte before a place is one of the character before it. -/
theorem exists_concat_of_getElem?_octets {before after : List Char} {i : Nat} {b : UInt8}
    (hi : i + 1 = byteLength before) (h : (octets (before ++ after))[i]? = some b) :
    ∃ c, before.getLast? = some c ∧ b ∈ String.utf8EncodeChar c := by
  rw [octets_append, List.getElem?_append_left (by rw [length_octets]; omega)] at h
  rcases List.eq_nil_or_concat' before with rfl | ⟨front, c, rfl⟩
  · cases hi
  · refine ⟨c, List.getLast?_concat, ?_⟩
    have hpos := c.utf8Size_pos
    have hlast : octets (front ++ [c]) = octets front ++ String.utf8EncodeChar c := by
      rw [octets_append, octets_cons]
      exact congrArg (octets front ++ ·) (List.append_nil _)
    rw [byteLength_append, byteLength_cons, byteLength_nil] at hi
    rw [hlast, List.getElem?_append_right (by rw [length_octets]; omega)] at h
    exact List.mem_of_getElem? h

/-- A run of word characters that goes on to neither side is a run of word bytes. -/
theorem isWordRun_octets {front run back : List Char} (hrun : ∀ c ∈ run, isWordChar c = true)
    (hfront : ∀ c ∈ front.getLast?, isWordChar c = false) (hback : ∀ c ∈ back.head?, isWordChar c = false) :
    IsWordRun (octets (front ++ (run ++ back))) (byteLength front) (byteLength (front ++ run)) where
  inside := by
    intro i hstart hstop
    rw [byteLength_append] at hstop
    have hlt : i - byteLength front < (octets run).length := by
      rw [length_octets]
      omega
    refine ⟨(octets run).get ⟨i - byteLength front, hlt⟩, ?_, ?_⟩
    · rw [octets_append, octets_append, List.getElem?_append_right (by rw [length_octets]; exact hstart),
        length_octets, List.getElem?_append_left hlt, List.get_eq_getElem, List.getElem?_eq_getElem hlt]
    · exact isWordByte_of_mem_octets hrun (List.get_mem _ _)
  before := by
    intro i b hi hb
    obtain ⟨c, hc, hmem⟩ := exists_concat_of_getElem?_octets hi hb
    rw [isWordByte_of_mem hmem, hfront c hc]
  behind := by
    intro b hb
    rw [← List.append_assoc] at hb
    cases back with
    | nil =>
        rw [List.append_nil, getElem?_octets_byteLength] at hb
        cases hb
    | cons c back =>
        obtain ⟨first, hfirst, hmem⟩ := exists_getElem?_octets (front ++ run) c back
        rw [hfirst, Option.some.injEq] at hb
        rw [← hb, isWordByte_of_mem hmem, hback c rfl]

/-- At every place of a run that goes on to neither side the word is the run. -/
theorem wordAtOffset?_of_le {text front run back : List Char} (htext : text = front ++ (run ++ back))
    (hrun : ∀ c ∈ run, isWordChar c = true) (hfront : ∀ c ∈ front.getLast?, isWordChar c = false)
    (hback : ∀ c ∈ back.head?, isWordChar c = false) {before after : List Char}
    (hplace : text = before ++ after) (hstart : byteLength front ≤ byteLength before)
    (hstop : byteLength before < byteLength (front ++ run)) :
    wordAtOffset? text (byteLength before) = some run := by
  obtain ⟨left, rfl, hrest⟩ := exists_between_of_le (htext.symm.trans hplace) hstart
  rw [byteLength_append, byteLength_append, Nat.add_lt_add_iff_left] at hstop
  obtain ⟨right, rfl, rfl⟩ := exists_between_of_le hrest.symm (Nat.le_of_lt hstop)
  have hne : right ≠ [] := by
    rintro rfl
    rw [List.append_nil] at hstop
    exact absurd hstop (Nat.lt_irrefl _)
  rw [hplace]
  exact wordAtOffset?_of_run (fun c hc => hrun c (List.mem_append_left _ hc))
    (fun c hc => hrun c (List.mem_append_right _ hc)) hne hfront hback

/-- There is a word at a place exactly if the byte there belongs to one. -/
theorem isSome_wordAtOffset?_iff (before after : List Char) :
    (wordAtOffset? (before ++ after) (byteLength before)).isSome = true ↔
      ∃ b, (octets (before ++ after))[byteLength before]? = some b ∧ isWordByte b = true := by
  rw [wordAtOffset?, splitAtByte_byteLength]
  cases after with
  | nil =>
      rw [List.append_nil, getElem?_octets_byteLength]
      simp
  | cons c rest =>
      obtain ⟨b, hb, hmem⟩ := exists_getElem?_octets before c rest
      have hbyte := isWordByte_of_mem hmem
      rw [hb]
      dsimp only
      split
      · next hc => exact ⟨fun _ => ⟨b, rfl, hbyte.trans hc⟩, fun _ => rfl⟩
      · next hc =>
          constructor
          · intro h
            cases h
          · rintro ⟨b', ⟨⟩, hword⟩
            exact absurd (hbyte.symm.trans hword) hc

theorem wordAt?_of_offset? {source : String} {line column offset : Nat}
    (h : (LineIndex.ofText source.toList).offset? line column = some offset) :
    wordAt? source line column = (wordAtOffset? source.toList offset).map String.ofList := by
  rw [wordAt?, h]

/-- **The word under a caret is the longest run around it.** There is one exactly if line and column lead
to a byte that belongs to a word. The word is then the text between two places, with the caret behind the
first and before the second, such that all bytes between them belong to a word and those around them do
not; and every caret that leads to a byte between them finds the same word. -/
theorem wordAt?_is_longest_run (source : String) (line column : Nat) :
    ((wordAt? source line column).isSome = true ↔
      ∃ offset b, (LineIndex.ofText source.toList).offset? line column = some offset ∧
        (octets source.toList)[offset]? = some b ∧ isWordByte b = true) ∧
    ∀ word, wordAt? source line column = some word → ∃ offset start stop,
      (LineIndex.ofText source.toList).offset? line column = some offset ∧ start ≤ offset ∧ offset < stop ∧
      IsWordRun (octets source.toList) start stop ∧
      String.Pos.Raw.IsValid source ⟨start⟩ ∧ String.Pos.Raw.IsValid source ⟨stop⟩ ∧
      word = String.Pos.Raw.extract source ⟨start⟩ ⟨stop⟩ ∧ (∀ b ∈ octets word.toList, isWordByte b = true) ∧
      ∀ line' column' offset', (LineIndex.ofText source.toList).offset? line' column' = some offset' →
        start ≤ offset' → offset' < stop → wordAt? source line' column' = some word := by
  cases hoffset : (LineIndex.ofText source.toList).offset? line column with
  | none =>
      have hnone : wordAt? source line column = none := by rw [wordAt?, hoffset]
      rw [hnone]
      simp
  | some offset =>
      obtain ⟨before, after, htext, rfl, _⟩ := LineIndex.exists_endOf_of_offset? hoffset
      have hword : wordAt? source line column =
          (wordAtOffset? (before ++ after) (byteLength before)).map String.ofList := by
        rw [wordAt?_of_offset? hoffset, htext]
      have hbytes : octets source.toList = octets (before ++ after) := congrArg octets htext
      rw [hword, hbytes, Option.isSome_map, isSome_wordAtOffset?_iff]
      constructor
      · constructor
        · rintro ⟨b, hb⟩
          exact ⟨_, b, rfl, hb⟩
        · rintro ⟨_, b, ⟨⟩, hb⟩
          exact ⟨b, hb⟩
      · intro word hfound
        obtain ⟨run, hrun, rfl⟩ := Option.map_eq_some_iff.mp hfound
        obtain ⟨front, back, hsplit, hstart, hstop, hchars, hfront, hback⟩ := exists_run_of_wordAtOffset? hrun
        have hwhole := htext.trans hsplit
        refine ⟨_, byteLength front, byteLength (front ++ run), rfl, hstart, hstop, ?_,
          isValid_byteLength hwhole, isValid_byteLength (hwhole.trans (List.append_assoc _ _ _).symm), ?_,
          ?_, ?_⟩
        · rw [hsplit]
          exact isWordRun_octets hchars hfront hback
        · rw [byteLength_append, extract_byteLength hwhole]
        · rw [String.toList_ofList]
          exact fun b => isWordByte_of_mem_octets hchars
        · intro line' column' offset' hoffset' hstart' hstop'
          obtain ⟨before', after', hplace, rfl, _⟩ := LineIndex.exists_endOf_of_offset? hoffset'
          rw [wordAt?_of_offset? hoffset',
            wordAtOffset?_of_le hwhole hchars hfront hback hplace hstart' hstop']
          rfl

/-- The last character of a word behind a character of two bytes, and the first one. -/
theorem wordAt?_is_longest_run_after_wide_character :
    wordAt? "é=Ab_\n" 0 4 = some "Ab_" ∧ wordAt? "é=Ab_\n" 0 2 = some "Ab_" := by
  have hlast : wordAt? "é=Ab_\n" 0 4 = some "Ab_" := by decide +kernel
  have hcaret : (LineIndex.ofText "é=Ab_\n".toList).offset? 0 4 = some 5 := by decide +kernel
  obtain ⟨_, hlongest⟩ := wordAt?_is_longest_run "é=Ab_\n" 0 4
  obtain ⟨offset, start, stop, hoffset, hstart, hstop, hrun, _, _, _, _, hcarets⟩ := hlongest "Ab_" hlast
  rw [hcaret, Option.some.injEq] at hoffset
  have hfirst : start ≤ 3 := by
    by_contra hlt
    have hcases : start = 4 ∨ start = 5 := by omega
    rcases hcases with rfl | rfl
    · exact absurd (hrun.before 3 0x41 rfl (by decide +kernel)) (by decide)
    · exact absurd (hrun.before 4 0x62 rfl (by decide +kernel)) (by decide)
  exact ⟨hlast, hcarets 0 2 3 (by decide +kernel) hfirst (by omega)⟩

end ElmNavigation.Text
