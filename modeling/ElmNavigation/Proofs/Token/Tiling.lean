import ElmNavigation.Proofs.Text.Boundaries
import ElmNavigation.Proofs.Token.Breaks

/-! The pieces of a text tile it: one behind the other, with nothing but blanks before, between and after
them. So every character belongs to one piece or is a blank, and a piece, which is counted in bytes from
outside, begins and ends between two characters. Comments and long strings are scanned byte by byte, but
they too end between two characters, so nothing is lost when their bytes are turned into characters.

The end of a piece is decided by looking at what follows it. Still a text that is cut off there has the
same pieces up to its end, and the text of one piece alone is that piece again. -/

namespace ElmNavigation

namespace Token

open Text

/-- A text from the given offset on is tiled: it consists of pieces, each of at least one character and
each at its own offset, and of blanks before, between and after them. -/
inductive Tiled : Nat → List Char → List Lexeme → Prop where
  | done (offset : Nat) : Tiled offset [] []
  | blank {offset : Nat} {c : Char} {text : List Char} {lexemes : List Lexeme} (hc : isBlank c = true)
      (hrest : Tiled (offset + c.utf8Size) text lexemes) : Tiled offset (c :: text) lexemes
  | piece {offset : Nat} {lexeme : Lexeme} {text : List Char} {lexemes : List Lexeme}
      (hstart : lexeme.start = offset) (hchars : lexeme.chars ≠ [])
      (hrest : Tiled (offset + byteLength lexeme.chars) text lexemes) :
      Tiled offset (lexeme.chars ++ text) (lexeme :: lexemes)

/-- Cutting a text tiles it. -/
theorem tiled_cut (offset : Nat) (text : List Char) : Tiled offset text (cut offset 0 text) := by
  -- by the length of the text, since a piece takes more than one character at a time
  induction hlength : text.length using Nat.strongRecOn generalizing offset text with
  | _ length ih =>
      cases text with
      | nil => exact .done offset
      | cons c text =>
          rw [List.length_cons] at hlength
          by_cases hc : isBlank c = true
          · rw [cut_blank hc]
            exact .blank hc (ih text.length (by omega) _ _ rfl)
          · rw [Bool.not_eq_true] at hc
            obtain ⟨kind, taken, rest, rfl, hmunch⟩ := munch_split c text
            rw [List.length_append] at hlength
            rw [cut_piece hc hmunch]
            have hrest : Tiled (offset + byteLength (c :: taken)) rest _ := ih rest.length (by omega) _ _ rfl
            exact @Tiled.piece offset ⟨kind, c :: taken, offset⟩ rest _ rfl (List.cons_ne_nil c taken) hrest

/-- The bytes of a space, a tab, a carriage return and a form feed. -/
def blankBytes : List UInt8 :=
  [0x20, 0x09, 0x0d, 0x0c]

theorem utf8EncodeChar_of_isBlank {c : Char} (hc : isBlank c = true) :
    ∃ byte ∈ blankBytes, String.utf8EncodeChar c = [byte] := by
  simp only [isBlank, Bool.or_eq_true, beq_iff_eq] at hc
  rcases hc with ((rfl | rfl) | rfl) | rfl
  · exact ⟨0x20, by decide, rfl⟩
  · exact ⟨0x09, by decide, rfl⟩
  · exact ⟨0x0d, by decide, rfl⟩
  · exact ⟨0x0c, by decide, rfl⟩

/-- Every byte of a tiled text lies in a piece or is a blank. -/
theorem Tiled.covered_or_blank {offset : Nat} {text : List Char} {lexemes : List Lexeme}
    (h : Tiled offset text lexemes) {i : Nat} {byte : UInt8} (hbyte : (octets text)[i]? = some byte) :
    (∃ lexeme ∈ lexemes, lexeme.start ≤ offset + i ∧ offset + i < lexeme.stop) ∨
      byte ∈ blankBytes := by
  induction h generalizing i with
  | done offset => cases hbyte
  | @blank offset c text lexemes hc hrest ih =>
      obtain ⟨blank, hblank, hencode⟩ := utf8EncodeChar_of_isBlank hc
      have hsize : c.utf8Size = 1 := by
        rw [← String.length_utf8EncodeChar, hencode, List.length_singleton]
      rw [octets_cons, hencode, List.singleton_append] at hbyte
      cases i with
      | zero =>
          obtain rfl : blank = byte := Option.some.inj hbyte
          exact .inr hblank
      | succ i =>
          have hrest := ih hbyte
          rwa [hsize, Nat.add_assoc, Nat.add_comm 1] at hrest
  | @piece offset lexeme text lexemes hstart hchars hrest ih =>
      by_cases hinside : i < byteLength lexeme.chars
      · refine .inl ⟨lexeme, .head _, ?_, ?_⟩
        · omega
        · rw [Lexeme.stop]
          omega
      · have hlength := length_octets lexeme.chars
        rw [octets_append, List.getElem?_append_right (by omega), hlength] at hbyte
        have hplace : offset + byteLength lexeme.chars + (i - byteLength lexeme.chars) = offset + i := by
          omega
        have hlater := ih hbyte
        rw [hplace] at hlater
        rcases hlater with ⟨later, hmem, hcovers⟩ | hblank
        · exact .inl ⟨later, .tail _ hmem, hcovers⟩
        · exact .inr hblank

/-- A piece of a text is what stands in the text between two places. -/
theorem exists_split_of_mem_lexemes {text : List Char} {lexeme : Lexeme} (hmem : lexeme ∈ lexemes text) :
    ∃ before after, text = before ++ (lexeme.chars ++ after) ∧ lexeme.start = byteLength before ∧
      0 < byteLength lexeme.chars := by
  obtain ⟨before, c, taken, after, htext, _, _, _, hchars, hstart⟩ := exists_breaks_of_mem_cut hmem
  have hpos := c.utf8Size_pos
  refine ⟨before, after, by rw [hchars]; exact htext, by rw [hstart, Nat.zero_add], ?_⟩
  rw [hchars, byteLength_cons]
  omega

/-- Both ends of a piece are between two characters of the source, and what stands between them are its
characters. -/
theorem slice_of_mem_lexemes {source : String} {lexeme : Lexeme} (hmem : lexeme ∈ lexemes source.toList) :
    lexeme.start < lexeme.stop ∧ lexeme.stop ≤ source.utf8ByteSize ∧
      String.Pos.Raw.IsValid source ⟨lexeme.start⟩ ∧ String.Pos.Raw.IsValid source ⟨lexeme.stop⟩ ∧
      String.Pos.Raw.extract source ⟨lexeme.start⟩ ⟨lexeme.stop⟩ = String.ofList lexeme.chars := by
  obtain ⟨before, after, hsource, hstart, hpos⟩ := exists_split_of_mem_lexemes hmem
  have hstop : lexeme.stop = byteLength (before ++ lexeme.chars) := by
    rw [Lexeme.stop, hstart, byteLength_append]
  have hsize : source.utf8ByteSize = byteLength before + (byteLength lexeme.chars + byteLength after) := by
    rw [← byteLength_append, ← byteLength_append, ← hsource, ← utf8ByteSize_ofList, String.ofList_toList]
  refine ⟨?_, ?_, ?_, ?_, ?_⟩
  · rw [Lexeme.stop]
    omega
  · rw [Lexeme.stop, hstart, hsize]
    omega
  · rw [hstart]
    exact isValid_byteLength hsource
  · rw [hstop]
    exact isValid_byteLength (by rw [hsource, List.append_assoc])
  · rw [Lexeme.stop, hstart]
    exact extract_byteLength hsource

/-- A token is a piece that is no comment; a piece that could not be read is a token of unknown kind. -/
theorem tokens_eq_map (text : List Char) :
    tokens text = ((lexemes text).filter (·.kind ≠ some .comment)).map fun lexeme =>
      ⟨lexeme.kind.getD .unknown, lexeme.chars, lexeme.start⟩ := by
  rw [tokens]
  induction lexemes text with
  | nil => rfl
  | cons lexeme lexemes ih =>
      obtain ⟨kind, chars, start⟩ := lexeme
      by_cases hcomment : kind = some .comment
      · subst hcomment
        rw [List.filterMap_cons_none rfl, ih, List.filter_cons_of_neg (by simp)]
      · have htoken : ofLexeme? ⟨kind, chars, start⟩ = some ⟨kind.getD .unknown, chars, start⟩ := by
          unfold ofLexeme?
          split
          · next hkind => exact absurd hkind hcomment
          · next other _ hkind =>
              subst hkind
              rfl
          · next hkind =>
              subst hkind
              rfl
        rw [List.filterMap_cons_some htoken, ih, List.filter_cons_of_pos (by simpa using hcomment),
          List.map_cons]

/-- **The pieces of a source tile it.** They are not empty, come one behind the other and begin and end
between two characters of the source, and a byte outside of them is a space, a tab, a carriage return or a
form feed; so the source consists of the characters of its pieces and of blanks. The byte scanners of
comments and long strings stop between two characters. The tokens are the pieces without the comments, at
the same places, with the kind `unknown` where a piece could not be read, and a token's text is what the
source has at its place. -/
theorem lexemes_tile (source : String) :
    Tiled 0 source.toList (lexemes source.toList) ∧
      ((lexemes source.toList).Pairwise fun left right => left.start < right.start ∧
        left.stop ≤ right.start) ∧
      (∀ lexeme ∈ lexemes source.toList, lexeme.start < lexeme.stop ∧ lexeme.stop ≤ source.utf8ByteSize ∧
        String.Pos.Raw.IsValid source ⟨lexeme.start⟩ ∧ String.Pos.Raw.IsValid source ⟨lexeme.stop⟩) ∧
      (∀ offset byte, (octets source.toList)[offset]? = some byte →
        (∀ lexeme ∈ lexemes source.toList, ¬ (lexeme.start ≤ offset ∧ offset < lexeme.stop)) →
        byte ∈ blankBytes) ∧
      (∀ body, byteLength (body.take (blockCommentLength body)) = blockCommentBytes 0 (octets body) ∧
        byteLength (body.take (longStringLength body)) = longStringBytes (octets body)) ∧
      (tokens source.toList = ((lexemes source.toList).filter (·.kind ≠ some .comment)).map fun lexeme =>
        ⟨lexeme.kind.getD .unknown, lexeme.chars, lexeme.start⟩) ∧
      ∀ token ∈ tokens source.toList, String.Pos.Raw.IsValid source ⟨token.start⟩ ∧
        String.Pos.Raw.IsValid source ⟨token.stop⟩ ∧
        String.Pos.Raw.extract source ⟨token.start⟩ ⟨token.stop⟩ = token.text := by
  have htiled : Tiled 0 source.toList (lexemes source.toList) := tiled_cut 0 source.toList
  refine ⟨htiled, ?_, ?_, ?_, ?_, tokens_eq_map source.toList, ?_⟩
  · refine (pairwise_cut 0 source.toList).imp_of_mem fun {left right} hleft _ hle => ⟨?_, hle⟩
    have hlt := (slice_of_mem_lexemes hleft).1
    omega
  · intro lexeme hmem
    obtain ⟨hlt, hle, hstart, hstop, _⟩ := slice_of_mem_lexemes hmem
    exact ⟨hlt, hle, hstart, hstop⟩
  · intro offset byte hbyte huncovered
    rcases htiled.covered_or_blank hbyte with ⟨lexeme, hmem, hcovers⟩ | hblank
    · rw [Nat.zero_add] at hcovers
      exact absurd hcovers (huncovered lexeme hmem)
    · exact hblank
  · intro body
    rw [blockCommentLength_eq, longStringLength_eq]
    exact ⟨(blockCommentBytes_octets 0 body).symm, (longStringBytes_octets body).symm⟩
  · intro token hmem
    obtain ⟨lexeme, hlexeme, htoken⟩ := List.mem_filterMap.mp hmem
    obtain ⟨hchars, hstart, _⟩ := ofLexeme?_eq_some htoken
    obtain ⟨_, _, hvalid, hvalid', hslice⟩ := slice_of_mem_lexemes hlexeme
    have hstop : token.stop = lexeme.stop := by rw [stop, Lexeme.stop, hchars, hstart]
    rw [hstart, hstop, text, hchars]
    exact ⟨hvalid, hvalid', hslice⟩

/-- A comment with a character of two bytes ends between two characters, and the byte after it is a blank. -/
theorem lexemes_tile_two_byte_character :
    lexemes "é \x7b-ü-\x7d\r\"x".toList =
        [⟨none, ['é'], 0⟩, ⟨some .comment, "\x7b-ü-\x7d".toList, 3⟩, ⟨none, ['"', 'x'], 10⟩] ∧
      String.Pos.Raw.IsValid "é \x7b-ü-\x7d\r\"x" ⟨9⟩ ∧
      ∀ byte, (octets "é \x7b-ü-\x7d\r\"x".toList)[9]? = some byte → byte ∈ blankBytes := by
  have hlexemes : lexemes "é \x7b-ü-\x7d\r\"x".toList =
      [⟨none, ['é'], 0⟩, ⟨some .comment, "\x7b-ü-\x7d".toList, 3⟩, ⟨none, ['"', 'x'], 10⟩] := by
    decide +kernel
  obtain ⟨_, _, hends, huncovered, _⟩ := lexemes_tile "é \x7b-ü-\x7d\r\"x"
  rw [hlexemes] at hends huncovered
  refine ⟨hlexemes, (hends _ (.tail _ (.head _))).2.2.2, fun byte hbyte => huncovered 9 byte hbyte ?_⟩
  decide +kernel

/-! ### Texts that end with a piece -/

/-- A piece is read the same at the end of a text. -/
theorem lexemes_append_piece {before taken after : List Char} {c : Char} {kind : Option Kind}
    (h : Breaks before (c :: taken ++ after)) (hc : isBlank c = false)
    (hmunch : munch c (taken ++ after) = ⟨kind, taken.length⟩) :
    lexemes (before ++ (c :: taken)) = lexemes before ++ [⟨kind, c :: taken, byteLength before⟩] := by
  have hlast : munch c (taken ++ []) = ⟨kind, taken.length⟩ := munch_before_break hmunch
  have hpiece := cut_piece hc hlast (byteLength before)
  rw [List.append_nil] at hpiece
  rw [lexemes, h.of_append.cut_append, Nat.zero_add, hpiece]
  rfl

/-- **What follows a piece does not matter.** The source up to the end of a piece, read or not, has the
pieces of the whole source up to and with this one, at the same places; and the text of the piece alone is
one piece of the same kind. -/
theorem lexemes_extract (source : String) {front back : List Lexeme} {lexeme : Lexeme}
    (h : lexemes source.toList = front ++ lexeme :: back) :
    lexemes (String.Pos.Raw.extract source ⟨0⟩ ⟨lexeme.stop⟩).toList = front ++ [lexeme] ∧
      let alone := (String.Pos.Raw.extract source ⟨lexeme.start⟩ ⟨lexeme.stop⟩).toList
      lexemes alone = [⟨lexeme.kind, alone, 0⟩] := by
  obtain ⟨before, c, taken, after, hsource, hbreaks, hc, hmunch, hlexeme, hfront⟩ := exists_breaks_of_cut_eq h
  have hstart : lexeme.start = byteLength before := by rw [hlexeme, Nat.zero_add]
  have hchars : lexeme.chars = c :: taken := by rw [hlexeme]
  have hstop : lexeme.stop = byteLength (before ++ (c :: taken)) := by
    rw [Lexeme.stop, hstart, hchars, byteLength_append]
  have hup : String.Pos.Raw.extract source ⟨0⟩ ⟨lexeme.stop⟩ = String.ofList (before ++ (c :: taken)) := by
    have hextract := @extract_byteLength source [] (before ++ (c :: taken)) after (by
      rw [hsource, List.nil_append, List.append_assoc])
    rwa [byteLength_nil, Nat.zero_add, ← hstop] at hextract
  have halone : String.Pos.Raw.extract source ⟨lexeme.start⟩ ⟨lexeme.stop⟩ = String.ofList (c :: taken) := by
    rw [Lexeme.stop, hstart, hchars]
    exact extract_byteLength hsource
  constructor
  · rw [hup, String.toList_ofList, lexemes_append_piece hbreaks hc hmunch, lexemes, hfront,
      ← hchars, ← hstart]
  · rw [halone, String.toList_ofList]
    exact lexemes_append_piece (.start _) hc hmunch

/-- A string that fails before a backslash at the end of its line, between a comment and the rest of the
line. -/
theorem lexemes_extract_failed_string :
    lexemes "\x7b-\"-\x7d\"é\\\nx".toList =
        [⟨some .comment, "\x7b-\"-\x7d".toList, 0⟩] ++ ⟨none, ['"', 'é'], 5⟩ ::
          [⟨some .operator, ['\\'], 8⟩, ⟨some .newline, ['\n'], 9⟩, ⟨some .lowerName, ['x'], 10⟩] ∧
      lexemes (String.Pos.Raw.extract "\x7b-\"-\x7d\"é\\\nx" ⟨0⟩ ⟨8⟩).toList =
        [⟨some .comment, "\x7b-\"-\x7d".toList, 0⟩, ⟨none, ['"', 'é'], 5⟩] := by
  have hlexemes : lexemes "\x7b-\"-\x7d\"é\\\nx".toList =
      [⟨some .comment, "\x7b-\"-\x7d".toList, 0⟩] ++ ⟨none, ['"', 'é'], 5⟩ ::
        [⟨some .operator, ['\\'], 8⟩, ⟨some .newline, ['\n'], 9⟩, ⟨some .lowerName, ['x'], 10⟩] := by
    decide +kernel
  exact ⟨hlexemes, (lexemes_extract _ hlexemes).1⟩

end Token

end ElmNavigation
