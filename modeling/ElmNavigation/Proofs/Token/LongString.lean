import ElmNavigation.Proofs.Text.Boundaries
import ElmNavigation.Proofs.Token.Scanner
import Mathlib.Logic.Relation

/-! Where a long string ends. A string is read from left to right, and a backslash takes what stands
behind it along: one character where characters are read, and one byte where bytes are. The reading of
bytes can come to stand inside a character, but the bytes there are none of the marks, so it goes on to
the end of that character and comes to the same quotes as the reading of characters. The scan stops behind
the first of them. -/

namespace ElmNavigation.Token

open Text

/-! ### Reading with an escape sign -/

section Reading

variable {α : Type} {escape : α} {text rest next quotes : List α}

/-- One step of reading. -/
inductive ReadStep (escape : α) : List α → List α → Prop where
  | escaped (a : α) (rest : List α) : ReadStep escape (escape :: a :: rest) rest
  | plain {a : α} (ha : a ≠ escape) (rest : List α) : ReadStep escape (a :: rest) rest

/-- What is left of a text at the places to which reading comes. -/
def Reads (escape : α) : List α → List α → Prop :=
  Relation.ReflTransGen (ReadStep escape)

/-- Reading comes to quotes behind `inside`, and to none sooner. -/
def ClosesString (escape : α) (quotes text inside : List α) : Prop :=
  ∃ after, text = inside ++ (quotes ++ after) ∧ Reads escape text (quotes ++ after) ∧
    ∀ after', Reads escape text (quotes ++ after') → after' <:+ after

theorem ReadStep.deterministic (h : ReadStep escape text rest) (h' : ReadStep escape text next) :
    rest = next := by
  cases h with
  | escaped a rest =>
      cases h' with
      | escaped => rfl
      | plain ha => exact absurd rfl ha
  | plain ha rest =>
      cases h' with
      | escaped => exact absurd rfl ha
      | plain => rfl

theorem ReadStep.suffix (h : ReadStep escape text rest) : rest <:+ text := by
  cases h with
  | escaped a rest => exact ⟨[escape, a], rfl⟩
  | plain _ rest => exact List.suffix_cons _ rest

theorem Reads.suffix (h : Reads escape text rest) : rest <:+ text := by
  induction h with
  | refl => exact List.suffix_refl text
  | tail _ hstep ih => exact hstep.suffix.trans ih

theorem Reads.cases_of_step (hstep : ReadStep escape text rest) (h : Reads escape text next) :
    next = text ∨ Reads escape rest next := by
  rcases Relation.ReflTransGen.cases_head h with rfl | ⟨second, hsecond, hreads⟩
  · exact .inl rfl
  · exact .inr (hstep.deterministic hsecond ▸ hreads)

/-- Where no quotes start, one step leads to no other quotes. -/
theorem reads_quotes_iff (hstep : ReadStep escape text rest) (hquotes : ¬ quotes <+: text) (after : List α) :
    Reads escape text (quotes ++ after) ↔ Reads escape rest (quotes ++ after) := by
  constructor
  · intro hreads
    rcases hreads.cases_of_step hstep with hstart | hreads
    · exact absurd ⟨after, hstart⟩ hquotes
    · exact hreads
  · exact Relation.ReflTransGen.head hstep

theorem ClosesString.of_step {front inside : List α} (htext : text = front ++ rest)
    (hstep : ReadStep escape text rest) (hquotes : ¬ quotes <+: text)
    (h : ClosesString escape quotes rest inside) :
    ClosesString escape quotes text (front ++ inside) := by
  obtain ⟨after, hrest, hreads, hfirst⟩ := h
  refine ⟨after, ?_, (reads_quotes_iff hstep hquotes after).mpr hreads, ?_⟩
  · rw [htext, hrest, List.append_assoc]
  · intro after' hreads'
    exact hfirst after' ((reads_quotes_iff hstep hquotes after').mp hreads')

theorem closesString_nil (after : List α) : ClosesString escape quotes (quotes ++ after) [] := by
  refine ⟨after, rfl, .refl, ?_⟩
  intro after' hreads
  have hle := hreads.suffix.length_le
  rw [List.length_append, List.length_append] at hle
  exact List.suffix_of_suffix_length_le ((List.suffix_append quotes after').trans hreads.suffix)
    (List.suffix_append quotes after) (by omega)

/-- The length of what belongs to a string: up to the end of the first quotes to which reading comes, or
all of the text if it comes to none. -/
def StringEnds (escape : α) (quotes text : List α) (length : Nat) : Prop :=
  (∃ inside, ClosesString escape quotes text inside ∧ length = (inside ++ quotes).length) ∨
    ((∀ after, ¬ Reads escape text (quotes ++ after)) ∧ length = text.length)

theorem StringEnds.of_step (front : List α) {length : Nat} (htext : text = front ++ rest)
    (hstep : ReadStep escape text rest) (hquotes : ¬ quotes <+: text)
    (h : StringEnds escape quotes rest length) :
    StringEnds escape quotes text (front.length + length) := by
  rcases h with ⟨inside, hcloses, rfl⟩ | ⟨hnone, rfl⟩
  · refine .inl ⟨front ++ inside, hcloses.of_step htext hstep hquotes, ?_⟩
    simp only [List.length_append, Nat.add_assoc]
  · refine .inr ⟨?_, ?_⟩
    · intro after hreads
      exact hnone after ((reads_quotes_iff hstep hquotes after).mp hreads)
    · rw [htext, List.length_append]

/-- Where reading cannot go on, and no quotes start, it comes to none. -/
theorem stringEnds_of_stuck (hstuck : ∀ rest, ¬ ReadStep escape text rest) (hquotes : ¬ quotes <+: text) :
    StringEnds escape quotes text text.length := by
  refine .inr ⟨?_, rfl⟩
  intro after hreads
  rcases Relation.ReflTransGen.cases_head hreads with hstart | ⟨rest, hstep, _⟩
  · exact hquotes ⟨after, hstart.symm⟩
  · exact hstuck rest hstep

end Reading

/-- The quotes that open and close a long string. -/
def tripleQuote : List Char := ['"', '"', '"']

/-- The scan of bytes stops where the reading of bytes says. -/
theorem stringEnds_longStringBytes (bytes : List UInt8) :
    StringEnds 0x5c (octets tripleQuote) bytes (longStringBytes bytes) := by
  have hquotes : octets tripleQuote = [0x22, 0x22, 0x22] := rfl
  fun_induction longStringBytes bytes with
  | case1 =>
      apply stringEnds_of_stuck
      · rintro rest ⟨⟩
      · rw [hquotes, List.prefix_nil]
        exact List.cons_ne_nil _ _
  | case2 b rest ih =>
      refine ih.of_step [0x5c, b] rfl (.escaped b rest) ?_
      rintro ⟨after, hafter⟩
      rw [hquotes] at hafter
      exact absurd (List.cons.inj hafter).1 (by decide)
  | case3 rest => exact .inl ⟨[], closesString_nil rest, rfl⟩
  | case4 b rest hescape hclosing ih =>
      have hother : ¬ octets tripleQuote <+: b :: rest := by
        rintro ⟨after, hafter⟩
        rw [hquotes] at hafter
        obtain ⟨hb, hrest⟩ := List.cons.inj hafter
        exact hclosing after hb.symm hrest.symm
      by_cases hb : b = 0x5c
      · -- a backslash at the end has nothing to take along
        subst hb
        cases rest with
        | nil =>
            apply stringEnds_of_stuck _ hother
            rintro next (_ | ⟨ha, _⟩)
            exact ha rfl
        | cons c rest => exact absurd rfl (hescape c rest rfl)
      · exact ih.of_step [b] rfl (.plain hb rest) hother

/-! ### Bytes and characters

Reading bytes comes to every place to which reading characters does, and between these it stands inside a
character, in front of bytes that are none of the marks. -/

/-- Of the bytes of a character only the first can be an ASCII character, and then it is that character. -/
theorem exists_utf8EncodeChar (c : Char) :
    ∃ b tail, String.utf8EncodeChar c = b :: tail ∧ (∀ x ∈ tail, 128 ≤ x.toNat) ∧
      ∀ a : Char, a.toNat < 128 → b = UInt8.ofNat a.toNat → c = a := by
  rcases Nat.lt_or_ge c.toNat 128 with hc | hc
  · refine ⟨UInt8.ofNat c.toNat, [], utf8EncodeChar_of_lt hc, ?_, ?_⟩
    · intro x hx
      cases hx
    · intro a ha
      exact eq_of_byte_eq hc ha
  · cases hencode : String.utf8EncodeChar c with
    | nil => exact absurd hencode String.utf8EncodeChar_ne_nil
    | cons b tail =>
        have hhigh : ∀ x ∈ b :: tail, 128 ≤ x.toNat := fun x hx => le_of_mem_utf8EncodeChar hc (hencode ▸ hx)
        refine ⟨b, tail, rfl, fun x hx => hhigh x (.tail _ hx), ?_⟩
        rintro a ha rfl
        have hbyte := hhigh _ (.head _)
        rw [UInt8.toNat_ofNat'] at hbyte
        omega

theorem reads_high {bytes : List UInt8} (hbytes : ∀ b ∈ bytes, 128 ≤ b.toNat) (rest : List UInt8) :
    Reads 0x5c (bytes ++ rest) rest := by
  induction bytes with
  | nil => exact .refl
  | cons b bytes ih =>
      have hb : b ≠ 0x5c := by
        rintro rfl
        exact absurd (hbytes _ (.head _)) (by decide)
      exact .head (.plain hb (bytes ++ rest)) (ih fun x hx => hbytes x (.tail _ hx))

/-- A step over characters is some steps over bytes. -/
theorem ReadStep.reads_octets {text rest : List Char} (h : ReadStep '\\' text rest) :
    Reads 0x5c (octets text) (octets rest) := by
  cases h with
  | escaped c rest =>
      obtain ⟨b, tail, hencode, htail, _⟩ := exists_utf8EncodeChar c
      have hoctets : octets ('\\' :: c :: rest) = 0x5c :: b :: (tail ++ octets rest) := by
        rw [octets_cons, octets_cons, hencode]
        rfl
      rw [hoctets]
      exact .head (.escaped b _) (reads_high htail _)
  | @plain c hc rest =>
      obtain ⟨b, tail, hencode, htail, hfirst⟩ := exists_utf8EncodeChar c
      rw [octets_cons, hencode, List.cons_append]
      refine .head (.plain ?_ _) (reads_high htail _)
      intro hb
      exact hc (hfirst '\\' (by decide) hb)

theorem Reads.reads_octets {text rest : List Char} (h : Reads '\\' text rest) :
    Reads 0x5c (octets text) (octets rest) := by
  induction h with
  | refl => exact .refl
  | tail _ hstep ih => exact ih.trans hstep.reads_octets

/-- A step over bytes from inside a character leads to a place inside a character, after at most one step over
characters. -/
theorem ReadStep.exists_reads {tail next : List UInt8} {text : List Char} (htail : ∀ b ∈ tail, 128 ≤ b.toNat)
    (h : ReadStep 0x5c (tail ++ octets text) next) :
    ∃ tail' text', next = tail' ++ octets text' ∧ (∀ b ∈ tail', 128 ≤ b.toNat) ∧ Reads '\\' text text' := by
  cases tail with
  | cons b tail =>
      have hb : b ≠ 0x5c := by
        rintro rfl
        exact absurd (htail _ (.head _)) (by decide)
      obtain rfl := h.deterministic (.plain hb _)
      exact ⟨tail, text, rfl, fun x hx => htail x (.tail _ hx), .refl⟩
  | nil =>
      rw [List.nil_append] at h
      cases text with
      | nil => cases h
      | cons c text =>
          obtain ⟨b, tail, hencode, htail, hfirst⟩ := exists_utf8EncodeChar c
          rw [octets_cons, hencode, List.cons_append] at h
          by_cases hb : b = 0x5c
          · obtain rfl := hfirst '\\' (by decide) hb
            obtain ⟨-, rfl⟩ := List.cons.inj hencode
            rw [hb, List.nil_append] at h
            cases text with
            | nil =>
                cases h with
                | plain ha => exact absurd rfl ha
            | cons d text =>
                obtain ⟨b', tail', hencode', htail', _⟩ := exists_utf8EncodeChar d
                rw [octets_cons, hencode', List.cons_append] at h
                obtain rfl := h.deterministic (.escaped b' _)
                exact ⟨tail', text, rfl, htail', .single (.escaped d text)⟩
          · obtain rfl := h.deterministic (.plain hb _)
            refine ⟨tail, text, rfl, htail, .single (.plain ?_ text)⟩
            rintro rfl
            exact hb (List.cons.inj hencode).1.symm

theorem Reads.exists_reads {text : List Char} {bytes : List UInt8} (h : Reads 0x5c (octets text) bytes) :
    ∃ tail rest, bytes = tail ++ octets rest ∧ (∀ b ∈ tail, 128 ≤ b.toNat) ∧ Reads '\\' text rest := by
  induction h with
  | refl => exact ⟨[], text, rfl, fun b hb => absurd hb List.not_mem_nil, .refl⟩
  | tail _ hstep ih =>
      obtain ⟨tail, rest, rfl, htail, hreads⟩ := ih
      obtain ⟨tail', rest', rfl, htail', hreads'⟩ := hstep.exists_reads htail
      exact ⟨tail', rest', rfl, htail', hreads.trans hreads'⟩

/-- Bytes come to quotes only where characters do. -/
theorem reads_octets_tripleQuote {text : List Char} {rest : List UInt8} :
    Reads 0x5c (octets text) (octets tripleQuote ++ rest) ↔
      ∃ after, Reads '\\' text (tripleQuote ++ after) ∧ rest = octets after := by
  constructor
  · intro hreads
    obtain ⟨tail, left, hbytes, htail, hreads⟩ := hreads.exists_reads
    have hquotes : octets tripleQuote ++ rest = 0x22 :: 0x22 :: 0x22 :: rest := rfl
    rw [hquotes] at hbytes
    cases tail with
    | cons b tail =>
        have hb := htail b (.head _)
        rw [← (List.cons.inj hbytes).1] at hb
        exact absurd hb (by decide)
    | nil =>
        rw [List.nil_append] at hbytes
        obtain ⟨left, rfl⟩ := exists_cons_of_octets_eq_cons (a := '"') (by decide) hbytes.symm
        have hbytes := (List.cons.inj hbytes).2
        obtain ⟨left, rfl⟩ := exists_cons_of_octets_eq_cons (a := '"') (by decide) hbytes.symm
        have hbytes := (List.cons.inj hbytes).2
        obtain ⟨left, rfl⟩ := exists_cons_of_octets_eq_cons (a := '"') (by decide) hbytes.symm
        exact ⟨left, hreads, (List.cons.inj hbytes).2⟩
  · rintro ⟨after, hreads, rfl⟩
    rw [← octets_append]
    exact hreads.reads_octets

/-- The quotes that end the bytes of a string are those that end its characters. -/
theorem ClosesString.of_octets {text : List Char} {inside : List UInt8}
    (h : ClosesString 0x5c (octets tripleQuote) (octets text) inside) :
    ∃ inside', ClosesString '\\' tripleQuote text inside' ∧ inside = octets inside' := by
  obtain ⟨rest, hbytes, hreads, hfirst⟩ := h
  obtain ⟨after, hchars, rfl⟩ := reads_octets_tripleQuote.mp hreads
  obtain ⟨inside', rfl⟩ := hchars.suffix
  refine ⟨inside', ⟨after, rfl, hchars, ?_⟩, ?_⟩
  · intro after' hchars'
    have hle := (hfirst _ (reads_octets_tripleQuote.mpr ⟨after', hchars', rfl⟩)).length_le
    rw [length_octets, length_octets] at hle
    have hafter := (List.suffix_append tripleQuote after).trans hchars.suffix
    have hafter' := (List.suffix_append tripleQuote after').trans hchars'.suffix
    rcases List.suffix_or_suffix_of_suffix hafter' hafter with hsuffix | ⟨between, rfl⟩
    · exact hsuffix
    · -- no more bytes are left behind the later place than behind the earlier one
      have hbetween : between = [] := by
        cases between with
        | nil => rfl
        | cons c between =>
            have hpos := c.utf8Size_pos
            rw [byteLength_append, byteLength_cons] at hle
            omega
      rw [hbetween]
      exact List.suffix_refl after
  · rw [octets_append, octets_append] at hbytes
    exact (List.append_cancel_right hbytes).symm

/-- The scan of bytes takes as many characters as the reading of characters says, and all their bytes. -/
theorem stringEnds_longStringLength (text : List Char) :
    StringEnds '\\' tripleQuote text (longStringLength text) ∧
      longStringBytes (octets text) = byteLength (text.take (longStringLength text)) := by
  constructor
  · rcases stringEnds_longStringBytes (octets text) with ⟨inside, hcloses, hlength⟩ | ⟨hnone, hlength⟩
    · obtain ⟨inside', hcloses', rfl⟩ := hcloses.of_octets
      refine .inl ⟨inside', hcloses', ?_⟩
      obtain ⟨after, rfl, _⟩ := hcloses'
      rw [← octets_append, length_octets] at hlength
      rw [longStringLength, hlength, ← List.append_assoc, charsWithin_byteLength]
    · refine .inr ⟨?_, ?_⟩
      · intro after hreads
        exact hnone (octets after) (reads_octets_tripleQuote.mpr ⟨after, hreads, rfl⟩)
      · rw [length_octets] at hlength
        have hall := charsWithin_byteLength text []
        rw [List.append_nil] at hall
        rw [longStringLength, hlength, hall]
  · rw [longStringLength_eq, longStringBytes_octets]

/-! ### The scan by byte numbers -/

/-- The scan with the number of the byte at which it stands. A backslash at the end moves it past the last
byte. -/
def indexedLongString (bytes : List UInt8) (i : Nat) : Nat :=
  if i < bytes.length then
    if bytes[i]? = some 0x5c then indexedLongString bytes (i + 2)
    else if (octets tripleQuote).isPrefixOf (bytes.drop i) then i + (octets tripleQuote).length
    else indexedLongString bytes (i + 1)
  else bytes.length
termination_by bytes.length - i

theorem indexedLongString_eq {bytes : List UInt8} {i : Nat} (hi : i ≤ bytes.length) :
    indexedLongString bytes i = i + longStringBytes (bytes.drop i) := by
  fun_induction indexedLongString bytes i with
  | case1 i hlt hescape ih =>
      rw [List.getElem?_eq_getElem hlt, Option.some.injEq] at hescape
      rw [List.drop_eq_getElem_cons hlt, hescape]
      rcases Nat.lt_or_ge (i + 1) bytes.length with hlt' | hge
      · rw [ih (by omega), List.drop_eq_getElem_cons hlt', longStringBytes, Nat.add_assoc]
      · rw [indexedLongString, if_neg (by omega), List.drop_eq_nil_of_le hge]
        show bytes.length = i + 1
        omega
  | case2 i hlt hescape hquotes =>
      obtain ⟨after, hafter⟩ := List.isPrefixOf_iff_prefix.mp hquotes
      rw [← hafter]
      rfl
  | case3 i hlt hescape hquotes ih =>
      rw [List.getElem?_eq_getElem hlt, Option.some.injEq] at hescape
      rw [ih (by omega), List.drop_eq_getElem_cons hlt, longStringBytes_other, Nat.add_assoc]
      · intro b rest hb
        exact absurd hb hescape
      · intro rest hb hrest
        apply hquotes
        rw [List.drop_eq_getElem_cons hlt, hb, hrest]
        exact List.isPrefixOf_iff_prefix.mpr ⟨rest, rfl⟩
  | case4 i hge =>
      rw [List.drop_eq_nil_of_le (by omega)]
      show bytes.length = i + 0
      omega

/-- **A long string ends behind the first quotes.** Reading character by character, where a backslash
takes the character behind it along, the string goes up to and with the first quotes to which the reading
comes, or to the end of the text if it comes to none; and the scan takes the bytes of these characters. It
comes to no other quotes than the reading does, stops between two characters, and never takes more bytes
than there are, also where it has stepped past the last byte. -/
theorem longString_ends_at_first_quotes (text : List Char) :
    StringEnds '\\' tripleQuote text (longStringLength text) ∧
      longStringBytes (octets text) = byteLength (text.take (longStringLength text)) ∧
      (∀ rest, Reads 0x5c (octets text) (octets tripleQuote ++ rest) ↔
        ∃ after, Reads '\\' text (tripleQuote ++ after) ∧ rest = octets after) ∧
      String.Pos.Raw.IsValid (String.ofList text) ⟨longStringBytes (octets text)⟩ ∧
      longStringBytes (octets text) ≤ (octets text).length ∧
      indexedLongString (octets text) 0 = longStringBytes (octets text) := by
  obtain ⟨hends, hbytes⟩ := stringEnds_longStringLength text
  have hsplit : text = text.take (longStringLength text) ++ text.drop (longStringLength text) :=
    (List.take_append_drop _ _).symm
  refine ⟨hends, hbytes, fun rest => reads_octets_tripleQuote, ?_, ?_, ?_⟩
  · rw [hbytes]
    exact isValid_byteLength (String.toList_ofList.trans hsplit)
  · have hsum := congrArg byteLength hsplit
    rw [byteLength_append] at hsum
    rw [hbytes, length_octets]
    omega
  · rw [indexedLongString_eq (Nat.zero_le _), List.drop_zero, Nat.zero_add]

/-- The backslash takes a character of two bytes along, and of the four quotes behind it the last is left. -/
example : longStringLength ['\\', 'é', '"', '"', '"', '"'] = 5 := by decide

end ElmNavigation.Token
