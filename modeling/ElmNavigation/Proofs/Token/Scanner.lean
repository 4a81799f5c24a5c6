import ElmNavigation.Token.Scanner

/-! What a token depends on. Comments and long strings are scanned byte by byte, but since their marks
are single bytes that occur in no other character, the scan agrees with one over characters. Read in
characters, every reader looks only at the text that it takes and at the character that stops it, so
text further on can be cut off: `munch_take`. -/

namespace ElmNavigation

namespace Text

theorem octets_cons (c : Char) (text : List Char) :
    octets (c :: text) = String.utf8EncodeChar c ++ octets text := rfl

theorem utf8EncodeChar_of_lt {c : Char} (hc : c.toNat < 128) :
    String.utf8EncodeChar c = [UInt8.ofNat c.toNat] := by
  have hle : c.val.toNat ≤ 127 := Nat.le_of_lt_succ hc
  simp only [String.utf8EncodeChar, if_pos hle]
  rfl

theorem utf8Size_of_lt {c : Char} (hc : c.toNat < 128) : c.utf8Size = 1 := by
  rw [← String.length_utf8EncodeChar, utf8EncodeChar_of_lt hc]
  rfl

theorem eq_of_byte_eq {a c : Char} (hc : c.toNat < 128) (ha : a.toNat < 128)
    (h : UInt8.ofNat c.toNat = UInt8.ofNat a.toNat) : c = a := by
  have hnat := congrArg UInt8.toNat h
  rw [UInt8.toNat_ofNat', UInt8.toNat_ofNat'] at hnat
  exact Char.toNat_inj.mp (by omega)

/-- A character outside ASCII has no byte inside it. -/
theorem le_of_mem_utf8EncodeChar {c : Char} (hc : 128 ≤ c.toNat) {b : UInt8}
    (hb : b ∈ String.utf8EncodeChar c) : 128 ≤ b.toNat := by
  have hgt : ¬ c.val.toNat ≤ 127 := Nat.not_le_of_lt hc
  simp only [String.utf8EncodeChar, if_neg hgt] at hb
  split at hb
  · simp only [List.mem_cons, List.not_mem_nil, or_false] at hb
    rcases hb with rfl | rfl <;> rw [UInt8.toNat_ofNat'] <;> omega
  · split at hb
    · simp only [List.mem_cons, List.not_mem_nil, or_false] at hb
      rcases hb with rfl | rfl | rfl <;> rw [UInt8.toNat_ofNat'] <;> omega
    · simp only [List.mem_cons, List.not_mem_nil, or_false] at hb
      rcases hb with rfl | rfl | rfl | rfl <;> rw [UInt8.toNat_ofNat'] <;> omega

/-- The first byte of a text is that of an ASCII character only if the text begins with it. -/
theorem exists_cons_of_octets_eq_cons {a : Char} (ha : a.toNat < 128) {text : List Char} {rest : List UInt8}
    (h : octets text = UInt8.ofNat a.toNat :: rest) : ∃ text', text = a :: text' := by
  cases text with
  | nil => cases h
  | cons c text =>
      rw [octets_cons] at h
      rcases Nat.lt_or_ge c.toNat 128 with hc | hc
      · rw [utf8EncodeChar_of_lt hc] at h
        exact ⟨text, by rw [eq_of_byte_eq hc ha (List.cons.inj h).1]⟩
      · have hmem : UInt8.ofNat a.toNat ∈ String.utf8EncodeChar c := by
          cases hencode : String.utf8EncodeChar c with
          | nil => exact absurd hencode String.utf8EncodeChar_ne_nil
          | cons b bytes =>
              rw [hencode, List.cons_append] at h
              rw [(List.cons.inj h).1]
              exact List.mem_cons_self
        have := le_of_mem_utf8EncodeChar hc hmem
        rw [UInt8.toNat_ofNat'] at this
        omega

theorem charsWithin_byteLength_take {k : Nat} {text : List Char} (hk : k ≤ text.length) :
    charsWithin (byteLength (text.take k)) text = k := by
  induction k generalizing text with
  | zero =>
      cases text with
      | nil => rfl
      | cons c text =>
          have hpos := c.utf8Size_pos
          rw [List.take_zero, byteLength_nil, charsWithin, if_neg (by omega)]
  | succ k ih =>
      cases text with
      | nil => cases hk
      | cons c text =>
          rw [List.take_succ_cons, byteLength_cons, charsWithin, if_pos (by omega), Nat.add_sub_cancel_left,
            ih (Nat.le_of_succ_le_succ hk)]

theorem charsWithin_byteLength (before after : List Char) :
    charsWithin (byteLength before) (before ++ after) = before.length := by
  have hlength : before.length ≤ (before ++ after).length := by
    rw [List.length_append]
    omega
  have hchars := charsWithin_byteLength_take hlength
  rwa [List.take_left] at hchars

end Text

namespace Token

open Text

/-! ### Scanning characters for bytes -/

/-- The characters of a block comment after its opening marker, as `blockCommentBytes` has its bytes. -/
def blockCommentChars : Nat → List Char → Nat
  | _, [] => 0
  | depth, first :: rest =>
      match first, rest with
      | '{', '-' :: rest => 2 + blockCommentChars (depth + 1) rest
      | '-', '}' :: rest =>
          match depth with
          | 0 => 2
          | depth + 1 => 2 + blockCommentChars depth rest
      | _, rest => 1 + blockCommentChars depth rest

/-- The characters of a string after its opening triple quote, as `longStringBytes` has its bytes. -/
def longStringChars : List Char → Nat
  | [] => 0
  | '\\' :: _ :: rest => 2 + longStringChars rest
  | '"' :: '"' :: '"' :: _ => 3
  | _ :: rest => 1 + longStringChars rest

theorem blockCommentBytes_other {depth : Nat} {b : UInt8} {rest : List UInt8}
    (hopen : ∀ rest', b = 0x7b → rest ≠ 0x2d :: rest') (hclose : ∀ rest', b = 0x2d → rest ≠ 0x7d :: rest') :
    blockCommentBytes depth (b :: rest) = 1 + blockCommentBytes depth rest := by
  rw [blockCommentBytes]
  · exact hopen
  · exact hclose

theorem blockCommentBytes_high (depth : Nat) {bytes : List UInt8} (hbytes : ∀ b ∈ bytes, 128 ≤ b.toNat)
    (rest : List UInt8) :
    blockCommentBytes depth (bytes ++ rest) = bytes.length + blockCommentBytes depth rest := by
  induction bytes with
  | nil => simp
  | cons b bytes ih =>
      have hb := hbytes b List.mem_cons_self
      rw [List.cons_append, blockCommentBytes_other, ih (fun x hx => hbytes x (List.mem_cons_of_mem _ hx)),
        List.length_cons]
      · omega
      · rintro _ rfl
        exact absurd hb (by decide)
      · rintro _ rfl
        exact absurd hb (by decide)

theorem longStringBytes_other {b : UInt8} {rest : List UInt8}
    (hescape : ∀ c rest', b = 0x5c → rest ≠ c :: rest')
    (hquote : ∀ rest', b = 0x22 → rest ≠ 0x22 :: 0x22 :: rest') :
    longStringBytes (b :: rest) = 1 + longStringBytes rest := by
  rw [longStringBytes]
  · exact hescape
  · exact hquote

theorem longStringBytes_high {bytes : List UInt8} (hbytes : ∀ b ∈ bytes, 128 ≤ b.toNat) (rest : List UInt8) :
    longStringBytes (bytes ++ rest) = bytes.length + longStringBytes rest := by
  induction bytes with
  | nil => simp
  | cons b bytes ih =>
      have hb := hbytes b List.mem_cons_self
      rw [List.cons_append, longStringBytes_other, ih (fun x hx => hbytes x (List.mem_cons_of_mem _ hx)),
        List.length_cons]
      · omega
      · rintro _ _ rfl
        exact absurd hb (by decide)
      · rintro _ rfl
        exact absurd hb (by decide)

theorem blockCommentBytes_octets (depth : Nat) (text : List Char) :
    blockCommentBytes depth (octets text) = byteLength (text.take (blockCommentChars depth text)) := by
  fun_induction blockCommentChars depth text with
  | case1 => rfl
  | case2 depth rest ih =>
      have hoctets : octets ('{' :: '-' :: rest) = 0x7b :: 0x2d :: octets rest := rfl
      rw [hoctets, blockCommentBytes, ih, Nat.add_comm 2 (blockCommentChars _ _), List.take_succ_cons,
        List.take_succ_cons]
      exact Nat.add_assoc 1 1 _
  | case3 rest => rfl
  | case4 rest depth ih =>
      have hoctets : octets ('-' :: '}' :: rest) = 0x2d :: 0x7d :: octets rest := rfl
      rw [hoctets, blockCommentBytes, ih, Nat.add_comm 2 (blockCommentChars _ _), List.take_succ_cons,
        List.take_succ_cons]
      exact Nat.add_assoc 1 1 _
  | case5 depth first rest hopen hclose ih =>
      rw [octets_cons, Nat.add_comm 1, List.take_succ_cons, byteLength_cons, ← ih]
      rcases Nat.lt_or_ge first.toNat 128 with hc | hc
      · rw [utf8EncodeChar_of_lt hc, utf8Size_of_lt hc, List.cons_append, List.nil_append]
        apply blockCommentBytes_other
        · intro rest' hbyte hrest
          obtain ⟨text', htext⟩ := exists_cons_of_octets_eq_cons (a := '-') (by decide) hrest
          exact hopen text' (eq_of_byte_eq hc (by decide) hbyte) htext
        · intro rest' hbyte hrest
          obtain ⟨text', htext⟩ := exists_cons_of_octets_eq_cons (a := '}') (by decide) hrest
          exact hclose text' (eq_of_byte_eq hc (by decide) hbyte) htext
      · rw [blockCommentBytes_high depth (fun b => le_of_mem_utf8EncodeChar hc), String.length_utf8EncodeChar]

theorem longStringBytes_octets (text : List Char) :
    longStringBytes (octets text) = byteLength (text.take (longStringChars text)) := by
  fun_induction longStringChars text with
  | case1 => rfl
  | case2 c rest ih =>
      have hescape : '\\'.utf8Size = 1 := rfl
      rw [octets_cons, octets_cons, Nat.add_comm 2, List.take_succ_cons, List.take_succ_cons, byteLength_cons,
        byteLength_cons, ← ih, ← String.length_utf8EncodeChar c]
      have hbackslash : String.utf8EncodeChar '\\' = [0x5c] := rfl
      rw [hbackslash, List.cons_append, List.nil_append]
      -- the escape takes the first byte of the next character, and the others are none of the marks
      rcases Nat.lt_or_ge c.toNat 128 with hc | hc
      · rw [utf8EncodeChar_of_lt hc, List.cons_append, List.nil_append, longStringBytes]
        rw [List.length_singleton, hescape]
        omega
      · cases hencode : String.utf8EncodeChar c with
        | nil => exact absurd hencode String.utf8EncodeChar_ne_nil
        | cons b bytes =>
            have hbytes : ∀ x ∈ bytes, 128 ≤ x.toNat := by
              intro x hx
              exact le_of_mem_utf8EncodeChar hc (hencode ▸ List.mem_cons_of_mem _ hx)
            rw [List.cons_append, longStringBytes, longStringBytes_high hbytes, List.length_cons, hescape]
            omega
  | case3 rest => rfl
  | case4 first rest hescape hquote ih =>
      rw [octets_cons, Nat.add_comm 1, List.take_succ_cons, byteLength_cons, ← ih]
      rcases Nat.lt_or_ge first.toNat 128 with hc | hc
      · rw [utf8EncodeChar_of_lt hc, utf8Size_of_lt hc, List.cons_append, List.nil_append]
        apply longStringBytes_other
        · intro b rest' hbyte hrest
          cases rest with
          | nil => cases hrest
          | cons c rest => exact hescape c rest (eq_of_byte_eq hc (by decide) hbyte) rfl
        · intro rest' hbyte hrest
          obtain ⟨text', rfl⟩ := exists_cons_of_octets_eq_cons (a := '"') (by decide) hrest
          have hrest' : octets text' = 0x22 :: rest' := by
            have hquote : octets ('"' :: text') = 0x22 :: octets text' := rfl
            rw [hquote] at hrest
            exact (List.cons.inj hrest).2
          obtain ⟨text'', rfl⟩ := exists_cons_of_octets_eq_cons (a := '"') (by decide) hrest'
          exact hquote text'' (eq_of_byte_eq hc (by decide) hbyte) rfl
      · rw [longStringBytes_high (fun b => le_of_mem_utf8EncodeChar hc), String.length_utf8EncodeChar]

theorem blockCommentChars_le (depth : Nat) (text : List Char) :
    blockCommentChars depth text ≤ text.length := by
  fun_induction blockCommentChars depth text with
  | case1 => exact Nat.le_refl _
  | case2 depth rest ih => simp only [List.length_cons]; omega
  | case3 rest => simp only [List.length_cons]; omega
  | case4 rest depth ih => simp only [List.length_cons]; omega
  | case5 depth first rest hopen hclose ih => simp only [List.length_cons]; omega

theorem longStringChars_le (text : List Char) : longStringChars text ≤ text.length := by
  fun_induction longStringChars text with
  | case1 => exact Nat.le_refl _
  | case2 c rest ih => simp only [List.length_cons]; omega
  | case3 rest => simp only [List.length_cons]; omega
  | case4 first rest hescape hquote ih => simp only [List.length_cons]; omega

theorem blockCommentLength_eq (text : List Char) : blockCommentLength text = blockCommentChars 0 text := by
  rw [blockCommentLength, blockCommentBytes_octets, charsWithin_byteLength_take (blockCommentChars_le 0 text)]

theorem longStringLength_eq (text : List Char) : longStringLength text = longStringChars text := by
  rw [longStringLength, longStringBytes_octets, charsWithin_byteLength_take (longStringChars_le text)]

/-! ### Text that a reader does not see

Each reader takes the same from a text that is cut off anywhere behind what it takes. -/

theorem exists_cons_of_take_eq_cons {α : Type} {k : Nat} {a : α} {text rest : List α}
    (h : text.take k = a :: rest) : ∃ text', text = a :: text' := by
  cases text with
  | nil => simp at h
  | cons c text =>
      cases k with
      | zero => cases h
      | succ k => exact ⟨text, by rw [(List.cons.inj h).1]⟩

theorem blockCommentChars_take {depth k : Nat} {text : List Char} (hk : blockCommentChars depth text ≤ k) :
    blockCommentChars depth (text.take k) = blockCommentChars depth text := by
  fun_induction blockCommentChars depth text generalizing k with
  | case1 => rw [List.take_nil]; rfl
  | case2 depth rest ih =>
      obtain ⟨k, rfl⟩ : ∃ j, k = j + 2 := ⟨k - 2, by omega⟩
      rw [List.take_succ_cons, List.take_succ_cons, blockCommentChars, ih (by omega)]
  | case3 rest =>
      obtain ⟨k, rfl⟩ : ∃ j, k = j + 2 := ⟨k - 2, by omega⟩
      rfl
  | case4 rest depth ih =>
      obtain ⟨k, rfl⟩ : ∃ j, k = j + 2 := ⟨k - 2, by omega⟩
      rw [List.take_succ_cons, List.take_succ_cons, blockCommentChars, ih (by omega)]
  | case5 depth first rest hopen hclose ih =>
      obtain ⟨k, rfl⟩ : ∃ j, k = j + 1 := ⟨k - 1, by omega⟩
      rw [List.take_succ_cons, blockCommentChars, ih (by omega)]
      · intro rest' hfirst hrest
        obtain ⟨text', htext⟩ := exists_cons_of_take_eq_cons hrest
        exact hopen text' hfirst htext
      · intro rest' hfirst hrest
        obtain ⟨text', htext⟩ := exists_cons_of_take_eq_cons hrest
        exact hclose text' hfirst htext

theorem longStringChars_take {k : Nat} {text : List Char} (hk : longStringChars text ≤ k) :
    longStringChars (text.take k) = longStringChars text := by
  fun_induction longStringChars text generalizing k with
  | case1 => rw [List.take_nil]; rfl
  | case2 c rest ih =>
      obtain ⟨k, rfl⟩ : ∃ j, k = j + 2 := ⟨k - 2, by omega⟩
      rw [List.take_succ_cons, List.take_succ_cons, longStringChars, ih (by omega)]
  | case3 rest =>
      obtain ⟨k, rfl⟩ : ∃ j, k = j + 3 := ⟨k - 3, by omega⟩
      rfl
  | case4 first rest hescape hquote ih =>
      obtain ⟨k, rfl⟩ : ∃ j, k = j + 1 := ⟨k - 1, by omega⟩
      rw [List.take_succ_cons, longStringChars, ih (by omega)]
      · intro c rest' hfirst hrest
        obtain ⟨text', htext⟩ := exists_cons_of_take_eq_cons hrest
        exact hescape c text' hfirst htext
      · intro rest' hfirst hrest
        obtain ⟨text', rfl⟩ := exists_cons_of_take_eq_cons hrest
        cases k with
        | zero => cases hrest
        | succ k =>
            obtain ⟨text'', rfl⟩ := exists_cons_of_take_eq_cons (List.cons.inj hrest).2
            exact hquote text'' hfirst rfl

theorem stringUnits_le (text : List Char) : stringUnits text ≤ text.length := by
  fun_induction stringUnits text with
  | case1 => exact Nat.le_refl _
  | case2 => exact Nat.zero_le _
  | case3 => exact Nat.zero_le _
  | case4 => simp only [List.length_cons]; omega
  | case5 => exact Nat.zero_le _
  | case6 => simp only [List.length_cons]; omega

theorem stringUnits_take {k : Nat} {text : List Char} (hk : stringUnits text ≤ k) :
    stringUnits (text.take k) = stringUnits text := by
  fun_induction stringUnits text generalizing k with
  | case1 => rw [List.take_nil]; rfl
  | case2 => cases k <;> simp [stringUnits]
  | case3 rest => match k with
      | 0 => rfl
      | 1 => rfl
      | k + 2 => simp [stringUnits]
  | case4 d rest hd ih =>
      obtain ⟨k, rfl⟩ : ∃ j, k = j + 2 := ⟨k - 2, by omega⟩
      rw [List.take_succ_cons, List.take_succ_cons, stringUnits, if_pos rfl]
      simp only [if_neg hd, ih (show stringUnits rest ≤ k by omega)]
  | case5 c rest hc hstop =>
      cases k with
      | zero => rfl
      | succ k =>
          rw [List.take_succ_cons, stringUnits.eq_def]
          simp only [if_neg hc, if_pos hstop]
  | case6 c rest hc hgo ih =>
      obtain ⟨k, rfl⟩ : ∃ j, k = j + 1 := ⟨k - 1, by omega⟩
      rw [List.take_succ_cons, stringUnits.eq_def]
      simp only [if_neg hc, if_neg hgo, ih (show stringUnits rest ≤ k by omega)]

theorem takeWhile_take {α : Type} {p : α → Bool} {k : Nat} {text : List α}
    (hk : (text.takeWhile p).length ≤ k) : (text.take k).takeWhile p = text.takeWhile p := by
  induction text generalizing k with
  | nil => rw [List.take_nil]
  | cons c text ih =>
      rw [List.takeWhile_cons] at hk ⊢
      split at hk
      · next hc =>
          obtain ⟨k, rfl⟩ : ∃ j, k = j + 1 := ⟨k - 1, by rw [List.length_cons] at hk; omega⟩
          rw [List.take_succ_cons, List.takeWhile_cons, if_pos hc, if_pos hc,
            ih (by rw [List.length_cons] at hk; omega)]
      · next hc =>
          rw [if_neg hc]
          cases k with
          | zero => rfl
          | succ k => rw [List.take_succ_cons, List.takeWhile_cons, if_neg hc]

theorem takeWhile_append_stop {p : Char → Bool} {run after : List Char} (hrun : ∀ c ∈ run, p c = true)
    (hafter : ∀ c ∈ after.head?, p c = false) : (run ++ after).takeWhile p = run := by
  rw [List.takeWhile_append_of_pos hrun]
  cases after with
  | nil => simp
  | cons c after => rw [List.takeWhile_cons_of_neg (by rw [hafter c rfl]; decide), List.append_nil]

theorem takeWhile_length_le {α : Type} (p : α → Bool) (text : List α) :
    (text.takeWhile p).length ≤ text.length :=
  (List.takeWhile_sublist p).length_le

theorem word_take {first : Char} {k : Nat} {text : List Char} (hk : (word first text).extra ≤ k) :
    word first (text.take k) = word first text := by
  have hrun : (text.take k).takeWhile isWordChar = text.takeWhile isWordChar := takeWhile_take hk
  simp only [word, hrun]

theorem symbols_take {first : Char} {k : Nat} {text : List Char} (hk : (symbols first text).extra ≤ k) :
    symbols first (text.take k) = symbols first text := by
  rw [symbols] at hk
  split at hk
  · next hcomment =>
      -- the second hyphen is one of the characters that the comment takes
      have hpos : 0 < runLength (· ≠ '\n') text := by
        cases text with
        | nil => simp at hcomment
        | cons c text =>
            rw [List.head?_cons, Option.some.injEq] at hcomment
            rw [hcomment.2]
            simp [runLength]
      have hhead : (text.take k).head? = text.head? := by
        rw [List.head?_take, if_neg (by have := Nat.lt_of_lt_of_le hpos hk; omega)]
      have hrun : (text.take k).takeWhile (· ≠ '\n') = text.takeWhile (· ≠ '\n') := takeWhile_take hk
      rw [symbols, symbols, if_pos hcomment, if_pos (hhead ▸ hcomment)]
      simp only [runLength, hrun]
  · next hrunning =>
      have hcut : ¬ (first = '-' ∧ (text.take k).head? = some '-') := by
        rintro ⟨hfirst, hhead⟩
        rw [List.head?_take] at hhead
        split at hhead
        · cases hhead
        · exact hrunning ⟨hfirst, hhead⟩
      have hrun : (text.take k).takeWhile isSymbol = text.takeWhile isSymbol := takeWhile_take hk
      rw [symbols, symbols, if_neg hrunning, if_neg hcut]
      simp only [hrun]

theorem punctuation_other {kind : Kind} {text : List Char}
    (h : ∀ body, kind = .openBrace → text ≠ '-' :: body) : punctuation kind text = ⟨some kind, 0⟩ := by
  rw [punctuation]
  exact h

theorem punctuation_take {kind : Kind} {k : Nat} {text : List Char} (hk : (punctuation kind text).extra ≤ k) :
    punctuation kind (text.take k) = punctuation kind text := by
  by_cases hcomment : kind = .openBrace ∧ ∃ body, text = '-' :: body
  · obtain ⟨rfl, body, rfl⟩ := hcomment
    have hextra : 1 + blockCommentLength body ≤ k := hk
    obtain ⟨k, rfl⟩ : ∃ j, k = j + 1 := ⟨k - 1, by omega⟩
    have hbody : blockCommentLength (body.take k) = blockCommentLength body := by
      rw [blockCommentLength_eq] at hextra
      rw [blockCommentLength_eq, blockCommentLength_eq, blockCommentChars_take (by omega)]
    rw [List.take_succ_cons, punctuation, punctuation, hbody]
  · have hfree : ∀ body, kind = .openBrace → text ≠ '-' :: body :=
      fun body hkind htext => hcomment ⟨hkind, body, htext⟩
    rw [punctuation_other hfree, punctuation_other]
    intro body hkind htake
    obtain ⟨text', htext⟩ := exists_cons_of_take_eq_cons htake
    exact hfree text' hkind htext

theorem stringLiteral_short {text : List Char} (h : ∀ body, text ≠ '"' :: '"' :: body) :
    stringLiteral text = if text[stringUnits text]? = some '"' then ⟨some .stringLiteral,
      stringUnits text + 1⟩ else ⟨none, stringUnits text⟩ := by
  have hdrop : text[stringUnits text]? = (text.drop (stringUnits text)).head? := List.head?_drop.symm
  rw [stringLiteral, hdrop]
  · split
    · next heq => rw [heq, List.head?_cons, if_pos rfl]
    · next hne =>
        rw [if_neg]
        intro hhead
        obtain ⟨rest, hrest⟩ := List.head?_eq_some_iff.mp hhead
        exact hne rest hrest
  · exact h

theorem stringLiteral_take {k : Nat} {text : List Char} (hk : (stringLiteral text).extra ≤ k) :
    stringLiteral (text.take k) = stringLiteral text := by
  by_cases hlong : ∃ body, text = '"' :: '"' :: body
  · obtain ⟨body, rfl⟩ := hlong
    have hextra : 2 + longStringLength body ≤ k := hk
    obtain ⟨k, rfl⟩ : ∃ j, k = j + 2 := ⟨k - 2, by omega⟩
    have hbody : longStringLength (body.take k) = longStringLength body := by
      rw [longStringLength_eq] at hextra
      rw [longStringLength_eq, longStringLength_eq, longStringChars_take (by omega)]
    rw [List.take_succ_cons, List.take_succ_cons, stringLiteral, stringLiteral, hbody]
  · have hshort : ∀ body, text ≠ '"' :: '"' :: body := fun body htext => hlong ⟨body, htext⟩
    have hcut : ∀ body, text.take k ≠ '"' :: '"' :: body := by
      intro body htake
      obtain ⟨text', rfl⟩ := exists_cons_of_take_eq_cons htake
      cases k with
      | zero => cases htake
      | succ k =>
          obtain ⟨text'', rfl⟩ := exists_cons_of_take_eq_cons (List.cons.inj htake).2
          exact hshort text'' rfl
    rw [stringLiteral_short hshort] at hk
    rw [stringLiteral_short hshort, stringLiteral_short hcut]
    split at hk
    · next hclosed =>
        have hlt : stringUnits text < k := hk
        rw [stringUnits_take (Nat.le_of_lt hlt), List.getElem?_take_of_lt hlt]
    · next hopen =>
        have hle : stringUnits text ≤ k := hk
        rw [stringUnits_take hle, if_neg hopen, if_neg]
        rw [List.getElem?_take]
        split
        · exact hopen
        · exact nofun

theorem charLiteral_escape {c : Char} (hc : c ≠ '\n') (text : List Char) :
    charLiteral ('\\' :: c :: text) =
      if text[runLength (fun d => d ≠ '\'' && d ≠ '\n') text]? = some '\'' then
        ⟨some .charLiteral, 2 + runLength (fun d => d ≠ '\'' && d ≠ '\n') text + 1⟩
      else ⟨none, 2 + runLength (fun d => d ≠ '\'' && d ≠ '\n') text⟩ := by
  rw [charLiteral, if_neg hc, ← List.head?_drop]
  dsimp only
  split
  · next heq => rw [heq, List.head?_cons, if_pos rfl]
  · next hne =>
      rw [if_neg]
      intro hhead
      obtain ⟨rest, hrest⟩ := List.head?_eq_some_iff.mp hhead
      exact hne rest hrest

/-- Without an escape a character literal is decided by the two characters after its quote. -/
theorem charLiteral_plain {text : List Char} (h : ∀ c rest, text ≠ '\\' :: c :: rest) :
    charLiteral text =
      if text[1]? = some '\'' ∧ text[0]? ≠ some '\'' ∧ text[0]? ≠ some '\n' then ⟨some .charLiteral, 2⟩
      else ⟨none, 0⟩ := by
  match text, h with
  | [], _ => rfl
  | [c], _ =>
      rw [charLiteral, if_neg (by simp)]
      · intro d rest htext
        cases htext
      · intro d rest htext
        cases htext
  | c :: d :: rest, h =>
      have hescape : c ≠ '\\' := fun hc => h d rest (by rw [hc])
      by_cases hd : d = '\''
      · subst hd
        rw [charLiteral]
        · by_cases hc : c = '\'' ∨ c = '\n'
          · rw [if_pos (by rcases hc with hc | hc <;> simp [hc]), if_neg]
            rcases hc with hc | hc <;> simp [hc]
          · rw [not_or] at hc
            rw [if_neg (by simp [hc, hescape]), if_pos (by simp [hc])]
        · exact hescape
      · rw [charLiteral, if_neg (by simp [hd])]
        · intro e rest' htext
          exact hescape (List.cons.inj htext).1
        · intro e rest' htext
          exact hd (List.cons.inj (List.cons.inj htext).2).1

theorem charLiteral_take {k : Nat} {text : List Char} (hk : (charLiteral text).extra ≤ k) :
    charLiteral (text.take k) = charLiteral text := by
  by_cases hescape : ∃ c rest, text = '\\' :: c :: rest
  · obtain ⟨c, rest, rfl⟩ := hescape
    by_cases hc : c = '\n'
    · subst hc
      match k with
      | 0 => rfl
      | 1 => rfl
      | k + 2 => rfl
    · rw [charLiteral_escape hc] at hk
      obtain ⟨k, rfl⟩ : ∃ j, k = j + 2 := ⟨k - 2, by split at hk <;> dsimp only at hk <;> omega⟩
      have hbody : runLength (fun d => d ≠ '\'' && d ≠ '\n') rest ≤ k := by
        split at hk <;> dsimp only at hk <;> omega
      have hrun : runLength (fun d => d ≠ '\'' && d ≠ '\n') (rest.take k) =
          runLength (fun d => d ≠ '\'' && d ≠ '\n') rest := by
        rw [runLength, runLength, takeWhile_take hbody]
      rw [List.take_succ_cons, List.take_succ_cons, charLiteral_escape hc, charLiteral_escape hc, hrun]
      split at hk
      · next hclosed =>
          dsimp only at hk
          rw [List.getElem?_take_of_lt (by omega)]
      · next hopen =>
          rw [if_neg hopen, if_neg]
          rw [List.getElem?_take]
          split
          · exact hopen
          · exact nofun
  · have hplain : ∀ c rest, text ≠ '\\' :: c :: rest := fun c rest htext => hescape ⟨c, rest, htext⟩
    have hcut : ∀ c rest, text.take k ≠ '\\' :: c :: rest := by
      intro c rest htake
      obtain ⟨text', rfl⟩ := exists_cons_of_take_eq_cons htake
      cases k with
      | zero => cases htake
      | succ k =>
          obtain ⟨text'', rfl⟩ := exists_cons_of_take_eq_cons (List.cons.inj htake).2
          exact hplain c text'' rfl
    rw [charLiteral_plain hplain] at hk
    rw [charLiteral_plain hplain, charLiteral_plain hcut]
    split at hk
    · next hclosed =>
        have hlt : 1 < k := hk
        rw [List.getElem?_take_of_lt hlt, List.getElem?_take_of_lt (Nat.lt_of_succ_lt hlt)]
    · next hopen =>
        rw [if_neg hopen, if_neg]
        intro hclosed
        have hlt : 1 < k := by
          rcases Nat.lt_or_ge 1 k with h | h
          · exact h
          · rw [List.getElem?_take_eq_none h] at hclosed
            exact absurd hclosed.1 nofun
        rw [List.getElem?_take_of_lt hlt, List.getElem?_take_of_lt (Nat.lt_of_succ_lt hlt)] at hclosed
        exact hopen hclosed

/-- A token is the same when the text behind it is cut off. -/
theorem munch_take {first : Char} {k : Nat} {text : List Char} (hk : (munch first text).extra ≤ k) :
    munch first (text.take k) = munch first text := by
  unfold munch at hk ⊢
  split
  · next hword => exact word_take (by simpa only [if_pos hword] using hk)
  · next hword =>
      rw [if_neg hword] at hk
      split
      · next hsymbol => exact symbols_take (by simpa only [if_pos hsymbol] using hk)
      · next hsymbol =>
          rw [if_neg hsymbol] at hk
          cases hkind : Kind.ofPunctuation? first with
          | some kind =>
              rw [hkind] at hk
              exact punctuation_take hk
          | none =>
              rw [hkind] at hk
              dsimp only at hk ⊢
              split
              · next hline =>
                  rw [if_pos hline] at hk
                  rw [runLength, takeWhile_take hk]
                  rfl
              · next hline =>
                  rw [if_neg hline] at hk
                  split
                  · next hquote => exact stringLiteral_take (by simpa only [if_pos hquote] using hk)
                  · next hquote =>
                      rw [if_neg hquote] at hk
                      split
                      · next hchar => exact charLiteral_take (by simpa only [if_pos hchar] using hk)
                      · rfl

theorem munch_extra_le (first : Char) (text : List Char) : (munch first text).extra ≤ text.length := by
  unfold munch
  split
  · exact takeWhile_length_le _ _
  · split
    · rw [symbols]
      split
      · exact takeWhile_length_le _ _
      · exact takeWhile_length_le _ _
    · split
      · next kind hkind =>
          by_cases hcomment : kind = .openBrace ∧ ∃ body, text = '-' :: body
          · obtain ⟨rfl, body, rfl⟩ := hcomment
            have := blockCommentChars_le 0 body
            rw [punctuation, blockCommentLength_eq, List.length_cons]
            dsimp only
            omega
          · rw [punctuation_other (fun body hkind htext => hcomment ⟨hkind, body, htext⟩)]
            exact Nat.zero_le _
      · split
        · exact takeWhile_length_le _ _
        · split
          · by_cases hlong : ∃ body, text = '"' :: '"' :: body
            · obtain ⟨body, rfl⟩ := hlong
              have := longStringChars_le body
              rw [stringLiteral, longStringLength_eq, List.length_cons, List.length_cons]
              dsimp only
              omega
            · have hle := stringUnits_le text
              rw [stringLiteral_short (fun body htext => hlong ⟨body, htext⟩)]
              split
              · next hclosed => exact (List.getElem?_eq_some_iff.mp hclosed).1
              · exact hle
          · split
            · by_cases hescape : ∃ c rest, text = '\\' :: c :: rest
              · obtain ⟨c, rest, rfl⟩ := hescape
                by_cases hc : c = '\n'
                · subst hc
                  exact Nat.zero_le _
                · have hle : runLength (fun d => d ≠ '\'' && d ≠ '\n') rest ≤ rest.length :=
                    takeWhile_length_le _ _
                  rw [charLiteral_escape hc, List.length_cons, List.length_cons]
                  split
                  · next hclosed =>
                      have hlt := (List.getElem?_eq_some_iff.mp hclosed).1
                      dsimp only
                      omega
                  · dsimp only
                    omega
              · rw [charLiteral_plain (fun c rest htext => hescape ⟨c, rest, htext⟩)]
                split
                · next hclosed => exact (List.getElem?_eq_some_iff.mp hclosed.1).1
                · exact Nat.zero_le _
            · split <;> exact Nat.zero_le _

end Token

end ElmNavigation
