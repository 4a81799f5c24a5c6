import ElmNavigation.Proofs.Token.LineBreaks

/-! Carriage returns before line feeds. `crlf` puts one before every line feed of a text: lines and
columns stay, and an offset grows by the number of its line. Between two pieces a carriage return is a
blank. Block comments and long strings keep it inside, and most other pieces end before it as they ended
before the line feed. What is left are the pieces that run to the end of their line, which take the
carriage return along, and literals that fail at a backslash before a line feed: the backslash now escapes
something, and the literal fails two characters later. -/

namespace ElmNavigation

namespace Text

/-- A text with a carriage return before every line feed. -/
def crlf (text : List Char) : List Char :=
  text.flatMap fun c => if c = '\n' then ['\r', '\n'] else [c]

-- `crlf` is `breakWith ['\r', '\n']`, so what holds of other line breaks holds of it
theorem lineBreak_crlf : LineBreak ['\r', '\n'] where
  count := rfl
  blank := List.forall_mem_cons.mpr ⟨.inr rfl, List.forall_mem_singleton.mpr (.inl rfl)⟩

@[simp]
theorem crlf_newline (text : List Char) : crlf ('\n' :: text) = '\r' :: '\n' :: crlf text := rfl

theorem crlf_cons {c : Char} (hc : c ≠ '\n') (text : List Char) : crlf (c :: text) = c :: crlf text :=
  breakWith_cons hc text

theorem crlf_append (left right : List Char) : crlf (left ++ right) = crlf left ++ crlf right :=
  breakWith_append left right

theorem crlf_of_notMem {text : List Char} (h : '\n' ∉ text) : crlf text = text :=
  breakWith_of_notMem h

theorem count_crlf (text : List Char) : (crlf text).count '\n' = text.count '\n' :=
  count_breakWith lineBreak_crlf text

theorem byteLength_crlf (text : List Char) : byteLength (crlf text) = byteLength text + text.count '\n' := by
  have hbytes := @byteLength_breakWith ['\r', '\n'] 1 rfl text
  rwa [Nat.one_mul] at hbytes

/-- The end of a text stays on its line and column. -/
theorem endOf_crlf (text : List Char) :
    Position.endOf (crlf text) =
      ⟨(Position.endOf text).line, (Position.endOf text).column,
        (Position.endOf text).offset + (Position.endOf text).line⟩ := by
  have hcolumn : (Position.endOf (crlf text)).column = (Position.endOf text).column := by
    obtain ⟨whole, last, rfl, hlast, hwhole⟩ := exists_lastLine text
    have hwhole' : crlf whole = [] ∨ ∃ rest, crlf whole = rest ++ ['\n'] := by
      rcases hwhole with rfl | ⟨rest, rfl⟩
      · exact .inl rfl
      · exact .inr ⟨crlf rest ++ ['\r'], by rw [crlf_append, List.append_assoc]; rfl⟩
    rw [crlf_append, crlf_of_notMem hlast, endOf_column hlast hwhole, endOf_column hlast hwhole']
  have hline := count_crlf text
  have hoffset := byteLength_crlf text
  simp only [Position.endOf] at hcolumn ⊢
  rw [hcolumn, hline, hoffset]

/-- Two places of one text stay one place or two. -/
theorem byteLength_crlf_inj {before before' after after' : List Char}
    (h : before ++ after = before' ++ after') :
    byteLength (crlf before) = byteLength (crlf before') ↔ byteLength before = byteLength before' := by
  constructor
  · intro hbytes
    have hboth : crlf before ++ crlf after = crlf before' ++ crlf after' := by
      rw [← crlf_append, ← crlf_append, h]
    have hcount := congrArg (List.count '\n') (append_inj_of_byteLength hboth hbytes).1
    rw [count_crlf, count_crlf] at hcount
    rw [byteLength_crlf, byteLength_crlf] at hbytes
    omega
  · intro hbytes
    rw [(append_inj_of_byteLength h hbytes).1]

theorem head?_crlf {c : Char} (hc : c ≠ '\n') (hblank : Token.isBlank c = false) (text : List Char) :
    (crlf text).head? = some c ↔ text.head? = some c :=
  head?_breakWith lineBreak_crlf hc hblank text

/-- A run that goes over no line break is the same. -/
theorem takeWhile_crlf {p : Char → Bool} (hreturn : p '\r' = false) (hfeed : p '\n' = false)
    (text : List Char) : (crlf text).takeWhile p = text.takeWhile p := by
  induction text with
  | nil => rfl
  | cons c text ih =>
      by_cases hc : c = '\n'
      · subst hc
        rw [crlf_newline, List.takeWhile_cons_of_neg (by rw [hreturn]; decide),
          List.takeWhile_cons_of_neg (by rw [hfeed]; decide)]
      · rw [crlf_cons hc, List.takeWhile_cons, List.takeWhile_cons, ih]

end Text

namespace Token

open Text

/-! ### What one reader takes -/

/-- What a reader takes of a text, and what it takes once carriage returns are added. -/
inductive Converts (reader : List Char → Munch) : List Char → Prop where
  | whole {kind : Option Kind} {taken rest : List Char} (h : reader (taken ++ rest) = ⟨kind, taken.length⟩)
      (h' : reader (crlf taken ++ crlf rest) = ⟨kind, (crlf taken).length⟩) : Converts reader (taken ++ rest)
  /-- What runs to the end of its line takes the carriage return there. -/
  | absorbing {kind : Option Kind} {taken rest : List Char} (hkind : kind = none ∨ kind = some .comment)
      (htaken : '\n' ∉ taken) (h : reader (taken ++ '\n' :: rest) = ⟨kind, taken.length⟩)
      (h' : reader (taken ++ ['\r'] ++ '\n' :: crlf rest) = ⟨kind, (taken ++ ['\r']).length⟩) :
      Converts reader (taken ++ '\n' :: rest)
  /-- What fails at a backslash before a line break takes the backslash and the carriage return. -/
  | escaping {taken rest : List Char} (htaken : '\n' ∉ taken)
      (h : reader (taken ++ '\\' :: '\n' :: rest) = ⟨none, taken.length⟩)
      (h' : reader (taken ++ ['\\', '\r'] ++ '\n' :: crlf rest) = ⟨none, (taken ++ ['\\', '\r']).length⟩) :
      Converts reader (taken ++ '\\' :: '\n' :: rest)

theorem Converts.of_carries {reader : List Char → Munch} {text : List Char}
    (h : Carries ['\r', '\n'] reader text) : Converts reader text := by
  obtain ⟨kind, taken, rest, rfl, h, h'⟩ := h
  exact .whole h h'

/-- A reader that does not see the carriage returns. -/
theorem Converts.of_same {reader : List Char → Munch} {kind : Option Kind} {taken rest : List Char}
    (h : reader (taken ++ rest) = ⟨kind, taken.length⟩) (htaken : '\n' ∉ taken)
    (hsame : reader (crlf (taken ++ rest)) = reader (taken ++ rest)) : Converts reader (taken ++ rest) :=
  .of_carries (.of_same h htaken hsame)

/-- A reader that takes nothing. -/
theorem Converts.of_nil {reader : List Char → Munch} {kind : Option Kind} {text : List Char}
    (h : reader text = ⟨kind, 0⟩) (h' : reader (crlf text) = ⟨kind, 0⟩) : Converts reader text :=
  @Converts.of_same reader kind [] text h (by simp) (h'.trans h.symm)

/-- A reader that takes a run without line breaks and does not see the carriage returns. -/
theorem Converts.of_run {reader : List Char → Munch} {kind : Option Kind} {p : Char → Bool} {text : List Char}
    (hfeed : p '\n' = false) (h : reader text = ⟨kind, (text.takeWhile p).length⟩)
    (hsame : reader (crlf text) = reader text) : Converts reader text := by
  obtain ⟨run, tail, rfl, hrun, htail⟩ := exists_run p text
  rw [takeWhile_append_stop hrun htail] at h
  refine .of_same h (fun hmem => ?_) hsame
  rw [hrun _ hmem] at hfeed
  cases hfeed

theorem word_converts (first : Char) (text : List Char) : Converts (word first) text := by
  have hsame : word first (crlf text) = word first text := by
    rw [word, word, takeWhile_crlf rfl rfl]
  have hfeed : isWordChar '\n' = false := by decide
  exact .of_run hfeed rfl hsame

/-- A comment to the end of a line. -/
theorem symbols_comment {line tail : List Char} (hhead : line.head? = some '-') (hline : '\n' ∉ line)
    (htail : ∀ d ∈ tail.head?, d = '\n') : symbols '-' (line ++ tail) = ⟨some .comment, line.length⟩ := by
  have hcomment : (line ++ tail).head? = some '-' := by
    rw [List.head?_append, hhead]
    rfl
  rw [symbols, if_pos ⟨rfl, hcomment⟩, runLength, takeWhile_append_stop]
  · intro d hd
    exact decide_eq_true fun hbreak => hline (hbreak ▸ hd)
  · intro d hd
    exact decide_eq_false (not_not_intro (htail d hd))

theorem symbols_converts (first : Char) (text : List Char) : Converts (symbols first) text := by
  by_cases hcomment : first = '-' ∧ text.head? = some '-'
  · obtain ⟨rfl, hhead⟩ := hcomment
    obtain ⟨line, tail, rfl, hrun, hstop⟩ := exists_run (· ≠ '\n') text
    have hline : '\n' ∉ line := fun hmem => of_decide_eq_true (hrun _ hmem) rfl
    have htail : ∀ d ∈ tail.head?, d = '\n' :=
      fun d hd => Decidable.not_not.mp (of_decide_eq_false (hstop d hd))
    have hdash : line.head? = some '-' := by
      cases line with
      | nil => exact absurd (htail _ hhead) (by decide)
      | cons d line => exact hhead
    have h := symbols_comment hdash hline htail
    cases tail with
    | nil => exact .of_same h hline (by rw [List.append_nil, crlf_of_notMem hline])
    | cons d rest =>
        obtain rfl := htail d rfl
        refine .absorbing (.inr rfl) hline h (symbols_comment ?_ ?_ ?_)
        · rw [List.head?_append, hdash]
          rfl
        · rw [List.mem_append, not_or]
          exact ⟨hline, by decide⟩
        · rintro _ ⟨⟩
          rfl
  · have hcomment' : ¬ (first = '-' ∧ (crlf text).head? = some '-') := by
      rwa [head?_crlf (by decide) rfl]
    have hsame : symbols first (crlf text) = symbols first text := by
      rw [symbols, symbols, if_neg hcomment, if_neg hcomment', takeWhile_crlf rfl rfl]
    have hfeed : isSymbol '\n' = false := by decide
    exact .of_run hfeed (if_neg hcomment) hsame

theorem punctuation_converts (kind : Kind) (text : List Char) : Converts (punctuation kind) text := by
  by_cases hcomment : kind = .openBrace ∧ ∃ body, text = '-' :: body
  · obtain ⟨rfl, body, rfl⟩ := hcomment
    exact .of_carries (blockComment_carries lineBreak_crlf body)
  · have hfree : ∀ body, kind = .openBrace → text ≠ '-' :: body :=
      fun body hkind htext => hcomment ⟨hkind, body, htext⟩
    refine .of_nil (punctuation_other hfree) (punctuation_other fun body' hkind htext => ?_)
    obtain ⟨body, rfl, _⟩ := breakWith_eq_cons lineBreak_crlf (by decide) rfl htext
    exact hfree body hkind rfl

/-- A one-line string falls into its units and what stops them. -/
theorem stringUnits_split (text : List Char) :
    ∃ units tail, text = units ++ tail ∧ '\n' ∉ units ∧
      (∀ tail', stringUnits (units ++ tail') = units.length + stringUnits tail') ∧
      (tail = [] ∨ tail = ['\\'] ∨ (∃ rest, tail = '\\' :: '\n' :: rest) ∨ (∃ rest, tail = '"' :: rest) ∨
        ∃ rest, tail = '\n' :: rest) := by
  fun_induction stringUnits text with
  | case1 => exact ⟨[], [], rfl, by simp, by simp, .inl rfl⟩
  | case2 => exact ⟨[], ['\\'], rfl, by simp, by simp, .inr (.inl rfl)⟩
  | case3 rest => exact ⟨[], _, rfl, by simp, by simp, .inr (.inr (.inl ⟨rest, rfl⟩))⟩
  | case4 d rest hd ih =>
      obtain ⟨units, tail, rfl, hunits, hcount, htail⟩ := ih
      refine ⟨'\\' :: d :: units, tail, rfl, ?_, fun tail' => ?_, htail⟩
      · simp only [List.mem_cons, not_or]
        exact ⟨by decide, Ne.symm hd, hunits⟩
      · rw [List.cons_append, List.cons_append, stringUnits, if_pos rfl, if_neg hd, hcount, List.length_cons,
          List.length_cons]
        omega
  | case5 c rest hc hstop =>
      refine ⟨[], c :: rest, rfl, by simp, by simp, ?_⟩
      rcases hstop with rfl | rfl
      · exact .inr (.inr (.inr (.inl ⟨rest, rfl⟩)))
      · exact .inr (.inr (.inr (.inr ⟨rest, rfl⟩)))
  | case6 c rest hc hgo ih =>
      obtain ⟨units, tail, rfl, hunits, hcount, htail⟩ := ih
      refine ⟨c :: units, tail, rfl, ?_, fun tail' => ?_, htail⟩
      · exact List.not_mem_cons_of_ne_of_not_mem (fun hbreak => hgo (.inr hbreak.symm)) hunits
      · rw [List.cons_append, stringUnits.eq_def]
        dsimp only
        rw [if_neg hc, if_neg hgo, hcount, List.length_cons]
        omega

theorem stringUnits_stop {c : Char} (hc : c = '"' ∨ c = '\n') (rest : List Char) :
    stringUnits (c :: rest) = 0 := by
  have hslash : c ≠ '\\' := by rcases hc with rfl | rfl <;> decide
  rw [stringUnits.eq_def]
  dsimp only
  rw [if_neg hslash, if_pos hc]

theorem stringLiteral_units {units tail : List Char} (hshort : ∀ body, units ++ tail ≠ '"' :: '"' :: body)
    (hcount : stringUnits (units ++ tail) = units.length) :
    stringLiteral (units ++ tail) =
      if tail.head? = some '"' then ⟨some .stringLiteral, units.length + 1⟩ else ⟨none, units.length⟩ := by
  rw [stringLiteral_short hshort, hcount, List.getElem?_append_right (Nat.le_refl _), Nat.sub_self,
    List.head?_eq_getElem?]

theorem shortString_converts {text : List Char} (hshort : ∀ body, text ≠ '"' :: '"' :: body) :
    Converts stringLiteral text := by
  have hshort' : ∀ body, crlf text ≠ '"' :: '"' :: body := by
    intro body htext
    obtain ⟨rest, rfl, hrest⟩ := breakWith_eq_cons lineBreak_crlf (by decide) rfl htext
    obtain ⟨rest, rfl, _⟩ := breakWith_eq_cons lineBreak_crlf (by decide) rfl hrest.symm
    exact hshort rest rfl
  obtain ⟨units, tail, rfl, hunits, hcount, htail⟩ := stringUnits_split text
  have hline : crlf (units ++ tail) = units ++ crlf tail := by rw [crlf_append, crlf_of_notMem hunits]
  rw [hline] at hshort'
  -- the units stop at the end, at a last backslash, at a backslash before a line feed, at a quote or at a
  -- line feed
  rcases htail with rfl | rfl | ⟨rest, rfl⟩ | ⟨rest, rfl⟩ | ⟨rest, rfl⟩
  · exact .of_same (stringLiteral_units hshort (hcount _)) hunits (by rw [hline]; rfl)
  · exact .of_same (stringLiteral_units hshort (hcount _)) hunits (by rw [hline]; rfl)
  · have hsplit : units ++ crlf ('\\' :: '\n' :: rest) = units ++ ['\\', '\r'] ++ '\n' :: crlf rest :=
      (List.append_assoc units ['\\', '\r'] _).symm
    have hunits' : stringUnits ('\\' :: '\r' :: '\n' :: crlf rest) = 2 := by
      rw [stringUnits, if_pos rfl, if_neg (by decide), stringUnits_stop (.inr rfl)]
    rw [hsplit] at hshort'
    refine .escaping hunits (stringLiteral_units hshort (hcount _)) (stringLiteral_units hshort' ?_)
    rw [List.append_assoc, hcount, List.length_append]
    exact congrArg _ hunits'
  · have hquote : '"' ≠ '\n' := by decide
    have hclosed : ∀ rest, (∀ body, units ++ '"' :: rest ≠ '"' :: '"' :: body) →
        stringLiteral (units ++ ['"'] ++ rest) = ⟨some .stringLiteral, (units ++ ['"']).length⟩ := by
      intro rest hshort
      have hstop : stringUnits (units ++ '"' :: rest) = units.length := by
        rw [hcount, stringUnits_stop (.inl rfl), Nat.add_zero]
      rw [List.append_assoc, List.length_append]
      exact stringLiteral_units hshort hstop
    have htaken : '\n' ∉ units ++ ['"'] := by
      rw [List.mem_append, not_or]
      exact ⟨hunits, by decide⟩
    rw [crlf_cons hquote] at hshort'
    have h' := hclosed (crlf rest) hshort'
    rw [← crlf_of_notMem htaken] at h'
    rw [show units ++ '"' :: rest = units ++ ['"'] ++ rest by rw [List.append_assoc]; rfl]
    exact .whole (hclosed rest hshort) h'
  · have hsplit : units ++ crlf ('\n' :: rest) = units ++ ['\r'] ++ '\n' :: crlf rest :=
      (List.append_assoc units ['\r'] _).symm
    have hunits' : stringUnits ('\r' :: '\n' :: crlf rest) = 1 := by
      rw [stringUnits, if_neg (by decide), if_neg (by decide), stringUnits_stop (.inr rfl)]
    have hstop : stringUnits (units ++ '\n' :: rest) = units.length := by
      rw [hcount, stringUnits_stop (.inr rfl), Nat.add_zero]
    rw [hsplit] at hshort'
    refine .absorbing (.inl rfl) hunits (stringLiteral_units hshort hstop) (stringLiteral_units hshort' ?_)
    rw [List.append_assoc, hcount, List.length_append]
    exact congrArg _ hunits'

theorem stringLiteral_converts (text : List Char) : Converts stringLiteral text := by
  by_cases hlong : ∃ body, text = '"' :: '"' :: body
  · obtain ⟨body, rfl⟩ := hlong
    exact .of_carries (longString_carries lineBreak_crlf body)
  · exact shortString_converts fun body htext => hlong ⟨body, htext⟩

theorem charLiteral_escape_converts {c : Char} (hc : c ≠ '\n') (body : List Char) :
    Converts charLiteral ('\\' :: c :: body) := by
  obtain ⟨run, tail, rfl, hrun, htail⟩ := exists_run (fun d => d ≠ '\'' && d ≠ '\n') body
  have htaken : '\n' ∉ '\\' :: c :: run := by
    simp only [List.mem_cons, not_or]
    exact ⟨by decide, Ne.symm hc, fun hmem => absurd (hrun _ hmem) (by decide)⟩
  have h := charLiteral_run hc hrun htail
  cases tail with
  | nil =>
      have hsame : crlf ('\\' :: c :: run ++ []) = '\\' :: c :: run ++ [] := by
        rw [List.append_nil, crlf_of_notMem htaken]
      exact @Converts.of_same _ _ ('\\' :: c :: run) [] h htaken (by rw [hsame])
  | cons d rest =>
      have hd := htail d rfl
      rw [Bool.and_eq_false_iff, decide_eq_false_iff_not, decide_eq_false_iff_not, Decidable.not_not,
        Decidable.not_not] at hd
      rcases hd with rfl | rfl
      · have hclosed : ∀ rest, charLiteral ('\\' :: c :: (run ++ ['\'']) ++ rest) =
            ⟨some .charLiteral, ('\\' :: c :: (run ++ ['\''])).length⟩ := by
          intro rest
          rw [List.cons_append, List.cons_append, List.append_assoc, List.length_cons, List.length_cons,
            List.length_append]
          refine charLiteral_run hc hrun ?_
          rintro _ ⟨⟩
          rfl
        have htaken' : '\n' ∉ '\\' :: c :: (run ++ ['\'']) := by
          rw [← List.cons_append, ← List.cons_append, List.mem_append, not_or]
          exact ⟨htaken, by decide⟩
        have h' := hclosed (crlf rest)
        rw [← crlf_of_notMem htaken'] at h'
        rw [show '\\' :: c :: (run ++ '\'' :: rest) = '\\' :: c :: (run ++ ['\'']) ++ rest by simp]
        exact .whole (hclosed rest) h'
      · have hrun' : ∀ d ∈ run ++ ['\r'], (d ≠ '\'' && d ≠ '\n') = true :=
          List.forall_mem_append.mpr ⟨hrun, List.forall_mem_singleton.mpr rfl⟩
        have hstop : ∀ d ∈ ('\n' :: crlf rest).head?, (d ≠ '\'' && d ≠ '\n') = false := by
          rintro _ ⟨⟩
          rfl
        have h' := charLiteral_run hc hrun' hstop
        exact @Converts.absorbing _ _ ('\\' :: c :: run) rest (.inl rfl) htaken h h'

theorem charLiteral_converts (text : List Char) : Converts charLiteral text := by
  by_cases hescape : ∃ c body, text = '\\' :: c :: body
  · obtain ⟨c, body, rfl⟩ := hescape
    by_cases hc : c = '\n'
    · subst hc
      exact @Converts.escaping charLiteral [] body (by simp) rfl rfl
    · exact charLiteral_escape_converts hc body
  · have hplain : ∀ c body, text ≠ '\\' :: c :: body := fun c body htext => hescape ⟨c, body, htext⟩
    have hplain' : ∀ c body, crlf text ≠ '\\' :: c :: body := by
      intro c body htext
      obtain ⟨rest, rfl, hrest⟩ := breakWith_eq_cons lineBreak_crlf (by decide) rfl htext
      cases rest with
      | nil => cases hrest
      | cons d rest => exact hplain d rest rfl
    have h := charLiteral_plain hplain
    have h' := charLiteral_plain hplain'
    cases text with
    | nil => exact .of_nil h h'
    | cons c rest =>
        by_cases hc : c = '\n'
        · subst hc
          exact .of_nil (h.trans (if_neg (by simp))) (h'.trans (if_neg (by simp)))
        · have hquote := head?_crlf (c := '\'') (by decide) rfl rest
          rw [crlf_cons hc] at h'
          simp only [List.getElem?_cons_succ, ← List.head?_eq_getElem?, List.head?_cons, hquote] at h h'
          rw [← h, ← crlf_cons hc] at h'
          split at h
          · next hclosed =>
              obtain ⟨rest, rfl⟩ := List.head?_eq_some_iff.mp hclosed.1
              have htaken : '\n' ∉ [c, '\''] := by
                simp only [List.mem_cons, List.not_mem_nil, or_false, not_or]
                exact ⟨Ne.symm hc, by decide⟩
              exact @Converts.of_same _ _ [c, '\''] rest h htaken h'
          · exact .of_nil h (h'.trans h)

/-- Every first character but a line feed has one of six readers. -/
theorem munch_reader {c : Char} (hc : c ≠ '\n') :
    munch c = word c ∨ munch c = symbols c ∨ (∃ kind, munch c = punctuation kind) ∨ munch c = stringLiteral ∨
      munch c = charLiteral ∨ ∃ kind, munch c = fun _ => ⟨kind, 0⟩ := by
  by_cases hword : c.isAlphanum = true
  · exact .inl (funext fun text => if_pos hword)
  by_cases hsymbol : isSymbol c = true
  · exact .inr (.inl (funext fun text => (if_neg hword).trans (if_pos hsymbol)))
  refine .inr (.inr ?_)
  cases hmark : Kind.ofPunctuation? c with
  | some kind =>
      refine .inl ⟨kind, funext fun text => ?_⟩
      rw [munch, if_neg hword, if_neg hsymbol, hmark]
  | none =>
      have hmunch : munch c = fun text =>
          if c = '"' then stringLiteral text else if c = '\'' then charLiteral text
          else if c = '_' then ⟨some .underscore, 0⟩ else ⟨none, 0⟩ := by
        funext text
        rw [munch, if_neg hword, if_neg hsymbol, hmark]
        exact if_neg hc
      rw [hmunch]
      split
      · exact .inr (.inl rfl)
      · split
        · exact .inr (.inr (.inl rfl))
        · split
          · exact .inr (.inr (.inr ⟨_, rfl⟩))
          · exact .inr (.inr (.inr ⟨_, rfl⟩))

/-- What carriage returns do to one piece. -/
theorem munch_converts {c : Char} (hc : c ≠ '\n') (text : List Char) : Converts (munch c) text := by
  rcases munch_reader hc with h | h | ⟨kind, h⟩ | h | h | ⟨kind, h⟩ <;> rw [h]
  · exact word_converts c text
  · exact symbols_converts c text
  · exact punctuation_converts kind text
  · exact stringLiteral_converts text
  · exact charLiteral_converts text
  · exact .of_nil rfl rfl

end Token

end ElmNavigation
