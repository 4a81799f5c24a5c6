import ElmNavigation.Proofs.Token.Breaks
import ElmNavigation.Proofs.Token.Kind

/-! How pieces of text are spelled, and what stops them. `Piece after kind c taken` lists the ways in
which a piece of the given kind can begin with `c`, go on with `taken` and stand before `after`;
`munch_piece` says that a piece is always one of them. From this one case split follow the spelling of
names and operators, that a piece which ends with a line break, with text after it, is a run of line
breaks, and that no word goes on behind a piece. -/

namespace ElmNavigation.Token

open Text

inductive Piece (after : List Char) : Option Kind → Char → List Char → Prop where
  | upper {c : Char} {taken : List Char} (hc : c.isUpper = true) (htaken : ∀ d ∈ taken, isWordChar d = true)
      (hstop : ∀ d ∈ after.head?, isWordChar d = false) : Piece after (some .upperName) c taken
  | number {c : Char} {taken : List Char} (hc : c.isDigit = true) (htaken : ∀ d ∈ taken, isWordChar d = true)
      (hstop : ∀ d ∈ after.head?, isWordChar d = false) : Piece after (some .number) c taken
  | lower {c : Char} {taken : List Char} (hc : c.isLower = true) (htaken : ∀ d ∈ taken, isWordChar d = true)
      (hstop : ∀ d ∈ after.head?, isWordChar d = false) :
      Piece after (some (Kind.ofWord (String.ofList (c :: taken)))) c taken
  | lineComment {taken : List Char} (htaken : '\n' ∉ taken) (hstop : ∀ d ∈ after.head?, d = '\n') :
      Piece after (some .comment) '-' taken
  | symbols {c : Char} {taken : List Char} (hc : isSymbol c = true) (htaken : ∀ d ∈ taken, isSymbol d = true)
      (hcomment : ¬ (c = '-' ∧ taken.head? = some '-')) :
      Piece after (some (Kind.ofSymbols (String.ofList (c :: taken)))) c taken
  /-- A comment that no marker closes runs to the end of the text. -/
  | blockComment {body : List Char} (hclosed : after = [] ∨ body.getLast? = some '}') :
      Piece after (some .comment) '{' ('-' :: body)
  | mark {c : Char} {kind : Kind} (hkind : Kind.ofPunctuation? c = some kind) : Piece after (some kind) c []
  | newline {taken : List Char} (htaken : ∀ d ∈ taken, d = '\n') : Piece after (some .newline) '\n' taken
  /-- A string that no quotes close runs to the end of the text. -/
  | longString {body : List Char} (hclosed : after = [] ∨ body.getLast? = some '"') :
      Piece after (some .stringLiteral) '"' ('"' :: '"' :: body)
  /-- A string that fails stops before a line break or a backslash that escapes nothing. -/
  | string {kind : Option Kind} {taken : List Char} (hkind : kind = some .stringLiteral ∨ kind = none)
      (htaken : '\n' ∉ taken) (hclosed : kind ≠ none → taken.getLast? = some '"')
      (hstop : kind = none → ∀ d ∈ after.head?, d = '\n' ∨ d = '\\') : Piece after kind '"' taken
  /-- A character literal that fails is its quote alone, or stops before a line break. -/
  | char {kind : Option Kind} {taken : List Char} (hkind : kind = some .charLiteral ∨ kind = none)
      (htaken : '\n' ∉ taken) (hclosed : kind ≠ none → taken.getLast? = some '\'')
      (hstop : kind = none → taken ≠ [] → ∀ d ∈ after.head?, d = '\n') : Piece after kind '\'' taken
  | underscore : Piece after (some .underscore) '_' []
  | unknown {c : Char} (hc : c ≠ '\n') (hword : isWordChar c = false) : Piece after none c []

/-! ### What the readers take -/

theorem eq_of_takeWhile_length {α : Type} {p : α → Bool} {taken after : List α}
    (h : ((taken ++ after).takeWhile p).length = taken.length) : (taken ++ after).takeWhile p = taken := by
  have hprefix := List.prefix_iff_eq_take.mp (List.takeWhile_prefix p (l := taken ++ after))
  rw [h, List.take_left] at hprefix
  exact hprefix

theorem forall_of_takeWhile_eq {α : Type} {p : α → Bool} {text taken : List α}
    (h : text.takeWhile p = taken) : ∀ d ∈ taken, p d = true := by
  intro d hd
  rw [← h] at hd
  exact List.all_eq_true.mp List.all_takeWhile d hd

theorem head?_of_takeWhile_eq {α : Type} {p : α → Bool} {taken after : List α}
    (h : (taken ++ after).takeWhile p = taken) : ∀ d ∈ after.head?, p d = false := by
  intro d hd
  obtain ⟨rest, rfl⟩ := List.head?_eq_some_iff.mp hd
  rw [List.takeWhile_append_of_pos (forall_of_takeWhile_eq h), List.takeWhile_cons] at h
  split at h
  · exact absurd (List.append_right_eq_self.mp h) (List.cons_ne_nil _ _)
  · next hstop => rwa [Bool.not_eq_true] at hstop

/-- A text falls into a run and what stops it. -/
theorem exists_run (p : Char → Bool) (text : List Char) :
    ∃ run tail, text = run ++ tail ∧ (∀ d ∈ run, p d = true) ∧ ∀ d ∈ tail.head?, p d = false := by
  have hsplit := List.takeWhile_append_dropWhile (p := p) (l := text)
  refine ⟨text.takeWhile p, text.dropWhile p, hsplit.symm, forall_of_takeWhile_eq rfl, ?_⟩
  exact head?_of_takeWhile_eq (congrArg (List.takeWhile p) hsplit)

theorem blockCommentChars_closed {depth : Nat} {text : List Char}
    (h : blockCommentChars depth text < text.length) :
    (text.take (blockCommentChars depth text)).getLast? = some '}' := by
  fun_induction blockCommentChars depth text with
  | case1 => cases h
  | case2 depth rest ih =>
      simp only [List.length_cons] at h
      have hlast := ih (by omega)
      rw [Nat.add_comm 2, List.take_succ_cons, List.take_succ_cons, List.getLast?_cons,
        List.getLast?_cons, hlast]
      rfl
  | case3 rest => rfl
  | case4 rest depth ih =>
      simp only [List.length_cons] at h
      have hlast := ih (by omega)
      rw [Nat.add_comm 2, List.take_succ_cons, List.take_succ_cons, List.getLast?_cons,
        List.getLast?_cons, hlast]
      rfl
  | case5 depth first rest hopen hclose ih =>
      simp only [List.length_cons] at h
      have hlast := ih (by omega)
      rw [Nat.add_comm 1, List.take_succ_cons, List.getLast?_cons, hlast]
      rfl

theorem longStringChars_closed {text : List Char} (h : longStringChars text < text.length) :
    (text.take (longStringChars text)).getLast? = some '"' := by
  fun_induction longStringChars text with
  | case1 => cases h
  | case2 c rest ih =>
      simp only [List.length_cons] at h
      have hlast := ih (by omega)
      rw [Nat.add_comm 2, List.take_succ_cons, List.take_succ_cons, List.getLast?_cons,
        List.getLast?_cons, hlast]
      rfl
  | case3 rest => rfl
  | case4 first rest hescape hquote ih =>
      simp only [List.length_cons] at h
      have hlast := ih (by omega)
      rw [Nat.add_comm 1, List.take_succ_cons, List.getLast?_cons, hlast]
      rfl

/-- What stops the units of a string. -/
theorem getElem?_stringUnits (text : List Char) :
    ∀ d ∈ text[stringUnits text]?, d = '"' ∨ d = '\n' ∨ d = '\\' := by
  fun_induction stringUnits text with
  | case1 => simp
  | case2 => simp
  | case3 => simp
  | case4 d rest hd ih => rwa [Nat.add_comm 2]
  | case5 c rest hc hstop =>
      rintro _ ⟨⟩
      exact hstop.imp_right .inl
  | case6 c rest hc hgo ih => rwa [Nat.add_comm 1]

theorem newline_notMem_stringUnits (text : List Char) : '\n' ∉ text.take (stringUnits text) := by
  fun_induction stringUnits text with
  | case1 => simp
  | case2 => simp
  | case3 => simp
  | case4 d rest hd ih =>
      rw [Nat.add_comm 2, List.take_succ_cons, List.take_succ_cons, List.mem_cons, List.mem_cons]
      rintro (h | h | h)
      · cases h
      · exact hd h.symm
      · exact ih h
  | case5 => simp
  | case6 c rest hc hgo ih =>
      rw [Nat.add_comm 1, List.take_succ_cons, List.mem_cons]
      rintro (h | h)
      · exact hgo (Or.inr h.symm)
      · exact ih h

theorem word_piece {c : Char} {kind : Option Kind} {taken after : List Char} (hc : c.isAlphanum = true)
    (h : word c (taken ++ after) = ⟨kind, taken.length⟩) : Piece after kind c taken := by
  simp only [word, Munch.mk.injEq] at h
  obtain ⟨hkind, hlength⟩ := h
  have hrun := eq_of_takeWhile_length hlength
  have htaken := forall_of_takeWhile_eq hrun
  have hstop := head?_of_takeWhile_eq hrun
  rw [hrun] at hkind
  subst hkind
  split
  · next hupper => exact .upper hupper htaken hstop
  · next hupper =>
      split
      · next hdigit => exact .number hdigit htaken hstop
      · next hdigit =>
          have hclasses : ((c.isUpper || c.isLower) || c.isDigit) = true := hc
          exact .lower (by simpa [hupper, hdigit] using hclasses) htaken hstop

theorem symbols_piece {c : Char} {kind : Option Kind} {taken after : List Char} (hc : isSymbol c = true)
    (h : symbols c (taken ++ after) = ⟨kind, taken.length⟩) : Piece after kind c taken := by
  rw [symbols] at h
  split at h
  · next hcomment =>
      simp only [runLength, Munch.mk.injEq] at h
      obtain ⟨rfl, hlength⟩ := h
      have hrun := eq_of_takeWhile_length hlength
      have htaken := forall_of_takeWhile_eq hrun
      have hstop := head?_of_takeWhile_eq hrun
      rw [hcomment.1]
      refine .lineComment (fun hmem => ?_) fun d hd => ?_
      · simpa using htaken '\n' hmem
      · simpa using hstop d hd
  · next hcomment =>
      simp only [Munch.mk.injEq] at h
      obtain ⟨hkind, hlength⟩ := h
      have hrun := eq_of_takeWhile_length hlength
      rw [hrun] at hkind
      subst hkind
      refine .symbols hc (forall_of_takeWhile_eq hrun) ?_
      rintro ⟨hdash, hhead⟩
      refine hcomment ⟨hdash, ?_⟩
      rw [List.head?_append, hhead]
      rfl

theorem punctuation_piece {c : Char} {mark : Kind} {kind : Option Kind} {taken after : List Char}
    (hmark : Kind.ofPunctuation? c = some mark)
    (h : punctuation mark (taken ++ after) = ⟨kind, taken.length⟩) : Piece after kind c taken := by
  by_cases hcomment : mark = .openBrace ∧ ∃ body, taken ++ after = '-' :: body
  · obtain ⟨rfl, body, hbody⟩ := hcomment
    rw [hbody, punctuation, blockCommentLength_eq] at h
    simp only [Munch.mk.injEq] at h
    obtain ⟨rfl, hlength⟩ := h
    have hc : c = '{' := by
      unfold Kind.ofPunctuation? at hmark
      split at hmark <;> first | rfl | cases hmark
    cases taken with
    | nil =>
        rw [List.length_nil] at hlength
        omega
    | cons d taken =>
        rw [List.cons_append] at hbody
        obtain ⟨rfl, rfl⟩ := List.cons.inj hbody
        have hchars : blockCommentChars 0 (taken ++ after) = taken.length := by
          rw [List.length_cons] at hlength
          omega
        rw [hc]
        refine .blockComment ?_
        cases after with
        | nil => exact Or.inl rfl
        | cons a after =>
            have hlt : blockCommentChars 0 (taken ++ a :: after) < (taken ++ a :: after).length := by
              rw [hchars, List.length_append, List.length_cons]
              omega
            have hclosed := blockCommentChars_closed hlt
            rw [hchars, List.take_left] at hclosed
            exact Or.inr hclosed
  · rw [punctuation_other (fun body hkind htext => hcomment ⟨hkind, body, htext⟩)] at h
    simp only [Munch.mk.injEq] at h
    obtain ⟨rfl, hlength⟩ := h
    rw [List.eq_nil_of_length_eq_zero hlength.symm]
    exact .mark hmark

theorem stringLiteral_piece {kind : Option Kind} {taken after : List Char}
    (h : stringLiteral (taken ++ after) = ⟨kind, taken.length⟩) : Piece after kind '"' taken := by
  by_cases hlong : ∃ body, taken ++ after = '"' :: '"' :: body
  · obtain ⟨body, hbody⟩ := hlong
    rw [hbody, stringLiteral, longStringLength_eq] at h
    simp only [Munch.mk.injEq] at h
    obtain ⟨rfl, hlength⟩ := h
    cases taken with
    | nil =>
        rw [List.length_nil] at hlength
        omega
    | cons d taken =>
        cases taken with
        | nil =>
            rw [List.length_singleton] at hlength
            omega
        | cons e taken =>
            rw [List.cons_append, List.cons_append] at hbody
            obtain ⟨rfl, hrest⟩ := List.cons.inj hbody
            obtain ⟨rfl, rfl⟩ := List.cons.inj hrest
            have hchars : longStringChars (taken ++ after) = taken.length := by
              rw [List.length_cons, List.length_cons] at hlength
              omega
            refine .longString ?_
            cases after with
            | nil => exact Or.inl rfl
            | cons a after =>
                have hlt : longStringChars (taken ++ a :: after) < (taken ++ a :: after).length := by
                  rw [hchars, List.length_append, List.length_cons]
                  omega
                have hclosed := longStringChars_closed hlt
                rw [hchars, List.take_left] at hclosed
                exact Or.inr hclosed
  · have hunits := newline_notMem_stringUnits (taken ++ after)
    rw [stringLiteral_short (fun body htext => hlong ⟨body, htext⟩)] at h
    split at h
    · next hclosed =>
        simp only [Munch.mk.injEq] at h
        obtain ⟨rfl, hlength⟩ := h
        have htake : taken = (taken ++ after).take (stringUnits (taken ++ after)) ++ ['"'] := by
          have hwhole : taken = (taken ++ after).take (stringUnits (taken ++ after) + 1) := by
            rw [hlength, List.take_left]
          rwa [List.take_add_one, hclosed] at hwhole
        refine .string (Or.inl rfl) (fun hmem => ?_) (fun _ => ?_) fun hnone =>
          absurd hnone (Option.some_ne_none _)
        · rw [htake, List.mem_append] at hmem
          rcases hmem with hmem | hmem
          · exact hunits hmem
          · simp at hmem
        · rw [htake, List.getLast?_concat]
    · next hopen =>
        simp only [Munch.mk.injEq] at h
        obtain ⟨rfl, hlength⟩ := h
        have hstop := getElem?_stringUnits (taken ++ after)
        rw [hlength, List.getElem?_append_right (Nat.le_refl _), Nat.sub_self,
          ← List.head?_eq_getElem?] at hstop hopen
        rw [hlength, List.take_left] at hunits
        refine .string (Or.inr rfl) hunits (absurd rfl) fun _ d hd => (hstop d hd).resolve_left ?_
        rintro rfl
        exact hopen hd

/-- A character literal with an escape, by the run that ends it. -/
theorem charLiteral_run {c : Char} (hc : c ≠ '\n') {run tail : List Char}
    (hrun : ∀ d ∈ run, (d ≠ '\'' && d ≠ '\n') = true)
    (htail : ∀ d ∈ tail.head?, (d ≠ '\'' && d ≠ '\n') = false) :
    charLiteral ('\\' :: c :: (run ++ tail)) =
      if tail.head? = some '\'' then ⟨some .charLiteral, run.length + 3⟩ else ⟨none, run.length + 2⟩ := by
  have hlength : runLength (fun d => d ≠ '\'' && d ≠ '\n') (run ++ tail) = run.length := by
    rw [runLength, takeWhile_append_stop hrun htail]
  rw [charLiteral_escape hc, hlength, List.getElem?_append_right (Nat.le_refl _), Nat.sub_self,
    ← List.head?_eq_getElem?, Nat.add_comm 2]

/-- A character literal with an escape: the escaped character, the run up to a quote or a line break, and
the quote if there is one. -/
theorem escape_piece {c : Char} {kind : Option Kind} {taken after rest : List Char} (hc : c ≠ '\n')
    (htext : taken ++ after = '\\' :: c :: rest)
    (h : charLiteral ('\\' :: c :: rest) = ⟨kind, taken.length⟩) : Piece after kind '\'' taken := by
  obtain ⟨run, tail, rfl, hrun, htail⟩ := exists_run (fun d => d ≠ '\'' && d ≠ '\n') rest
  have hinside : '\n' ∉ '\\' :: c :: run := by
    simp only [List.mem_cons, not_or]
    exact ⟨by decide, Ne.symm hc, fun hmem => absurd (hrun _ hmem) (by decide)⟩
  rw [charLiteral_run hc hrun htail] at h
  split at h
  · next hquote =>
      simp only [Munch.mk.injEq] at h
      obtain ⟨rfl, hlength⟩ := h
      obtain ⟨rest, rfl⟩ := List.head?_eq_some_iff.mp hquote
      have hsplit : taken ++ after = ('\\' :: c :: run ++ ['\'']) ++ rest := by
        rw [htext, List.append_assoc]
        rfl
      obtain ⟨rfl, rfl⟩ := List.append_inj hsplit (by rw [← hlength, List.length_append]; rfl)
      refine .char (Or.inl rfl) (fun hmem => ?_) (fun _ => List.getLast?_concat) fun hnone =>
        absurd hnone (Option.some_ne_none _)
      rcases List.mem_append.mp hmem with hmem | hmem
      · exact hinside hmem
      · simp at hmem
  · next hopen =>
      simp only [Munch.mk.injEq] at h
      obtain ⟨rfl, hlength⟩ := h
      have hsplit : taken ++ after = ('\\' :: c :: run) ++ tail := htext
      obtain ⟨rfl, rfl⟩ := List.append_inj hsplit hlength.symm
      refine .char (Or.inr rfl) hinside (absurd rfl) fun _ _ d hd => ?_
      have hstop := htail d hd
      rw [Bool.and_eq_false_iff] at hstop
      refine (by simpa using hstop : d = '\'' ∨ d = '\n').resolve_left ?_
      rintro rfl
      exact hopen hd

theorem charLiteral_piece {kind : Option Kind} {taken after : List Char}
    (h : charLiteral (taken ++ after) = ⟨kind, taken.length⟩) : Piece after kind '\'' taken := by
  by_cases hescape : ∃ c rest, taken ++ after = '\\' :: c :: rest
  · obtain ⟨c, rest, htext⟩ := hescape
    rw [htext] at h
    by_cases hc : c = '\n'
    · subst hc
      rw [charLiteral, if_pos rfl] at h
      simp only [Munch.mk.injEq] at h
      obtain ⟨rfl, hlength⟩ := h
      rw [List.eq_nil_of_length_eq_zero hlength.symm]
      exact .char (Or.inr rfl) (by simp) (absurd rfl) fun _ hne => absurd rfl hne
    · exact escape_piece hc htext h
  · rw [charLiteral_plain (fun c rest htext => hescape ⟨c, rest, htext⟩)] at h
    split at h
    · next hclosed =>
        simp only [Munch.mk.injEq] at h
        obtain ⟨rfl, hlength⟩ := h
        obtain ⟨hquote, hfirst, hline⟩ := hclosed
        obtain ⟨c, others, rfl⟩ := List.exists_cons_of_length_eq_add_one hlength.symm
        obtain ⟨d, rfl⟩ := List.length_eq_one_iff.mp (Nat.succ.inj hlength.symm)
        simp only [List.cons_append, List.getElem?_cons_succ, List.getElem?_cons_zero,
          Option.some.injEq] at hquote hline
        refine .char (Or.inl rfl) ?_ (fun _ => by rw [hquote]; rfl) fun hnone =>
          absurd hnone (Option.some_ne_none _)
        simp only [List.mem_cons, List.not_mem_nil, or_false, not_or]
        exact ⟨fun h => hline (congrArg some h.symm), by rw [hquote]; decide⟩
    · simp only [Munch.mk.injEq] at h
      obtain ⟨rfl, hlength⟩ := h
      rw [List.eq_nil_of_length_eq_zero hlength.symm]
      exact .char (Or.inr rfl) (by simp) (absurd rfl) fun _ hne => absurd rfl hne

/-- Every piece is spelled in one of the ways that are listed. -/
theorem munch_piece {c : Char} {kind : Option Kind} {taken after : List Char}
    (h : munch c (taken ++ after) = ⟨kind, taken.length⟩) : Piece after kind c taken := by
  unfold munch at h
  split at h
  · next hword => exact word_piece hword h
  · next hword =>
      split at h
      · next hsymbol => exact symbols_piece hsymbol h
      · split at h
        · next mark hmark => exact punctuation_piece hmark h
        · split at h
          · next hline =>
              simp only [runLength, Munch.mk.injEq] at h
              obtain ⟨rfl, hlength⟩ := h
              rw [hline]
              refine .newline fun d hd => ?_
              simpa using forall_of_takeWhile_eq (eq_of_takeWhile_length hlength) d hd
          · next hline =>
              split at h
              · next hquote =>
                  rw [hquote]
                  exact stringLiteral_piece h
              · split at h
                · next hquote =>
                    rw [hquote]
                    exact charLiteral_piece h
                · split at h
                  · next hunderscore =>
                      simp only [Munch.mk.injEq] at h
                      obtain ⟨rfl, hlength⟩ := h
                      rw [List.eq_nil_of_length_eq_zero hlength.symm, hunderscore]
                      exact .underscore
                  · next hunderscore =>
                      simp only [Munch.mk.injEq] at h
                      obtain ⟨rfl, hlength⟩ := h
                      rw [List.eq_nil_of_length_eq_zero hlength.symm]
                      refine .unknown hline ?_
                      rw [isWordChar, Bool.or_eq_false_iff, Bool.eq_false_iff]
                      exact ⟨hword, beq_false_of_ne hunderscore⟩

/-! ### Line breaks -/

/-- Only runs of line breaks, block comments and long strings have line breaks in them, and the latter two
end with their marks or with the text. -/
theorem Piece.of_newline_mem {after : List Char} {kind : Option Kind} {c : Char} {taken : List Char}
    (h : Piece after kind c taken) (hmem : '\n' ∈ c :: taken) :
    (kind = some .newline ∧ c = '\n') ∨
      (kind = some .comment ∧ c = '{' ∧ ∃ body, taken = '-' :: body ∧
        (after = [] ∨ body.getLast? = some '}')) ∨
      (kind = some .stringLiteral ∧ c = '"' ∧
        ∃ body, taken = '"' :: '"' :: body ∧ (after = [] ∨ body.getLast? = some '"')) := by
  have hlater : c ≠ '\n' → '\n' ∈ taken := by
    intro hc
    rcases List.mem_cons.mp hmem with h | h
    · exact absurd h.symm hc
    · exact h
  cases h with
  | upper hc htaken => exact absurd (htaken _ (hlater (by rintro rfl; cases hc))) (by decide)
  | number hc htaken => exact absurd (htaken _ (hlater (by rintro rfl; cases hc))) (by decide)
  | lower hc htaken => exact absurd (htaken _ (hlater (by rintro rfl; cases hc))) (by decide)
  | lineComment htaken => exact absurd (hlater (by decide)) htaken
  | symbols hc htaken => exact absurd (htaken _ (hlater (by rintro rfl; cases hc))) (by decide)
  | blockComment hclosed => exact .inr (.inl ⟨rfl, rfl, _, rfl, hclosed⟩)
  | mark hkind => exact absurd (hlater (by rintro rfl; cases hkind)) (by simp)
  | newline htaken => exact .inl ⟨rfl, rfl⟩
  | longString hclosed => exact .inr (.inr ⟨rfl, rfl, _, rfl, hclosed⟩)
  | string hkind htaken => exact absurd (hlater (by decide)) htaken
  | char hkind htaken => exact absurd (hlater (by decide)) htaken
  | underscore => exact absurd (hlater (by decide)) (by simp)
  | unknown hc => exact absurd (hlater hc) (by simp)

/-- A piece that ends with a line break, and has text after it, is a run of line breaks. -/
theorem Piece.kind_of_last_newline {after : List Char} {kind : Option Kind} {c : Char} {taken : List Char}
    (h : Piece after kind c taken) (hafter : after ≠ []) (hlast : (c :: taken).getLast? = some '\n') :
    kind = some .newline := by
  rcases h.of_newline_mem (List.mem_of_getLast? hlast) with
    ⟨hkind, _⟩ | ⟨_, rfl, body, rfl, hclosed⟩ | ⟨_, rfl, body, rfl, hclosed⟩
  · exact hkind
  · have hmark := hclosed.resolve_left hafter
    rw [List.getLast?_cons, List.getLast?_cons, hmark] at hlast
    exact absurd hlast (by decide)
  · have hmark := hclosed.resolve_left hafter
    rw [List.getLast?_cons, List.getLast?_cons, List.getLast?_cons, hmark] at hlast
    exact absurd hlast (by decide)

theorem Piece.kind_of_newline_mem {after : List Char} {kind : Option Kind} {c : Char} {taken : List Char}
    (h : Piece after kind c taken) (hmem : '\n' ∈ c :: taken) :
    kind = some .newline ∨ kind = some .comment ∨ kind = some .stringLiteral := by
  rcases h.of_newline_mem hmem with ⟨hkind, _⟩ | ⟨hkind, _⟩ | ⟨hkind, _⟩
  · exact .inl hkind
  · exact .inr (.inl hkind)
  · exact .inr (.inr hkind)

theorem newline_notMem_of_mem_tokens {text : List Char} {token : Token} (hmem : token ∈ tokens text)
    (hnewline : token.kind ≠ .newline) (hcomment : token.kind ≠ .comment)
    (hstring : token.kind ≠ .stringLiteral) : '\n' ∉ token.chars := by
  obtain ⟨before, c, taken, after, _, _, _, hchars, _, hmunch⟩ := exists_breaks_of_mem_tokens hmem
  rw [hchars]
  intro hbreak
  rcases hmunch with hmunch | ⟨hmunch, _⟩
  · rcases (munch_piece hmunch).kind_of_newline_mem hbreak with hkind | hkind | hkind
    · exact hnewline (Option.some.inj hkind)
    · exact hcomment (Option.some.inj hkind)
    · exact hstring (Option.some.inj hkind)
  · rcases (munch_piece hmunch).kind_of_newline_mem hbreak with hkind | hkind | hkind <;> cases hkind

/-- Before a break after whole lines the last token is a line break. -/
theorem Breaks.getLast?_tokens {before after : List Char} (h : Breaks before after) (hafter : after ≠ [])
    (hlast : before.getLast? = some '\n') :
    ∃ token, (tokens before).getLast? = some token ∧ token.kind = .newline := by
  have hcut : ∀ offset,
      ∃ chars start, (cut offset 0 before).getLast? = some ⟨some .newline, chars, start⟩ := by
    induction h with
    | start after => cases hlast
    | @blank c before after hc rest ih =>
        intro offset
        rw [cut_blank hc]
        cases before with
        | nil =>
            rw [List.getLast?_singleton, Option.some.injEq] at hlast
            rw [hlast] at hc
            cases hc
        | cons d before => exact ih hafter (by rw [← hlast]; rfl) _
    | @piece c kind taken before after hc hmunch rest ih =>
        intro offset
        rw [cut_piece hc (munch_before_break hmunch)]
        cases before with
        | nil =>
            rw [List.append_nil] at hlast
            have hkind := (munch_piece hmunch).kind_of_last_newline hafter hlast
            exact ⟨c :: taken, offset, by rw [hkind]; rfl⟩
        | cons d before =>
            rw [← List.cons_append, List.getLast?_append, List.getLast?_cons, Option.some_or] at hlast
            rw [← List.getLast?_cons] at hlast
            obtain ⟨chars, start, hnext⟩ := ih hafter hlast (offset + byteLength (c :: taken))
            exact ⟨chars, start, by rw [List.getLast?_cons, hnext]; rfl⟩
  obtain ⟨chars, start, hlexeme⟩ := hcut 0
  refine ⟨⟨.newline, chars, start⟩, ?_, rfl⟩
  obtain ⟨front, hfront⟩ := List.getLast?_eq_some_iff.mp hlexeme
  rw [tokens, lexemes, hfront, List.filterMap_append, List.getLast?_append]
  rfl

theorem Piece.first_of_newline {after taken : List Char} {kind : Kind} {c : Char}
    (h : Piece after (some kind) c taken) (hkind : kind = .newline) : c = '\n' := by
  cases h with
  | lower => exact absurd hkind (Kind.ofWord_ne (by decide))
  | symbols =>
      have hmem := Kind.ofSymbols_mem (String.ofList (c :: taken))
      rw [hkind] at hmem
      exact absurd hmem (by decide)
  | mark hmark =>
      rw [hkind, Kind.ofPunctuation?.eq_def] at hmark
      split at hmark <;> cases hmark
  | newline => rfl
  | string hliteral | char hliteral =>
      rw [hkind] at hliteral
      rcases hliteral with hliteral | hliteral <;> cases hliteral
  | _ => cases hkind

/-- A text without line breaks has no token for one. -/
theorem kind_ne_newline_of_mem_tokens {text : List Char} (htext : '\n' ∉ text) {token : Token}
    (hmem : token ∈ tokens text) : token.kind ≠ .newline := by
  intro hkind
  obtain ⟨before, c, taken, after, rfl, _, _, _, _, hmunch⟩ := exists_breaks_of_mem_tokens hmem
  rcases hmunch with hmunch | ⟨_, hunknown⟩
  · rw [(munch_piece hmunch).first_of_newline hkind] at htext
    exact htext (List.mem_append_right _ (.head _))
  · rw [hunknown] at hkind
    cases hkind

end ElmNavigation.Token
