import ElmNavigation.Proofs.Text.Places
import ElmNavigation.Proofs.Token.Piece

/-! Texts with other line breaks. `breakWith` puts a line feed among blanks for every line feed of a text.
The text has the lines that it had, what is added has the same length at every break, and whatever begins
a comment or a string still does. Block comments and long strings, which may run over lines, take what
they took with the added blanks inside. No other piece sees beyond its line, so all of them stay as they
are if the line feed comes before the blanks. -/

namespace ElmNavigation

namespace Text

/-- One line feed among blanks. -/
structure LineBreak (feed : List Char) : Prop where
  count : feed.count '\n' = 1
  blank : ∀ d ∈ feed, d = '\n' ∨ Token.isBlank d = true

/-- A text with other characters for every line feed. -/
def breakWith (feed text : List Char) : List Char :=
  text.flatMap fun c => if c = '\n' then feed else [c]

theorem LineBreak.notMem {feed : List Char} (h : LineBreak feed) {c : Char} (hc : c ≠ '\n')
    (hblank : Token.isBlank c = false) : c ∉ feed := by
  intro hmem
  have := (h.blank c hmem).resolve_left hc
  rw [hblank] at this
  cases this

theorem LineBreak.exists_cons {feed : List Char} (h : LineBreak feed) :
    ∃ first more, feed = first :: more := by
  refine List.exists_cons_of_ne_nil ?_
  rintro rfl
  exact absurd h.count (by decide)

variable {feed : List Char}

@[simp]
theorem breakWith_nil : breakWith feed [] = [] := rfl

theorem breakWith_newline (text : List Char) :
    breakWith feed ('\n' :: text) = feed ++ breakWith feed text := rfl

theorem breakWith_cons {c : Char} (hc : c ≠ '\n') (text : List Char) :
    breakWith feed (c :: text) = c :: breakWith feed text := by
  rw [breakWith, List.flatMap_cons, if_neg hc]
  rfl

theorem breakWith_append (left right : List Char) :
    breakWith feed (left ++ right) = breakWith feed left ++ breakWith feed right :=
  List.flatMap_append

theorem breakWith_of_notMem {text : List Char} (h : '\n' ∉ text) : breakWith feed text = text := by
  induction text with
  | nil => rfl
  | cons c text ih =>
      rw [List.mem_cons, not_or] at h
      rw [breakWith_cons (Ne.symm h.1), ih h.2]

theorem count_breakWith (hfeed : LineBreak feed) (text : List Char) :
    (breakWith feed text).count '\n' = text.count '\n' := by
  induction text with
  | nil => rfl
  | cons c text ih =>
      by_cases hc : c = '\n'
      · subst hc
        rw [breakWith_newline, List.count_append, List.count_cons_self, hfeed.count, ih, Nat.add_comm]
      · rw [breakWith_cons hc, List.count_cons_of_ne hc, List.count_cons_of_ne hc, ih]

theorem byteLength_breakWith {added : Nat} (hadded : byteLength feed = added + 1) (text : List Char) :
    byteLength (breakWith feed text) = byteLength text + added * text.count '\n' := by
  induction text with
  | nil => rfl
  | cons c text ih =>
      by_cases hc : c = '\n'
      · subst hc
        have hsize : '\n'.utf8Size = 1 := rfl
        rw [breakWith_newline, byteLength_append, byteLength_cons, List.count_cons_self, ih, Nat.mul_succ]
        omega
      · rw [breakWith_cons hc, byteLength_cons, byteLength_cons, List.count_cons_of_ne hc, ih, Nat.add_assoc]

/-- What comes first stays first, unless it is a line feed or a blank. -/
theorem breakWith_eq_cons (hfeed : LineBreak feed) {c : Char} (hc : c ≠ '\n')
    (hblank : Token.isBlank c = false) {text rest' : List Char} (h : breakWith feed text = c :: rest') :
    ∃ rest, text = c :: rest ∧ rest' = breakWith feed rest := by
  cases text with
  | nil => cases h
  | cons d rest =>
      by_cases hd : d = '\n'
      · subst hd
        obtain ⟨first, more, rfl⟩ := hfeed.exists_cons
        obtain ⟨rfl, _⟩ := List.cons.inj h
        exact absurd (.head _) (hfeed.notMem hc hblank)
      · rw [breakWith_cons hd] at h
        obtain ⟨rfl, rfl⟩ := List.cons.inj h
        exact ⟨rest, rfl, rfl⟩

theorem head?_breakWith (hfeed : LineBreak feed) {c : Char} (hc : c ≠ '\n') (hblank : Token.isBlank c = false)
    (text : List Char) : (breakWith feed text).head? = some c ↔ text.head? = some c := by
  constructor
  · intro h
    obtain ⟨_, htext⟩ := List.head?_eq_some_iff.mp h
    obtain ⟨_, rfl, _⟩ := breakWith_eq_cons hfeed hc hblank htext
    rfl
  · intro h
    obtain ⟨rest, rfl⟩ := List.head?_eq_some_iff.mp h
    rw [breakWith_cons hc]
    rfl

theorem head?_breakWith_of_ne {text : List Char} (h : ∀ d ∈ text.head?, decide (d = '\n') = false) :
    (breakWith feed text).head? = text.head? := by
  cases text with
  | nil => rfl
  | cons d text => rw [breakWith_cons (of_decide_eq_false (h d rfl)), List.head?_cons, List.head?_cons]

theorem forall_mem_breakWith (hfeed : LineBreak feed) {text : List Char}
    (h : ∀ d ∈ text, decide (d = '\n') = true) :
    ∀ d ∈ breakWith feed text, d = '\n' ∨ Token.isBlank d = true := by
  intro d hd
  obtain ⟨c, hc, hmem⟩ := List.mem_flatMap.mp hd
  rw [if_pos (of_decide_eq_true (h c hc))] at hmem
  exact hfeed.blank d hmem

end Text

namespace Token

open Text

variable {feed : List Char}

/-! ### What may run over lines -/

theorem blockCommentChars_other {depth : Nat} {first : Char} {rest : List Char}
    (hopen : ∀ rest', first = '{' → rest ≠ '-' :: rest')
    (hclose : ∀ rest', first = '-' → rest ≠ '}' :: rest') :
    blockCommentChars depth (first :: rest) = 1 + blockCommentChars depth rest := by
  rw [blockCommentChars]
  · exact hopen
  · exact hclose

theorem blockCommentChars_plain (depth : Nat) {run : List Char} (hopen : '{' ∉ run) (hclose : '-' ∉ run)
    (rest : List Char) :
    blockCommentChars depth (run ++ rest) = run.length + blockCommentChars depth rest := by
  induction run with
  | nil => exact (Nat.zero_add _).symm
  | cons c run ih =>
      rw [List.mem_cons, not_or] at hopen hclose
      rw [List.cons_append, blockCommentChars_other (fun _ h => absurd h.symm hopen.1)
        (fun _ h => absurd h.symm hclose.1), ih hopen.2 hclose.2, List.length_cons]
      omega

/-- A block comment takes all that it took, with the other line breaks inside. -/
theorem blockCommentChars_breakWith (hfeed : LineBreak feed) (depth : Nat) (text : List Char) :
    blockCommentChars depth (breakWith feed text) =
      (breakWith feed (text.take (blockCommentChars depth text))).length := by
  fun_induction blockCommentChars depth text with
  | case1 => rfl
  | case2 depth rest ih =>
      rw [Nat.add_comm 2, List.take_succ_cons, List.take_succ_cons, breakWith_cons (by decide),
        breakWith_cons (by decide), breakWith_cons (by decide), breakWith_cons (by decide),
        blockCommentChars, ih]
      exact Nat.add_comm _ _
  | case3 rest => rfl
  | case4 rest depth ih =>
      rw [Nat.add_comm 2, List.take_succ_cons, List.take_succ_cons, breakWith_cons (by decide),
        breakWith_cons (by decide), breakWith_cons (by decide), breakWith_cons (by decide),
        blockCommentChars, ih]
      exact Nat.add_comm _ _
  | case5 depth first rest hopen hclose ih =>
      rw [Nat.add_comm 1, List.take_succ_cons]
      by_cases hfirst : first = '\n'
      · subst hfirst
        rw [breakWith_newline, breakWith_newline, List.length_append, ← ih]
        exact blockCommentChars_plain depth (hfeed.notMem (by decide) rfl) (hfeed.notMem (by decide) rfl) _
      · rw [breakWith_cons hfirst, breakWith_cons hfirst, blockCommentChars_other, ih]
        · exact Nat.add_comm _ _
        · intro rest' hbrace hrest
          obtain ⟨rest, rfl, _⟩ := breakWith_eq_cons hfeed (by decide) rfl hrest
          exact hopen rest hbrace rfl
        · intro rest' hdash hrest
          obtain ⟨rest, rfl, _⟩ := breakWith_eq_cons hfeed (by decide) rfl hrest
          exact hclose rest hdash rfl

theorem longStringChars_other {first : Char} {rest : List Char}
    (hescape : ∀ c rest', first = '\\' → rest ≠ c :: rest')
    (hquote : ∀ rest', first = '"' → rest ≠ '"' :: '"' :: rest') :
    longStringChars (first :: rest) = 1 + longStringChars rest := by
  rw [longStringChars]
  · exact hescape
  · exact hquote

theorem longStringChars_plain {run : List Char} (hescape : '\\' ∉ run) (hquote : '"' ∉ run)
    (rest : List Char) : longStringChars (run ++ rest) = run.length + longStringChars rest := by
  induction run with
  | nil => exact (Nat.zero_add _).symm
  | cons c run ih =>
      rw [List.mem_cons, not_or] at hescape hquote
      rw [List.cons_append, longStringChars_other (fun _ _ h => absurd h.symm hescape.1)
        (fun _ h => absurd h.symm hquote.1), ih hescape.2 hquote.2, List.length_cons]
      omega

/-- A long string takes all that it took, with the other line breaks inside. -/
theorem longStringChars_breakWith (hfeed : LineBreak feed) (text : List Char) :
    longStringChars (breakWith feed text) = (breakWith feed (text.take (longStringChars text))).length := by
  have hescape : '\\' ∉ feed := hfeed.notMem (by decide) rfl
  have hquote : '"' ∉ feed := hfeed.notMem (by decide) rfl
  fun_induction longStringChars text with
  | case1 => rfl
  | case2 c rest ih =>
      have hslash : '\\' ≠ '\n' := by decide
      rw [Nat.add_comm 2, List.take_succ_cons, List.take_succ_cons, breakWith_cons hslash,
        breakWith_cons hslash]
      by_cases hc : c = '\n'
      · -- the backslash escapes the first character of the break, and the others are plain
        subst hc
        obtain ⟨first, more, rfl⟩ := hfeed.exists_cons
        rw [List.mem_cons, not_or] at hescape hquote
        rw [breakWith_newline, breakWith_newline, List.cons_append, longStringChars,
          longStringChars_plain hescape.2 hquote.2, ih, List.length_cons, List.length_append,
          List.length_cons]
        omega
      · rw [breakWith_cons hc, breakWith_cons hc, longStringChars, ih]
        exact Nat.add_comm _ _
  | case3 rest => rfl
  | case4 first rest hnotEscape hnotQuote ih =>
      rw [Nat.add_comm 1, List.take_succ_cons]
      by_cases hfirst : first = '\n'
      · subst hfirst
        rw [breakWith_newline, breakWith_newline, List.length_append, ← ih]
        exact longStringChars_plain hescape hquote _
      · rw [breakWith_cons hfirst, breakWith_cons hfirst, longStringChars_other, ih]
        · exact Nat.add_comm _ _
        · intro c rest' hslash hrest
          cases rest with
          | nil => cases hrest
          | cons d rest => exact hnotEscape d rest hslash rfl
        · intro rest' hfirst hrest
          obtain ⟨rest, rfl, hsecond⟩ := breakWith_eq_cons hfeed (by decide) rfl hrest
          obtain ⟨rest, rfl, _⟩ := breakWith_eq_cons hfeed (by decide) rfl hsecond.symm
          exact hnotQuote rest hfirst rfl

/-! ### What one reader takes -/

/-- A reader takes of a text with other line breaks what it takes of the text, with those breaks inside. -/
def Carries (feed : List Char) (reader : List Char → Munch) (text : List Char) : Prop :=
  ∃ kind taken rest, text = taken ++ rest ∧ reader (taken ++ rest) = ⟨kind, taken.length⟩ ∧
    reader (breakWith feed taken ++ breakWith feed rest) = ⟨kind, (breakWith feed taken).length⟩

/-- A reader that does not see the line breaks. -/
theorem Carries.of_same {reader : List Char → Munch} {kind : Option Kind} {taken rest : List Char}
    (h : reader (taken ++ rest) = ⟨kind, taken.length⟩) (htaken : '\n' ∉ taken)
    (hsame : reader (breakWith feed (taken ++ rest)) = reader (taken ++ rest)) :
    Carries feed reader (taken ++ rest) := by
  refine ⟨kind, taken, rest, rfl, h, ?_⟩
  rw [← breakWith_append, hsame, h, breakWith_of_notMem htaken]

/-- A reader that goes on over lines behind its opening mark. -/
theorem Carries.of_body {reader : List Char → Munch} {kind : Option Kind} {mark body : List Char} {n : Nat}
    (hmark : '\n' ∉ mark) (hn : n ≤ body.length) (h : reader (mark ++ body) = ⟨kind, mark.length + n⟩)
    (h' : reader (mark ++ breakWith feed body) =
      ⟨kind, mark.length + (breakWith feed (body.take n)).length⟩) :
    Carries feed reader (mark ++ body) := by
  have hsplit : mark ++ body = (mark ++ body.take n) ++ body.drop n := by
    rw [List.append_assoc, List.take_append_drop]
  have hbreaks : mark ++ breakWith feed body =
      breakWith feed (mark ++ body.take n) ++ breakWith feed (body.drop n) := by
    rw [← breakWith_append, ← hsplit, breakWith_append, breakWith_of_notMem hmark]
  have hlength : (mark ++ body.take n).length = mark.length + n := by
    rw [List.length_append, List.length_take, Nat.min_eq_left hn]
  have hlength' : (breakWith feed (mark ++ body.take n)).length =
      mark.length + (breakWith feed (body.take n)).length := by
    rw [breakWith_append, breakWith_of_notMem hmark, List.length_append]
  rw [hsplit, ← hlength] at h
  rw [hbreaks, ← hlength'] at h'
  exact ⟨kind, _, _, hsplit, h, h'⟩

theorem blockComment_carries (hfeed : LineBreak feed) (body : List Char) :
    Carries feed (punctuation .openBrace) ('-' :: body) := by
  refine @Carries.of_body feed _ (some .comment) ['-'] body _ (by decide) (blockCommentChars_le 0 body) ?_ ?_
  · rw [List.cons_append, punctuation, blockCommentLength_eq]
    rfl
  · rw [List.cons_append, punctuation, blockCommentLength_eq, List.nil_append,
      blockCommentChars_breakWith hfeed]
    rfl

theorem longString_carries (hfeed : LineBreak feed) (body : List Char) :
    Carries feed stringLiteral ('"' :: '"' :: body) := by
  refine @Carries.of_body feed _ (some .stringLiteral) ['"', '"'] body _ (by decide)
    (longStringChars_le body) ?_ ?_
  · rw [List.cons_append, List.cons_append, stringLiteral, longStringLength_eq]
    rfl
  · rw [List.cons_append, List.cons_append, stringLiteral, longStringLength_eq, List.nil_append,
      longStringChars_breakWith hfeed]
    rfl

/-! ### What stays on its line -/

/-- The beginnings of block comments and long strings. -/
def OpensLines (c : Char) (text : List Char) : Prop :=
  (c = '{' ∧ ∃ body, text = '-' :: body) ∨ (c = '"' ∧ ∃ body, text = '"' :: '"' :: body)

theorem opensLines_of_breakWith (hfeed : LineBreak feed) {c : Char} {text : List Char}
    (h : OpensLines c (breakWith feed text)) : OpensLines c text := by
  rcases h with ⟨hc, body, hbody⟩ | ⟨hc, body, hbody⟩
  · obtain ⟨rest, rfl, _⟩ := breakWith_eq_cons hfeed (by decide) rfl hbody
    exact .inl ⟨hc, rest, rfl⟩
  · obtain ⟨rest, rfl, hsecond⟩ := breakWith_eq_cons hfeed (by decide) rfl hbody
    obtain ⟨rest, rfl, _⟩ := breakWith_eq_cons hfeed (by decide) rfl hsecond.symm
    exact .inr ⟨hc, rest, rfl⟩

section

variable {c : Char} (hc : c ≠ '\n')

include hc

theorem newline_notMem_of_munch {kind : Option Kind} {taken rest : List Char}
    (h : munch c (taken ++ rest) = ⟨kind, taken.length⟩) (hopens : ¬ OpensLines c (taken ++ rest)) :
    '\n' ∉ c :: taken := by
  intro hmem
  rcases (munch_piece h).of_newline_mem hmem with ⟨_, hfirst⟩ | ⟨_, hfirst, body, rfl, _⟩ | ⟨_, hfirst,
    body, rfl, _⟩
  · exact hc hfirst
  · exact hopens (.inl ⟨hfirst, _, rfl⟩)
  · exact hopens (.inr ⟨hfirst, _, rfl⟩)

/-- Any other piece does not see beyond its line. -/
theorem munch_line {line rest : List Char} (hopens : ¬ OpensLines c (line ++ '\n' :: rest)) :
    munch c (line ++ '\n' :: rest) = munch c line := by
  obtain ⟨kind, taken, tail, htext, h⟩ := munch_split c (line ++ '\n' :: rest)
  rw [htext] at hopens
  have htaken := newline_notMem_of_munch hc h hopens
  have hle : taken.length ≤ line.length := by
    rcases List.append_eq_append_iff.mp htext with ⟨more, rfl, hmore⟩ | ⟨more, rfl, _⟩
    · cases more with
      | nil => exact Nat.le_of_eq (by rw [List.append_nil])
      | cons d more =>
          obtain ⟨rfl, _⟩ := List.cons.inj hmore
          exact absurd (.tail _ (List.mem_append_right _ (.head _))) htaken
    · rw [List.length_append]
      omega
  have hextra : (munch c (line ++ '\n' :: rest)).extra ≤ line.length := by
    rw [htext, h]
    exact hle
  rw [← munch_take hextra, List.take_left]

theorem munch_breakWith {more : List Char} (hfeed : LineBreak ('\n' :: more)) {text : List Char}
    (hopens : ¬ OpensLines c text) : munch c (breakWith ('\n' :: more) text) = munch c text := by
  by_cases hmem : '\n' ∈ text
  · obtain ⟨line, rest, rfl, hline⟩ := List.eq_append_cons_of_mem hmem
    have hopens' := mt (opensLines_of_breakWith hfeed) hopens
    rw [breakWith_append, breakWith_of_notMem hline, breakWith_newline, List.cons_append] at hopens' ⊢
    rw [munch_line hc hopens, munch_line hc hopens']
  · rw [breakWith_of_notMem hmem]

/-- If the line feed comes first in the other breaks, every piece takes what it took, with those breaks
inside. -/
theorem munch_carries {more : List Char} (hfeed : LineBreak ('\n' :: more)) (text : List Char) :
    Carries ('\n' :: more) (munch c) text := by
  by_cases hopens : OpensLines c text
  · rcases hopens with ⟨rfl, body, rfl⟩ | ⟨rfl, body, rfl⟩
    · exact blockComment_carries hfeed body
    · exact longString_carries hfeed body
  · obtain ⟨kind, taken, rest, rfl, h⟩ := munch_split c text
    have htaken := List.not_mem_of_not_mem_cons (newline_notMem_of_munch hc h hopens)
    exact .of_same h htaken (munch_breakWith hc hfeed hopens)

end

end Token

end ElmNavigation
