import ElmNavigation.Proofs.Token.Piece
import ElmNavigation.Proofs.Token.Spelling

/-! Words as tokens and words as runs of characters. A token that is a word takes a run of word characters
as far as it goes. Behind any piece a word begins anew: of all pieces that end with a word character,
letters and digits can follow only an underscore that stands alone. So, unless there is such an underscore
before it, a token that is a word is a maximal run of word characters on both sides. -/

namespace ElmNavigation

/-- Whether a token of this kind is a name, a reserved word or a number. -/
def Kind.isWord (kind : Kind) : Bool :=
  kind ∈ [lowerName, upperName, number] || kind ∈ reserved.map Prod.snd

namespace Token

open Text

theorem isWordChar_of_isAlphanum {c : Char} (h : c.isAlphanum = true) : isWordChar c = true := by
  rw [isWordChar, h, Bool.true_or]

theorem isWordChar_of_isSymbol {c : Char} (h : isSymbol c = true) : isWordChar c = false := by
  rw [← Bool.not_eq_true]
  intro hword
  rw [isWordChar, Bool.or_eq_true, beq_iff_eq] at hword
  rcases hword with hword | rfl
  · rw [isSymbol_of_isAlphanum hword] at h
    cases h
  · cases h

/-- A piece that is a word begins with a letter or a digit and takes all word characters that follow. -/
theorem Piece.of_isWord {after taken : List Char} {kind : Kind} {c : Char}
    (h : Piece after (some kind) c taken) (hkind : kind.isWord = true) :
    c.isAlphanum = true ∧ (∀ d ∈ taken, isWordChar d = true) ∧ ∀ d ∈ after.head?, isWordChar d = false := by
  cases h with
  | upper hc htaken hstop => exact ⟨isAlphanum_of_isUpper hc, htaken, hstop⟩
  | number hc htaken hstop =>
      refine ⟨?_, htaken, hstop⟩
      show ((c.isUpper || c.isLower) || c.isDigit) = true
      rw [hc, Bool.or_true]
  | lower hc htaken hstop => exact ⟨isAlphanum_of_isLower hc, htaken, hstop⟩
  | symbols =>
      have hmem := Kind.ofSymbols_mem (String.ofList (c :: taken))
      have hnone : ∀ kind ∈ Kind.operator :: Kind.marks.map Prod.snd, kind.isWord = false := by decide
      rw [hnone _ hmem] at hkind
      cases hkind
  | mark hmark =>
      rw [Kind.ofPunctuation?.eq_def] at hmark
      split at hmark <;> cases hmark <;> cases hkind
  | string hliteral | char hliteral =>
      rcases hliteral with hliteral | hliteral <;> cases hliteral
      cases hkind
  | _ => cases hkind

/-- Letters and digits follow a word character of another piece only if it is an underscore that stands
alone. -/
theorem Piece.eq_underscore {after taken : List Char} {kind : Option Kind} {c d e : Char}
    (h : Piece after kind c taken) (hafter : after.head? = some d) (hd : d.isAlphanum = true)
    (hlast : (c :: taken).getLast? = some e) (he : isWordChar e = true) :
    c = '_' ∧ taken = [] ∧ kind = some .underscore := by
  have hmem : e ∈ c :: taken := List.mem_of_getLast? hlast
  have hne : after ≠ [] := by
    rintro rfl
    cases hafter
  have hword := isWordChar_of_isAlphanum hd
  have hother : ∀ {mark : Char}, isWordChar mark = false → e ≠ mark := by
    rintro mark hfalse rfl
    rw [hfalse] at he
    cases he
  have hclosing : ∀ {mark : Char}, isWordChar mark = false → taken.getLast? ≠ some mark := by
    intro mark hfalse hmark
    rw [List.getLast?_cons, hmark, Option.getD_some, Option.some.injEq] at hlast
    exact hother hfalse hlast.symm
  have hline : d ≠ '\n' := by
    rintro rfl
    cases hd
  cases h with
  | upper _ _ hstop | number _ _ hstop | lower _ _ hstop =>
      rw [hstop d hafter] at hword
      cases hword
  | lineComment _ hstop => exact absurd (hstop d hafter) hline
  | symbols hc htaken =>
      have hsymbol : isSymbol e = true := by
        rcases List.mem_cons.mp hmem with rfl | hmem
        · exact hc
        · exact htaken e hmem
      exact absurd rfl (hother (isWordChar_of_isSymbol hsymbol))
  | @blockComment body hclosed =>
      have hbrace : ('-' :: body).getLast? = some '}' := by
        rw [List.getLast?_cons, hclosed.resolve_left hne]
        rfl
      exact absurd hbrace (hclosing rfl)
  | mark hmark =>
      rw [Kind.ofPunctuation?.eq_def] at hmark
      obtain rfl := List.mem_singleton.mp hmem
      split at hmark <;> first | cases he | cases hmark
  | newline htaken =>
      have hbreak : e = '\n' := by
        rcases List.mem_cons.mp hmem with rfl | hmem
        · rfl
        · exact htaken e hmem
      exact absurd hbreak (hother rfl)
  | @longString body hclosed =>
      have hquote : ('"' :: '"' :: body).getLast? = some '"' := by
        rw [List.getLast?_cons, List.getLast?_cons, hclosed.resolve_left hne]
        rfl
      exact absurd hquote (hclosing rfl)
  | string hkind _ hclosed hstop =>
      rcases hkind with rfl | rfl
      · exact absurd (hclosed (Option.some_ne_none _)) (hclosing rfl)
      · rcases hstop rfl d hafter with rfl | rfl <;> cases hd
  | char hkind _ hclosed hstop =>
      rcases hkind with rfl | rfl
      · exact absurd (hclosed (Option.some_ne_none _)) (hclosing rfl)
      · by_cases hnil : taken = []
        · subst hnil
          exact absurd (List.mem_singleton.mp hmem) (hother rfl)
        · exact absurd (hstop rfl hnil d hafter) hline
  | underscore => exact ⟨rfl, rfl, rfl⟩
  | unknown _ hfalse => exact absurd (List.mem_singleton.mp hmem) (hother hfalse)

/-- Before letters and digits a word character belongs to no piece but an underscore that stands alone. -/
theorem Breaks.getLast?_tokens_of_word {before after : List Char} {d e : Char} (h : Breaks before after)
    (hafter : after.head? = some d) (hd : d.isAlphanum = true) (hlast : before.getLast? = some e)
    (he : isWordChar e = true) :
    e = '_' ∧ ∃ token, (tokens before).getLast? = some token ∧ token.kind = .underscore := by
  have hcut : ∀ offset, e = '_' ∧
      ∃ start, (cut offset 0 before).getLast? = some ⟨some .underscore, ['_'], start⟩ := by
    induction h with
    | start after => cases hlast
    | @blank c before after hc rest ih =>
        intro offset
        rw [cut_blank hc]
        cases before with
        | nil =>
            obtain rfl : c = e := Option.some.inj hlast
            rw [isBlank_eq_false (by decide) he] at hc
            cases hc
        | cons f before => exact ih hafter (by rw [← hlast]; rfl) _
    | @piece c kind taken before after hc hmunch rest ih =>
        intro offset
        rw [cut_piece hc (munch_before_break hmunch)]
        cases before with
        | nil =>
            rw [List.append_nil] at hlast
            obtain ⟨rfl, rfl, rfl⟩ := (munch_piece hmunch).eq_underscore hafter hd hlast he
            obtain rfl : '_' = e := Option.some.inj hlast
            exact ⟨rfl, offset, rfl⟩
        | cons f before =>
            rw [← List.cons_append, List.getLast?_append, List.getLast?_cons, Option.some_or] at hlast
            rw [← List.getLast?_cons] at hlast
            obtain ⟨hunderscore, start, hnext⟩ := ih hafter hlast (offset + byteLength (c :: taken))
            exact ⟨hunderscore, start, by rw [List.getLast?_cons, hnext]; rfl⟩
  obtain ⟨hunderscore, start, hlexeme⟩ := hcut 0
  refine ⟨hunderscore, ⟨.underscore, ['_'], start⟩, ?_, rfl⟩
  obtain ⟨front, hfront⟩ := List.getLast?_eq_some_iff.mp hlexeme
  rw [tokens, lexemes, hfront, List.filterMap_append, List.getLast?_append]
  rfl

/-- A token that is a word is a run of word characters that goes on neither to the right nor, unless there
is a token for an underscore before it, to the left. -/
theorem exists_run_of_isWord {text : List Char} {token : Token} (hmem : token ∈ tokens text)
    (hkind : token.kind.isWord = true) :
    ∃ before after rest, text = before ++ (token.chars ++ after) ∧ token.start = byteLength before ∧
      tokens text = tokens before ++ token :: rest ∧ (∀ c ∈ token.chars, isWordChar c = true) ∧
      (∀ c ∈ after.head?, isWordChar c = false) ∧
      ∀ c ∈ before.getLast?, isWordChar c = true →
        c = '_' ∧ ∃ last, (tokens before).getLast? = some last ∧ last.kind = .underscore := by
  obtain ⟨before, c, taken, after, rfl, hbreaks, hc, hchars, hstart, hmunch⟩ :=
    exists_breaks_of_mem_tokens hmem
  have hmunch : munch c (taken ++ after) = ⟨some token.kind, taken.length⟩ := by
    rcases hmunch with hmunch | ⟨_, hunknown⟩
    · exact hmunch
    · rw [hunknown] at hkind
      cases hkind
  obtain ⟨hfirst, htaken, hstop⟩ := (munch_piece hmunch).of_isWord hkind
  have hcomment : token.kind ≠ .comment := by
    intro hcomment
    rw [hcomment] at hkind
    cases hkind
  have htoken : ofLexeme? ⟨some token.kind, c :: taken, byteLength before⟩ = some token := by
    obtain ⟨kind, chars, start⟩ := token
    subst hchars hstart
    cases kind <;> first | rfl | exact absurd rfl hcomment
  rw [hbreaks.tokens_piece hc hmunch, htoken, hchars]
  refine ⟨before, after, _, rfl, hstart, rfl, ?_, hstop, ?_⟩
  · exact forall_isWordChar hfirst htaken
  · intro e he hword
    exact hbreaks.getLast?_tokens_of_word rfl hfirst he hword

end Token

end ElmNavigation
