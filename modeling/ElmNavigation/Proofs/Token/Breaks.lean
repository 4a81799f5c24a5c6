import ElmNavigation.Proofs.Text.Lines
import ElmNavigation.Proofs.Token.Scanner
import ElmNavigation.Token.Lexer

/-! Where one piece of a text ends and the next begins. `Breaks before after` says that cutting the text
`before ++ after` comes to `after` with nothing owed. At such a place the text can be cut in two: the
pieces of the whole are those of the first part followed by those of the second, moved behind it. Every
piece begins and ends at a break, so pieces follow each other in the order of their offsets. -/

namespace ElmNavigation

/-- A piece of text with `bytes` more bytes in front of it. -/
def Lexeme.move (bytes : Nat) (lexeme : Lexeme) : Lexeme :=
  { lexeme with start := lexeme.start + bytes }

namespace Token

open Text

/-- A token with `bytes` more bytes in front of it. -/
def move (bytes : Nat) (token : Token) : Token :=
  { token with start := token.start + bytes }

@[simp]
theorem move_kind (bytes : Nat) (token : Token) : (token.move bytes).kind = token.kind := rfl

@[simp]
theorem move_chars (bytes : Nat) (token : Token) : (token.move bytes).chars = token.chars := rfl

@[simp]
theorem move_start (bytes : Nat) (token : Token) : (token.move bytes).start = token.start + bytes := rfl

@[simp]
theorem move_stop (bytes : Nat) (token : Token) : (token.move bytes).stop = token.stop + bytes := by
  simp only [stop, move_chars, move_start]
  omega

/-! ### One piece -/

theorem cut_owed (offset owed : Nat) (text : List Char) :
    cut offset owed text = cut (offset + byteLength (text.take owed)) 0 (text.drop owed) := by
  induction owed generalizing offset text with
  | zero => rfl
  | succ owed ih =>
      cases text with
      | nil => rfl
      | cons c text =>
          rw [cut, ih, List.take_succ_cons, List.drop_succ_cons, byteLength_cons, Nat.add_assoc]

theorem cut_blank {c : Char} (hc : isBlank c = true) (offset : Nat) (text : List Char) :
    cut offset 0 (c :: text) = cut (offset + c.utf8Size) 0 text := by
  rw [cut, if_pos hc]

/-- A piece that takes `taken` after its first character. -/
theorem cut_piece {c : Char} {taken text : List Char} {kind : Option Kind} (hc : isBlank c = false)
    (hmunch : munch c (taken ++ text) = ⟨kind, taken.length⟩) (offset : Nat) :
    cut offset 0 (c :: (taken ++ text)) =
      ⟨kind, c :: taken, offset⟩ :: cut (offset + byteLength (c :: taken)) 0 text := by
  rw [cut, hc, hmunch]
  simp only [Bool.false_eq_true, if_false, List.take_left]
  rw [cut_owed, List.take_left, List.drop_left, byteLength_cons, Nat.add_assoc]

/-- What `munch` takes splits the text. -/
theorem munch_split (c : Char) (text : List Char) :
    ∃ kind taken rest, text = taken ++ rest ∧ munch c (taken ++ rest) = ⟨kind, taken.length⟩ := by
  have hle := munch_extra_le c text
  refine ⟨(munch c text).kind, text.take (munch c text).extra, text.drop (munch c text).extra, ?_, ?_⟩
  · rw [List.take_append_drop]
  · rw [List.take_append_drop, List.length_take, Nat.min_eq_left hle]

theorem cut_move (offset bytes owed : Nat) (text : List Char) :
    cut (offset + bytes) owed text = (cut offset owed text).map (Lexeme.move bytes) := by
  induction text generalizing offset owed with
  | nil => cases owed <;> rfl
  | cons c text ih =>
      have hoffset : offset + bytes + c.utf8Size = offset + c.utf8Size + bytes := Nat.add_right_comm _ _ _
      cases owed with
      | succ owed => rw [cut, cut, hoffset, ih]
      | zero =>
          rw [cut, cut, hoffset]
          split
          · exact ih _ _
          · rw [List.map_cons, ← ih]
            rfl

/-! ### Breaks -/

/-- Cutting `before ++ after` comes to `after` between two pieces. -/
inductive Breaks : List Char → List Char → Prop where
  | start (after : List Char) : Breaks [] after
  | blank {c : Char} {before after : List Char} (hc : isBlank c = true) (rest : Breaks before after) :
      Breaks (c :: before) after
  | piece {c : Char} {kind : Option Kind} {taken before after : List Char} (hc : isBlank c = false)
      (hmunch : munch c (taken ++ (before ++ after)) = ⟨kind, taken.length⟩) (rest : Breaks before after) :
      Breaks (c :: (taken ++ before)) after

/-- What is read before a break does not depend on the text after it. -/
theorem munch_before_break {c : Char} {kind : Option Kind} {taken before after : List Char}
    (hmunch : munch c (taken ++ (before ++ after)) = ⟨kind, taken.length⟩) :
    munch c (taken ++ before) = ⟨kind, taken.length⟩ := by
  have hextra : (munch c (taken ++ (before ++ after))).extra ≤ (taken ++ before).length := by
    rw [hmunch, List.length_append]
    exact Nat.le_add_right _ _
  have htake := munch_take hextra
  rwa [← List.append_assoc, List.take_left, List.append_assoc, hmunch] at htake

theorem Breaks.cut_append {before after : List Char} (h : Breaks before after) (offset : Nat) :
    cut offset 0 (before ++ after) = cut offset 0 before ++ cut (offset + byteLength before) 0 after := by
  induction h generalizing offset with
  | start after => rfl
  | blank hc rest ih =>
      rw [List.cons_append, cut_blank hc, cut_blank hc, ih, byteLength_cons, Nat.add_assoc]
  | @piece c kind taken before after hc hmunch rest ih =>
      have hlength : byteLength (c :: (taken ++ before)) = byteLength (c :: taken) + byteLength before :=
        byteLength_append (c :: taken) before
      rw [List.cons_append, List.append_assoc, cut_piece hc hmunch, cut_piece hc (munch_before_break hmunch),
        ih, hlength, Nat.add_assoc, List.cons_append]

theorem Breaks.trans {first second after : List Char} (h : Breaks first (second ++ after))
    (h' : Breaks second after) : Breaks (first ++ second) after := by
  generalize hrest : second ++ after = rest at h
  induction h with
  | start _ => exact h'
  | blank hc _ ih => exact .blank hc (ih hrest)
  | @piece c kind taken before _ hc hmunch _ ih =>
      have hmunch' : munch c (taken ++ (before ++ second ++ after)) = ⟨kind, taken.length⟩ := by
        rw [List.append_assoc, hrest]
        exact hmunch
      rw [List.cons_append, List.append_assoc]
      exact .piece hc hmunch' (ih hrest)

/-- Text behind the next piece can be cut off. -/
theorem Breaks.of_append {before between after : List Char} (h : Breaks before (between ++ after)) :
    Breaks before between := by
  generalize hrest : between ++ after = rest at h
  induction h with
  | start _ => exact .start between
  | blank hc _ ih => exact .blank hc (ih hrest)
  | @piece c kind taken before _ hc hmunch _ ih =>
      rw [← hrest, ← List.append_assoc before] at hmunch
      exact .piece hc (munch_before_break hmunch) (ih hrest)

/-- A piece stands between two breaks, its place is the text before it, and so are the pieces before it. -/
theorem exists_breaks_of_cut_eq {offset : Nat} {text : List Char} {front back : List Lexeme} {lexeme : Lexeme}
    (h : cut offset 0 text = front ++ lexeme :: back) :
    ∃ before c taken after, text = before ++ (c :: taken ++ after) ∧ Breaks before (c :: taken ++ after) ∧
      isBlank c = false ∧ munch c (taken ++ after) = ⟨lexeme.kind, taken.length⟩ ∧
      lexeme = ⟨lexeme.kind, c :: taken, offset + byteLength before⟩ ∧ cut offset 0 before = front := by
  -- by the length of the text, since a piece takes more than one character at a time
  induction hlength : text.length using Nat.strongRecOn generalizing offset text front with
  | _ length ih =>
      cases text with
      | nil => exact absurd h.symm (List.append_ne_nil_of_right_ne_nil front (List.cons_ne_nil lexeme back))
      | cons c text =>
          by_cases hc : isBlank c = true
          · rw [cut_blank hc] at h
            obtain ⟨before, d, taken, after, rfl, hbreaks, hd, hmunch, hlexeme, hfront⟩ :=
              ih text.length (by rw [← hlength, List.length_cons]; omega) h rfl
            refine ⟨c :: before, d, taken, after, rfl, .blank hc hbreaks, hd, hmunch, ?_, ?_⟩
            · rw [byteLength_cons, ← Nat.add_assoc]
              exact hlexeme
            · rw [cut_blank hc, hfront]
          · rw [Bool.not_eq_true] at hc
            obtain ⟨kind, taken, rest, rfl, hmunch⟩ := munch_split c text
            rw [cut_piece hc hmunch] at h
            cases front with
            | nil =>
                obtain ⟨rfl, rfl⟩ := List.cons.inj h
                exact ⟨[], c, taken, rest, rfl, .start _, hc, hmunch, rfl, rfl⟩
            | cons first front =>
                obtain ⟨rfl, hrest⟩ := List.cons.inj h
                obtain ⟨before, d, taken', after, rfl, hbreaks, hd, hmunch', hlexeme, hfront⟩ :=
                  ih rest.length (by rw [← hlength, List.length_cons, List.length_append]; omega) hrest rfl
                refine ⟨c :: (taken ++ before), d, taken', after, ?_, .piece hc hmunch hbreaks, hd,
                  hmunch', ?_, ?_⟩
                · exact congrArg (c :: ·) (List.append_assoc taken before _).symm
                · rw [← List.cons_append, byteLength_append, ← Nat.add_assoc]
                  exact hlexeme
                · rw [cut_piece hc (munch_before_break hmunch), hfront]

theorem exists_breaks_of_mem_cut {offset : Nat} {text : List Char} {lexeme : Lexeme}
    (hmem : lexeme ∈ cut offset 0 text) :
    ∃ before c taken after, text = before ++ (c :: taken ++ after) ∧
      Breaks before (c :: taken ++ after) ∧ isBlank c = false ∧
      munch c (taken ++ after) = ⟨lexeme.kind, taken.length⟩ ∧ lexeme.chars = c :: taken ∧
      lexeme.start = offset + byteLength before := by
  obtain ⟨front, back, hcut⟩ := List.append_of_mem hmem
  obtain ⟨before, c, taken, after, htext, hbreaks, hc, hmunch, hlexeme, _⟩ := exists_breaks_of_cut_eq hcut
  exact ⟨before, c, taken, after, htext, hbreaks, hc, hmunch, congrArg Lexeme.chars hlexeme,
    congrArg Lexeme.start hlexeme⟩

theorem le_start_of_mem_cut {offset : Nat} {text : List Char} {lexeme : Lexeme}
    (hmem : lexeme ∈ cut offset 0 text) : offset ≤ lexeme.start := by
  obtain ⟨before, c, taken, after, _, _, _, _, _, hstart⟩ := exists_breaks_of_mem_cut hmem
  omega

/-- Pieces come one behind the other. -/
theorem pairwise_cut (offset : Nat) (text : List Char) :
    (cut offset 0 text).Pairwise fun left right => left.stop ≤ right.start := by
  induction hlength : text.length using Nat.strongRecOn generalizing offset text with
  | _ length ih =>
      cases text with
      | nil => exact List.Pairwise.nil
      | cons c text =>
          by_cases hc : isBlank c = true
          · rw [cut_blank hc]
            exact ih text.length (by rw [← hlength, List.length_cons]; omega) _ _ rfl
          · rw [Bool.not_eq_true] at hc
            obtain ⟨kind, taken, rest, rfl, hmunch⟩ := munch_split c text
            rw [cut_piece hc hmunch]
            refine List.Pairwise.cons ?_ (ih rest.length ?_ _ _ rfl)
            · intro lexeme hmem
              exact le_start_of_mem_cut hmem
            · rw [← hlength, List.length_cons, List.length_append]
              omega

/-! ### Tokens -/

theorem ofLexeme?_move (bytes : Nat) (lexeme : Lexeme) :
    ofLexeme? (lexeme.move bytes) = (ofLexeme? lexeme).map (Token.move bytes) := by
  obtain ⟨kind, chars, start⟩ := lexeme
  match kind with
  | none => rfl
  | some kind => cases kind <;> rfl

/-- The token of a piece has the piece's characters and place. -/
theorem ofLexeme?_eq_some {lexeme : Lexeme} {token : Token} (h : ofLexeme? lexeme = some token) :
    token.chars = lexeme.chars ∧ token.start = lexeme.start ∧
      (lexeme.kind = some token.kind ∨ lexeme.kind = none ∧ token.kind = .unknown) := by
  obtain ⟨kind, chars, start⟩ := lexeme
  rw [ofLexeme?] at h
  split at h
  · cases h
  · next kind' _ hkind =>
      cases h
      exact ⟨rfl, rfl, Or.inl hkind⟩
  · next hkind =>
      cases h
      exact ⟨rfl, rfl, Or.inr ⟨hkind, rfl⟩⟩

/-- The tokens of a text that begins at an offset. -/
theorem filterMap_cut_move (bytes : Nat) (text : List Char) :
    (cut bytes 0 text).filterMap ofLexeme? = (tokens text).map (Token.move bytes) := by
  have hmove := cut_move 0 bytes 0 text
  rw [Nat.zero_add] at hmove
  rw [hmove, List.filterMap_map, tokens, lexemes, List.map_filterMap]
  congr 1
  funext lexeme
  exact ofLexeme?_move _ lexeme

theorem Breaks.tokens_append {before after : List Char} (h : Breaks before after) :
    tokens (before ++ after) = tokens before ++ (tokens after).map (Token.move (byteLength before)) := by
  rw [tokens, lexemes, h.cut_append, Nat.zero_add, List.filterMap_append,
    filterMap_cut_move (byteLength before)]
  rfl

/-- At a break before a piece the tokens are those before it, that of the piece and those after it. -/
theorem Breaks.tokens_piece {before after taken : List Char} {c : Char} {kind : Option Kind}
    (h : Breaks before (c :: taken ++ after)) (hc : isBlank c = false)
    (hmunch : munch c (taken ++ after) = ⟨kind, taken.length⟩) :
    tokens (before ++ (c :: taken ++ after)) =
      tokens before ++ ((ofLexeme? ⟨kind, c :: taken, byteLength before⟩).toList ++
        (tokens after).map (Token.move (byteLength (before ++ (c :: taken))))) := by
  have hcons : ∀ (lexeme : Lexeme) (rest : List Lexeme),
      (lexeme :: rest).filterMap ofLexeme? = (ofLexeme? lexeme).toList ++ rest.filterMap ofLexeme? := by
    intro lexeme rest
    rw [List.filterMap_cons]
    cases ofLexeme? lexeme <;> rfl
  have hbytes : byteLength before + byteLength (c :: taken) = byteLength (before ++ (c :: taken)) :=
    (byteLength_append before (c :: taken)).symm
  rw [tokens, lexemes, h.cut_append, List.cons_append, cut_piece hc hmunch, Nat.zero_add, hbytes,
    List.filterMap_append, hcons]
  congr 2
  exact filterMap_cut_move _ after

/-- A token stands between two breaks. -/
theorem exists_breaks_of_mem_tokens {text : List Char} {token : Token} (hmem : token ∈ tokens text) :
    ∃ before c taken after, text = before ++ (c :: taken ++ after) ∧ Breaks before (c :: taken ++ after) ∧
      isBlank c = false ∧ token.chars = c :: taken ∧ token.start = byteLength before ∧
      (munch c (taken ++ after) = ⟨some token.kind, taken.length⟩ ∨
        munch c (taken ++ after) = ⟨none, taken.length⟩ ∧ token.kind = .unknown) := by
  obtain ⟨lexeme, hlexeme, htoken⟩ := List.mem_filterMap.mp hmem
  obtain ⟨hchars, hstart, hkind⟩ := ofLexeme?_eq_some htoken
  obtain ⟨before, c, taken, after, htext, hbreaks, hc, hmunch, hchars', hstart'⟩ :=
    exists_breaks_of_mem_cut hlexeme
  refine ⟨before, c, taken, after, htext, hbreaks, hc, by rw [hchars, hchars'], ?_, ?_⟩
  · rw [hstart, hstart', Nat.zero_add]
  · rcases hkind with hkind | ⟨hkind, hunknown⟩
    · exact Or.inl (by rw [hmunch, hkind])
    · exact Or.inr ⟨by rw [hmunch, hkind], hunknown⟩

/-- Tokens come one behind the other. -/
theorem pairwise_tokens (text : List Char) :
    (tokens text).Pairwise fun left right => left.stop ≤ right.start := by
  rw [tokens, List.pairwise_filterMap]
  refine (pairwise_cut 0 text).imp ?_
  intro left right hle token htoken token' htoken'
  obtain ⟨hchars, hstart, _⟩ := ofLexeme?_eq_some htoken
  obtain ⟨_, hstart', _⟩ := ofLexeme?_eq_some htoken'
  rw [stop, hchars, hstart, hstart']
  exact hle

theorem start_lt_stop_of_mem_tokens {text : List Char} {token : Token} (hmem : token ∈ tokens text) :
    token.start < token.stop := by
  obtain ⟨_, c, taken, _, _, _, _, hchars, _, _⟩ := exists_breaks_of_mem_tokens hmem
  have hpos := c.utf8Size_pos
  rw [stop, hchars, byteLength_cons]
  omega

end Token

/-! ### Positions of tokens -/

/-- A token with the given line breaks and bytes in front of it. -/
def PlacedToken.move (lines bytes : Nat) (token : PlacedToken) : PlacedToken :=
  ⟨token.toToken.move bytes, token.position.move lines bytes⟩

@[simp]
theorem PlacedToken.move_kind (lines bytes : Nat) (token : PlacedToken) :
    (token.move lines bytes).kind = token.kind :=
  rfl

@[simp]
theorem PlacedToken.move_position (lines bytes : Nat) (token : PlacedToken) :
    (token.move lines bytes).position = token.position.move lines bytes := rfl

namespace Token

open Text

theorem mem_placed_iff {text : List Char} {token : PlacedToken} :
    token ∈ placed text ↔
      token.toToken ∈ tokens text ∧ token.position = (LineIndex.ofText text).position token.start := by
  rw [placed, List.mem_map]
  constructor
  · rintro ⟨bare, hmem, rfl⟩
    exact ⟨hmem, rfl⟩
  · rintro ⟨hmem, hposition⟩
    exact ⟨token.toToken, hmem, by rw [← hposition]⟩

/-- A token's position is the end of the text before it. -/
theorem exists_endOf_of_mem_placed {text : List Char} {token : PlacedToken} (hmem : token ∈ placed text) :
    ∃ before after, text = before ++ (token.chars ++ after) ∧ Breaks before (token.chars ++ after) ∧
      token.start = byteLength before ∧ token.position = Position.endOf before := by
  obtain ⟨hmem, hposition⟩ := mem_placed_iff.mp hmem
  obtain ⟨before, c, taken, after, htext, hbreaks, _, hchars, hstart, _⟩ := exists_breaks_of_mem_tokens hmem
  rw [← hchars] at htext hbreaks
  refine ⟨before, after, htext, hbreaks, hstart, ?_⟩
  rw [hposition, hstart, htext, LineIndex.position_ofText]

/-- At a break after whole lines the tokens of a text fall into those before it and those after it. -/
theorem Breaks.placed_append {before after : List Char} (h : Breaks before after)
    (hbefore : before = [] ∨ ∃ rest, before = rest ++ ['\n']) :
    placed (before ++ after) =
      placed before ++ (placed after).map (PlacedToken.move (before.count '\n') (byteLength before)) := by
  rw [placed, h.tokens_append, List.map_append]
  congr 1
  · rw [placed]
    refine List.map_congr_left fun token hmem => ?_
    obtain ⟨front, c, taken, rest, rfl, _, _, _, hstart, _⟩ := exists_breaks_of_mem_tokens hmem
    rw [hstart, List.append_assoc, LineIndex.position_ofText, LineIndex.position_ofText]
  · rw [placed, List.map_map, List.map_map]
    refine List.map_congr_left fun token hmem => ?_
    obtain ⟨front, c, taken, rest, rfl, _, _, _, hstart, _⟩ := exists_breaks_of_mem_tokens hmem
    have hplace : (LineIndex.ofText (before ++ (front ++ (c :: taken ++ rest)))).position
        (byteLength front + byteLength before) = Position.endOf (before ++ front) := by
      rw [← List.append_assoc, Nat.add_comm, ← byteLength_append, LineIndex.position_ofText]
    simp only [Function.comp_apply, PlacedToken.move, move_start, hstart, hplace, LineIndex.position_ofText,
      endOf_append hbefore]

end Token

end ElmNavigation
