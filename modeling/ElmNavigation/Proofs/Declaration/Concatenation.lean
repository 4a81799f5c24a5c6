import ElmNavigation.Proofs.Declaration.Parallel
import ElmNavigation.Proofs.Token.Piece

/-! Reading starts afresh at the beginning of a line. A token in column zero that closes no bracket
belongs to no construct that began before it: its line is another one, no column is smaller, and only a
closing bracket may stand left of the column of its construct. The line break before it ends every line
that is passed over. So a text can be cut in two at such a token, and what is read of the whole is what is
read of the first part, followed by what is read of the second part, moved behind the first. -/

namespace ElmNavigation

/-- A declaration with text in front of it that has the given line breaks and bytes, and ends with a line
break. -/
def Statement.move (lines bytes : Nat) (statement : Statement) : Statement :=
  statement.place (statement.position.move lines bytes)

/-- A diagnostic with `bytes` more bytes in front of what it marks. -/
def Diagnostic.move (bytes : Nat) (diagnostic : Diagnostic) : Diagnostic :=
  ⟨diagnostic.message, ⟨diagnostic.span.start + bytes, diagnostic.span.stop + bytes⟩⟩

theorem lineLength_append {tokens : List PlacedToken} (h : ∃ token ∈ tokens, token.kind = .newline)
    (later : List PlacedToken) : lineLength (tokens ++ later) = lineLength tokens := by
  induction tokens with
  | nil =>
      obtain ⟨_, hmem, _⟩ := h
      cases hmem
  | cons token tokens ih =>
      rw [List.cons_append, lineLength, lineLength]
      split
      · rfl
      · next hkind =>
          obtain ⟨newline, hmem, hnewline⟩ := h
          rcases List.mem_cons.mp hmem with rfl | hmem
          · exact absurd hnewline hkind
          · rw [ih ⟨newline, hmem, hnewline⟩]

namespace Construct

/-- No construct among the tokens goes on into the later ones. -/
structure Closed (tokens later : List PlacedToken) : Prop where
  last : ∀ token ∈ tokens.getLast?, token.kind = .newline
  ends : ∀ token ∈ tokens, (Layout.ofToken token).Ends later

theorem Closed.drop {tokens later : List PlacedToken} (h : Closed tokens later) (n : Nat) :
    Closed (tokens.drop n) later where
  last := by
    intro token hlast
    rw [List.getLast?_drop] at hlast
    split at hlast
    · cases hlast
    · exact h.last token hlast
  ends := fun token hmem => h.ends token (List.mem_of_mem_drop hmem)

theorem Closed.read_append {first : PlacedToken} {rest later : List PlacedToken}
    (h : Closed (first :: rest) later) (index : Nat) :
    read first ⟨index, 0, first :: rest ++ later⟩ = read first ⟨index, 0, first :: rest⟩ := by
  have hends := h.ends first (.head _)
  obtain ⟨last, hlast⟩ : ∃ last, (first :: rest).getLast? = some last := ⟨_, List.getLast?_cons⟩
  have hline := lineLength_append ⟨last, List.mem_of_getLast? hlast, h.last last hlast⟩ later
  have hreach : (fun n => (Layout.ofToken first).reach 0 n (first :: rest ++ later)) =
      fun n => (Layout.ofToken first).reach 0 n (first :: rest) := by
    funext n
    exact Layout.reach_append hends 0 n _
  rw [read_eq, read_eq, Layout.view_append hends, hline, hreach]

/-- The constructs of closed tokens come first, then those of the later ones. -/
theorem Reads.append {index : Nat} {tokens later : List PlacedToken} {constructs constructs' : List Construct}
    (h : Reads index tokens constructs) (hclosed : Closed tokens later)
    (h' : Reads (index + tokens.length) later constructs') :
    Reads index (tokens ++ later) (constructs ++ constructs') := by
  induction h with
  | done index => exact h'
  | @newline index token rest constructs hkind hrest ih =>
      refine .newline hkind (ih (hclosed.drop 1) ?_)
      rwa [List.length_cons, Nat.add_comm rest.length, ← Nat.add_assoc] at h'
  | @construct index token rest constructs hkind hrest ih =>
      have hread := hclosed.read_append index
      have htaken := read_taken_le token index (token :: rest)
      have hlength : index + (read token ⟨index, 0, token :: rest⟩).taken +
          ((token :: rest).drop (read token ⟨index, 0, token :: rest⟩).taken).length =
            index + (token :: rest).length := by
        rw [List.length_drop]
        omega
      have hlater := ih (hclosed.drop _) (by rwa [hlength])
      rw [← List.drop_append_of_le_length htaken, ← hread] at hlater
      rw [← hread]
      exact .construct hkind hlater

end Construct

/-! ### Texts -/

theorem Parallel.map_move {tail : PlacedToken → PlacedToken → Prop} (lines bytes : Nat)
    (tokens : List PlacedToken) :
    Parallel (fun a b => b = a.move lines bytes) tail tokens (tokens.map (PlacedToken.move lines bytes)) := by
  refine .of_forall₂ (fun _ _ h => by rw [h]; rfl) ?_
  rw [List.forall₂_map_right_iff]
  exact List.forall₂_same.mpr fun _ _ => rfl

/-- Whether the first token of a text, if it has one, begins a construct whatever stands before it. -/
def Token.BeginsAfresh (text : List Char) : Prop :=
  ∀ token ∈ (placed text).head?, token.kind ≠ .newline ∧ token.kind.isCloser = false ∧
    token.position.column = 0

/-- Tokens of whole lines are closed against a token that begins a line. -/
theorem Token.Breaks.closed {before after : List Char} (h : Breaks before after) (hafter : after ≠ [])
    (hbefore : before = [] ∨ ∃ rest, before = rest ++ ['\n']) (hfresh : BeginsAfresh after) :
    Construct.Closed (placed before)
      ((placed after).map (PlacedToken.move (before.count '\n') (Text.byteLength before))) := by
  rcases hbefore with rfl | ⟨rest, rfl⟩
  · exact ⟨by rintro _ ⟨⟩, by rintro _ ⟨⟩⟩
  constructor
  · intro token hlast
    obtain ⟨last, htokens, hkind⟩ := h.getLast?_tokens hafter (by simp)
    rw [placed, List.getLast?_map, htokens] at hlast
    cases hlast
    exact hkind
  · intro token hmem later hlater
    rw [List.head?_map] at hlater
    obtain ⟨first, hfirst, rfl⟩ := Option.map_eq_some_iff.mp hlater
    obtain ⟨hkind, hcloser, hcolumn⟩ := hfresh first hfirst
    refine ⟨hkind, fun depth => ?_⟩
    -- the token stands before the last line break of the first part
    have hline : token.position.line < first.position.line + (rest ++ ['\n']).count '\n' := by
      obtain ⟨front, back, htext, _, _, hposition⟩ := exists_endOf_of_mem_placed hmem
      have hchars : token.chars ++ back ≠ [] := by
        intro hnil
        have hlt := start_lt_stop_of_mem_tokens (mem_placed_iff.mp hmem).1
        rw [stop, (List.append_eq_nil_iff.mp hnil).1] at hlt
        exact absurd hlt (Nat.lt_irrefl _)
      have hlast : (token.chars ++ back).getLast? = some '\n' := by
        have hend := congrArg List.getLast? htext
        rw [List.getLast?_append, List.getLast?_singleton, List.getLast?_append] at hend
        cases hback : (token.chars ++ back).getLast? with
        | none => exact absurd (List.getLast?_eq_none_iff.mp hback) hchars
        | some c =>
            rw [hback] at hend
            exact hend.symm
      have hcount : 0 < (token.chars ++ back).count '\n' :=
        List.count_pos_iff.mpr (List.mem_of_getLast? hlast)
      rw [htext, hposition, List.count_append]
      show front.count '\n' < _
      omega
    rw [← Bool.not_eq_true, Layout.owns_iff]
    rintro (hsame | hright | ⟨_, hclose⟩)
    · exact absurd hsame (Nat.ne_of_gt hline)
    · rw [PlacedToken.move_position, Position.move_column, hcolumn] at hright
      exact absurd hright (Nat.not_lt_zero _)
    · rw [PlacedToken.move_kind, hcloser] at hclose
      cases hclose

theorem Construct.Alike.diagnostic?_eq {lines bytes : Nat} {construct construct' : Construct}
    (h : Alike (fun a b => b = a.move lines bytes) (fun _ _ => False) construct construct') :
    construct'.diagnostic? = construct.diagnostic?.map (Diagnostic.move bytes) := by
  obtain ⟨hfirst, houtcome⟩ := h
  obtain ⟨index, first, taken, outcome⟩ := construct
  obtain ⟨index', first', taken', outcome'⟩ := construct'
  dsimp only at hfirst houtcome
  cases houtcome with
  | accepted hposition => rfl
  | passed => rfl
  | found message htoken =>
      subst htoken
      simp only [diagnostic?, Option.map_some, Diagnostic.move, Token.span, PlacedToken.move,
        Token.move_start, Token.move_stop]
  | ended message htoken =>
      obtain rfl := htoken.resolve_right id
      simp only [diagnostic?, Option.map_some, Diagnostic.move, PlacedToken.move, Token.move_stop]

/-- Whole lines, and text after them that begins afresh, are read one after the other. -/
theorem Token.Breaks.parseWithDiagnostics_append (before after : String)
    (h : Breaks before.toList after.toList) (hafter : after.toList ≠ [])
    (hbefore : before.toList = [] ∨ ∃ rest, before.toList = rest ++ ['\n'])
    (hfresh : BeginsAfresh after.toList) :
    ∃ statements statements' diagnostics diagnostics',
      parseWithDiagnostics before = (.parsed statements, diagnostics) ∧
      parseWithDiagnostics after = (.parsed statements', diagnostics') ∧
      parseWithDiagnostics (before ++ after) =
        (.parsed (statements ++
            statements'.map (Statement.move (before.toList.count '\n') (Text.byteLength before.toList))),
          diagnostics ++ diagnostics'.map (Diagnostic.move (Text.byteLength before.toList))) := by
  obtain ⟨constructs, hreads⟩ := Construct.exists_reads 0 (placed before.toList)
  obtain ⟨constructs', hreads'⟩ := Construct.exists_reads 0 (placed after.toList)
  have hplaced : placed (before ++ after).toList = placed before.toList ++ (placed after.toList).map
      (PlacedToken.move (before.toList.count '\n') (Text.byteLength before.toList)) := by
    rw [String.toList_append, h.placed_append hbefore]
  obtain ⟨moved, hmoved⟩ := Construct.exists_reads (0 + (placed before.toList).length)
    ((placed after.toList).map (PlacedToken.move (before.toList.count '\n') (Text.byteLength before.toList)))
  have hwhole := hreads.append (h.closed hafter hbefore hfresh) hmoved
  rw [← hplaced] at hwhole
  have hparallel := @Parallel.map_move (fun _ _ => False) (before.toList.count '\n')
    (Text.byteLength before.toList) (placed after.toList)
  have halike := hreads'.forall₂ (PlacedToken.likeness_move _ _) hmoved hparallel.loose
  have hstatements : moved.filterMap Construct.statement? = (constructs'.filterMap Construct.statement?).map
      (Statement.move (before.toList.count '\n') (Text.byteLength before.toList)) :=
    filterMap_of_forall₂ (fun _ _ hconstruct => hconstruct.statement?_eq fun _ _ h => by rw [h]; rfl) halike
  have hdiagnostics : moved.filterMap Construct.diagnostic? =
      (constructs'.filterMap Construct.diagnostic?).map (Diagnostic.move (Text.byteLength before.toList)) :=
    filterMap_of_forall₂ (fun _ _ hconstruct => hconstruct.diagnostic?_eq) halike
  refine ⟨_, _, _, _, parseWithDiagnostics_of_reads hreads, parseWithDiagnostics_of_reads hreads', ?_⟩
  rw [parseWithDiagnostics_of_reads hwhole, List.filterMap_append, List.filterMap_append, hstatements,
    hdiagnostics]

/-! ### Cutting a text at a token -/

theorem Token.head?_placed {text : List Char} {token : PlacedToken} (hmem : token ∈ placed text)
    (hstart : token.start = 0) : (placed text).head? = some token := by
  have hpairwise : (placed text).Pairwise fun left right => left.stop ≤ right.start := by
    rw [placed, List.pairwise_map]
    exact pairwise_tokens text
  cases hplaced : placed text with
  | nil =>
      rw [hplaced] at hmem
      cases hmem
  | cons first rest =>
      rw [hplaced] at hmem hpairwise
      rcases List.mem_cons.mp hmem with rfl | hlater
      · rfl
      · have hle := (List.pairwise_cons.mp hpairwise).1 token hlater
        have hfirst : first ∈ placed text := by
          rw [hplaced]
          exact .head _
        have hlt := start_lt_stop_of_mem_tokens (mem_placed_iff.mp hfirst).1
        omega

/-- Text before column zero consists of whole lines. -/
theorem Text.whole_of_endOf_column {text : List Char} (h : (Position.endOf text).column = 0) :
    text = [] ∨ ∃ rest, text = rest ++ ['\n'] := by
  obtain ⟨whole, last, rfl, hlast, hwhole⟩ := exists_lastLine text
  rw [endOf_column hlast hwhole] at h
  rwa [List.eq_nil_of_length_eq_zero h, List.append_nil]

/-- A token that begins where the text is cut is the first of the second part. -/
theorem Token.Breaks.head?_placed_of_mem {before after : List Char} (h : Breaks before after)
    (hbefore : before = [] ∨ ∃ rest, before = rest ++ ['\n']) {token : PlacedToken}
    (hmem : token ∈ placed (before ++ after)) (hstart : token.start = Text.byteLength before) :
    ∃ first, (placed after).head? = some first ∧
      first.move (before.count '\n') (Text.byteLength before) = token := by
  rw [h.placed_append hbefore] at hmem
  rcases List.mem_append.mp hmem with hmem | hmem
  · -- a token of the first part ends there, and none is empty
    obtain ⟨front, back, htext, _, hfront, _⟩ := exists_endOf_of_mem_placed hmem
    have hlt := start_lt_stop_of_mem_tokens (mem_placed_iff.mp hmem).1
    have hlength := congrArg Text.byteLength htext
    rw [Text.byteLength_append, Text.byteLength_append] at hlength
    rw [stop] at hlt
    omega
  · obtain ⟨first, hfirst, rfl⟩ := List.mem_map.mp hmem
    have hsum : first.start + Text.byteLength before = Text.byteLength before := hstart
    exact ⟨first, head?_placed hfirst (by omega), rfl⟩

/-- The text from a token in column zero on begins afresh, if the token closes no bracket. -/
theorem Token.exists_split_of_mem_placed {text : List Char} {token : PlacedToken} (hmem : token ∈ placed text)
    (hkind : token.kind ≠ .newline) (hcloser : token.kind.isCloser = false)
    (hcolumn : token.position.column = 0) :
    ∃ before after, text = before ++ after ∧ Text.byteLength before = token.start ∧ Breaks before after ∧
      after ≠ [] ∧ (before = [] ∨ ∃ rest, before = rest ++ ['\n']) ∧ BeginsAfresh after := by
  obtain ⟨before, rest, rfl, hbreaks, hstart, hposition⟩ := exists_endOf_of_mem_placed hmem
  rw [hposition] at hcolumn
  have hbefore := Text.whole_of_endOf_column hcolumn
  obtain ⟨first, hhead, rfl⟩ := hbreaks.head?_placed_of_mem hbefore hmem hstart
  refine ⟨before, _, rfl, hstart.symm, hbreaks, ?_, hbefore, ?_⟩
  · intro hnil
    rw [hnil] at hhead
    cases hhead
  · intro other hother
    rw [hhead] at hother
    cases hother
    exact ⟨hkind, hcloser, by rw [← hcolumn, ← hposition]; rfl⟩

/-- A text is read in two parts, before and from any token in column zero that closes no bracket and is no
line break: nothing before such a token can hide or alter anything from it on. -/
theorem parseWithDiagnostics_split {source : String} {token : PlacedToken}
    (hmem : token ∈ Token.placed source.toList) (hkind : token.kind ≠ .newline)
    (hcloser : token.kind.isCloser = false) (hcolumn : token.position.column = 0) :
    ∃ before after : String, source = before ++ after ∧ Text.byteLength before.toList = token.start ∧
      ∃ statements statements' diagnostics diagnostics',
        parseWithDiagnostics before = (.parsed statements, diagnostics) ∧
        parseWithDiagnostics after = (.parsed statements', diagnostics') ∧
        parseWithDiagnostics source =
          (.parsed (statements ++ statements'.map (Statement.move (before.toList.count '\n') token.start)),
            diagnostics ++ diagnostics'.map (Diagnostic.move token.start)) := by
  obtain ⟨before, after, htext, hlength, hbreaks, hafter, hbefore, hfresh⟩ :=
    Token.exists_split_of_mem_placed hmem hkind hcloser hcolumn
  have hsource : source = String.ofList before ++ String.ofList after := by
    rw [← String.ofList_append, ← htext, String.ofList_toList]
  have hparts := Token.Breaks.parseWithDiagnostics_append (String.ofList before) (String.ofList after)
  simp only [String.toList_ofList] at hparts
  refine ⟨String.ofList before, String.ofList after, hsource, by rwa [String.toList_ofList], ?_⟩
  rw [hsource, String.toList_ofList, ← hlength]
  exact hparts hbreaks hafter hbefore hfresh

/-- An open brace does not reach over a line that begins with `import`. -/
theorem parseWithDiagnostics_split_open_brace :
    ∃ before after : String, "type A = \x7b\nimport B" = before ++ after ∧
      Text.byteLength before.toList = 11 ∧ ∃ statements statements' diagnostics diagnostics',
        parseWithDiagnostics before = (.parsed statements, diagnostics) ∧
        parseWithDiagnostics after = (.parsed statements', diagnostics') ∧
        parseWithDiagnostics "type A = \x7b\nimport B" =
          (.parsed (statements ++ statements'.map (Statement.move (before.toList.count '\n') 11)),
            diagnostics ++ diagnostics'.map (Diagnostic.move 11)) := by
  have hmem : (⟨⟨.importWord, "import".toList, 11⟩, ⟨1, 0, 11⟩⟩ : PlacedToken) ∈
      Token.placed "type A = \x7b\nimport B".toList := by
    decide +kernel
  exact parseWithDiagnostics_split hmem (by decide) (by decide) rfl

end ElmNavigation
