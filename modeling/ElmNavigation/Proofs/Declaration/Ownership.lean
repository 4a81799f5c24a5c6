import ElmNavigation.Proofs.Declaration.Positions
import ElmNavigation.Proofs.Token.Placed

/-! A construct takes only tokens that it owns. What an accepted construct takes is as far as a number of
its own tokens reaches, and each token on the way was owned with the brackets that are open before it. A
path may as well be read from the tokens of the file, without asking who owns them: a token that touches
the one before it is on the same line and further to the right, so whoever owns the first part of a path
owns all of it. -/

namespace ElmNavigation

/-- The number of open brackets after some tokens, if `depth` are open before them; a closing bracket
without an opening one does not count. -/
def openBrackets (depth : Nat) (tokens : List PlacedToken) : Nat :=
  tokens.foldl (fun depth token => token.kind.nest depth) depth

namespace Layout

/-- Every token in reach, line breaks apart, is owned with the brackets that are open before it. -/
theorem owns_of_lt_reach {layout : Layout} {depth n i : Nat} {tokens : List PlacedToken} {token : PlacedToken}
    (h : i < layout.reach depth n tokens) (htoken : tokens[i]? = some token) (hkind : token.kind ≠ .newline) :
    layout.owns (openBrackets depth (tokens.take i)) token = true := by
  induction tokens generalizing depth n i with
  | nil => cases htoken
  | cons first rest ih =>
      cases n with
      | zero =>
          rw [reach_zero] at h
          exact absurd h (Nat.not_lt_zero i)
      | succ n =>
          rw [reach] at h
          cases i with
          | zero =>
              obtain rfl : first = token := Option.some.inj htoken
              rw [if_neg hkind] at h
              split at h
              · next howns => exact howns
              · exact absurd h (Nat.lt_irrefl 0)
          | succ i =>
              rw [List.getElem?_cons_succ] at htoken
              rw [List.take_succ_cons, openBrackets, List.foldl_cons]
              split at h
              · next hnewline =>
                  have hdepth : first.kind.nest depth = depth := by
                    rw [hnewline]
                    rfl
                  rw [hdepth]
                  exact ih (Nat.lt_of_succ_lt_succ h) htoken
              · split at h
                · exact ih (Nat.lt_of_succ_lt_succ h) htoken
                · exact absurd h (Nat.not_lt_zero _)

end Layout

/-- An accepted construct takes what a number of its own tokens reaches. -/
theorem Construct.exists_reach_of_accepted {first : PlacedToken} {index : Nat} {tokens : List PlacedToken}
    {statement : Statement} (h : (read first ⟨index, 0, tokens⟩).outcome = .accepted statement) :
    ∃ n, (read first ⟨index, 0, tokens⟩).taken = (Layout.ofToken first).reach 0 n tokens := by
  rw [read_eq, ofView] at h ⊢
  split at h
  · cases h
  · dsimp only at h ⊢
    split at h
    · exact ⟨_, rfl⟩
    · cases h

/-! ### Paths -/

/-- Of the tokens after another only the next can touch it. -/
theorem Token.eq_of_touching {text : List Char} {before after : List PlacedToken}
    {left next token : PlacedToken} (h : placed text = before ++ left :: next :: after)
    (hmem : token ∈ next :: after) (htouch : token.start = left.stop) : token = next := by
  rcases List.mem_cons.mp hmem with rfl | hlater
  · rfl
  · have hpairwise : (placed text).Pairwise fun left right => left.stop ≤ right.start := by
      rw [placed, List.pairwise_map]
      exact pairwise_tokens text
    have hnext : next ∈ placed text := by
      rw [h]
      simp
    have hlt := start_lt_stop_of_mem_tokens (mem_placed_iff.mp hnext).1
    rw [h] at hpairwise
    have hordered := (List.pairwise_append.mp hpairwise).2.1
    have hfirst := (List.pairwise_cons.mp hordered).1 next (.head _)
    have hsecond := (List.pairwise_cons.mp (List.pairwise_cons.mp hordered).2).1 token hlater
    omega

/-- Two tokens that go on with a path behind a part that ends at `stop`. -/
def Token.Joins (stop : Nat) (dot part : Token) : Prop :=
  dot.kind = .dot ∧ dot.start = stop ∧ part.kind = .upperName ∧ part.start = dot.stop

theorem Rule.qualified_of_joins {stop : Nat} {dot part : Token} (h : Token.Joins stop dot part)
    (rest : List Token) :
    qualified stop (dot :: part :: rest) =
      (part.text :: (qualified part.stop rest).1, (qualified part.stop rest).2) := by
  rw [qualified]
  exact if_pos h

theorem Rule.qualified_of_not_joins {stop : Nat} {tokens : List Token}
    (h : ∀ dot part rest, tokens = dot :: part :: rest → ¬ Token.Joins stop dot part) :
    qualified stop tokens = ([], tokens) := by
  rw [qualified.eq_def]
  split
  · next dot part rest => exact if_neg (h dot part rest rfl)
  · rfl

namespace Layout

theorem mem_of_mem_view {layout : Layout} {depth : Nat} {tokens : List PlacedToken} {token : PlacedToken}
    (h : token ∈ layout.view depth tokens) : token ∈ tokens :=
  (List.mem_filter.mp ((layout.view_prefix depth tokens).subset h)).1

/-- Whether a token is on the line of a construct or to the right of it. -/
def Encloses (layout : Layout) (token : PlacedToken) : Prop :=
  token.position.line = layout.line ∨ layout.column < token.position.column

/-- What a construct encloses it owns, whatever brackets are open. -/
theorem Encloses.owns {layout : Layout} {token : PlacedToken} (h : layout.Encloses token) (depth : Nat) :
    layout.owns depth token = true :=
  owns_iff.mpr (h.imp_right .inl)

section

variable {layout : Layout} {text : List Char} {before after : List PlacedToken} {part : PlacedToken}

/-- A token that touches a dot or a part of a path is enclosed with it. -/
theorem Encloses.of_touching {left right : PlacedToken} (hleft : left ∈ Token.placed text)
    (hright : right ∈ Token.placed text) (hkind : left.kind = .dot ∨ left.kind = .upperName)
    (htouch : right.start = left.stop) (h : layout.Encloses left) : layout.Encloses right := by
  have hline : '\n' ∉ left.chars := by
    refine Token.newline_notMem_of_mem_tokens (Token.mem_placed_iff.mp hleft).1 ?_ ?_ ?_ <;>
      rcases hkind with hkind | hkind <;> rw [hkind] <;> decide
  have hplaces :=
    (Token.standsIn_of_mem_placed hleft).touching_iff (Token.standsIn_of_mem_placed hright) hline
  obtain ⟨hsame, hcolumn⟩ := hplaces.mp htouch
  rcases h with h | h
  · exact .inl (hsame.trans h)
  · exact .inr (by omega)

/-- The tokens that go on with a path are owned with the part before them. -/
theorem view_of_joins {dot next : PlacedToken}
    (h : Token.placed text = before ++ part :: dot :: next :: after) (hkind : part.kind = .upperName)
    (hpart : layout.Encloses part) (hjoins : Token.Joins part.stop dot.toToken next.toToken) (depth : Nat) :
    layout.Encloses dot ∧ layout.Encloses next ∧
      layout.view depth (dot :: next :: after) = dot :: next :: layout.view depth after := by
  obtain ⟨hdot, htouch, hupper, htouch'⟩ := hjoins
  have hmem : ∀ token ∈ part :: dot :: next :: after, token ∈ Token.placed text := by
    intro token hmem
    rw [h]
    exact List.mem_append_right before hmem
  have hdotmem := hmem dot (.tail _ (.head _))
  have hencloses := hpart.of_touching (hmem part (.head _)) hdotmem (.inr hkind) htouch
  have hencloses' :=
    hencloses.of_touching hdotmem (hmem next (.tail _ (.tail _ (.head _)))) (.inl hdot) htouch'
  have hdepth : dot.kind.nest depth = depth := by
    rw [hdot]
    rfl
  have hdepth' : next.kind.nest depth = depth := by
    rw [hupper]
    rfl
  refine ⟨hencloses, hencloses', ?_⟩
  rw [view_cons_of_owns (by rw [hdot]; decide) (hencloses.owns depth), hdepth,
    view_cons_of_owns (by rw [hupper]; decide) (hencloses'.owns depth), hdepth']

/-- What goes on with a path among the tokens that a construct owns comes next in the file. -/
theorem exists_eq_of_view_joins (h : Token.placed text = before ++ part :: after)
    (hkind : part.kind = .upperName) (hpart : layout.Encloses part) {depth : Nat} {dot next : PlacedToken}
    {others : List PlacedToken} (hview : layout.view depth after = dot :: next :: others)
    (hjoins : Token.Joins part.stop dot.toToken next.toToken) : ∃ rest, after = dot :: next :: rest := by
  obtain ⟨hdot, htouch, hupper, htouch'⟩ := hjoins
  have hdotmem : dot ∈ layout.view depth after := by
    rw [hview]
    exact .head _
  replace hdotmem := mem_of_mem_view hdotmem
  cases after with
  | nil => cases hdotmem
  | cons first after =>
      obtain rfl := Token.eq_of_touching h hdotmem htouch
      have hmem : ∀ token ∈ [part, dot], token ∈ Token.placed text := by
        intro token hmem
        rw [h]
        exact List.mem_append_right before (List.mem_append_left after hmem)
      have hencloses :=
        hpart.of_touching (hmem part (.head _)) (hmem dot (.tail _ (.head _))) (.inr hkind) htouch
      rw [view_cons_of_owns (by rw [hdot]; decide) (hencloses.owns depth)] at hview
      have hnextmem : next ∈ layout.view (dot.kind.nest depth) after := by
        rw [(List.cons.inj hview).2]
        exact .head _
      replace hnextmem := mem_of_mem_view hnextmem
      cases after with
      | nil => cases hnextmem
      | cons second after =>
          have h' : Token.placed text = (before ++ [part]) ++ dot :: second :: after := by
            rw [h, List.append_assoc]
            rfl
          obtain rfl := Token.eq_of_touching h' hnextmem htouch'
          exact ⟨after, rfl⟩

/-- A path that is read from the tokens of a file, without asking who owns them, is the path that is read
from the tokens that the construct owns, and it takes the same tokens, all of which the construct
encloses. -/
theorem exists_qualified_eq (h : Token.placed text = before ++ part :: after) (hkind : part.kind = .upperName)
    (hpart : layout.Encloses part) (depth : Nat) :
    ∃ names joined left, after = joined ++ left ∧ layout.view depth after = joined ++ layout.view depth left ∧
      Rule.qualified part.stop (after.map (·.toToken)) = (names, left.map (·.toToken)) ∧
      Rule.qualified part.stop ((layout.view depth after).map (·.toToken)) =
        (names, (layout.view depth left).map (·.toToken)) ∧
      ∀ token ∈ joined, layout.Encloses token := by
  -- a dot and a part at a time, so by the length of the list
  induction hlength : after.length using Nat.strongRecOn generalizing before part after with
  | _ length ih =>
      by_cases hjoins : ∃ dot next rest, after = dot :: next :: rest ∧
          Token.Joins part.stop dot.toToken next.toToken
      · obtain ⟨dot, next, rest, rfl, hjoins⟩ := hjoins
        obtain ⟨hdot, hnext, hview⟩ := view_of_joins h hkind hpart hjoins depth
        have h' : Token.placed text = (before ++ [part, dot]) ++ next :: rest := by
          rw [h, List.append_assoc]
          rfl
        have hshort : rest.length < length := by
          rw [← hlength, List.length_cons, List.length_cons]
          omega
        obtain ⟨names, joined, left, rfl, hrest, hraw, howned, hall⟩ :=
          ih rest.length hshort h' hjoins.2.2.1 hnext rfl
        refine ⟨next.text :: names, dot :: next :: joined, left, rfl, by rw [hview, hrest]; rfl, ?_, ?_, ?_⟩
        · rw [List.map_cons, List.map_cons, Rule.qualified_of_joins hjoins, hraw]
        · rw [hview, List.map_cons, List.map_cons, Rule.qualified_of_joins hjoins, howned]
        · intro token htoken
          rcases List.mem_cons.mp htoken with rfl | htoken
          · exact hdot
          · rcases List.mem_cons.mp htoken with rfl | htoken
            · exact hnext
            · exact hall token htoken
      · refine ⟨[], [], after, rfl, rfl, Rule.qualified_of_not_joins ?_,
          Rule.qualified_of_not_joins ?_, by simp⟩
        · rintro _ _ _ hafter hcontra
          obtain ⟨dot, others, rfl, rfl, hothers⟩ := List.map_eq_cons_iff.mp hafter
          obtain ⟨next, rest, rfl, rfl, _⟩ := List.map_eq_cons_iff.mp hothers
          exact hjoins ⟨dot, next, rest, rfl, hcontra⟩
        · rintro _ _ _ hview hcontra
          obtain ⟨dot, others, hdot, rfl, hothers⟩ := List.map_eq_cons_iff.mp hview
          obtain ⟨next, rest, rfl, rfl, _⟩ := List.map_eq_cons_iff.mp hothers
          obtain ⟨rest, rfl⟩ := exists_eq_of_view_joins h hkind hpart hdot hcontra
          exact hjoins ⟨dot, next, rest, rfl, hcontra⟩

end

end Layout

/-! ### What declarations take -/

/-- Every token that an accepted construct takes, line breaks apart, is owned by it. -/
theorem Construct.Reads.owns_of_taken {tokens : List PlacedToken} {constructs : List Construct}
    (h : Reads 0 tokens constructs) {construct : Construct} (hmem : construct ∈ constructs)
    {statement : Statement} (hstatement : construct.statement? = some statement) {i : Nat}
    {token : PlacedToken} (hle : construct.index ≤ i) (hlt : i < construct.index + construct.taken)
    (htoken : tokens[i]? = some token) (hkind : token.kind ≠ .newline) :
    (Layout.ofToken construct.first).owns
      (openBrackets 0 ((tokens.drop construct.index).take (i - construct.index))) token = true := by
  obtain ⟨before, first, rest, rfl, _, rfl⟩ := h.exists_of_mem hmem
  rw [Nat.zero_add] at hstatement hle hlt ⊢
  obtain ⟨n, hn⟩ := exists_reach_of_accepted (statement?_eq_some.mp hstatement)
  rw [hn] at hlt
  rw [read_index] at hle hlt ⊢
  rw [read_first, List.drop_left]
  rw [List.getElem?_append_right hle] at htoken
  refine Layout.owns_of_lt_reach (n := n) ?_ htoken hkind
  dsimp only at hle hlt ⊢
  omega

/-- **A declaration takes nothing that is not its own.** Each token between the first one and the place
where the construct was left, line breaks apart, is on the line of the first, or in a greater column, or a
closing bracket while brackets of the construct are open. Behind a part of a path the construct owns what
the path goes on with, so reading the path from the tokens of the file takes the same tokens as reading it
from those of the construct. -/
theorem constructs_own_what_they_take (source : String) :
    ∃ constructs, constructs? source.toList = some constructs ∧
      ∀ construct ∈ constructs, ∀ statement, construct.statement? = some statement →
        (Token.placed source.toList)[construct.index]? = some construct.first ∧
        ∀ i token, construct.index ≤ i → i < construct.index + construct.taken →
          (Token.placed source.toList)[i]? = some token → token.kind ≠ .newline →
          (token.position.line = construct.first.position.line ∨
            construct.first.position.column < token.position.column ∨
            0 < openBrackets 0 (((Token.placed source.toList).drop construct.index).take
              (i - construct.index)) ∧ token.kind.isCloser = true) ∧
          (token.kind = .upperName → ∀ depth, ∃ names joined left,
            (Token.placed source.toList).drop (i + 1) = joined ++ left ∧
            (Layout.ofToken construct.first).view depth (joined ++ left) =
              joined ++ (Layout.ofToken construct.first).view depth left ∧
            Rule.qualified token.stop ((joined ++ left).map (·.toToken)) = (names, left.map (·.toToken)) ∧
            Rule.qualified token.stop
              (((Layout.ofToken construct.first).view depth (joined ++ left)).map (·.toToken)) =
              (names, ((Layout.ofToken construct.first).view depth left).map (·.toToken)) ∧
            ∀ later ∈ joined, later.position.line = construct.first.position.line ∨
              construct.first.position.column < later.position.column) := by
  obtain ⟨constructs, hreads, hconstructs⟩ := exists_constructs source.toList
  refine ⟨constructs, hconstructs, fun construct hmem statement hstatement =>
    ⟨hreads.getElem?_index hmem, ?_⟩⟩
  intro i token hle hlt htoken hkind
  have howns := Layout.owns_iff.mp (hreads.owns_of_taken hmem hstatement hle hlt htoken hkind)
  refine ⟨howns, fun hupper depth => ?_⟩
  have hencloses : (Layout.ofToken construct.first).Encloses token := by
    rcases howns with hline | hcolumn | ⟨_, hcloser⟩
    · exact .inl hline
    · exact .inr hcolumn
    · rw [hupper] at hcloser
      cases hcloser
  obtain ⟨hi, hget⟩ := List.getElem?_eq_some_iff.mp htoken
  have hsplit : Token.placed source.toList =
      (Token.placed source.toList).take i ++ token :: (Token.placed source.toList).drop (i + 1) := by
    rw [← hget, ← List.drop_eq_getElem_cons hi, List.take_append_drop]
  obtain ⟨names, joined, left, hafter, hview, hraw, howned, hall⟩ :=
    Layout.exists_qualified_eq hsplit hupper hencloses depth
  rw [hafter] at hview hraw howned
  exact ⟨names, joined, left, hafter, hview, hraw, howned, hall⟩

/-- A brace that closes a record left of where its declaration begins was opened in it. -/
theorem constructs_own_what_they_take_closed_at_margin :
    ∃ constructs, constructs? " type alias T =\n  \x7b a : A.B\n\x7d".toList = some constructs ∧
      ∃ construct ∈ constructs, construct.index = 0 ∧ construct.taken = 13 ∧
        construct.first.position.column = 1 ∧
        (Token.placed " type alias T =\n  \x7b a : A.B\n\x7d".toList)[12]? =
          some ⟨⟨.closeBrace, ['\x7d'], 28⟩, ⟨2, 0, 28⟩⟩ ∧
        0 < openBrackets 0 ((Token.placed " type alias T =\n  \x7b a : A.B\n\x7d".toList).take 12) := by
  obtain ⟨constructs, hconstructs, hall⟩ :=
    constructs_own_what_they_take " type alias T =\n  \x7b a : A.B\n\x7d"
  have hshape : (constructs? " type alias T =\n  \x7b a : A.B\n\x7d".toList).map (List.map fun construct =>
      (construct.index, construct.taken, construct.first.position, construct.statement?.isSome)) =
        some [(0, 13, ⟨0, 1, 1⟩, true)] := by
    decide +kernel
  rw [hconstructs, Option.map_some, Option.some.injEq] at hshape
  obtain ⟨construct, rfl, hconstruct⟩ := List.map_eq_singleton_iff.mp hshape
  simp only [Prod.mk.injEq] at hconstruct
  obtain ⟨hindex, htaken, hfirst, haccepted⟩ := hconstruct
  obtain ⟨statement, hstatement⟩ := Option.isSome_iff_exists.mp haccepted
  have htoken : (Token.placed " type alias T =\n  \x7b a : A.B\n\x7d".toList)[12]? =
      some ⟨⟨.closeBrace, ['\x7d'], 28⟩, ⟨2, 0, 28⟩⟩ := by decide +kernel
  obtain ⟨_, howns⟩ := hall construct (.head _) statement hstatement
  rw [hindex, htaken, hfirst] at howns
  obtain ⟨hline | hcolumn | ⟨hopen, _⟩, _⟩ := howns 12 _ (by decide) (by decide) htoken (by decide)
  · cases hline
  · exact absurd hcolumn (by decide)
  · exact ⟨_, hconstructs, construct, .head _, hindex, htaken, by rw [hfirst], htoken, hopen⟩

end ElmNavigation
