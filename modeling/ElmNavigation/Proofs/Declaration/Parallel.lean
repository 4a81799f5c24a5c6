import ElmNavigation.Proofs.Declaration.Constructs
import ElmNavigation.Proofs.Declaration.Likeness

/-! Two files whose tokens run side by side. Apart from what rules see of a token, the layout of a
construct asks only whether two tokens share a line and which of two columns is smaller, and of line
breaks only whether there is one. If corresponding tokens agree in all this, the constructs of the two
files correspond: the same declarations at the places of their own first tokens, and the same messages.

Behind a token of unknown kind one file may have an operator that the other has not. A construct owns it
with the token before it, and every other use of it is on the rest of a line that is passed over. -/

namespace ElmNavigation

/-- A relation under which neither a rule nor a layout can tell tokens apart. -/
structure PlacedToken.Likeness (like : PlacedToken → PlacedToken → Prop) : Prop where
  kind {a b : PlacedToken} (h : like a b) : b.kind = a.kind
  text {a b : PlacedToken} (h : like a b)
    (hread : a.kind.isName = true ∨ a.kind = .upperName ∨ a.kind = .operator) : b.text = a.text
  touching {a b c d : PlacedToken} (h : like a b) (h' : like c d)
    (hjoined : a.kind = .upperName ∨ a.kind = .dot) : d.start = b.stop ↔ c.start = a.stop
  line {a b c d : PlacedToken} (h : like a b) (h' : like c d) :
    d.position.line = b.position.line ↔ c.position.line = a.position.line
  column {a b c d : PlacedToken} (h : like a b) (h' : like c d) :
    b.position.column < d.position.column ↔ a.position.column < c.position.column

/-- The relation between tokens without their positions. -/
def PlacedToken.Bare (like : PlacedToken → PlacedToken → Prop) (bare bare' : Token) : Prop :=
  ∃ token token', like token token' ∧ token.toToken = bare ∧ token'.toToken = bare'

theorem PlacedToken.Likeness.bare {like : PlacedToken → PlacedToken → Prop} (hlike : Likeness like) :
    Token.Likeness (Bare like) where
  kind := by
    rintro _ _ ⟨a, b, h, rfl, rfl⟩
    exact hlike.kind h
  text := by
    rintro _ _ ⟨a, b, h, rfl, rfl⟩ hread
    exact hlike.text h hread
  touching := by
    rintro _ _ _ _ ⟨a, b, h, rfl, rfl⟩ ⟨c, d, h', rfl, rfl⟩ hjoined
    exact hlike.touching h h' hjoined

theorem PlacedToken.likeness_move (lines bytes : Nat) : Likeness fun a b => b = a.move lines bytes where
  kind := by
    rintro a _ rfl
    rfl
  text := by
    rintro a _ rfl _
    rfl
  touching := by
    rintro a _ c _ rfl rfl hjoined
    exact (Token.likeness_move bytes).touching rfl rfl hjoined
  line := by
    rintro a _ c _ rfl rfl
    exact Nat.add_right_cancel_iff
  column := by
    rintro a _ c _ rfl rfl
    exact Iff.rfl

/-- Tokens that correspond, with line breaks in the same places but not always in the same number. Behind
a token of unknown kind the first list may have an operator on the same line, which stands in the relation
`tail` to that token's counterpart. -/
inductive Parallel (like tail : PlacedToken → PlacedToken → Prop) :
    List PlacedToken → List PlacedToken → Prop where
  | nil : Parallel like tail [] []
  | token {token token' : PlacedToken} {rest rest' : List PlacedToken} (hkind : token.kind ≠ .newline)
      (htoken : like token token') (hrest : Parallel like tail rest rest') :
      Parallel like tail (token :: rest) (token' :: rest')
  | trailing {token token' extra : PlacedToken} {rest rest' : List PlacedToken}
      (hkind : token.kind = .unknown) (htoken : like token token') (hextra : extra.kind = .operator)
      (hline : extra.position.line = token.position.line)
      (hcolumn : token.position.column < extra.position.column)
      (htail : tail extra token') (hrest : Parallel like tail rest rest') :
      Parallel like tail (token :: extra :: rest) (token' :: rest')
  | newlines {first first' : PlacedToken} {more more' rest rest' : List PlacedToken}
      (hbreaks : ∀ token ∈ first :: more, token.kind = .newline)
      (hbreaks' : ∀ token ∈ first' :: more', token.kind = .newline) (hrest : Parallel like tail rest rest') :
      Parallel like tail (first :: (more ++ rest)) (first' :: (more' ++ rest'))

/-- Tokens that correspond one to one. -/
theorem Parallel.of_forall₂ {like tail : PlacedToken → PlacedToken → Prop}
    (hkind : ∀ a b, like a b → b.kind = a.kind) {tokens tokens' : List PlacedToken}
    (h : List.Forall₂ like tokens tokens') : Parallel like tail tokens tokens' := by
  induction h with
  | nil => exact .nil
  | @cons token token' rest rest' htoken _ ih =>
      by_cases hnewline : token.kind = .newline
      · have hbreaks : ∀ t ∈ [token], t.kind = .newline := by simpa using hnewline
        have hbreaks' : ∀ t ∈ [token'], t.kind = .newline := by simpa [hkind _ _ htoken] using hnewline
        exact .newlines hbreaks hbreaks' ih
      · exact .token hnewline htoken ih

/-- Parallel tokens behind any line breaks. -/
def Loose (like tail : PlacedToken → PlacedToken → Prop) (tokens tokens' : List PlacedToken) : Prop :=
  ∃ skipped skipped' rest rest', tokens = skipped ++ rest ∧ tokens' = skipped' ++ rest' ∧
    (∀ token ∈ skipped, token.kind = .newline) ∧ (∀ token ∈ skipped', token.kind = .newline) ∧
    Parallel like tail rest rest'

section

variable {like tail : PlacedToken → PlacedToken → Prop}

theorem Parallel.loose {tokens tokens' : List PlacedToken} (h : Parallel like tail tokens tokens') :
    Loose like tail tokens tokens' :=
  ⟨[], [], tokens, tokens', rfl, rfl, by simp, by simp, h⟩

/-- Both lists are at an end, or go on after line breaks with tokens that correspond. -/
theorem Loose.cases {tokens tokens' : List PlacedToken} (h : Loose like tail tokens tokens') :
    (∀ token ∈ tokens, token.kind = .newline) ∧ (∀ token ∈ tokens', token.kind = .newline) ∨
      ∃ skipped skipped' token token' rest rest', tokens = skipped ++ token :: rest ∧
        tokens' = skipped' ++ token' :: rest' ∧ (∀ t ∈ skipped, t.kind = .newline) ∧
        (∀ t ∈ skipped', t.kind = .newline) ∧ token.kind ≠ .newline ∧ like token token' ∧
        Parallel like tail (token :: rest) (token' :: rest') := by
  obtain ⟨skipped, skipped', left, left', rfl, rfl, hskipped, hskipped', hparallel⟩ := h
  induction hparallel generalizing skipped skipped' with
  | nil =>
      rw [List.append_nil, List.append_nil]
      exact .inl ⟨hskipped, hskipped'⟩
  | token hkind htoken hrest _ =>
      exact .inr ⟨skipped, skipped', _, _, _, _, rfl, rfl, hskipped, hskipped', hkind, htoken,
        .token hkind htoken hrest⟩
  | trailing hkind htoken hextra hline hcolumn htail hrest _ =>
      refine .inr ⟨skipped, skipped', _, _, _, _, rfl, rfl, hskipped, hskipped', ?_, htoken,
        .trailing hkind htoken hextra hline hcolumn htail hrest⟩
      rw [hkind]
      decide
  | @newlines first first' more more' rest rest' hbreaks hbreaks' hrest ih =>
      have hall : ∀ t ∈ skipped ++ first :: more, t.kind = .newline :=
        List.forall_mem_append.mpr ⟨hskipped, hbreaks⟩
      have hall' : ∀ t ∈ skipped' ++ first' :: more', t.kind = .newline :=
        List.forall_mem_append.mpr ⟨hskipped', hbreaks'⟩
      have hlater := ih _ _ hall hall'
      rwa [List.append_assoc, List.append_assoc, List.cons_append, List.cons_append] at hlater

theorem Loose.of_newline_cons {token : PlacedToken} {rest tokens' : List PlacedToken}
    (hkind : token.kind = .newline) (h : Loose like tail (token :: rest) tokens') :
    Loose like tail rest tokens' := by
  obtain ⟨skipped, skipped', left, left', hleft, rfl, hskipped, hskipped', hparallel⟩ := h
  cases skipped with
  | cons first skipped =>
      obtain ⟨rfl, rfl⟩ := List.cons.inj hleft
      exact ⟨skipped, skipped', left, left', rfl, rfl, fun t ht => hskipped t (.tail _ ht),
        hskipped', hparallel⟩
  | nil =>
      cases hparallel with
      | nil => cases hleft
      | token hother _ _ =>
          obtain ⟨rfl, rfl⟩ := List.cons.inj hleft
          exact absurd hkind hother
      | trailing hother _ _ _ _ _ _ =>
          obtain ⟨rfl, rfl⟩ := List.cons.inj hleft
          rw [hother] at hkind
          cases hkind
      | @newlines first first' more more' left left' hbreaks hbreaks' hrest =>
          obtain ⟨rfl, rfl⟩ := List.cons.inj hleft
          refine ⟨more, skipped' ++ first' :: more', left, left', rfl, by simp, ?_, ?_, hrest⟩
          · exact fun t ht => hbreaks t (.tail _ ht)
          · exact List.forall_mem_append.mpr ⟨hskipped', hbreaks'⟩

theorem Loose.of_token_cons {token : PlacedToken} {rest tokens' : List PlacedToken}
    (hkind : token.kind ≠ .newline) (h : Loose like tail (token :: rest) tokens') :
    ∃ skipped' token' rest', tokens' = skipped' ++ token' :: rest' ∧ (∀ t ∈ skipped', t.kind = .newline) ∧
      like token token' ∧ Parallel like tail (token :: rest) (token' :: rest') := by
  rcases h.cases with ⟨hall, _⟩ | ⟨skipped, skipped', first, first', left, left', hleft, rfl, hskipped,
    hskipped', h⟩
  · exact absurd (hall token (.head _)) hkind
  · cases skipped with
    | nil =>
        obtain ⟨rfl, rfl⟩ := List.cons.inj hleft
        exact ⟨skipped', first', left', rfl, hskipped', h.2⟩
    | cons newline skipped =>
        obtain ⟨rfl, _⟩ := List.cons.inj hleft
        exact absurd (hskipped token (.head _)) hkind

end

/-! ### One construct -/

section

variable {like tail : PlacedToken → PlacedToken → Prop} (hlike : PlacedToken.Likeness like)

include hlike

theorem PlacedToken.Likeness.owns_eq {first first' token token' : PlacedToken} (hfirst : like first first')
    (htoken : like token token') (depth : Nat) :
    (Layout.ofToken first').owns depth token' = (Layout.ofToken first).owns depth token := by
  rw [Bool.eq_iff_iff, Layout.owns_iff, Layout.owns_iff, hlike.kind htoken]
  exact or_congr (hlike.line hfirst htoken) (or_congr_left (hlike.column hfirst htoken))

theorem Parallel.loose_drop_lineLength {tokens tokens' : List PlacedToken}
    (h : Parallel like tail tokens tokens') :
    Loose like tail (tokens.drop (lineLength tokens)) (tokens'.drop (lineLength tokens')) := by
  induction h with
  | nil => exact Parallel.nil.loose
  | token hkind htoken _ ih =>
      rw [lineLength, lineLength, if_neg hkind, if_neg (by rwa [hlike.kind htoken])]
      exact ih
  | trailing hkind htoken hextra _ _ _ _ ih =>
      rw [lineLength, lineLength, lineLength, if_neg (by rw [hkind]; decide), if_neg (by rw [hextra]; decide),
        if_neg (by rw [hlike.kind htoken, hkind]; decide)]
      exact ih
  | newlines hbreaks hbreaks' hrest _ =>
      rw [lineLength, lineLength, if_pos (hbreaks _ (.head _)), if_pos (hbreaks' _ (.head _))]
      exact ⟨_, _, _, _, rfl, rfl, fun t ht => hbreaks t (.tail _ ht), fun t ht =>
        hbreaks' t (.tail _ ht), hrest⟩

end

namespace Layout

section

variable {layout : Layout} {depth : Nat} {token extra : PlacedToken} (howns : layout.owns depth token = true)
  (hkind : token.kind = .unknown) (hextra : extra.kind = .operator)
  (hline : extra.position.line = token.position.line)
  (hcolumn : token.position.column < extra.position.column)

include howns hkind hline hcolumn

/-- An operator to the right of an owned token of unknown kind is owned with it. -/
theorem owns_of_right : layout.owns depth extra = true := by
  rw [owns_iff] at howns ⊢
  rcases howns with howns | howns | ⟨_, hcloser⟩
  · exact .inl (hline.trans howns)
  · exact .inr (.inl (Nat.lt_trans howns hcolumn))
  · rw [hkind] at hcloser
    cases hcloser

include hextra

theorem view_trailing (rest : List PlacedToken) :
    layout.view depth (token :: extra :: rest) = token :: extra :: layout.view depth rest := by
  have hextraOwned := owns_of_right howns hkind hline hcolumn
  rw [view_cons_of_owns (by rw [hkind]; decide) howns, show token.kind.nest depth = depth by rw [hkind]; rfl,
    view_cons_of_owns (by rw [hextra]; decide) hextraOwned, show extra.kind.nest depth = depth by
      rw [hextra]; rfl]

theorem Passes.trailing {start n : Nat} {tokens skipped after : List PlacedToken}
    (h : layout.Passes start tokens n depth (skipped ++ token :: extra :: after))
    (hskipped : ∀ newline ∈ skipped, newline.kind = .newline) :
    layout.Passes start tokens (n + 2) depth after := by
  have hextraOwned := owns_of_right howns hkind hline hcolumn
  have hnext := h.token hskipped (by rw [hkind]; decide) howns
  rw [show token.kind.nest depth = depth by rw [hkind]; rfl] at hnext
  have hlast := @Passes.token _ _ _ _ _ [] _ _ hnext (by simp) (by rw [hextra]; decide) hextraOwned
  rwa [show extra.kind.nest depth = depth by rw [hextra]; rfl] at hlast

end

end Layout

/-- The tokens that two constructs see at corresponding places. -/
def Construct.Beside (like tail : PlacedToken → PlacedToken → Prop) (layout layout' : Layout)
    (tokens tokens' : List PlacedToken) (left left' : List Token) : Prop :=
  ∃ n n' depth rest rest', layout.Passes 0 tokens n depth rest ∧ layout'.Passes 0 tokens' n' depth rest' ∧
    Loose like tail rest rest' ∧ left = (layout.view depth rest).map (·.toToken) ∧
    left' = (layout'.view depth rest').map (·.toToken)

section

variable {like tail : PlacedToken → PlacedToken → Prop} (hlike : PlacedToken.Likeness like)
  {first first' : PlacedToken} (hfirst : like first first')

include hlike hfirst

/-- From place to place no rule can tell the tokens of the two constructs apart. -/
theorem Construct.beside_simulation (tokens tokens' : List PlacedToken) :
    Token.Simulation (PlacedToken.Bare like)
      (Beside like tail (Layout.ofToken first) (Layout.ofToken first') tokens tokens') where
  toLikeness := hlike.bare
  onward := by
    rintro _ _ ⟨n, n', depth, rest, rest', hpasses, hpasses', hloose, rfl, rfl⟩
    rcases hloose.cases with ⟨hall, hall'⟩ |
      ⟨skipped, skipped', token, token', after, after', rfl, rfl, hskipped, hskipped', hkind,
        htoken, hparallel⟩
    · rw [← List.append_nil rest, ← List.append_nil rest', Layout.view_newlines hall,
        Layout.view_newlines hall']
      exact .nil
    have hkind' : token'.kind ≠ .newline := by rwa [hlike.kind htoken]
    have howns := hlike.owns_eq hfirst htoken depth
    rw [Layout.view_newlines hskipped, Layout.view_newlines hskipped']
    by_cases howned : (Layout.ofToken first).owns depth token = true
    · rw [howned] at howns
      have hnext' := hpasses'.token hskipped' hkind' howns
      rw [Layout.view_cons_of_owns hkind' howns]
      rw [hlike.kind htoken] at hnext' ⊢
      cases hparallel with
      | token _ _ hrest =>
          rw [Layout.view_cons_of_owns hkind howned]
          exact .token ⟨_, _, htoken, rfl, rfl⟩
            ⟨_, _, _, _, _, hpasses.token hskipped hkind howned, hnext', hrest.loose, rfl, rfl⟩
      | @trailing _ _ extra after _ hunknown _ hextra hline hcolumn _ hrest =>
          rw [show token.kind.nest depth = depth by rw [hunknown]; rfl] at hnext' ⊢
          have hnext := Layout.Passes.trailing howned hunknown hextra hline hcolumn hpasses hskipped
          rw [Layout.view_trailing howned hunknown hextra hline hcolumn]
          exact @Token.Onward.trailing _ _ _ _ [extra.toToken] _ _ ⟨_, _, htoken, rfl, rfl⟩ hunknown
            (List.forall_mem_singleton.mpr hextra) ⟨_, _, _, _, _, hnext, hnext', hrest.loose, rfl, rfl⟩
      | newlines hbreaks _ _ => exact absurd (hbreaks _ (.head _)) hkind
    · rw [Layout.view, if_neg hkind, if_neg howned, Layout.view, if_neg hkind', if_neg (by rwa [howns])]
      exact .nil

/-- The last tokens that two constructs own. -/
theorem Parallel.getLast?_view {tokens tokens' : List PlacedToken} (h : Parallel like tail tokens tokens')
    (depth : Nat) :
    (Layout.ofToken first).view depth tokens = [] ∧ (Layout.ofToken first').view depth tokens' = [] ∨
      ∃ last last', (like last last' ∨ tail last last') ∧
        ((Layout.ofToken first).view depth tokens).getLast? = some last ∧
        ((Layout.ofToken first').view depth tokens').getLast? = some last' := by
  induction h generalizing depth with
  | nil => exact .inl ⟨rfl, rfl⟩
  | @token token token' rest rest' hkind htoken _ ih =>
      have hkind' := hlike.kind htoken
      rw [Layout.view, Layout.view, hkind', if_neg hkind, if_neg hkind, hlike.owns_eq hfirst htoken]
      split
      · refine .inr ?_
        rcases ih (token.kind.nest depth) with ⟨hnil, hnil'⟩ | ⟨last, last', hlast, hview, hview'⟩
        · rw [hnil, hnil']
          exact ⟨token, token', .inl htoken, rfl, rfl⟩
        · exact ⟨last, last',
            hlast, by rw [List.getLast?_cons, hview]; rfl, by rw [List.getLast?_cons, hview']; rfl⟩
      · exact .inl ⟨rfl, rfl⟩
  | @trailing token token' extra rest rest' hunknown htoken hextra hline hcolumn htail _ ih =>
      have hkind : token.kind ≠ .newline := by
        rw [hunknown]
        decide
      have hkind' : token'.kind ≠ .newline := by rwa [hlike.kind htoken]
      have howns := hlike.owns_eq hfirst htoken depth
      by_cases howned : (Layout.ofToken first).owns depth token = true
      · rw [howned] at howns
        rw [Layout.view_trailing howned hunknown hextra hline hcolumn, Layout.view_cons_of_owns hkind' howns,
          show token'.kind.nest depth = depth by rw [hlike.kind htoken, hunknown]; rfl]
        refine .inr ?_
        rcases ih depth with ⟨hnil, hnil'⟩ | ⟨last, last', hlast, hview, hview'⟩
        · rw [hnil, hnil']
          exact ⟨extra, token', .inr htail, rfl, rfl⟩
        · refine ⟨last, last', hlast, ?_, by rw [List.getLast?_cons, hview']; rfl⟩
          rw [List.getLast?_cons, List.getLast?_cons, hview]
          rfl
      · rw [Layout.view, if_neg hkind, if_neg howned, Layout.view, if_neg hkind', if_neg (by rwa [howns])]
        exact .inl ⟨rfl, rfl⟩
  | newlines hbreaks hbreaks' _ ih =>
      rw [← List.cons_append, ← List.cons_append, Layout.view_newlines hbreaks, Layout.view_newlines hbreaks']
      exact ih depth

end

/-- The same fate of two constructs, whose first tokens are given. -/
inductive Outcome.Alike (like tail : PlacedToken → PlacedToken → Prop) (first first' : PlacedToken) :
    Outcome → Outcome → Prop where
  | accepted {statement : Statement} (hposition : statement.position = first.position) :
      Alike like tail first first' (.accepted statement) (.accepted (statement.place first'.position))
  | passed : Alike like tail first first' .passed .passed
  /-- A diagnostic that marks a token. -/
  | found (message : String) {token token' : PlacedToken} (htoken : like token token') :
      Alike like tail first first' (.rejected ⟨message, token.span⟩) (.rejected ⟨message, token'.span⟩)
  /-- A diagnostic that marks the end of the last token. -/
  | ended (message : String) {token token' : PlacedToken} (htoken : like token token' ∨ tail token token') :
      Alike like tail first first' (.rejected ⟨message, ⟨token.stop, token.stop⟩⟩)
        (.rejected ⟨message, ⟨token'.stop, token'.stop⟩⟩)

theorem Opening.kind_ne_unknown (opening : Opening) :
    ∀ kind ∈ Sentence.openingKinds opening, kind ≠ .unknown := by
  cases opening with
  | header kind => cases kind <;> decide
  | _ => decide

/-- Views that no rule can tell apart open the same declaration. -/
theorem Token.Simulation.opening_eq {like : Token → Token → Prop} {ahead : List Token → List Token → Prop}
    (h : Simulation like ahead) {view view' : List PlacedToken}
    (hviews : ahead (view.map (·.toToken)) (view'.map (·.toToken))) :
    Opening.ofView view' = Opening.ofView view := by
  have hsecond : ∀ {rest rest' : List PlacedToken}, ahead (rest.map (·.toToken)) (rest'.map (·.toToken)) →
      ∀ kind, rest'[0]?.any (·.kind == kind) = rest[0]?.any (·.kind == kind) := by
    intro rest rest' hrest kind
    have hbegins := h.begins hrest
    cases rest with
    | nil =>
        cases rest' with
        | nil => rfl
        | cons => cases hbegins
    | cons next rest =>
        cases rest' with
        | nil => cases hbegins
        | cons next' rest' =>
            cases hbegins with
            | cons hnext _ =>
                have hkind : next'.kind = next.kind := h.kind hnext
                simp only [List.getElem?_cons_zero, Option.any_some, hkind]
  have hbegins := h.begins hviews
  cases view with
  | nil =>
      cases view' with
      | nil => rfl
      | cons => cases hbegins
  | cons first rest =>
      cases view' with
      | nil => cases hbegins
      | cons first' rest' =>
          cases hbegins with
          | cons hhead htail =>
              have hkind : first'.kind = first.kind := h.kind hhead
              by_cases hunknown : first.kind = .unknown
              · simp only [Opening.ofView, List.getElem?_cons_zero, hkind, hunknown]
              · simp only [Opening.ofView, List.getElem?_cons_zero, List.getElem?_cons_succ, hkind,
                  hsecond (htail hunknown)]

namespace Construct

/-- Constructs that correspond. -/
structure Alike (like tail : PlacedToken → PlacedToken → Prop) (construct construct' : Construct) : Prop where
  first : like construct.first construct'.first
  outcome : Outcome.Alike like tail construct.first construct'.first construct.outcome construct'.outcome

/-- Corresponding tokens make corresponding constructs, and what these leave corresponds again. -/
theorem read_alike {like tail : PlacedToken → PlacedToken → Prop} (hlike : PlacedToken.Likeness like)
    {first first' : PlacedToken} {rest rest' : List PlacedToken} (hkind : first.kind ≠ .newline)
    (hfirst : like first first') (htokens : Parallel like tail (first :: rest) (first' :: rest'))
    (index index' : Nat) :
    Alike like tail (read first ⟨index, 0, first :: rest⟩) (read first' ⟨index', 0, first' :: rest'⟩) ∧
      Loose like tail ((first :: rest).drop (read first ⟨index, 0, first :: rest⟩).taken)
        ((first' :: rest').drop (read first' ⟨index', 0, first' :: rest'⟩).taken) := by
  have hline := htokens.loose_drop_lineLength hlike
  have hends := htokens.getLast?_view hlike hfirst 0
  have hsimulation := @beside_simulation like tail hlike _ _ hfirst (first :: rest) (first' :: rest')
  have hstart : Beside like tail (Layout.ofToken first) (Layout.ofToken first') (first :: rest)
      (first' :: rest') (((Layout.ofToken first).view 0 (first :: rest)).map (·.toToken))
      (((Layout.ofToken first').view 0 (first' :: rest')).map (·.toToken)) :=
    ⟨0, 0, 0, _, _, .start, .start, htokens.loose, rfl, rfl⟩
  have hopening := hsimulation.opening_eq hstart
  have hview := Layout.view_cons_of_owns hkind (Layout.owns_ofToken 0 first) rest
  rw [read_eq, read_eq, ofView, ofView, hopening]
  cases hopens : Opening.ofView ((Layout.ofToken first).view 0 (first :: rest)) with
  | none => exact ⟨⟨hfirst, .passed⟩, hline⟩
  | some opening =>
      have hwords :
          ∀ token ∈ (((Layout.ofToken first).view 0 (first :: rest)).map (·.toToken)).take opening.words,
            token.kind ≠ .unknown := by
        intro token hmem
        rw [← List.map_take] at hmem
        obtain ⟨placed, hplaced, rfl⟩ := List.mem_map.mp hmem
        refine opening.kind_ne_unknown _ ?_
        rw [← Opening.kinds_of_ofView hopens]
        exact List.mem_map_of_mem hplaced
      have hrule := Rule.declaration_respects hsimulation opening first.position first'.position
        (hsimulation.drop hstart opening.words hwords)
      dsimp only
      generalize hresult : Rule.declaration opening first.position
        ((((Layout.ofToken first).view 0 (first :: rest)).map (·.toToken)).drop opening.words) =
          result at hrule ⊢
      generalize Rule.declaration opening first'.position
        ((((Layout.ofToken first').view 0 (first' :: rest')).map (·.toToken)).drop opening.words) =
          result' at hrule ⊢
      cases hrule with
      | @ok statement _ left left' hstatement hleft =>
          obtain ⟨body, _, hbody⟩ := exists_body_of_ok hresult
          obtain ⟨n, n', depth, after, after', hpasses, hpasses', hloose, rfl, rfl⟩ := hleft
          have hcount := hpasses.length_view
          have hcount' := hpasses'.length_view
          dsimp only
          simp only [List.length_map]
          rw [hstatement, ← hcount, ← hcount', Nat.add_sub_cancel, Nat.add_sub_cancel, hpasses.drop_reach,
            hpasses'.drop_reach]
          exact ⟨⟨hfirst, .accepted hbody.position_eq⟩, hloose⟩
      | found expected htoken =>
          obtain ⟨token, token', htoken, rfl, rfl⟩ := htoken
          refine ⟨⟨hfirst, ?_⟩, hline⟩
          have hmessage : (Mismatch.found expected token'.toToken).message =
              (Mismatch.found expected token.toToken).message := by
            rw [Mismatch.message, Mismatch.message, hlike.kind htoken]
          dsimp only [Mismatch.diagnostic]
          rw [hmessage]
          exact .found _ htoken
      | ended expected =>
          rcases hends with ⟨hnil, _⟩ | ⟨token, token', htoken, hlast, hlast'⟩
          · rw [hview] at hnil
            cases hnil
          · refine ⟨⟨hfirst, ?_⟩, hline⟩
            dsimp only [Mismatch.diagnostic, lastStop]
            rw [List.getLast?_map, List.getLast?_map, hlast, hlast']
            exact .ended _ htoken

/-! ### All constructs -/

theorem Reads.of_newlines {skipped : List PlacedToken} (h : ∀ token ∈ skipped, token.kind = .newline)
    {index : Nat} {tokens : List PlacedToken} {constructs : List Construct}
    (hreads : Reads index (skipped ++ tokens) constructs) :
    ∃ index', Reads index' tokens constructs := by
  induction skipped generalizing index with
  | nil => exact ⟨index, hreads⟩
  | cons token skipped ih =>
      cases hreads with
      | newline _ hrest => exact ih (fun t ht => h t (.tail _ ht)) hrest
      | construct hkind _ => exact absurd (h token (.head _)) hkind

/-- Tokens that run side by side fall into corresponding constructs. -/
theorem Reads.forall₂ {like tail : PlacedToken → PlacedToken → Prop} (hlike : PlacedToken.Likeness like)
    {index index' : Nat} {tokens tokens' : List PlacedToken} {constructs constructs' : List Construct}
    (h : Reads index tokens constructs) (h' : Reads index' tokens' constructs')
    (htokens : Loose like tail tokens tokens') : List.Forall₂ (Alike like tail) constructs constructs' := by
  induction h generalizing index' tokens' constructs' with
  | done index =>
      rcases htokens.cases with ⟨_, hall⟩ | ⟨skipped, _, token, _, rest, _, hnil, _⟩
      · rw [← List.append_nil tokens'] at h'
        obtain ⟨_, hdone⟩ := Reads.of_newlines hall h'
        cases hdone
        exact .nil
      · exact absurd hnil (List.append_ne_nil_of_right_ne_nil skipped (List.cons_ne_nil token rest)).symm
  | newline hkind _ ih => exact ih h' (htokens.of_newline_cons hkind)
  | @construct index token rest constructs hkind hrest ih =>
      obtain ⟨skipped, token', rest', rfl, hskipped, htoken, hparallel⟩ := htokens.of_token_cons hkind
      obtain ⟨index', h'⟩ := Reads.of_newlines hskipped h'
      have hkind' : token'.kind ≠ .newline := by rwa [hlike.kind htoken]
      cases h' with
      | newline hnewline _ => exact absurd hnewline hkind'
      | construct _ hrest' =>
          obtain ⟨halike, hloose⟩ := read_alike hlike hkind htoken hparallel index index'
          exact .cons halike (ih hrest' hloose)

/-- Declarations correspond as their first tokens do. -/
theorem Alike.statement?_eq {like tail : PlacedToken → PlacedToken → Prop} {place : Position → Position}
    (hplace : ∀ a b, like a b → b.position = place a.position) {construct construct' : Construct}
    (h : Alike like tail construct construct') :
    construct'.statement? = construct.statement?.map fun statement =>
      statement.place (place statement.position) := by
  obtain ⟨hfirst, houtcome⟩ := h
  obtain ⟨index, first, taken, outcome⟩ := construct
  obtain ⟨index', first', taken', outcome'⟩ := construct'
  dsimp only at hfirst houtcome
  cases houtcome with
  | accepted hposition =>
      simp only [statement?, Option.map_some]
      rw [hposition, hplace _ _ hfirst]
  | passed => rfl
  | found message htoken => rfl
  | ended message htoken => rfl

theorem Alike.message_eq {like tail : PlacedToken → PlacedToken → Prop} {construct construct' : Construct}
    (h : Alike like tail construct construct') :
    construct'.diagnostic?.map Diagnostic.message = construct.diagnostic?.map Diagnostic.message := by
  obtain ⟨_, houtcome⟩ := h
  obtain ⟨index, first, taken, outcome⟩ := construct
  obtain ⟨index', first', taken', outcome'⟩ := construct'
  dsimp only at houtcome
  cases houtcome <;> rfl

end Construct

theorem filterMap_of_forall₂ {α β : Type} {related : α → α → Prop} {f : α → Option β} {g : β → β}
    (hf : ∀ a b, related a b → f b = (f a).map g) {list list' : List α}
    (h : List.Forall₂ related list list') : list'.filterMap f = (list.filterMap f).map g := by
  induction h with
  | nil => rfl
  | @cons a b rest rest' hhead _ ih =>
      rw [List.filterMap_cons, List.filterMap_cons, hf a b hhead, ih]
      cases f a <;> rfl

/-- Texts whose tokens run side by side declare the same, each at its own places, and bring the same
messages. -/
theorem parseWithDiagnostics_of_parallel {like tail : PlacedToken → PlacedToken → Prop}
    (hlike : PlacedToken.Likeness like) {place : Position → Position}
    (hplace : ∀ a b, like a b → b.position = place a.position) {source source' : String}
    (h : Parallel like tail (Token.placed source.toList) (Token.placed source'.toList)) :
    ∃ statements diagnostics diagnostics', parseWithDiagnostics source = (.parsed statements, diagnostics) ∧
      parseWithDiagnostics source' =
        (.parsed (statements.map fun statement => statement.place (place statement.position)), diagnostics') ∧
      diagnostics'.map Diagnostic.message = diagnostics.map Diagnostic.message := by
  obtain ⟨constructs, hreads⟩ := Construct.exists_reads 0 (Token.placed source.toList)
  obtain ⟨constructs', hreads'⟩ := Construct.exists_reads 0 (Token.placed source'.toList)
  have halike := hreads.forall₂ hlike hreads' h.loose
  have hstatements : constructs'.filterMap Construct.statement? =
      (constructs.filterMap Construct.statement?).map fun statement =>
        statement.place (place statement.position) :=
    filterMap_of_forall₂ (fun _ _ hconstruct => hconstruct.statement?_eq hplace) halike
  have hmessages : constructs'.filterMap (fun construct => construct.diagnostic?.map Diagnostic.message) =
      constructs.filterMap fun construct => construct.diagnostic?.map Diagnostic.message := by
    rw [filterMap_of_forall₂ (g := id)
      (fun _ _ hconstruct => by rw [hconstruct.message_eq, Option.map_id_fun, id]) halike, List.map_id]
  refine ⟨_, _, constructs'.filterMap Construct.diagnostic?, parseWithDiagnostics_of_reads hreads, ?_, ?_⟩
  · rw [parseWithDiagnostics_of_reads hreads', hstatements]
  · rw [List.map_filterMap, List.map_filterMap, hmessages]

end ElmNavigation
