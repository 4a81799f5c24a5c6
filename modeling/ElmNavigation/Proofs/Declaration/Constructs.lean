import ElmNavigation.Declaration.Parser
import ElmNavigation.Proofs.Declaration.Layout
import ElmNavigation.Proofs.Declaration.Soundness

/-! The constructs of a file one after the other. What becomes of a construct depends on the tokens that
it owns, on how far they reach and on the length of its first line: `Construct.read_eq`. Every construct
takes its first token, so reading never comes to a stop: the relation `Reads` steps over line breaks and
constructs, it holds of some constructs for all tokens, and it is what `readAll` computes. -/

namespace ElmNavigation

/-- The declaration that a view opens, if it opens one. -/
def Opening.ofView (view : List PlacedToken) : Option Opening :=
  match view[0]? with
  | none => none
  | some first =>
      match first.kind with
      | .moduleWord => some (.header .plain)
      | .portWord => if view[1]?.any (·.kind == .moduleWord) then some (.header .port) else none
      | .effectWord => if view[1]?.any (·.kind == .moduleWord) then some (.header .effect) else none
      | .importWord => some .imported
      | .typeWord => if view[1]?.any (·.kind == .aliasWord) then some .aliased else some .union
      | _ => none

theorem Cursor.sees_eq (layout : Layout) (cursor : Cursor) (n : Nat) (kind : Kind) :
    cursor.sees layout n kind = (cursor.view layout)[n]?.any (·.kind == kind) := by
  rw [sees, view, ← Layout.seek_map_snd layout cursor.depth cursor.index, Option.any_map]
  rfl

theorem Cursor.opening?_eq (layout : Layout) (cursor : Cursor) :
    cursor.opening? layout = Opening.ofView (cursor.view layout) := by
  have hfirst : (cursor.view layout)[0]? = (cursor.lookahead layout 0).map Prod.snd :=
    (Layout.seek_map_snd layout cursor.depth cursor.index 0 cursor.ahead).symm
  rw [opening?, Opening.ofView, hfirst]
  cases cursor.lookahead layout 0 with
  | none => rfl
  | some found =>
      obtain ⟨index, ⟨⟨kind, chars, start⟩, position⟩⟩ := found
      cases kind <;> simp only [Option.map_some, Cursor.sees_eq]

theorem Opening.words_pos (opening : Opening) : 0 < opening.words := by
  cases opening with
  | header kind => cases kind <;> decide
  | _ => decide

theorem Opening.length_openingKinds (opening : Opening) :
    (Sentence.openingKinds opening).length = opening.words := by
  cases opening with
  | header kind => cases kind <;> rfl
  | _ => rfl

/-- A view that opens a declaration begins with its words. -/
theorem Opening.kinds_of_ofView {view : List PlacedToken} {opening : Opening}
    (h : ofView view = some opening) :
    (view.take opening.words).map (·.kind) = Sentence.openingKinds opening := by
  have hsecond : ∀ {first : PlacedToken} {rest : List PlacedToken} {kind : Kind},
      (first :: rest)[1]?.any (·.kind == kind) = true → (rest.take 1).map (·.kind) = [kind] := by
    intro first rest kind hany
    cases rest with
    | nil => cases hany
    | cons second rest =>
        rw [List.getElem?_cons_succ, List.getElem?_cons_zero, Option.any_some, beq_iff_eq] at hany
        rw [← hany]
        rfl
  cases view with
  | nil => cases h
  | cons first rest =>
      rw [ofView, List.getElem?_cons_zero] at h
      dsimp only at h
      split at h
      · next hkind =>
          cases h
          exact congrArg (fun kind => [kind]) hkind
      · next hkind =>
          split at h
          · next hany =>
              cases h
              show first.kind :: (rest.take 1).map (·.kind) = _
              rw [hkind, hsecond hany]
              rfl
          · cases h
      · next hkind =>
          split at h
          · next hany =>
              cases h
              show first.kind :: (rest.take 1).map (·.kind) = _
              rw [hkind, hsecond hany]
              rfl
          · cases h
      · next hkind =>
          cases h
          exact congrArg (fun kind => [kind]) hkind
      · next hkind =>
          split at h
          · next hany =>
              cases h
              show first.kind :: (rest.take 1).map (·.kind) = _
              rw [hkind, hsecond hany]
              rfl
          · cases h
            exact congrArg (fun kind => [kind]) hkind
      · cases h

theorem lineLength_le (tokens : List PlacedToken) : lineLength tokens ≤ tokens.length := by
  induction tokens with
  | nil => exact Nat.le_refl _
  | cons token rest ih =>
      rw [lineLength, List.length_cons]
      split <;> omega

theorem lineLength_pos {tokens : List PlacedToken} (h : tokens ≠ []) : 0 < lineLength tokens := by
  cases tokens with
  | nil => exact absurd rfl h
  | cons token rest =>
      rw [lineLength]
      split <;> omega

namespace Construct

/-- The construct with the given first token and view, whose first line has `line` tokens and whose first `n`
tokens take `reach n` tokens of the file. -/
def ofView (first : PlacedToken) (index : Nat) (view : List PlacedToken) (line : Nat) (reach : Nat → Nat) :
    Construct :=
  match Opening.ofView view with
  | none => ⟨index, first, line, .passed⟩
  | some opening =>
      let sentence := view.map (·.toToken)
      match Rule.declaration opening first.position (sentence.drop opening.words) with
      | .ok (statement, rest) => ⟨index, first, reach (sentence.length - rest.length), .accepted statement⟩
      | .error mismatch => ⟨index, first, line, .rejected (mismatch.diagnostic (lastStop sentence))⟩

theorem read_eq (first : PlacedToken) (index : Nat) (tokens : List PlacedToken) :
    read first ⟨index, 0, tokens⟩ =
      ofView first index ((Layout.ofToken first).view 0 tokens) (lineLength tokens)
        (fun n => (Layout.ofToken first).reach 0 n tokens) := by
  have hview : Cursor.view (Layout.ofToken first) ⟨index, 0, tokens⟩ = (Layout.ofToken first).view 0 tokens :=
    rfl
  have hsentence : sentence (Layout.ofToken first) ⟨index, 0, tokens⟩ =
      ((Layout.ofToken first).view 0 tokens).map (·.toToken) := rfl
  simp only [read, ofView, Cursor.opening?_eq, hview, hsentence]
  cases Opening.ofView ((Layout.ofToken first).view 0 tokens) with
  | none => rfl
  | some opening =>
      dsimp only
      cases Rule.declaration opening first.position
          ((((Layout.ofToken first).view 0 tokens).map (·.toToken)).drop opening.words) with
      | error mismatch => rfl
      | ok result =>
          have hle : (((Layout.ofToken first).view 0 tokens).map (·.toToken)).length - result.2.length ≤
              (Cursor.view (Layout.ofToken first) ⟨index, 0, tokens⟩).length := by
            rw [List.length_map, hview]
            omega
          dsimp only
          rw [Cursor.advanceBy_index hle, Nat.add_sub_cancel_left]

/-- What an accepted construct takes of its view: the opening words and the tokens of a declaration. -/
theorem exists_body_of_ok {opening : Opening} {position : Position} {sentence rest : List Token}
    {statement : Statement}
    (h : Rule.declaration opening position (sentence.drop opening.words) = .ok (statement, rest)) :
    ∃ body, sentence = sentence.take opening.words ++ (body ++ rest) ∧
      Sentence.Body position opening body statement := by
  obtain ⟨body, hbody, hform⟩ := Rule.declaration_sound opening position h
  exact ⟨body, by rw [← hbody, List.take_append_drop], hform⟩

theorem read_taken_pos {first : PlacedToken} (hkind : first.kind ≠ .newline) (index : Nat)
    (rest : List PlacedToken) : 0 < (read first ⟨index, 0, first :: rest⟩).taken := by
  have hline := lineLength_pos (List.cons_ne_nil first rest)
  have howns := Layout.owns_ofToken 0 first
  have hview := Layout.view_cons_of_owns hkind howns rest
  rw [read_eq, ofView]
  split
  · exact hline
  · next opening hopening =>
      dsimp only
      split
      · next statement remaining hok =>
          obtain ⟨body, hbody, _⟩ := exists_body_of_ok hok
          have hwords := opening.words_pos
          have hlength := congrArg List.length hbody
          rw [hview, List.map_cons] at hlength
          simp only [List.length_append, List.length_take, List.length_cons, List.length_map] at hlength
          obtain ⟨n, hn⟩ : ∃ n, (((Layout.ofToken first).view 0 (first :: rest)).map (·.toToken)).length -
              remaining.length = n + 1 := by
            refine ⟨_ - 1, (Nat.sub_add_cancel ?_).symm⟩
            rw [hview, List.map_cons, List.length_cons, List.length_map]
            omega
          rw [hn, Layout.reach, if_neg hkind, if_pos howns]
          exact Nat.succ_pos _
      · exact hline

theorem read_taken_le (first : PlacedToken) (index : Nat) (tokens : List PlacedToken) :
    (read first ⟨index, 0, tokens⟩).taken ≤ tokens.length := by
  rw [read_eq, ofView]
  split
  · exact lineLength_le tokens
  · dsimp only
    split
    · exact Layout.reach_le_length _ _ _ _
    · exact lineLength_le tokens

@[simp]
theorem read_first (first : PlacedToken) (cursor : Cursor) : (read first cursor).first = first := by
  rw [read]
  dsimp only
  split
  · rfl
  · split <;> rfl

@[simp]
theorem read_index (first : PlacedToken) (cursor : Cursor) : (read first cursor).index = cursor.index := by
  rw [read]
  dsimp only
  split
  · rfl
  · split <;> rfl

/-! ### All constructs -/

/-- The constructs of tokens that are numbered from `index` on. -/
inductive Reads : Nat → List PlacedToken → List Construct → Prop where
  | done (index : Nat) : Reads index [] []
  | newline {index : Nat} {token : PlacedToken} {rest : List PlacedToken} {constructs : List Construct}
      (hkind : token.kind = .newline) (hrest : Reads (index + 1) rest constructs) :
      Reads index (token :: rest) constructs
  | construct {index : Nat} {token : PlacedToken} {rest : List PlacedToken} {constructs : List Construct}
      (hkind : token.kind ≠ .newline)
      (hrest : Reads (index + (read token ⟨index, 0, token :: rest⟩).taken)
        ((token :: rest).drop (read token ⟨index, 0, token :: rest⟩).taken) constructs) :
      Reads index (token :: rest) (read token ⟨index, 0, token :: rest⟩ :: constructs)

theorem exists_reads (index : Nat) (tokens : List PlacedToken) :
    ∃ constructs, Reads index tokens constructs := by
  induction hlength : tokens.length using Nat.strongRecOn generalizing index tokens with
  | _ length ih =>
      cases tokens with
      | nil => exact ⟨[], .done index⟩
      | cons token rest =>
          by_cases hkind : token.kind = .newline
          · have hshort : rest.length < length := by
              rw [← hlength]
              exact Nat.lt_succ_self _
            obtain ⟨constructs, hrest⟩ := ih rest.length hshort (index + 1) rest rfl
            exact ⟨constructs, .newline hkind hrest⟩
          · have hpos := read_taken_pos hkind index rest
            have hshort :
                ((token :: rest).drop (read token ⟨index, 0, token :: rest⟩).taken).length < length := by
              rw [List.length_drop, ← hlength, List.length_cons]
              omega
            obtain ⟨constructs, hrest⟩ := ih _ hshort _ _ rfl
            exact ⟨_, .construct hkind hrest⟩

theorem readAll_owed (index owed : Nat) (tokens : List PlacedToken) :
    readAll index owed tokens = readAll (index + owed) 0 (tokens.drop owed) := by
  induction owed generalizing index tokens with
  | zero => rfl
  | succ owed ih =>
      cases tokens with
      | nil => rfl
      | cons token rest =>
          rw [readAll, ih, List.drop_succ_cons, Nat.add_assoc, Nat.add_comm 1]

theorem Reads.readAll_eq {index : Nat} {tokens : List PlacedToken} {constructs : List Construct}
    (h : Reads index tokens constructs) : readAll index 0 tokens = some constructs := by
  induction h with
  | done index => rfl
  | newline hkind hrest ih => rw [readAll, if_pos hkind, ih]
  | @construct index token rest constructs hkind hrest ih =>
      have hpos := read_taken_pos hkind index rest
      rw [readAll, if_neg hkind]
      dsimp only
      split
      · next hzero => omega
      · next taken htaken =>
          rw [htaken, List.drop_succ_cons] at ih
          rw [readAll_owed, Nat.add_assoc, Nat.add_comm 1, ih]
          rfl

/-- Constructs begin at tokens of the file, in their order. -/
theorem Reads.map_first_sublist {index : Nat} {tokens : List PlacedToken} {constructs : List Construct}
    (h : Reads index tokens constructs) : (constructs.map Construct.first).Sublist tokens := by
  induction h with
  | done index => exact .slnil
  | newline hkind hrest ih => exact ih.cons _
  | @construct index token rest constructs hkind hrest ih =>
      obtain ⟨taken, htaken⟩ := Nat.exists_eq_succ_of_ne_zero (Nat.ne_of_gt (read_taken_pos hkind index rest))
      rw [htaken, Nat.succ_eq_add_one, List.drop_succ_cons] at ih
      rw [List.map_cons, read_first]
      exact (ih.trans (List.drop_sublist taken rest)).cons_cons token

/-- Every construct is read from its first token on. -/
theorem Reads.exists_of_mem {index : Nat} {tokens : List PlacedToken} {constructs : List Construct}
    (h : Reads index tokens constructs) {construct : Construct} (hmem : construct ∈ constructs) :
    ∃ before token rest, tokens = before ++ token :: rest ∧ token.kind ≠ .newline ∧
      construct = read token ⟨index + before.length, 0, token :: rest⟩ := by
  induction h with
  | done index => cases hmem
  | @newline index token rest constructs hkind hrest ih =>
      obtain ⟨before, first, after, rfl, hfirst, hread⟩ := ih hmem
      refine ⟨token :: before, first, after, rfl, hfirst, ?_⟩
      rw [hread, List.length_cons, Nat.add_assoc, Nat.add_comm 1]
  | @construct index token rest constructs hkind hrest ih =>
      rcases List.mem_cons.mp hmem with rfl | hmem
      · exact ⟨[], token, rest, rfl, hkind, rfl⟩
      · obtain ⟨before, first, after, hdrop, hfirst, hread⟩ := ih hmem
        have hle := read_taken_le token index (token :: rest)
        refine ⟨(token :: rest).take (read token ⟨index, 0, token :: rest⟩).taken ++ before, first, after,
          ?_, hfirst, ?_⟩
        · rw [List.append_assoc, ← hdrop, List.take_append_drop]
        · rw [hread, List.length_append, List.length_take, Nat.min_eq_left hle, Nat.add_assoc]

theorem Reads.getElem?_index {tokens : List PlacedToken} {constructs : List Construct}
    (h : Reads 0 tokens constructs) {construct : Construct} (hmem : construct ∈ constructs) :
    tokens[construct.index]? = some construct.first := by
  obtain ⟨before, token, rest, rfl, _, rfl⟩ := h.exists_of_mem hmem
  rw [read_index, read_first, Nat.zero_add, List.getElem?_append_right (Nat.le_refl _), Nat.sub_self]
  rfl

/-- What makes a construct an accepted one: its view begins with the words of an opening and the tokens of a
declaration, which stands where the first token does. -/
theorem exists_body_of_accepted {first : PlacedToken} {index : Nat} {tokens : List PlacedToken}
    {statement : Statement} (h : (read first ⟨index, 0, tokens⟩).outcome = .accepted statement) :
    ∃ opening words body left, Opening.ofView ((Layout.ofToken first).view 0 tokens) = some opening ∧
      ((Layout.ofToken first).view 0 tokens).map (·.toToken) = words ++ (body ++ left) ∧
      words.map Token.kind = Sentence.openingKinds opening ∧
      Sentence.Body first.position opening body statement := by
  rw [read_eq, ofView] at h
  split at h
  · cases h
  · next opening hopening =>
      dsimp only at h
      split at h
      · next accepted left hok =>
          cases h
          obtain ⟨body, hbody, hform⟩ := exists_body_of_ok hok
          refine ⟨opening, _, body, left, hopening, hbody, ?_, hform⟩
          rw [← Opening.kinds_of_ofView hopening, List.map_take, List.map_take, List.map_map]
          rfl
      · cases h

end Construct

/-- Reading a text gives its constructs. -/
theorem exists_constructs (text : List Char) :
    ∃ constructs, Construct.Reads 0 (Token.placed text) constructs ∧
      constructs? text = some constructs := by
  obtain ⟨constructs, hreads⟩ := Construct.exists_reads 0 (Token.placed text)
  exact ⟨constructs, hreads, hreads.readAll_eq⟩

theorem parseWithDiagnostics_of_reads {source : String} {constructs : List Construct}
    (h : Construct.Reads 0 (Token.placed source.toList) constructs) :
    parseWithDiagnostics source =
      (.parsed (constructs.filterMap Construct.statement?), constructs.filterMap Construct.diagnostic?) := by
  rw [parseWithDiagnostics, constructs?, h.readAll_eq]

end ElmNavigation
