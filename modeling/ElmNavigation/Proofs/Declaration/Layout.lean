import ElmNavigation.Declaration.Layout

/-! The tokens that a construct owns, and how far it reaches. `view` decides everything: looking ahead
reads it, advancing moves along it, and `reach` counts the tokens of the file that a number of its tokens
takes, line breaks among them included. A token that no construct of the layout owns ends both, whatever
follows it. -/

namespace ElmNavigation

namespace Layout

/-- The number of tokens up to and with the `n`-th that a construct owns. -/
def reach (layout : Layout) : Nat → Nat → List PlacedToken → Nat
  | _, 0, _ => 0
  | _, _ + 1, [] => 0
  | depth, n + 1, token :: rest =>
      if token.kind = .newline then layout.reach depth (n + 1) rest + 1
      else if layout.owns depth token then layout.reach (token.kind.nest depth) n rest + 1
      else 0

@[simp]
theorem reach_zero (layout : Layout) (depth : Nat) (tokens : List PlacedToken) :
    layout.reach depth 0 tokens = 0 := by
  cases tokens <;> rfl

theorem owns_iff {layout : Layout} {depth : Nat} {token : PlacedToken} : layout.owns depth token = true ↔
    token.position.line = layout.line ∨ layout.column < token.position.column ∨
      (0 < depth ∧ token.kind.isCloser = true) := by
  simp only [owns, Bool.or_eq_true, Bool.and_eq_true, beq_iff_eq, decide_eq_true_eq, or_assoc]

theorem owns_ofToken (depth : Nat) (token : PlacedToken) : (ofToken token).owns depth token = true :=
  owns_iff.mpr (.inl rfl)

theorem view_cons_of_owns {layout : Layout} {depth : Nat} {token : PlacedToken}
    (hkind : token.kind ≠ .newline) (howns : layout.owns depth token = true) (rest : List PlacedToken) :
    layout.view depth (token :: rest) = token :: layout.view (token.kind.nest depth) rest := by
  rw [view, if_neg hkind, if_pos howns]

theorem view_newlines {skipped : List PlacedToken} (h : ∀ token ∈ skipped, token.kind = .newline)
    (layout : Layout) (depth : Nat) (tokens : List PlacedToken) :
    layout.view depth (skipped ++ tokens) = layout.view depth tokens := by
  induction skipped with
  | nil => rfl
  | cons token skipped ih =>
      rw [List.cons_append, view, if_pos (h token (.head _)), ih fun t ht => h t (.tail _ ht)]

theorem reach_newlines {skipped : List PlacedToken} (h : ∀ token ∈ skipped, token.kind = .newline)
    (layout : Layout) (depth n : Nat) (tokens : List PlacedToken) :
    layout.reach depth (n + 1) (skipped ++ tokens) = skipped.length + layout.reach depth (n + 1) tokens := by
  induction skipped with
  | nil => exact (Nat.zero_add _).symm
  | cons token skipped ih =>
      rw [List.cons_append, reach, if_pos (h token (.head _)), ih fun t ht => h t (.tail _ ht),
        List.length_cons]
      omega

@[simp]
theorem admits_some (layout : Layout) (depth : Nat) (token : PlacedToken) :
    admits (some layout) depth token = layout.owns depth token := rfl

section Seek

variable {layout : Option Layout} {depth : Nat} {token : PlacedToken}

theorem seek_newline (hkind : token.kind = .newline) (index n : Nat) (rest : List PlacedToken) :
    seek layout depth index n (token :: rest) = seek layout depth (index + 1) n rest := by
  simp [seek.eq_def layout depth index n (token :: rest), hkind]

theorem seek_zero (hkind : token.kind ≠ .newline) (hadmits : admits layout depth token = true) (index : Nat)
    (rest : List PlacedToken) : seek layout depth index 0 (token :: rest) = some (index, token) := by
  simp [seek, hkind, hadmits]

theorem seek_succ (hkind : token.kind ≠ .newline) (hadmits : admits layout depth token = true) (index n : Nat)
    (rest : List PlacedToken) : seek layout depth index (n + 1) (token :: rest) =
      seek layout (token.kind.nest depth) (index + 1) n rest := by
  simp [seek, hkind, hadmits]

theorem seek_of_not_admits (hkind : token.kind ≠ .newline) (hadmits : admits layout depth token ≠ true)
    (index n : Nat) (rest : List PlacedToken) : seek layout depth index n (token :: rest) = none := by
  simp [seek.eq_def, hkind, hadmits]

end Seek

/-- Looking ahead in a construct reads the view. -/
theorem seek_map_snd (layout : Layout) (depth index n : Nat) (tokens : List PlacedToken) :
    (seek layout depth index n tokens).map Prod.snd = (layout.view depth tokens)[n]? := by
  induction tokens generalizing depth index n with
  | nil => rfl
  | cons token rest ih =>
      rw [view]
      split
      · next hkind => rw [seek_newline hkind, ih]
      · next hkind =>
          rw [← admits_some]
          split
          · next hadmits =>
              cases n with
              | zero => rw [seek_zero hkind hadmits]; rfl
              | succ n => rw [seek_succ hkind hadmits, ih]; rfl
          · next hadmits => rw [seek_of_not_admits hkind hadmits]; rfl

/-- The first token of a view, what is seen after it, and how far each reaches. -/
theorem view_eq_cons {layout : Layout} {depth : Nat} {tokens rest : List PlacedToken} {first : PlacedToken}
    (h : layout.view depth tokens = first :: rest) (index : Nat) :
    ∃ skipped after, tokens = skipped ++ first :: after ∧ (∀ token ∈ skipped, token.kind = .newline) ∧
      first.kind ≠ .newline ∧ layout.owns depth first = true ∧
      rest = layout.view (first.kind.nest depth) after ∧
      seek layout depth index 0 tokens = some (index + skipped.length, first) ∧
      ∀ n, layout.reach depth (n + 1) tokens = skipped.length + 1 +
        layout.reach (first.kind.nest depth) n after := by
  induction tokens generalizing index with
  | nil => cases h
  | cons token tokens ih =>
      rw [view] at h
      split at h
      · next hnewline =>
          obtain ⟨skipped, after, htokens, hskipped, hkind, howns, hrest, hseek, hreach⟩ := ih h (index + 1)
          refine ⟨token :: skipped, after, by rw [htokens]; rfl, ?_, hkind, howns, hrest, ?_, ?_⟩
          · intro other hmem
            rcases List.mem_cons.mp hmem with rfl | hmem
            · exact hnewline
            · exact hskipped other hmem
          · rw [seek_newline hnewline, hseek, List.length_cons]
            congr 2
            omega
          · intro n
            rw [reach, if_pos hnewline, hreach, List.length_cons]
            omega
      · next hkind =>
          split at h
          · next howns =>
              obtain ⟨rfl, rfl⟩ := List.cons.inj h
              refine ⟨[], tokens, rfl, by simp, hkind, howns, rfl, ?_, ?_⟩
              · rw [← admits_some] at howns
                exact seek_zero hkind howns index tokens
              · intro n
                rw [reach, if_neg hkind, if_pos howns, List.length_nil]
                omega
          · cases h

theorem reach_le_length (layout : Layout) (depth n : Nat) (tokens : List PlacedToken) :
    layout.reach depth n tokens ≤ tokens.length := by
  induction tokens generalizing depth n with
  | nil => cases n <;> exact Nat.le_refl _
  | cons token rest ih =>
      cases n with
      | zero => exact Nat.zero_le _
      | succ n =>
          rw [reach, List.length_cons]
          split
          · have := ih depth (n + 1)
            omega
          · split
            · have := ih (token.kind.nest depth) n
              omega
            · exact Nat.zero_le _

/-- A view is the beginning of the tokens without their line breaks. -/
theorem view_prefix (layout : Layout) (depth : Nat) (tokens : List PlacedToken) :
    layout.view depth tokens <+: tokens.filter (·.kind ≠ .newline) := by
  induction tokens generalizing depth with
  | nil => exact List.nil_prefix
  | cons token rest ih =>
      rw [view]
      split
      · next hnewline =>
          rw [List.filter_cons_of_neg (by simpa using hnewline)]
          exact ih depth
      · next hkind =>
          rw [List.filter_cons_of_pos (by simpa using hkind)]
          split
          · exact List.cons_prefix_cons.mpr ⟨rfl, ih _⟩
          · exact List.nil_prefix

/-- What a number of tokens of the view reaches over, line breaks apart, are these tokens. -/
theorem filter_take_reach (layout : Layout) (depth n : Nat) (tokens : List PlacedToken) :
    (tokens.take (layout.reach depth n tokens)).filter (·.kind ≠ .newline) =
      (layout.view depth tokens).take n := by
  induction tokens generalizing depth n with
  | nil => cases n <;> rfl
  | cons token rest ih =>
      cases n with
      | zero => rfl
      | succ n =>
          rw [reach, view]
          split
          · next hnewline =>
              rw [List.take_succ_cons, List.filter_cons_of_neg (by simpa using hnewline)]
              exact ih depth (n + 1)
          · next hkind =>
              split
              · rw [List.take_succ_cons, List.filter_cons_of_pos (by simpa using hkind),
                  List.take_succ_cons, ih]
              · rfl

/-! ### Places in a construct -/

/-- After `n` tokens of its view a construct has the last of the given tokens left, with so many brackets
open. -/
inductive Passes (layout : Layout) (depth : Nat) (tokens : List PlacedToken) :
    Nat → Nat → List PlacedToken → Prop where
  | start : Passes layout depth tokens 0 depth tokens
  | token {n inside : Nat} {skipped after : List PlacedToken} {token : PlacedToken}
      (h : Passes layout depth tokens n inside (skipped ++ token :: after))
      (hskipped : ∀ newline ∈ skipped, newline.kind = .newline) (hkind : token.kind ≠ .newline)
      (howns : layout.owns inside token = true) :
      Passes layout depth tokens (n + 1) (token.kind.nest inside) after

theorem Passes.reach_add {layout : Layout} {depth n inside : Nat} {tokens rest : List PlacedToken}
    (h : layout.Passes depth tokens n inside rest) (m : Nat) :
    layout.reach depth (n + m) tokens = layout.reach depth n tokens + layout.reach inside m rest := by
  induction h generalizing m with
  | start => rw [reach_zero, Nat.zero_add, Nat.zero_add]
  | @token n inside skipped after token h hskipped hkind howns ih =>
      have hstep : ∀ m, layout.reach depth (n + 1 + m) tokens =
          layout.reach depth n tokens +
            (skipped.length + (layout.reach (token.kind.nest inside) m after + 1)) := by
        intro m
        rw [Nat.add_assoc, Nat.add_comm 1 m, ih, reach_newlines hskipped, reach, if_neg hkind, if_pos howns]
      have hnone := hstep 0
      rw [Nat.add_zero, reach_zero] at hnone
      rw [hstep, hnone]
      omega

/-- What a construct has left after `n` tokens is what these do not reach. -/
theorem Passes.drop_reach {layout : Layout} {depth n inside : Nat} {tokens rest : List PlacedToken}
    (h : layout.Passes depth tokens n inside rest) : tokens.drop (layout.reach depth n tokens) = rest := by
  induction h with
  | start => rw [reach_zero, List.drop_zero]
  | @token n inside skipped after token h hskipped hkind howns ih =>
      rw [h.reach_add 1, reach_newlines hskipped, reach, if_neg hkind, if_pos howns, reach_zero,
        ← List.drop_drop, ih, List.drop_length_add_append]
      rfl

theorem Passes.length_view {layout : Layout} {depth n inside : Nat} {tokens rest : List PlacedToken}
    (h : layout.Passes depth tokens n inside rest) :
    n + (layout.view inside rest).length = (layout.view depth tokens).length := by
  induction h with
  | start => exact Nat.zero_add _
  | token h hskipped hkind howns ih =>
      rw [view_newlines hskipped, view_cons_of_owns hkind howns, List.length_cons] at ih
      omega

/-! ### Tokens that end a construct -/

/-- Whether a list begins with a token that no construct of the layout owns, or is empty. -/
def Ends (layout : Layout) (later : List PlacedToken) : Prop :=
  ∀ token ∈ later.head?, token.kind ≠ .newline ∧ ∀ depth, layout.owns depth token = false

theorem view_of_ends {layout : Layout} {later : List PlacedToken} (h : layout.Ends later) (depth : Nat) :
    layout.view depth later = [] := by
  cases later with
  | nil => rfl
  | cons token later =>
      obtain ⟨hkind, howns⟩ := h token rfl
      rw [view, if_neg hkind, if_neg (by rw [howns]; decide)]

theorem reach_of_ends {layout : Layout} {later : List PlacedToken} (h : layout.Ends later) (depth n : Nat) :
    layout.reach depth n later = 0 := by
  cases n with
  | zero => exact reach_zero layout depth later
  | succ n =>
      cases later with
      | nil => rfl
      | cons token later =>
          obtain ⟨hkind, howns⟩ := h token rfl
          rw [reach, if_neg hkind, if_neg (by rw [howns]; decide)]

theorem view_append {layout : Layout} {later : List PlacedToken} (h : layout.Ends later) (depth : Nat)
    (tokens : List PlacedToken) : layout.view depth (tokens ++ later) = layout.view depth tokens := by
  induction tokens generalizing depth with
  | nil => exact view_of_ends h depth
  | cons token tokens ih =>
      rw [List.cons_append, view, view]
      split
      · exact ih depth
      · split
        · rw [ih]
        · rfl

theorem reach_append {layout : Layout} {later : List PlacedToken} (h : layout.Ends later) (depth n : Nat)
    (tokens : List PlacedToken) : layout.reach depth n (tokens ++ later) = layout.reach depth n tokens := by
  induction tokens generalizing depth n with
  | nil =>
      rw [List.nil_append, reach_of_ends h]
      cases n <;> rfl
  | cons token tokens ih =>
      cases n with
      | zero => rfl
      | succ n =>
          rw [List.cons_append, reach, reach]
          split
          · rw [ih]
          · split
            · rw [ih]
            · rfl

end Layout

namespace Cursor

theorem advance_of_view {layout : Layout} {cursor : Cursor} {first : PlacedToken} {rest : List PlacedToken}
    (h : cursor.view layout = first :: rest) :
    ∃ next, cursor.advance layout = some next ∧ next.view layout = rest ∧
      next.index = cursor.index + layout.reach cursor.depth 1 cursor.ahead ∧
      ∀ n, layout.reach cursor.depth (n + 1) cursor.ahead =
        layout.reach cursor.depth 1 cursor.ahead + layout.reach next.depth n next.ahead := by
  obtain ⟨skipped, after, hahead, _, _, _, hrest, hseek, hreach⟩ := Layout.view_eq_cons h cursor.index
  have hone : layout.reach cursor.depth 1 cursor.ahead = skipped.length + 1 := by
    rw [hreach 0, Layout.reach_zero]
  have hdrop : cursor.ahead.drop (skipped.length + 1) = after := by
    have hsplit : skipped ++ first :: after = (skipped ++ [first]) ++ after := by simp
    rw [hahead, hsplit]
    exact List.drop_left' (by simp)
  refine ⟨⟨cursor.index + skipped.length + 1, first.kind.nest cursor.depth, after⟩, ?_, ?_, ?_, ?_⟩
  · rw [advance, lookahead, hseek, Option.map_some]
    have hcount : cursor.index + skipped.length + 1 - cursor.index = skipped.length + 1 := by omega
    simp only [hcount, hdrop]
  · rw [hrest]
    rfl
  · rw [hone, Nat.add_assoc]
  · intro n
    rw [hone, hreach n]

/-- Advancing past tokens of the view moves as far as these tokens reach. -/
theorem advanceBy_index {layout : Layout} {n : Nat} {cursor : Cursor} (h : n ≤ (cursor.view layout).length) :
    (cursor.advanceBy layout n).index = cursor.index + layout.reach cursor.depth n cursor.ahead := by
  induction n generalizing cursor with
  | zero =>
      rw [Layout.reach_zero]
      rfl
  | succ n ih =>
      cases hview : cursor.view layout with
      | nil =>
          rw [hview] at h
          cases h
      | cons first rest =>
          obtain ⟨next, hadvance, hrest, hindex, hreach⟩ := advance_of_view hview
          rw [hview, List.length_cons] at h
          rw [advanceBy, hadvance]
          dsimp only
          rw [ih (by rw [hrest]; omega), hindex, hreach n, Nat.add_assoc]

end Cursor

end ElmNavigation
