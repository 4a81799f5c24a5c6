import ElmNavigation.Proofs.Declaration.Parallel
import ElmNavigation.Proofs.Token.LineBreaks
import ElmNavigation.Proofs.Token.Placed

/-! The tokens of a text beside those of the text with other line breaks. Whatever the breaks are, a run
of line feeds becomes a gap that holds line breaks only, and a blank stays a blank. So what is left to
compare are the single pieces, and the rest is one induction over the text. -/

namespace ElmNavigation

open Text

variable {like tail : PlacedToken → PlacedToken → Prop}

/-- Pieces of one kind, and what comes after them, stand side by side. -/
theorem Parallel.piece {before before' taken taken' rest rest' : List Char} {c : Char} {kind : Option Kind}
    (hc : c ≠ '\n') (hblank : Token.isBlank c = false)
    (h : Token.munch c (taken ++ rest) = ⟨kind, taken.length⟩)
    (h' : Token.munch c (taken' ++ rest') = ⟨kind, taken'.length⟩)
    (htoken : kind ≠ some .comment →
      like ⟨⟨kind.getD .unknown, c :: taken, byteLength before⟩, Position.endOf before⟩
        ⟨⟨kind.getD .unknown, c :: taken', byteLength before'⟩, Position.endOf before'⟩)
    (hrest : Parallel like tail (Token.placedFrom (before ++ c :: taken) rest)
      (Token.placedFrom (before' ++ c :: taken') rest')) :
    Parallel like tail (Token.placedFrom before (c :: (taken ++ rest)))
      (Token.placedFrom before' (c :: (taken' ++ rest'))) := by
  by_cases hkind : kind = some .comment
  · rw [Token.placedFrom_comment hblank h hkind, Token.placedFrom_comment hblank h' hkind]
    exact hrest
  · rw [Token.placedFrom_token hblank h hkind, Token.placedFrom_token hblank h' hkind]
    exact .token (Token.kind_ne_newline hc h) (htoken hkind) hrest

/-- Gaps with line breaks stand side by side. -/
theorem Parallel.gap {before before' gap gap' rest rest' : List Char}
    (hgap : ∀ d ∈ gap, d = '\n' ∨ Token.isBlank d = true)
    (hgap' : ∀ d ∈ gap', d = '\n' ∨ Token.isBlank d = true) (hbreak : '\n' ∈ gap) (hbreak' : '\n' ∈ gap')
    (hstop : ∀ d ∈ rest.head?, decide (d = '\n') = false)
    (hstop' : ∀ d ∈ rest'.head?, decide (d = '\n') = false)
    (hrest : Parallel like tail (Token.placedFrom (before ++ gap) rest)
      (Token.placedFrom (before' ++ gap') rest')) :
    Parallel like tail (Token.placedFrom before (gap ++ rest))
      (Token.placedFrom before' (gap' ++ rest')) := by
  obtain ⟨breaks, hkinds, hne, hplaced⟩ := Token.exists_placedFrom_gap hgap hstop before
  obtain ⟨breaks', hkinds', hne', hplaced'⟩ := Token.exists_placedFrom_gap hgap' hstop' before'
  obtain ⟨first, more, rfl⟩ := List.exists_cons_of_ne_nil (hne hbreak)
  obtain ⟨first', more', rfl⟩ := List.exists_cons_of_ne_nil (hne' hbreak')
  rw [hplaced, hplaced']
  exact .newlines hkinds hkinds' hrest

/-- The tokens of a text behind another run beside those that it has with a margin in front and other line
breaks. -/
def ParallelBreaks (like tail : PlacedToken → PlacedToken → Prop)
    (feed margin before text : List Char) : Prop :=
  Parallel like tail (Token.placedFrom before text)
    (Token.placedFrom (margin ++ breakWith feed before) (breakWith feed text))

section

variable {feed margin : List Char}

theorem ParallelBreaks.nil (before : List Char) : ParallelBreaks like tail feed margin before [] := by
  rw [ParallelBreaks, breakWith_nil, Token.placedFrom_nil, Token.placedFrom_nil]
  exact .nil

theorem ParallelBreaks.blank {before text : List Char} {c : Char} (hblank : Token.isBlank c = true)
    (hrest : ParallelBreaks like tail feed margin (before ++ [c]) text) :
    ParallelBreaks like tail feed margin before (c :: text) := by
  have hc : c ≠ '\n' := by
    rintro rfl
    cases hblank
  rw [ParallelBreaks, breakWith_append, breakWith_cons hc, ← List.append_assoc] at hrest
  rwa [ParallelBreaks, breakWith_cons hc, Token.placedFrom_blank hblank, Token.placedFrom_blank hblank]

theorem ParallelBreaks.newlines (hfeed : LineBreak feed) {before run rest : List Char}
    (hrun : ∀ d ∈ run, decide (d = '\n') = true) (hbreak : '\n' ∈ run)
    (hstop : ∀ d ∈ rest.head?, decide (d = '\n') = false)
    (hrest : ParallelBreaks like tail feed margin (before ++ run) rest) :
    ParallelBreaks like tail feed margin before (run ++ rest) := by
  have hbreak' : '\n' ∈ breakWith feed run := by
    rwa [← List.count_pos_iff, count_breakWith hfeed, List.count_pos_iff]
  rw [ParallelBreaks, breakWith_append, ← List.append_assoc] at hrest
  rw [ParallelBreaks, breakWith_append]
  refine .gap (fun d hd => .inl (of_decide_eq_true (hrun d hd))) (forall_mem_breakWith hfeed hrun) hbreak
    hbreak' hstop ?_ hrest
  rwa [head?_breakWith_of_ne hstop]

/-- Texts run side by side if all their pieces do, given that what comes after a piece does. -/
theorem parallelBreaks_of_pieces (hfeed : LineBreak feed) {whole : List Char}
    (hpiece : ∀ before c text, whole = before ++ c :: text → c ≠ '\n' → Token.isBlank c = false →
      (∀ front rest, front ≠ [] → c :: text = front ++ rest →
        ParallelBreaks like tail feed margin (before ++ front) rest) →
      ParallelBreaks like tail feed margin before (c :: text)) {before text : List Char}
    (hwhole : whole = before ++ text) : ParallelBreaks like tail feed margin before text := by
  -- by the length of the text, since a piece takes more than one character at a time
  induction hlength : text.length using Nat.strongRecOn generalizing before text with
  | _ length ih =>
      have hlater : ∀ front rest, front ≠ [] → text = front ++ rest →
          ParallelBreaks like tail feed margin (before ++ front) rest := by
        rintro front rest hfront rfl
        have hpos := List.length_pos_iff.mpr hfront
        refine ih rest.length ?_ (by rw [hwhole, List.append_assoc]) rfl
        rw [← hlength, List.length_append]
        omega
      cases text with
      | nil => exact .nil before
      | cons c text =>
          by_cases hc : c = '\n'
          · subst hc
            obtain ⟨run, rest, rfl, hrun, hstop⟩ := Token.exists_run (· = '\n') text
            have hrun' : ∀ d ∈ '\n' :: run, decide (d = '\n') = true := List.forall_mem_cons.mpr ⟨rfl, hrun⟩
            have hrest := hlater ('\n' :: run) rest (List.cons_ne_nil _ _) rfl
            rw [← List.cons_append]
            exact .newlines hfeed hrun' (.head _) hstop hrest
          by_cases hblank : Token.isBlank c = true
          · exact .blank hblank (hlater [c] text (List.cons_ne_nil _ _) rfl)
          · exact hpiece before c text hwhole hc (Bool.not_eq_true _ ▸ hblank) hlater

end

end ElmNavigation
