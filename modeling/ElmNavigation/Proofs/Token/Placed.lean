import ElmNavigation.Proofs.Text.Coordinates
import ElmNavigation.Proofs.Token.Piece

/-! The tokens of a text behind another text. Reading goes on from place to place, and what is still ahead
is read with the text before it known only by its end: `placedFrom` has the tokens ahead with their
positions in the whole. Blanks and comments leave no token, and line feeds among blanks leave line breaks
only. Whether one token touches another can be read off their positions. -/

namespace ElmNavigation

open Text

namespace Token

/-- The tokens of a text behind another text, with their positions in the whole. -/
def placedFrom (before text : List Char) : List PlacedToken :=
  ((cut (byteLength before) 0 text).filterMap ofLexeme?).map fun token =>
    ⟨token, (LineIndex.ofText (before ++ text)).position token.start⟩

theorem placedFrom_nil (before : List Char) : placedFrom before [] = [] := rfl

theorem placedFrom_blank {c : Char} (hc : isBlank c = true) (before text : List Char) :
    placedFrom before (c :: text) = placedFrom (before ++ [c]) text := by
  rw [placedFrom, placedFrom, cut_blank hc, byteLength_append, List.append_assoc]
  rfl

theorem placedFrom_blanks {blanks : List Char} (h : ∀ d ∈ blanks, isBlank d = true)
    (before text : List Char) :
    placedFrom before (blanks ++ text) = placedFrom (before ++ blanks) text := by
  induction blanks generalizing before with
  | nil => rw [List.nil_append, List.append_nil]
  | cons c blanks ih =>
      rw [List.cons_append, placedFrom_blank (h c (.head _)), ih fun d hd => h d (.tail _ hd),
        List.append_assoc]
      rfl

section

variable {c : Char} {taken rest : List Char} {kind : Option Kind} (hc : isBlank c = false)
  (hmunch : munch c (taken ++ rest) = ⟨kind, taken.length⟩)

include hc hmunch

theorem placedFrom_comment (hkind : kind = some .comment) (before : List Char) :
    placedFrom before (c :: (taken ++ rest)) = placedFrom (before ++ c :: taken) rest := by
  rw [placedFrom, placedFrom, cut_piece hc hmunch, hkind, byteLength_append, List.append_assoc]
  rfl

theorem placedFrom_token (hkind : kind ≠ some .comment) (before : List Char) :
    placedFrom before (c :: (taken ++ rest)) =
      ⟨⟨kind.getD .unknown, c :: taken, byteLength before⟩, Position.endOf before⟩ ::
        placedFrom (before ++ c :: taken) rest := by
  have htoken : ofLexeme? ⟨kind, c :: taken, byteLength before⟩ =
      some ⟨kind.getD .unknown, c :: taken, byteLength before⟩ := by
    cases kind with
    | none => rfl
    | some kind => cases kind <;> first | rfl | exact absurd rfl hkind
  have hposition := LineIndex.position_ofText before (c :: (taken ++ rest))
  rw [placedFrom, placedFrom, cut_piece hc hmunch, List.filterMap_cons_some htoken, List.map_cons, hposition,
    byteLength_append, List.append_assoc]
  rfl

end

/-! ### Line breaks -/

theorem kind_ne_newline {c : Char} {taken rest : List Char} {kind : Option Kind} (hc : c ≠ '\n')
    (h : munch c (taken ++ rest) = ⟨kind, taken.length⟩) : kind.getD .unknown ≠ .newline := by
  cases kind with
  | none => decide
  | some kind => exact fun hkind => hc ((munch_piece h).first_of_newline hkind)

/-- A run of line feeds is one token. -/
theorem munch_newlines {run rest : List Char} (hrun : ∀ d ∈ run, decide (d = '\n') = true)
    (hstop : ∀ d ∈ rest.head?, decide (d = '\n') = false) :
    munch '\n' (run ++ rest) = ⟨some .newline, run.length⟩ := by
  have hmunch : munch '\n' (run ++ rest) = ⟨some .newline, runLength (· = '\n') (run ++ rest)⟩ := rfl
  rw [hmunch, runLength, takeWhile_append_stop hrun hstop]

/-- Line feeds among blanks, and no other line feed behind them, leave line breaks only. -/
theorem exists_placedFrom_gap {gap rest : List Char} (hgap : ∀ d ∈ gap, d = '\n' ∨ isBlank d = true)
    (hstop : ∀ d ∈ rest.head?, decide (d = '\n') = false) (before : List Char) :
    ∃ breaks, (∀ token ∈ breaks, token.kind = .newline) ∧ ('\n' ∈ gap → breaks ≠ []) ∧
      placedFrom before (gap ++ rest) = breaks ++ placedFrom (before ++ gap) rest := by
  -- by the length of the gap, since a token takes a whole run of line feeds
  induction hlength : gap.length using Nat.strongRecOn generalizing gap before with
  | _ length ih =>
      cases gap with
      | nil => exact ⟨[], by simp, by simp, by simp⟩
      | cons c gap =>
          rw [List.length_cons] at hlength
          by_cases hc : c = '\n'
          · subst hc
            obtain ⟨run, tail, rfl, hrun, htail⟩ := exists_run (· = '\n') gap
            have hnext : ∀ d ∈ (tail ++ rest).head?, decide (d = '\n') = false := by
              cases tail with
              | nil => exact hstop
              | cons d tail => exact htail
            obtain ⟨breaks, hbreaks, _, hplaced⟩ := ih tail.length
              (by rw [List.length_append] at hlength; omega)
              (fun d hd => hgap d (.tail _ (List.mem_append_right _ hd))) (before ++ '\n' :: run) rfl
            rw [List.cons_append, List.append_assoc,
              placedFrom_token rfl (munch_newlines hrun hnext) (by decide), hplaced, List.append_assoc]
            exact ⟨_ :: breaks, List.forall_mem_cons.mpr ⟨rfl, hbreaks⟩, fun _ => List.cons_ne_nil _ _, rfl⟩
          · have hblank := (hgap c (.head _)).resolve_left hc
            obtain ⟨breaks, hbreaks, hmore, hplaced⟩ := ih gap.length (by omega)
              (fun d hd => hgap d (.tail _ hd)) (before ++ [c]) rfl
            rw [List.append_assoc] at hplaced
            refine ⟨breaks, hbreaks, fun hmem => hmore ?_, (placedFrom_blank hblank _ _).trans hplaced⟩
            exact (List.mem_cons.mp hmem).resolve_left (Ne.symm hc)

end Token

/-! ### Tokens that touch -/

/-- A token has the place in a text that its start and its position say. -/
def PlacedToken.StandsIn (text : List Char) (token : PlacedToken) : Prop :=
  ∃ before after, text = before ++ (token.chars ++ after) ∧ token.start = byteLength before ∧
    token.position = Position.endOf before

theorem Token.standsIn_of_mem_placed {text : List Char} {token : PlacedToken} (h : token ∈ placed text) :
    token.StandsIn text := by
  obtain ⟨before, after, htext, _, hstart, hposition⟩ := exists_endOf_of_mem_placed h
  exact ⟨before, after, htext, hstart, hposition⟩

/-- A token touches another that has no line break in it if it stands on its line as many characters
further to the right as the other has. -/
theorem PlacedToken.StandsIn.touching_iff {text : List Char} {left right : PlacedToken}
    (hleft : left.StandsIn text) (hright : right.StandsIn text) (hline : '\n' ∉ left.chars) :
    right.start = left.stop ↔ right.position.line = left.position.line ∧
      right.position.column = left.position.column + left.chars.length := by
  obtain ⟨before, after, htext, hstart, hposition⟩ := hleft
  obtain ⟨before', after', htext', hstart', hposition'⟩ := hright
  have hend := endOf_append_of_notMem before hline
  have hplaces : before ++ left.chars ++ after = before' ++ (right.chars ++ after') := by
    rw [← htext', htext, List.append_assoc]
  rw [Token.stop, hstart, hstart', ← byteLength_append, hposition, hposition']
  constructor
  · intro hbytes
    rw [← (append_inj_of_byteLength hplaces hbytes.symm).1, hend]
    exact ⟨rfl, rfl⟩
  · rintro ⟨hsame, hcolumn⟩
    refine (byteLength_eq_of_endOf hplaces ?_ ?_).symm
    · rw [hend, hsame]
    · rw [hend, hcolumn]

end ElmNavigation
