import ElmNavigation.Proofs.Declaration.Concatenation
import ElmNavigation.Proofs.Declaration.Indentation
import ElmNavigation.Proofs.Declaration.Printing
import ElmNavigation.Proofs.Declaration.WellSpelled
import Mathlib.Algebra.Ring.Nat

/-! Declarations come back from their printed text. A declaration is printed on one line, so it owns all
tokens of the line, and the parser accepts a line of tokens that form a declaration. The line break after
it and the word that opens the next one keep printed declarations apart, so lines are read one after the
other. -/

namespace ElmNavigation

open Token Sentence

/-! ### A line of tokens -/

namespace Layout

theorem view_line {layout : Layout} {line breaks : List PlacedToken}
    (hline : ∀ token ∈ line, token.kind ≠ .newline ∧ token.position.line = layout.line)
    (hbreaks : ∀ token ∈ breaks, token.kind = .newline) (depth : Nat) :
    layout.view depth (line ++ breaks) = line := by
  induction line generalizing depth with
  | nil =>
      have hview := view_newlines hbreaks layout depth []
      rwa [List.append_nil] at hview
  | cons token line ih =>
      obtain ⟨hkind, hposition⟩ := hline token (.head _)
      rw [List.cons_append, view_cons_of_owns hkind (owns_iff.mpr (.inl hposition)),
        ih fun token hmem => hline token (.tail _ hmem)]

end Layout

/-! ### A line of text -/

/-- All tokens of a line, and the line break after it, stand on the first line. -/
theorem Token.line_of_mem_placed {line breaks : List Char} (hline : '\n' ∉ line)
    (hbreaks : breaks = [] ∨ breaks = ['\n']) {token : PlacedToken} (hmem : token ∈ placed (line ++ breaks)) :
    token.position.line = 0 := by
  obtain ⟨before, after, htext, _, hstart, hposition⟩ := exists_endOf_of_mem_placed hmem
  have hlt := start_lt_stop_of_mem_tokens (mem_placed_iff.mp hmem).1
  have hchars : 0 < token.chars.length := by
    refine List.length_pos_iff.mpr fun hnil => ?_
    rw [stop, hnil] at hlt
    exact absurd hlt (Nat.lt_irrefl _)
  have hlength := congrArg List.length htext
  have hle : before.length ≤ line.length := by
    have hone : breaks.length ≤ 1 := by
      rcases hbreaks with rfl | rfl <;> decide
    simp only [List.length_append] at hlength
    omega
  have hfront : before = line.take before.length := by
    rw [← List.take_append_of_le_length hle, htext, List.take_left]
  rw [hposition]
  refine List.count_eq_zero.mpr fun hmem => hline ?_
  rw [hfront] at hmem
  exact List.mem_of_mem_take hmem

theorem Statement.exists_display_eq (statement : Statement) :
    ∃ c rest, statement.display.toList = c :: rest ∧ c.isLower = true := by
  cases statement with
  | header decl =>
      obtain ⟨kind, name, exposed, position⟩ := decl
      cases kind <;> simp [display, ModuleKind.words]
  | imported decl => simp [display]
  | union decl => simp [display]
  | aliased decl => simp [display]

theorem Token.exists_tokens_append_breaks {text breaks : List Char} {form : List Token → Prop}
    (h : Spells text form) (hbreaks : breaks = [] ∨ breaks = ['\n']) :
    ∃ newlines, tokens (text ++ breaks) = tokens text ++ newlines ∧
      ∀ token ∈ newlines, token.kind = .newline := by
  rcases hbreaks with rfl | rfl
  · exact ⟨[], by rw [List.append_nil, List.append_nil], by simp⟩
  · have hapart : Apart ['\n'] := .cons ⟨rfl, rfl⟩ []
    have hnewline : tokens ['\n'] = [⟨.newline, ['\n'], 0⟩] := by decide +kernel
    refine ⟨_, (h.breaks ['\n'] hapart).tokens_append, ?_⟩
    rw [hnewline]
    simp

/-- A printed declaration, with or without a line break after it, is read as the declaration. -/
theorem parseWithDiagnostics_line {statement : Statement} (h : statement.WellFormed) {source : String}
    {breaks : List Char} (hsource : source.toList = statement.display.toList ++ breaks)
    (hbreaks : breaks = [] ∨ breaks = ['\n']) :
    parseWithDiagnostics source = (.parsed [statement.place ⟨0, 0, 0⟩], []) := by
  have hspells := h.spells
  obtain ⟨newlines, htokens, hnewlines⟩ := exists_tokens_append_breaks hspells hbreaks
  obtain ⟨c, text, hdisplay, hc⟩ := statement.exists_display_eq
  obtain ⟨first, rest, hfirst, hstart, _⟩ := exists_tokens_eq_cons (isAlphanum_of_isLower hc) text
  rw [← hdisplay] at hfirst
  -- every token gets the position that the whole text has at its start
  let place : Token → PlacedToken :=
    fun token => ⟨token, (Text.LineIndex.ofText source.toList).position token.start⟩
  have hplaced : placed source.toList = place first :: rest.map place ++ newlines.map place := by
    rw [placed, hsource, htokens, hfirst, List.map_append, List.map_cons, ← hsource]
  have hposition : (place first).position = ⟨0, 0, 0⟩ := by
    show (Text.LineIndex.ofText source.toList).position first.start = _
    rw [hstart]
    exact Text.LineIndex.position_ofText [] source.toList
  have hline : ∀ token ∈ place first :: rest.map place,
      token.kind ≠ .newline ∧ token.position.line = (place first).position.line := by
    intro token hmem
    have hall : token ∈ placed source.toList := by
      rw [hplaced]
      exact List.mem_append_left _ hmem
    rw [hsource] at hall
    rw [← List.map_cons, ← hfirst] at hmem
    obtain ⟨bare, hbare, rfl⟩ := List.mem_map.mp hmem
    refine ⟨kind_ne_newline_of_mem_tokens hspells.line hbare, ?_⟩
    rw [hposition]
    exact line_of_mem_placed hspells.line hbreaks hall
  have hdeclaration : Declaration (place first).position ((place first :: rest.map place).map (·.toToken))
      (statement.place ⟨0, 0, 0⟩) := by
    have hform := hspells.form 0 ⟨0, 0, 0⟩
    have hmove : (first :: rest).map (Token.move 0) = first :: rest := List.map_id _
    have hbare : (first :: rest).map ((·.toToken) ∘ place) = first :: rest := List.map_id _
    rw [hfirst, hmove] at hform
    rwa [hposition, ← List.map_cons, List.map_map, hbare]
  have hnewlines' : ∀ token ∈ newlines.map place, token.kind = .newline := by
    intro token hmem
    obtain ⟨bare, hbare, rfl⟩ := List.mem_map.mp hmem
    exact hnewlines bare hbare
  have hfilter : (placed source.toList).filter (·.kind ≠ .newline) = place first :: rest.map place := by
    have hdropped : (newlines.map place).filter (·.kind ≠ .newline) = [] := by
      refine List.filter_eq_nil_iff.mpr fun token hmem => ?_
      simpa using hnewlines' token hmem
    rw [hplaced, List.filter_append, hdropped, List.append_nil]
    exact List.filter_eq_self.mpr fun token hmem => decide_eq_true (hline token hmem).1
  have hview : (Layout.ofToken (place first)).view 0 (placed source.toList) =
      place first :: rest.map place := by
    rw [hplaced]
    exact Layout.view_line hline hnewlines' 0
  exact parseWithDiagnostics_of_view hfilter hview hdeclaration

/-! ### Lines of text -/

/-- The offset of the line with the given number when declarations are printed one a line. -/
def Statement.lineStart (statements : List Statement) (line : Nat) : Nat :=
  ((statements.take line).map fun statement => Text.byteLength statement.display.toList + 1).sum

/-- Declarations at the start of the lines on which they are printed. -/
def Statement.placeLines (statements : List Statement) : List Statement :=
  statements.mapIdx fun line statement => statement.place ⟨line, 0, lineStart statements line⟩

theorem Statement.lineStart_cons (statement : Statement) (statements : List Statement) (line : Nat) :
    lineStart (statement :: statements) (line + 1) =
      lineStart statements line + (Text.byteLength statement.display.toList + 1) := by
  rw [lineStart, List.take_succ_cons, List.map_cons, List.sum_cons, Nat.add_comm, lineStart]

theorem Statement.move_place (lines bytes : Nat) (position : Position) (statement : Statement) :
    (statement.place position).move lines bytes = statement.place (position.move lines bytes) := by
  cases statement <;> rfl

theorem Statement.placeLines_cons (statement : Statement) (statements : List Statement) :
    placeLines (statement :: statements) = statement.place ⟨0, 0, 0⟩ ::
      (placeLines statements).map (move 1 (Text.byteLength statement.display.toList + 1)) := by
  rw [placeLines, placeLines, List.mapIdx_cons]
  congr 1
  ext1 line
  simp only [List.getElem?_mapIdx, List.getElem?_map, Option.map_map, lineStart_cons]
  congr 1
  funext later
  rw [Function.comp_apply, move_place]
  rfl

theorem Token.exists_placed_eq_cons {c : Char} (hc : c.isLower = true) (text : List Char) :
    ∃ word first rest, placed (c :: text) = first :: rest ∧ first.kind = Kind.ofWord word ∧
      first.position = ⟨0, 0, 0⟩ := by
  obtain ⟨first, rest, htokens, hstart, hkind⟩ := exists_tokens_eq_cons (isAlphanum_of_isLower hc) text
  obtain ⟨word, hword⟩ := hkind hc
  refine ⟨word, _, _, by rw [placed, htokens, List.map_cons], hword, ?_⟩
  rw [hstart]
  exact Text.LineIndex.position_ofText [] (c :: text)

/-- A text that begins with a small letter begins afresh. -/
theorem Token.beginsAfresh_of_isLower {c : Char} (hc : c.isLower = true) (text : List Char) :
    BeginsAfresh (c :: text) := by
  obtain ⟨word, first, rest, hplaced, hkind, hposition⟩ := exists_placed_eq_cons hc text
  intro token htoken
  rw [hplaced] at htoken
  cases htoken
  have hcloser : ∀ kind ∈ Kind.lowerName :: Kind.reserved.map Prod.snd, kind.isCloser = false := by decide
  rw [hkind, hposition]
  exact ⟨Kind.ofWord_ne (by decide), hcloser _ (lookup_getD_mem Kind.reserved .lowerName word), rfl⟩

/-- A line break after a text that spells something. -/
theorem Token.Spells.breaks_newline {text : List Char} {form : List Token → Prop} (h : Spells text form)
    {c : Char} (hc : c ≠ '\n') (after : List Char) : Breaks (text ++ ['\n']) (c :: after) := by
  have hmunch : munch '\n' ([] ++ c :: after) = ⟨some .newline, 0⟩ := by
    have hrun : runLength (· = '\n') (c :: after) = 0 := by
      rw [runLength, List.takeWhile_cons_of_neg (by simpa using hc), List.length_nil]
    show Munch.mk (some .newline) (runLength (· = '\n') (c :: after)) = _
    rw [hrun]
  have hnewline : Breaks ['\n'] (c :: after) := breaks_of_munch rfl hmunch
  exact (h.breaks _ (.cons ⟨rfl, rfl⟩ _)).trans hnewline

/-- Printed declarations, one a line, are read as the declarations. -/
theorem parseWithDiagnostics_lines {statements : List Statement}
    (h : ∀ statement ∈ statements, statement.WellFormed) :
    parseWithDiagnostics ("\n".intercalate (statements.map Statement.display)) =
      (.parsed (Statement.placeLines statements), []) := by
  induction statements with
  | nil => rfl
  | cons statement statements ih =>
      have hfirst := h statement (.head _)
      cases statements with
      | nil =>
          rw [List.map_singleton, String.intercalate_singleton]
          exact parseWithDiagnostics_line hfirst (List.append_nil _).symm (.inl rfl)
      | cons next statements =>
          have hrest := ih fun statement hmem => h statement (.tail _ hmem)
          obtain ⟨c, text, hdisplay, hc⟩ := next.exists_display_eq
          obtain ⟨after, hafter⟩ := exists_intercalate_eq "\n" next.display (statements.map Statement.display)
          rw [hdisplay, List.cons_append] at hafter
          rw [List.map_cons] at hrest
          generalize hlater : "\n".intercalate (next.display :: statements.map Statement.display) = later
            at hrest hafter
          rw [List.map_cons, List.map_cons, String.intercalate_cons_cons, hlater]
          have hline : (statement.display ++ "\n").toList = statement.display.toList ++ ['\n'] := by simp
          -- the break ends the first line, and the word that opens the next declaration begins afresh
          have hnewline : c ≠ '\n' := by
            rintro rfl
            cases hc
          have hbreaks := hfirst.spells.breaks_newline hnewline (text ++ after)
          rw [← hline, ← hafter] at hbreaks
          have hne : later.toList ≠ [] := by
            rw [hafter]
            exact List.cons_ne_nil _ _
          have hfresh : BeginsAfresh later.toList := by
            rw [hafter]
            exact beginsAfresh_of_isLower hc _
          obtain ⟨_, _, _, _, hbefore, hsecond, hwhole⟩ :=
            Breaks.parseWithDiagnostics_append _ later hbreaks hne (.inr ⟨_, hline⟩) hfresh
          rw [parseWithDiagnostics_line hfirst hline (.inr rfl)] at hbefore
          rw [hrest] at hsecond
          cases hbefore
          cases hsecond
          have hcount : (statement.display ++ "\n").toList.count '\n' = 1 := by
            rw [hline, List.count_append, List.count_eq_zero.mpr hfirst.spells.line]
            rfl
          have hbytes : Text.byteLength (statement.display ++ "\n").toList =
              Text.byteLength statement.display.toList + 1 := by
            rw [hline, Text.byteLength_append]
            rfl
          rw [hwhole, hcount, hbytes, Statement.placeLines_cons statement]
          rfl

/-- What is read is well formed, and well-formed declarations that are printed one a line are read back:
all of them, in their order and with nothing to report, each with the start of its line for a position. -/
theorem parse_display_roundTrip :
    (∀ source : String, ∀ statement ∈ (parse source).statements, statement.WellFormed) ∧
      ∀ statements : List Statement, (∀ statement ∈ statements, statement.WellFormed) →
        parseWithDiagnostics ("\n".intercalate (statements.map Statement.display)) =
          (.parsed (statements.mapIdx fun line statement =>
            statement.place ⟨line, 0, Statement.lineStart statements line⟩), []) := by
  refine ⟨fun source statement hmem => wellFormed_of_mem_statements hmem, fun statements h => ?_⟩
  exact parseWithDiagnostics_lines h

/-- A function as an argument of a function keeps its parentheses, and an operator those of its own. -/
theorem parse_display_roundTrip_two_lines :
    parseWithDiagnostics "import A.B as C exposing (f, (-))\ntype alias T = (a -> b) -> ()" =
      (.parsed [.imported ⟨"A.B", some "C", .list [.value "f", .operator "-"], ⟨0, 0, 0⟩⟩,
        .aliased ⟨"T", .function [.function [.var "a", .var "b"], .tuple []], ⟨1, 0, 34⟩⟩], []) := by
  have hpair : ∀ {α : Type} {p : α → Prop} {a b : α}, p a → p b → ∀ c ∈ [a, b], p c := by
    simp +contextual
  have hupper : ∀ name ∈ ["A", "B", "C", "T"], IsUpperName name := by
    simp [IsUpperName]
  have hlower : ∀ name ∈ ["a", "b", "f"], IsLowerName name := by
    simp [IsLowerName]
  let first : Statement := .imported ⟨"A.B", some "C", .list [.value "f", .operator "-"], ⟨7, 0, 90⟩⟩
  let second : Statement := .aliased ⟨"T", .function [.function [.var "a", .var "b"], .tuple []], ⟨3, 2, 17⟩⟩
  have hoperator : IsOperator "-" := ⟨by decide, List.all_eq_true.mp (by decide), by decide, by decide⟩
  have hqualified : IsQualifiedName "A.B" :=
    ⟨["A", "B"], by decide, hpair (hupper "A" (by decide)) (hupper "B" (by decide)), by decide +kernel⟩
  have hfirst : first.WellFormed := by
    refine ⟨hqualified, ?_, List.cons_ne_nil _ _, hpair (hlower "f" (by decide)) hoperator⟩
    rintro _ ⟨⟩
    exact hupper "C" (by decide)
  have hsecond : second.WellFormed := by
    refine ⟨hupper "T" (by decide), .function (by decide) (hpair ?_ (.tuple (.inl rfl) (by simp)))⟩
    refine .function (by decide) (hpair (.var ?_) (.var ?_))
    · exact hlower "a" (by decide)
    · exact hlower "b" (by decide)
  have htext : "\n".intercalate ([first, second].map Statement.display) =
      "import A.B as C exposing (f, (-))\ntype alias T = (a -> b) -> ()" := by
    decide +kernel
  have hstart : Statement.lineStart [first, second] 1 = 34 := by decide +kernel
  have hlines := parse_display_roundTrip.2 [first, second] (hpair hfirst hsecond)
  rw [htext, List.mapIdx_cons, List.mapIdx_singleton, hstart] at hlines
  exact hlines

end ElmNavigation
