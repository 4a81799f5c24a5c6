import ElmNavigation.Declaration.Report
import ElmNavigation.Proofs.Declaration.Recovery
import ElmNavigation.Proofs.Text.Boundaries
import ElmNavigation.Proofs.Text.Places

/-! Where a report points. A diagnostic marks a token, or the end of one, so what it marks begins and ends
between two characters of the source. A report counts lines by walking over the characters, and its lines
end at more characters than those of a position. Where line feeds, with or without a carriage return
before them, are the only line breaks of a source, both come to the same line and column; only behind a
line feed that ends the source does a report still stand on the line which that line feed ends. -/

namespace ElmNavigation

open Text

/-! ### What a diagnostic marks -/

/-- A diagnostic marks a token of the source, or the end of one. -/
theorem exists_span_of_mem_diagnostics {source : String} {diagnostic : Diagnostic}
    (h : diagnostic ∈ (parseWithDiagnostics source).2) :
    ∃ token ∈ Token.tokens source.toList,
      diagnostic.span = token.span ∨ diagnostic.span = ⟨token.stop, token.stop⟩ := by
  obtain ⟨constructs, hreads, _⟩ := exists_constructs source.toList
  rw [parseWithDiagnostics_of_reads hreads] at h
  obtain ⟨construct, hmem, hdiagnostic⟩ := List.mem_filterMap.mp h
  obtain ⟨before, first, rest, hplaced, hkind, rfl⟩ := hreads.exists_of_mem hmem
  have hview := Layout.view_cons_of_owns hkind (Layout.owns_ofToken 0 first) rest
  have hsub := (Layout.view_prefix (Layout.ofToken first) 0 (first :: rest)).subset
  rw [Construct.read_eq, Construct.ofView, Construct.diagnostic?] at hdiagnostic
  split at hdiagnostic
  · next rejected houtcome =>
      obtain rfl := Option.some.inj hdiagnostic
      split at houtcome
      · cases houtcome
      · dsimp only at houtcome
        split at houtcome
        · cases houtcome
        · next mismatch herror =>
            cases houtcome
            obtain ⟨token, htoken, hspan⟩ := Construct.exists_span_of_rejected herror
              (by rw [hview]; exact List.cons_ne_nil _ _)
            obtain ⟨placed, hmember, rfl⟩ := List.mem_map.mp htoken
            refine ⟨placed.toToken, (Token.mem_placed_iff.mp ?_).1, hspan⟩
            rw [hplaced]
            exact List.mem_append_right _ (List.mem_filter.mp (hsub hmember)).1
  · cases hdiagnostic

/-- What a diagnostic marks stands between two places of the source, which is not empty. -/
theorem exists_split_of_mem_diagnostics {source : String} {diagnostic : Diagnostic}
    (h : diagnostic ∈ (parseWithDiagnostics source).2) :
    ∃ before between after, source.toList = before ++ (between ++ after) ∧ source.toList ≠ [] ∧
      diagnostic.span = ⟨byteLength before, byteLength (before ++ between)⟩ := by
  obtain ⟨token, hmem, hspan⟩ := exists_span_of_mem_diagnostics h
  obtain ⟨before, c, taken, after, hsource, _, _, hchars, hstart, _⟩ := Token.exists_breaks_of_mem_tokens hmem
  have hstop : token.stop = byteLength (before ++ (c :: taken)) := by
    rw [Token.stop, hstart, hchars, byteLength_append]
  have hne : source.toList ≠ [] := by
    rw [hsource]
    simp
  rcases hspan with hspan | hspan
  · refine ⟨before, c :: taken, after, hsource, hne, ?_⟩
    rw [hspan, Token.span, hstop, hstart]
  · refine ⟨before ++ (c :: taken), [], after, ?_, hne, ?_⟩
    · rw [hsource, List.append_assoc, List.nil_append]
    · rw [hspan, hstop, List.append_nil]

namespace Report

/-! ### Walking over a text -/

theorem exists_walk {text : List Char} {n : Nat} (h : n ≤ text.length) (line column : Nat) :
    ∃ place, walk line column n text = some place := by
  induction text generalizing n line column with
  | nil =>
      obtain rfl := Nat.le_zero.mp h
      exact ⟨_, rfl⟩
  | cons c text ih =>
      cases n with
      | zero => exact ⟨_, rfl⟩
      | succ n =>
          rw [walk]
          split
          · exact ih (Nat.le_of_succ_le_succ h) _ _
          · exact ih (Nat.le_of_succ_le_succ h) _ _

/-- While a line begins behind line feeds and nowhere else, a report stands at the end of what it has
walked over. -/
theorem walk_eq_endOf {text after : List Char}
    (h : ∀ left c right, text = left ++ c :: right → beginsLine c (right ++ after) = decide (c = '\n'))
    (before : List Char) :
    walk (Position.endOf before).line (Position.endOf before).column text.length (text ++ after) =
      some ((Position.endOf (before ++ text)).line, (Position.endOf (before ++ text)).column) := by
  induction text generalizing before with
  | nil =>
      rw [List.append_nil]
      rfl
  | cons c text ih =>
      have hlater := ih (fun left d right htext => h (c :: left) d right (by rw [htext]; rfl)) (before ++ [c])
      rw [List.append_assoc, List.singleton_append] at hlater
      rw [List.length_cons, List.cons_append, walk, h [] c text rfl]
      by_cases hc : c = '\n'
      · subst hc
        rw [endOf_append_of_mem before (List.mem_singleton_self '\n')] at hlater
        exact hlater
      · rw [endOf_append_of_notMem before (by rwa [List.mem_singleton, eq_comm])] at hlater
        rw [decide_eq_false hc]
        exact hlater

/-- In a text whose only line breaks are line feeds, with or without a carriage return before them, a line
begins behind a line feed that more text follows, and nowhere else. -/
theorem beginsLine_eq {text left right : List Char} {c : Char}
    (hreturn : ∀ i, text[i]? = some '\r' → text[i + 1]? = some '\n')
    (hbreaks : ∀ d ∈ ['\x0b', '\x0c', '\u0085', '\u2028', '\u2029'], d ∉ text)
    (htext : text = left ++ c :: right) (hmore : c = '\n' → right ≠ []) :
    beginsLine c right = decide (c = '\n') := by
  by_cases hc : c = '\n'
  · subst hc
    have hright : right.isEmpty = false := by simpa using hmore rfl
    rw [beginsLine, hright]
    rfl
  · rw [decide_eq_false hc]
    by_cases hfirst : c = '\r'
    · -- the first half of a line break of two characters
      subst hfirst
      have hhead := hreturn left.length (by rw [htext]; simp)
      rw [htext, List.getElem?_append_right (by omega), Nat.add_sub_cancel_left, List.getElem?_cons_succ,
        ← List.head?_eq_getElem?] at hhead
      rw [beginsLine, hhead]
      simp
    · have hmem : c ∈ text := by
        rw [htext]
        simp
      have hother : ∀ d ∈ ['\x0b', '\x0c', '\u0085', '\u2028', '\u2029'], c ≠ d :=
        fun d hd heq => hbreaks d hd (heq ▸ hmem)
      have hline : isLineBreak c = false := by
        simp only [List.forall_mem_cons] at hother
        obtain ⟨hvertical, hform, hnext, hseparator, hparagraph, _⟩ := hother
        simp only [isLineBreak, Bool.or_eq_false_iff, beq_eq_false_iff_ne]
        exact ⟨⟨⟨⟨⟨⟨hc, hfirst⟩, hvertical⟩, hform⟩, hnext⟩, hseparator⟩, hparagraph⟩
      rw [beginsLine, hline]
      rfl

theorem charOffset_byteLength (before after : List Char) :
    charOffset (before ++ after) (byteLength before) = before.length := by
  have hmin : min (byteLength before) (byteLength (before ++ after)) = byteLength before := by
    rw [byteLength_append]
    omega
  rw [charOffset, hmin, charsIn?_byteLength, Option.getD_some]

/-- What is marked between two places of a text that is not empty has a mark, at the place that walking
over the text before it comes to. -/
theorem exists_mark_of_split {text before between after : List Char} {diagnostic : Diagnostic}
    (htext : text = before ++ (between ++ after)) (hne : text ≠ [])
    (hspan : diagnostic.span = ⟨byteLength before, byteLength (before ++ between)⟩) {line column : Nat}
    (hwalk : walk 0 0 before.length text = some (line, column)) :
    ∃ label, mark? text diagnostic = some ⟨line, column, label⟩ := by
  have hplace : ∀ n, place? text n = walk 0 0 n text := by
    intro n
    rw [place?, List.isEmpty_eq_false_iff.mpr hne]
    rfl
  have hfirst : charOffset text diagnostic.span.start = before.length := by
    rw [hspan, htext]
    exact charOffset_byteLength _ _
  have hstop : charOffset text diagnostic.span.stop = (before ++ between).length := by
    rw [hspan, htext, ← List.append_assoc]
    exact charOffset_byteLength _ _
  have hlength : before.length + between.length ≤ text.length := by
    rw [htext, List.length_append, List.length_append]
    omega
  obtain ⟨last, hlast⟩ := @exists_walk text
    (max before.length (max before.length (before ++ between).length - 1))
    (by rw [List.length_append]; omega) 0 0
  rw [mark?, hfirst, hstop, markAt?, hplace, hplace, hwalk, hlast]
  exact ⟨_, rfl⟩

end Report

/-- **Reports point where positions say.** What a diagnostic of a source marks begins and ends between two
characters of the source. If every carriage return of the source has a line feed behind it, and it has no
other line breaks, the report of the diagnostic has for its location the line and column of the position
where the mark begins, unless this is the end of a source that ends with a line feed. -/
theorem Report.location_eq_display {source : String}
    (hreturn : ∀ i, source.toList[i]? = some '\r' → source.toList[i + 1]? = some '\n')
    (hbreaks : ∀ c ∈ ['\x0b', '\x0c', '\u0085', '\u2028', '\u2029'], c ∉ source.toList) (filename : String) :
    ∀ diagnostic ∈ (parseWithDiagnostics source).2,
      diagnostic.span.start ≤ diagnostic.span.stop ∧ diagnostic.span.stop ≤ source.utf8ByteSize ∧
      String.Pos.Raw.IsValid source ⟨diagnostic.span.start⟩ ∧
      String.Pos.Raw.IsValid source ⟨diagnostic.span.stop⟩ ∧
      (¬ (diagnostic.span.start = source.utf8ByteSize ∧ source.toList.getLast? = some '\n') →
        ∃ mark, (ofDiagnostic source filename diagnostic).mark = some mark ∧
          mark.location = ((LineIndex.ofText source.toList).position diagnostic.span.start).display) := by
  intro diagnostic hmem
  obtain ⟨before, between, after, hsource, hne, hspan⟩ := exists_split_of_mem_diagnostics hmem
  have hsource' : source.toList = before ++ between ++ after := by rw [hsource, List.append_assoc]
  rw [hspan]
  refine ⟨?_, ?_, isValid_byteLength hsource, isValid_byteLength hsource', ?_⟩
  · rw [byteLength_append]
    exact Nat.le_add_right _ _
  · rw [utf8ByteSize_eq, hsource', byteLength_append _ after]
    exact Nat.le_add_right _ _
  · intro hend
    have hlines : ∀ left c right, before = left ++ c :: right →
        beginsLine c (right ++ (between ++ after)) = decide (c = '\n') := by
      intro left c right hbefore
      refine beginsLine_eq hreturn hbreaks (by rw [hsource, hbefore, List.append_assoc]; rfl) ?_
      rintro rfl hnil
      obtain ⟨rfl, hrest⟩ := List.append_eq_nil_iff.mp hnil
      rw [hrest, List.append_nil] at hsource
      refine hend ⟨by rw [utf8ByteSize_eq, hsource], ?_⟩
      rw [hsource, hbefore, List.getLast?_concat]
    have hwalk := walk_eq_endOf hlines []
    rw [List.nil_append, ← hsource] at hwalk
    obtain ⟨label, hmark⟩ := exists_mark_of_split hsource hne hspan hwalk
    refine ⟨_, hmark, ?_⟩
    rw [hsource, LineIndex.position_ofText]
    rfl

-- the exception: a string without end leaves the block of a module open and takes the line feed that ends
-- the source
example : (parseWithDiagnostics "effect module A where \x7b\"\"\"\n").2.map (fun diagnostic =>
      ((Report.ofDiagnostic "effect module A where \x7b\"\"\"\n" "A.elm" diagnostic).mark.map Mark.location,
        ((LineIndex.ofText "effect module A where \x7b\"\"\"\n".toList).position
          diagnostic.span.start).display)) =
    [(some "1:28", "2:1")] := by
  decide +kernel

/-- A declaration that ends too soon, before a carriage return and behind a character of two bytes, is
marked behind its last token. -/
theorem Report.location_eq_display_at_end :
    (parseWithDiagnostics "\x7b-é-\x7d\r\n  type A =\r\n").2 =
        [⟨"expected uppercase identifier, found end of declaration", ⟨18, 18⟩⟩] ∧
      ∃ mark, (ofDiagnostic "\x7b-é-\x7d\r\n  type A =\r\n" "A.elm"
          ⟨"expected uppercase identifier, found end of declaration", ⟨18, 18⟩⟩).mark = some mark ∧
        mark.location = "2:11" := by
  have hdiagnostics : (parseWithDiagnostics "\x7b-é-\x7d\r\n  type A =\r\n").2 =
      [⟨"expected uppercase identifier, found end of declaration", ⟨18, 18⟩⟩] := by
    decide +kernel
  have hreturn : ∀ i, "\x7b-é-\x7d\r\n  type A =\r\n".toList[i]? = some '\r' →
      "\x7b-é-\x7d\r\n  type A =\r\n".toList[i + 1]? = some '\n' := by
    have hall : ∀ i < 19, "\x7b-é-\x7d\r\n  type A =\r\n".toList[i]? = some '\r' →
        "\x7b-é-\x7d\r\n  type A =\r\n".toList[i + 1]? = some '\n' := by
      decide
    exact fun i hi => hall i (List.getElem?_eq_some_iff.mp hi).1 hi
  have hbreaks : ∀ c ∈ ['\x0b', '\x0c', '\u0085', '\u2028', '\u2029'],
      c ∉ "\x7b-é-\x7d\r\n  type A =\r\n".toList := by
    have hall : (['\x0b', '\x0c', '\u0085', '\u2028', '\u2029'].all fun c =>
        decide (c ∉ "\x7b-é-\x7d\r\n  type A =\r\n".toList)) = true := by
      decide
    exact fun c hc => of_decide_eq_true (List.all_eq_true.mp hall c hc)
  have hposition : ((LineIndex.ofText "\x7b-é-\x7d\r\n  type A =\r\n".toList).position 18).display =
      "2:11" := by
    decide +kernel
  obtain ⟨_, _, _, _, hlocation⟩ :=
    location_eq_display hreturn hbreaks "A.elm" _ (by rw [hdiagnostics]; exact .head _)
  have hinside : ¬ (18 = "\x7b-é-\x7d\r\n  type A =\r\n".utf8ByteSize ∧
      "\x7b-é-\x7d\r\n  type A =\r\n".toList.getLast? = some '\n') := by
    decide
  obtain ⟨mark, hmark, hdisplay⟩ := hlocation hinside
  exact ⟨hdiagnostics, mark, hmark, hdisplay.trans hposition⟩

end ElmNavigation
