import ElmNavigation.Proofs.Declaration.Completeness
import ElmNavigation.Proofs.Declaration.Constructs

/-! Declarations may be broken into lines and indented in any way. In a sentence of the grammar every
bracket has its partner, so a closing bracket always comes while one is open, and a construct owns it in
whatever column it stands. If all other tokens are on the first line or indented past the first token, the
construct owns the whole sentence, and the grammar takes all of it. -/

namespace ElmNavigation

def Kind.isBracket (kind : Kind) : Bool :=
  kind.isOpener || kind.isCloser

theorem Kind.isBracket_of_isName {kind : Kind} (h : kind.isName = true) : kind.isBracket = false := by
  cases kind <;> first | rfl | cases h

theorem Kind.isCloser_of_isOpener {kind : Kind} (h : kind.isOpener = true) : kind.isCloser = false := by
  cases kind <;> first | rfl | cases h

theorem Kind.nest_of_isOpener {kind : Kind} (h : kind.isOpener = true) (depth : Nat) :
    kind.nest depth = depth + 1 := by
  rw [nest, if_pos h]

theorem Kind.nest_of_isCloser {kind : Kind} (h : kind.isCloser = true) (depth : Nat) :
    kind.nest (depth + 1) = depth := by
  have hopener : kind.isOpener ≠ true := fun hopener => by
    rw [isCloser_of_isOpener hopener] at h
    cases h
  rw [nest, if_neg hopener, if_pos h, Nat.add_sub_cancel]

namespace Sentence

/-! ### Brackets -/

/-- Tokens in which every bracket has its partner. -/
inductive Bracketed : List Token → Prop where
  | nil : Bracketed []
  | other {token : Token} {rest : List Token} (htoken : token.kind.isBracket = false)
      (hrest : Bracketed rest) : Bracketed (token :: rest)
  | nested {opener closer : Token} {inner rest : List Token} (hopen : opener.kind.isOpener = true)
      (hinner : Bracketed inner) (hclose : closer.kind.isCloser = true) (hrest : Bracketed rest) :
      Bracketed (opener :: (inner ++ closer :: rest))

/-- Whether every closing bracket comes while one is open, where `depth` are open before the first token. -/
def Covered : Nat → List Token → Prop
  | _, [] => True
  | depth, token :: rest => (token.kind.isCloser = true → 0 < depth) ∧ Covered (token.kind.nest depth) rest

namespace Bracketed

theorem mark {token : Token} {rest : List Token} {kind : Kind} (h : token.kind = kind)
    (hkind : kind.isBracket = false) (hrest : Bracketed rest) : Bracketed (token :: rest) :=
  .other (by rwa [h]) hrest

theorem name {token : Token} {rest : List Token} (h : token.kind.isName = true) (hrest : Bracketed rest) :
    Bracketed (token :: rest) :=
  .other (Kind.isBracket_of_isName h) hrest

theorem enclosed {opener closer : Token} {kind kind' : Kind} {inner : List Token} (h : Bracketed inner)
    (hopen : opener.kind = kind) (hclose : closer.kind = kind') (hkind : kind.isOpener = true)
    (hkind' : kind'.isCloser = true) : Bracketed (opener :: (inner ++ [closer])) :=
  .nested (by rwa [hopen]) h (by rwa [hclose]) .nil

theorem append {tokens rest : List Token} (h : Bracketed tokens) (hrest : Bracketed rest) :
    Bracketed (tokens ++ rest) := by
  induction h with
  | nil => exact hrest
  | other htoken _ ih => exact .other htoken ih
  | nested hopen hinner hclose _ _ ih =>
      rw [List.cons_append, List.append_assoc, List.cons_append]
      exact .nested hopen hinner hclose ih

/-- Tokens whose brackets have partners leave the number of open brackets as it was. -/
theorem covered_append {tokens rest : List Token} (h : Bracketed tokens) {depth : Nat}
    (hrest : Covered depth rest) : Covered depth (tokens ++ rest) := by
  induction h generalizing depth rest with
  | nil => exact hrest
  | @other token _ htoken _ ih =>
      obtain ⟨hopen, hclose⟩ := Bool.or_eq_false_iff.mp htoken
      have hnest : token.kind.nest depth = depth := by
        rw [Kind.nest, hopen, hclose]
        rfl
      refine ⟨fun hcloser => absurd hcloser (by rw [hclose]; decide), ?_⟩
      rw [hnest]
      exact ih hrest
  | @nested opener closer inner later hopen _ hclose _ ihinner ih =>
      have hcloser : Covered (depth + 1) (closer :: (later ++ rest)) := by
        refine ⟨fun _ => Nat.succ_pos depth, ?_⟩
        rw [Kind.nest_of_isCloser hclose]
        exact ih hrest
      refine ⟨fun hcloser => ?_, ?_⟩
      · rw [Kind.isCloser_of_isOpener hopen] at hcloser
        cases hcloser
      · rw [Kind.nest_of_isOpener hopen, List.append_eq, List.append_assoc, List.cons_append]
        exact ihinner hcloser

theorem covered {tokens : List Token} (h : Bracketed tokens) : Covered 0 tokens := by
  have hcovered : Covered 0 (tokens ++ []) := h.covered_append trivial
  rwa [List.append_nil] at hcovered

end Bracketed

theorem Separated.bracketed {α : Type} {separator : Kind} {form : List Token → α → Prop} {tokens : List Token}
    {values : List α} (h : Separated separator form tokens values)
    (hform : ∀ tokens value, form tokens value → Bracketed tokens)
    (hseparator : separator.isBracket = false) : Bracketed tokens := by
  induction h with
  | last hitem => exact hform _ _ hitem
  | more hitem hmark _ ih => exact (hform _ _ hitem).append (.mark hmark hseparator ih)

theorem Repeated.bracketed {α : Type} {form : List Token → α → Prop} {tokens : List Token} {values : List α}
    (h : Repeated form tokens values) (hform : ∀ tokens value, form tokens value → Bracketed tokens) :
    Bracketed tokens := by
  induction h with
  | nil => exact .nil
  | cons hitem _ ih => exact (hform _ _ hitem).append ih

theorem Qualified.bracketed {tokens : List Token} {names : List String} (h : Qualified tokens names) :
    Bracketed tokens := by
  induction h with
  | last hpart => exact .mark hpart rfl .nil
  | more hpart hdot _ _ _ ih => exact .mark hpart rfl (.mark hdot rfl ih)

theorem fields_bracketed {tokens : List Token} {fields : List (Field TypeExpr)}
    (h : Separated .comma (Labelled fun tokens _ => Bracketed tokens) tokens fields) : Bracketed tokens := by
  refine h.bracketed ?_ rfl
  rintro tokens field ⟨hname, hcolon, htype⟩
  exact .name hname (.mark hcolon rfl htype)

/-- The brackets of types have partners. -/
theorem bracketed_productions : Productions fun tokens _ => Bracketed tokens where
  named hpath hargs := hpath.bracketed.append (hargs.bracketed fun _ _ h => h)
  var hname := .name hname .nil
  emptyRecord hopen hclose := Bracketed.nil.enclosed hopen hclose rfl rfl
  record hopen hfields hclose := (fields_bracketed hfields).enclosed hopen hclose rfl rfl
  extensible hopen hbase hbar hfields hclose :=
    Bracketed.enclosed (.name hbase (.mark hbar rfl (fields_bracketed hfields))) hopen hclose rfl rfl
  unit hopen hclose := Bracketed.nil.enclosed hopen hclose rfl rfl
  group hopen htype hclose := htype.enclosed hopen hclose rfl rfl
  tuple hopen hitems _ hclose := (hitems.bracketed (fun _ _ h => h) rfl).enclosed hopen hclose rfl rfl
  function hparts _ := hparts.bracketed (fun _ _ h => h) rfl

theorem Alternative.bracketed {tokens : List Token} {constructor : Constructor}
    (h : Alternative tokens constructor) : Bracketed tokens := by
  obtain ⟨hpath, hargs⟩ := h
  exact hpath.bracketed.append ((hargs.of_productions bracketed_productions).bracketed fun _ _ h => h)

theorem Item.bracketed {tokens : List Token} {item : ExposedItem} (h : Item tokens item) :
    Bracketed tokens := by
  cases h with
  | value hname => exact .name hname .nil
  | type hname => exact .mark hname rfl .nil
  | constructors hname hopen hdots hclose =>
      exact .mark hname rfl (Bracketed.enclosed (.mark hdots rfl .nil) hopen hclose rfl rfl)
  | operator hopen hsymbol hclose => exact Bracketed.enclosed (.mark hsymbol rfl .nil) hopen hclose rfl rfl

theorem Clause.bracketed {tokens : List Token} {exposed : Exposing} (h : Clause tokens exposed) :
    Bracketed tokens := by
  cases h with
  | nothing => exact .nil
  | all hword hopen hdots hclose =>
      exact .mark hword rfl (Bracketed.enclosed (.mark hdots rfl .nil) hopen hclose rfl rfl)
  | list hword hopen hitems hclose =>
      exact .mark hword rfl ((hitems.bracketed (fun _ _ => Item.bracketed) rfl).enclosed hopen hclose rfl rfl)

theorem ShortName.bracketed {tokens : List Token} {short : Option String} (h : ShortName tokens short) :
    Bracketed tokens := by
  cases h with
  | missing => exact .nil
  | given hword hname => exact .mark hword rfl (.mark hname rfl .nil)

theorem DeclaredName.bracketed {tokens : List Token} {name : String} (h : DeclaredName tokens name) :
    Bracketed tokens := by
  obtain @⟨name, equals, parameters, hname, hparameters, hequals⟩ := h
  refine .mark hname rfl ?_
  clear hname
  induction parameters with
  | nil => exact .mark hequals rfl .nil
  | cons parameter parameters ih =>
      exact .name (hparameters _ (.head _)) (ih fun other hmem => hparameters other (.tail _ hmem))

theorem openingKinds_isBracket (opening : Opening) :
    ∀ kind ∈ openingKinds opening, kind.isBracket = false := by
  cases opening with
  | header kind => cases kind <;> decide
  | _ => decide

theorem bracketed_words {opening : Opening} {words : List Token}
    (h : words.map Token.kind = openingKinds opening) : Bracketed words := by
  have hkinds : ∀ token ∈ words, token.kind.isBracket = false := fun token hmem =>
    openingKinds_isBracket opening _ (h ▸ List.mem_map_of_mem hmem)
  clear h
  induction words with
  | nil => exact .nil
  | cons word words ih => exact .other (hkinds _ (.head _)) (ih fun other hmem => hkinds other (.tail _ hmem))

/-- A declaration whose block, if it has one, has partners for all of its brackets. -/
inductive BracketedDeclaration (position : Position) : List Token → Statement → Prop where
  | header {kind : ModuleKind} {words tokens block rest : List Token} {names : List String}
      {exposed : Exposing}
      (hwords : words.map Token.kind = openingKinds (.header kind)) (hpath : Qualified tokens names)
      (hblock : Block kind block) (hbrackets : Bracketed block) (hclause : Clause rest exposed) :
      BracketedDeclaration position (words ++ (tokens ++ (block ++ rest)))
        (.header ⟨kind, ".".intercalate names, exposed, position⟩)
  | other {opening : Opening} {words body : List Token} {statement : Statement}
      (hopening : ∀ kind, opening ≠ .header kind) (hwords : words.map Token.kind = openingKinds opening)
      (hbody : Body position opening body statement) : BracketedDeclaration position (words ++ body) statement

namespace BracketedDeclaration

variable {position : Position} {tokens : List Token} {statement : Statement}

theorem declaration (h : BracketedDeclaration position tokens statement) :
    Declaration position tokens statement := by
  cases h with
  | header hwords hpath hblock _ hclause => exact .intro hwords (.header hpath hblock hclause)
  | other _ hwords hbody => exact .intro hwords hbody

theorem bracketed (h : BracketedDeclaration position tokens statement) : Bracketed tokens := by
  cases h with
  | header hwords hpath _ hbrackets hclause =>
      exact (bracketed_words hwords).append (hpath.bracketed.append (hbrackets.append hclause.bracketed))
  | other hopening hwords hbody =>
      refine (bracketed_words hwords).append ?_
      cases hbody with
      | header => exact absurd rfl (hopening _)
      | imported hpath hshort hclause =>
          exact hpath.bracketed.append (hshort.bracketed.append hclause.bracketed)
      | union hname hconstructors =>
          exact hname.bracketed.append (hconstructors.bracketed (fun _ _ => Alternative.bracketed) rfl)
      | aliased hname htype => exact hname.bracketed.append (htype.of_productions bracketed_productions)

end BracketedDeclaration

end Sentence

/-! ### Layout -/

namespace Layout

/-- A construct owns all tokens if each is on its first line, indented, or a closing bracket, and its
closing brackets come while one is open. -/
theorem view_eq_filter {layout : Layout} {depth : Nat} {tokens : List PlacedToken}
    (hlaid : ∀ token ∈ tokens, token.kind ≠ .newline →
      token.position.line = layout.line ∨ layout.column < token.position.column ∨ token.kind.isCloser = true)
    (hcovered : Sentence.Covered depth ((tokens.filter (·.kind ≠ .newline)).map (·.toToken))) :
    layout.view depth tokens = tokens.filter (·.kind ≠ .newline) := by
  induction tokens generalizing depth with
  | nil => rfl
  | cons token rest ih =>
      have hrest := fun other hmem => hlaid other (.tail _ hmem)
      by_cases hkind : token.kind = .newline
      · rw [List.filter_cons_of_neg (by simpa using hkind)] at hcovered ⊢
        rw [view, if_pos hkind]
        exact ih hrest hcovered
      · rw [List.filter_cons_of_pos (by simpa using hkind)] at hcovered ⊢
        obtain ⟨hcloser, hcovered⟩ := hcovered
        have howns : layout.owns depth token = true := by
          refine owns_iff.mpr ?_
          rcases hlaid token (.head _) hkind with hline | hcolumn | hclose
          · exact .inl hline
          · exact .inr (.inl hcolumn)
          · exact .inr (.inr ⟨hcloser hclose, hclose⟩)
        rw [view_cons_of_owns hkind howns, ih hrest hcovered]

end Layout

/-- The words of an opening, with a declaration after them, open it. -/
theorem Opening.ofView_of_body {view : List PlacedToken} {opening : Opening} {words body : List Token}
    {position : Position} {statement : Statement} (hview : view.map (·.toToken) = words ++ body)
    (hwords : words.map Token.kind = Sentence.openingKinds opening)
    (hbody : Sentence.Body position opening body statement) : ofView view = some opening := by
  have hkinds : view.map (·.kind) = Sentence.openingKinds opening ++ body.map Token.kind := by
    rw [← hwords, ← List.map_append, ← hview, List.map_map]
    rfl
  cases view with
  | nil =>
      have hlength := congrArg List.length hkinds
      have hpos := opening.words_pos
      rw [List.length_append, opening.length_openingKinds, List.map_nil, List.length_nil] at hlength
      omega
  | cons first rest =>
      have hsecond : ∀ kind, (first :: rest)[1]?.any (·.kind == kind) =
          ((rest.map (·.kind)).head? == some kind) := by
        intro kind
        cases rest <;> simp
      rw [List.map_cons] at hkinds
      simp only [ofView, List.getElem?_cons_zero, hsecond]
      cases hbody with
      | @header kind tokens block rest names exposed hpath hblock hclause =>
          cases kind with
          | plain =>
              obtain ⟨hfirst, _⟩ := List.cons.inj hkinds
              rw [hfirst]
          | port | effect =>
              obtain ⟨hfirst, hrest⟩ := List.cons.inj hkinds
              rw [hfirst, hrest]
              rfl
      | imported hpath hshort hclause =>
          obtain ⟨hfirst, _⟩ := List.cons.inj hkinds
          rw [hfirst]
      | union hname hconstructors =>
          -- the name of the type is not the word `alias`
          obtain ⟨hkind, _, _⟩ := hname
          obtain ⟨hfirst, hrest⟩ := List.cons.inj hkinds
          rw [hfirst, hrest, List.cons_append, List.map_cons, hkind]
          rfl
      | aliased hname htype =>
          obtain ⟨hfirst, hrest⟩ := List.cons.inj hkinds
          rw [hfirst, hrest]
          rfl

namespace Construct

/-- A construct whose view is a declaration is read as the declaration. -/
theorem read_of_view {first : PlacedToken} {tokens view : List PlacedToken} {statement : Statement}
    (hview : (Layout.ofToken first).view 0 tokens = view)
    (h : Sentence.Declaration first.position (view.map (·.toToken)) statement) (index : Nat) :
    read first ⟨index, 0, tokens⟩ =
      ⟨index, first, (Layout.ofToken first).reach 0 view.length tokens, .accepted statement⟩ := by
  generalize hsentence : view.map (·.toToken) = sentence at h
  obtain @⟨opening, words, body, statement, hwords, hbody⟩ := h
  have hopening := Opening.ofView_of_body hsentence hwords hbody
  have hlength : words.length = opening.words := by
    rw [← opening.length_openingKinds, ← hwords, List.length_map]
  have hdrop : (view.map (·.toToken)).drop opening.words = body := by
    rw [hsentence, ← hlength, List.drop_left]
  rw [read_eq, hview, ofView, hopening]
  dsimp only
  rw [hdrop, Rule.declaration_complete hbody]
  dsimp only
  rw [List.length_map, List.length_nil, Nat.sub_zero]

/-- Line breaks before a construct have no part in it. -/
theorem Reads.newlines {breaks : List PlacedToken} (h : ∀ token ∈ breaks, token.kind = .newline) {index : Nat}
    {tokens : List PlacedToken} {constructs : List Construct}
    (hreads : Reads (index + breaks.length) tokens constructs) :
    Reads index (breaks ++ tokens) constructs := by
  induction breaks generalizing index with
  | nil => exact hreads
  | cons token breaks ih =>
      rw [List.length_cons, Nat.add_comm breaks.length, ← Nat.add_assoc] at hreads
      exact .newline (h token (.head _)) (ih (fun token hmem => h token (.tail _ hmem)) hreads)

/-- If a construct owns all tokens, and they are a declaration, this is all that is read. -/
theorem Reads.of_view {first : PlacedToken} {after : List PlacedToken} {statement : Statement}
    (hkind : first.kind ≠ .newline)
    (hview : (Layout.ofToken first).view 0 (first :: after) = (first :: after).filter (·.kind ≠ .newline))
    (h : Sentence.Declaration first.position
      (((first :: after).filter (·.kind ≠ .newline)).map (·.toToken)) statement) (index : Nat) :
    ∃ taken, Reads index (first :: after) [⟨index, first, taken, .accepted statement⟩] := by
  have hread := read_of_view hview h index
  -- what the construct takes are all tokens but line breaks, so only line breaks are left
  have htaken := (Layout.ofToken first).filter_take_reach 0
    ((first :: after).filter (·.kind ≠ .newline)).length (first :: after)
  rw [hview, List.take_length] at htaken
  generalize (Layout.ofToken first).reach 0 ((first :: after).filter (·.kind ≠ .newline)).length
    (first :: after) = taken at hread htaken
  have hleft : ((first :: after).drop taken).filter (·.kind ≠ .newline) = [] := by
    have hsplit := congrArg (List.filter (·.kind ≠ .newline)) (List.take_append_drop taken (first :: after))
    rw [List.filter_append, htaken] at hsplit
    exact List.append_right_eq_self.mp hsplit
  have hbreaks : ∀ token ∈ (first :: after).drop taken, token.kind = .newline := by
    simpa using List.filter_eq_nil_iff.mp hleft
  have hrest : Reads (index + taken) ((first :: after).drop taken) [] := by
    have hreads := newlines hbreaks (.done (index + taken + ((first :: after).drop taken).length))
    rwa [List.append_nil] at hreads
  refine ⟨taken, ?_⟩
  rw [← hread]
  refine .construct hkind ?_
  rwa [hread]

end Construct

/-- A text whose tokens one construct owns is read as the declaration that they are. -/
theorem parseWithDiagnostics_of_view {source : String} {first : PlacedToken} {rest : List PlacedToken}
    {statement : Statement}
    (htokens : (Token.placed source.toList).filter (·.kind ≠ .newline) = first :: rest)
    (hview : (Layout.ofToken first).view 0 (Token.placed source.toList) = first :: rest)
    (h : Sentence.Declaration first.position ((first :: rest).map (·.toToken)) statement) :
    parseWithDiagnostics source = (.parsed [statement], []) := by
  obtain ⟨breaks, after, hplaced, hbreaks, hkind, hafter⟩ := List.filter_eq_cons_iff.mp htokens
  have hbreaks : ∀ token ∈ breaks, token.kind = .newline := by simpa using hbreaks
  have hfilter : (first :: after).filter (·.kind ≠ .newline) = first :: rest := by
    rw [List.filter_cons_of_pos (by simpa using hkind), hafter]
  rw [hplaced, Layout.view_newlines hbreaks, ← hfilter] at hview
  rw [← hfilter] at h
  obtain ⟨taken, hreads⟩ := Construct.Reads.of_view (by simpa using hkind) hview h (0 + breaks.length)
  have hall := Construct.Reads.newlines hbreaks hreads
  rw [← hplaced] at hall
  exact parseWithDiagnostics_of_reads hall

/-- A declaration is read whatever its layout: if the tokens of a text, line breaks apart, are a sentence
of the grammar, and each token after the first is on its line, in a greater column, or a closing bracket,
then the declaration with the position of the first token is all that is read, and there is nothing to
report. -/
theorem parseWithDiagnostics_of_declaration {source : String} {first : PlacedToken} {rest : List PlacedToken}
    {statement : Statement}
    (htokens : (Token.placed source.toList).filter (·.kind ≠ .newline) = first :: rest)
    (hsentence : Sentence.BracketedDeclaration first.position ((first :: rest).map (·.toToken)) statement)
    (hlaid : ∀ token ∈ rest, token.position.line = first.position.line ∨
      first.position.column < token.position.column ∨ token.kind.isCloser = true) :
    parseWithDiagnostics source = (.parsed [statement], []) := by
  have hcovered := hsentence.bracketed.covered
  rw [← htokens] at hcovered
  refine parseWithDiagnostics_of_view htokens ?_ hsentence.declaration
  rw [← htokens]
  refine Layout.view_eq_filter (fun token hmem hkind => ?_) hcovered
  have hmem : token ∈ first :: rest := by
    rw [← htokens]
    exact List.mem_filter.mpr ⟨hmem, by simpa using hkind⟩
  rcases List.mem_cons.mp hmem with rfl | hmem
  · exact .inl rfl
  · exact hlaid token hmem

/-- A record over three lines that is closed left of where its declaration begins, with reserved words for
the name of its field and of a type variable. -/
theorem parseWithDiagnostics_of_declaration_closed_at_margin :
    parseWithDiagnostics "\n type alias T =\n  \x7b as : List\n     where -- no block\n\x7d" =
      (.parsed [.aliased ⟨"T", .record [⟨"as", .named "List" [.var "where"]⟩], ⟨1, 1, 2⟩⟩], []) := by
  have htokens :
      (Token.placed "\n type alias T =\n  \x7b as : List\n     where -- no block\n\x7d".toList).filter
          (·.kind ≠ .newline) =
        [⟨⟨.typeWord, "type".toList, 2⟩, ⟨1, 1, 2⟩⟩, ⟨⟨.aliasWord, "alias".toList, 7⟩, ⟨1, 6, 7⟩⟩,
          ⟨⟨.upperName, ['T'], 13⟩, ⟨1, 12, 13⟩⟩, ⟨⟨.equals, ['='], 15⟩, ⟨1, 14, 15⟩⟩,
          ⟨⟨.openBrace, ['\x7b'], 19⟩, ⟨2, 2, 19⟩⟩, ⟨⟨.asWord, "as".toList, 21⟩, ⟨2, 4, 21⟩⟩,
          ⟨⟨.colon, [':'], 24⟩, ⟨2, 7, 24⟩⟩, ⟨⟨.upperName, "List".toList, 26⟩, ⟨2, 9, 26⟩⟩,
          ⟨⟨.whereWord, "where".toList, 36⟩, ⟨3, 5, 36⟩⟩, ⟨⟨.closeBrace, ['\x7d'], 54⟩, ⟨4, 0, 54⟩⟩] := by
    decide +kernel
  have hvariable : Sentence.Atom [⟨.whereWord, "where".toList, 36⟩] (.var "where") := .var rfl
  have hlist : Sentence.Annotation [⟨.upperName, "List".toList, 26⟩, ⟨.whereWord, "where".toList, 36⟩]
      (.named "List" [.var "where"]) :=
    .applied (.named (.last rfl) (.cons hvariable .nil))
  have hfield :
      Sentence.Member [⟨.asWord, "as".toList, 21⟩, ⟨.colon, [':'], 24⟩, ⟨.upperName, "List".toList, 26⟩,
      ⟨.whereWord, "where".toList, 36⟩] ⟨"as", .named "List" [.var "where"]⟩ :=
    .intro rfl rfl hlist
  have hname : Sentence.DeclaredName [⟨.upperName, ['T'], 13⟩, ⟨.equals, ['='], 15⟩] "T" :=
    @Sentence.DeclaredName.intro _ _ [] rfl (by simp) rfl
  have hrecord := @Sentence.Atom.record ⟨.openBrace, ['\x7b'], 19⟩ ⟨.closeBrace, ['\x7d'], 54⟩ _ _ rfl
    (.last hfield) rfl
  refine parseWithDiagnostics_of_declaration htokens ?_ (by decide)
  refine @Sentence.BracketedDeclaration.other _ .aliased [_, _] _ _ (by simp) rfl ?_
  exact .aliased hname (.applied (.atom hrecord))

end ElmNavigation
