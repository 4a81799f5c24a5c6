import ElmNavigation.Declaration.Printer
import ElmNavigation.Proofs.Declaration.Likeness
import ElmNavigation.Proofs.Declaration.Sentence
import ElmNavigation.Proofs.Declaration.WellFormed
import ElmNavigation.Proofs.Token.Kind
import ElmNavigation.Proofs.Token.Spelling

/-! What is printed spells what was to be printed: the tokens of a printed tree form a sentence of the
grammar with that tree. A type is printed as an atom if it can be one, and as a type that is no function
if it is none; the parentheses of the printer make an atom of every argument and keep the parts of a
function apart. -/

namespace ElmNavigation

open Token Sentence

/-- A list with separators begins with its first item. -/
theorem exists_intercalate_eq (separator first : String) (others : List String) :
    ∃ rest, (separator.intercalate (first :: others)).toList = first.toList ++ rest := by
  cases others with
  | nil => exact ⟨[], by rw [String.intercalate_singleton, List.append_nil]⟩
  | cons next others =>
      refine ⟨separator.toList ++ (separator.intercalate (next :: others)).toList, ?_⟩
      rw [String.intercalate_cons_cons, String.toList_append, String.toList_append, List.append_assoc]

/-! ### Names -/

theorem IsUpperName.newline_notMem {name : String} (h : IsUpperName name) : '\n' ∉ name.toList := by
  obtain ⟨c, rest, hname, hc, hrest⟩ := h
  rw [hname]
  exact notMem_of_forall (forall_isWordChar (isAlphanum_of_isUpper hc) hrest) rfl

theorem IsUpperName.breaks {name : String} (h : IsUpperName name) {after : List Char}
    (hafter : ∀ d ∈ after.head?, Text.isWordChar d = false) : Breaks name.toList after := by
  obtain ⟨c, rest, hname, hc, hrest⟩ := h
  have hword := isAlphanum_of_isUpper hc
  rw [hname]
  exact breaks_of_munch (isBlank_of_isAlphanum hword) (munch_word hword hrest hafter)

theorem IsUpperName.tokens_eq {name : String} (h : IsUpperName name) :
    tokens name.toList = [⟨.upperName, name.toList, 0⟩] := by
  obtain ⟨c, rest, hname, hc, hrest⟩ := h
  have hword := isAlphanum_of_isUpper hc
  have hmunch : munch c (rest ++ []) = ⟨some .upperName, rest.length⟩ := by
    rw [munch_word hword hrest (by rintro _ ⟨⟩), if_pos hc]
  rw [List.append_nil] at hmunch
  rw [hname]
  exact tokens_of_munch (isBlank_of_isAlphanum hword) hmunch (by decide)

theorem IsUpperName.spells {name : String} (h : IsUpperName name) :
    Spells name.toList (Single fun token => token.kind = .upperName ∧ token.text = name) := by
  refine ⟨h.newline_notMem, fun after hafter => h.breaks fun d hd => (hafter d hd).1, fun bytes => ?_⟩
  rw [h.tokens_eq]
  exact ⟨_, rfl, rfl, String.ofList_toList⟩

theorem IsLowerName.spells {name : String} (h : IsLowerName name) :
    Spells name.toList (Single fun token => token.kind.isName = true ∧ token.text = name) := by
  obtain ⟨⟨c, rest, hname, hc, hrest⟩, hreserved⟩ := h
  refine (Spells.lower hname hc hrest (Kind.ofWord_ne (by decide))).imp ?_
  rintro _ ⟨token, rfl, hkind, htext⟩
  refine ⟨token, rfl, ?_, htext⟩
  rw [hkind]
  exact (Kind.isName_ofWord name).mpr hreserved

theorem IsOperator.spells {symbol : String} (h : IsOperator symbol) :
    Spells symbol.toList (Single fun token => token.kind = .operator ∧ token.text = symbol) := by
  obtain ⟨hne, hall, hfree, hcomment⟩ := h
  have hkind := (Kind.ofSymbols_eq_operator symbol).mpr hfree
  obtain ⟨c, rest, hsymbol⟩ := List.exists_cons_of_ne_nil hne
  rw [hsymbol] at hall hcomment
  have hspells := Spells.symbols hsymbol hall hcomment (by rw [hkind]; decide)
  rwa [hkind] at hspells

theorem breaks_dot {after : List Char} (hafter : ∀ d ∈ after.head?, isSymbol d = false) :
    Breaks ['.'] after := by
  have hmunch : munch '.' ([] ++ after) = ⟨some .dot, 0⟩ := munch_symbols rfl (by simp) (by decide) hafter
  exact breaks_of_munch rfl hmunch

theorem tokens_dot : tokens ['.'] = [⟨.dot, ['.'], 0⟩] := by
  decide +kernel

/-- A name and a dot before a qualified name. -/
theorem spells_dotted {part : String} {names : List String} {c : Char} {text : List Char}
    (hpart : IsUpperName part) (hc : c.isUpper = true) (h : Spells (c :: text) (Qualified · names)) :
    Spells (part.toList ++ (['.'] ++ c :: text)) (Qualified · (part :: names)) := by
  have hsymbol := isSymbol_of_isAlphanum (isAlphanum_of_isUpper hc)
  have hdot : ∀ after, Breaks ['.'] (c :: text ++ after) := by
    intro after
    refine breaks_dot ?_
    rintro _ ⟨⟩
    exact hsymbol
  have hfirst : ∀ after, Breaks part.toList (['.'] ++ after) := by
    intro after
    refine hpart.breaks ?_
    rintro _ ⟨⟩
    rfl
  refine ⟨?_, fun after hafter => ?_, fun bytes => ?_⟩
  · simp only [List.mem_append, List.mem_singleton, not_or]
    exact ⟨hpart.newline_notMem, by decide, h.line⟩
  · have htail : Breaks (['.'] ++ c :: text) after := (hdot after).trans (h.breaks after hafter)
    exact Breaks.trans (hfirst (c :: text ++ after)) htail
  · obtain ⟨first, rest, htokens, hstart, _⟩ := exists_tokens_eq_cons (isAlphanum_of_isUpper hc) text
    have hsecond :
        tokens (['.'] ++ c :: text) = [⟨.dot, ['.'], 0⟩] ++ (tokens (c :: text)).map (Token.move 1) := by
      have hone := hdot []
      rw [List.append_nil] at hone
      rw [hone.tokens_append, tokens_dot]
      rfl
    have hrest := h.form (1 + (Text.byteLength part.toList + bytes))
    rw [htokens, List.map_cons] at hrest
    rw [(hfirst _).tokens_append, hpart.tokens_eq, hsecond, List.map_append, List.map_append, List.map_append,
      map_move_move, map_move_move, map_move_move, htokens]
    have hleft : (Token.move (Text.byteLength part.toList + bytes) ⟨.dot, ['.'], 0⟩).start =
        (Token.move bytes ⟨.upperName, part.toList, 0⟩).stop := by
      simp only [Token.move_start, Token.move_chars, Token.stop]
      omega
    have hright : (Token.move (1 + (Text.byteLength part.toList + bytes)) first).start =
        (Token.move (Text.byteLength part.toList + bytes) ⟨.dot, ['.'], 0⟩).stop := by
      have hone : Text.byteLength ['.'] = 1 := rfl
      simp only [Token.move_start, Token.move_chars, Token.stop, hstart, hone]
      omega
    have hpath := Qualified.more rfl rfl hleft hright hrest
    rwa [show (Token.move bytes ⟨.upperName, part.toList, 0⟩).text = part from String.ofList_toList] at hpath

/-- A qualified name spells its parts. -/
theorem spells_path {parts : List String} (hne : parts ≠ []) (hparts : ∀ part ∈ parts, IsUpperName part) :
    Spells (".".intercalate parts).toList (Qualified · parts) := by
  induction parts with
  | nil => exact absurd rfl hne
  | cons part parts ih =>
      have hpart := hparts part (.head _)
      cases parts with
      | nil =>
          rw [String.intercalate_singleton]
          refine hpart.spells.imp ?_
          rintro _ ⟨token, rfl, hkind, rfl⟩
          exact .last hkind
      | cons next parts =>
          have hrest := ih (List.cons_ne_nil _ _) fun part hmem => hparts part (.tail _ hmem)
          obtain ⟨c, rest, hnext, hc, _⟩ := hparts next (.tail _ (.head _))
          obtain ⟨text, htext⟩ := exists_intercalate_eq "." next parts
          rw [hnext, List.cons_append] at htext
          rw [String.intercalate_cons_cons, String.toList_append, String.toList_append, List.append_assoc]
          rw [htext] at hrest ⊢
          exact spells_dotted hpart hc hrest

theorem IsQualifiedName.spells {name : String} (h : IsQualifiedName name) :
    ∃ parts, name = ".".intercalate parts ∧ Spells name.toList (Qualified · parts) := by
  obtain ⟨parts, hne, hparts, rfl⟩ := h
  exact ⟨parts, rfl, spells_path hne hparts⟩

/-! ### Words and symbols of declarations -/

theorem spells_reserved {word : String} {kind : Kind} (hmem : (word, kind) ∈ Kind.reserved) :
    Spells word.toList (Single (·.kind = kind)) := by
  have hall : ∀ entry ∈ Kind.reserved, entry.1.toList.head?.all Char.isLower = true ∧ entry.1.toList ≠ [] ∧
      entry.1.toList.all Text.isWordChar = true ∧ Kind.ofWord entry.1 = entry.2 := by
    decide
  obtain ⟨hlower, hne, hword, hkind⟩ := hall _ hmem
  obtain ⟨c, rest, htext⟩ := List.exists_cons_of_ne_nil hne
  rw [htext] at hlower hword
  have hrest : ∀ d ∈ rest, Text.isWordChar d = true := fun d hd => List.all_eq_true.mp hword d (.tail _ hd)
  refine (Spells.lower htext hlower hrest (Kind.ofWord_ne (by decide))).imp ?_
  rintro _ ⟨token, rfl, htoken, _⟩
  exact ⟨token, rfl, htoken.trans hkind⟩

theorem spells_mark {run : String} {kind : Kind} (hmem : (run, kind) ∈ Kind.marks) :
    Spells run.toList (Single (·.kind = kind)) := by
  have hall : ∀ entry ∈ Kind.marks, entry.1.toList ≠ [] ∧ entry.1.toList.all isSymbol = true ∧
      ¬ ['-', '-'] <+: entry.1.toList ∧ Kind.ofSymbols entry.1 = entry.2 ∧ entry.2 ≠ .comment := by
    decide
  obtain ⟨hne, hsymbol, hdashes, hkind, hcomment⟩ := hall _ hmem
  obtain ⟨c, rest, htext⟩ := List.exists_cons_of_ne_nil hne
  rw [htext] at hsymbol hdashes
  refine (Spells.symbols htext (List.all_eq_true.mp hsymbol) hdashes (hkind ▸ hcomment)).imp ?_
  rintro _ ⟨token, rfl, htoken, _⟩
  exact ⟨token, rfl, htoken.trans hkind⟩

/-- A reserved word, with a space after it. -/
theorem spells_word {word : String} {kind : Kind} (hmem : (word, kind) ∈ Kind.reserved) {text : List Char}
    {form : List Token → Prop} (h : Spells text form) :
    Spells (word.toList ++ ' ' :: text) (Then (Single (·.kind = kind)) form) :=
  (spells_reserved hmem).append h.blank (.blank _)

/-- The two dots that stand for everything, in parentheses. -/
theorem spells_everything : Spells ('(' :: ("..".toList ++ [')']))
    (Then (Single (·.kind = .openParen))
      (Then (Single (·.kind = .dotDot)) (Single (·.kind = .closeParen)))) := by
  have hdots : Spells "..".toList (Single (·.kind = .dotDot)) := spells_mark (by decide)
  exact (hdots.append .closeParen (.mark rfl _)).openParen

/-! ### Lists with separators -/

/-- Printed items with a separator between them spell the items with a mark between them. -/
theorem spells_separated {α : Type} {separator : String} {mark : Kind} {form : List Token → α → Prop}
    {print : α → String} {values : List α} (hne : values ≠ [])
    (hapart : ∀ text, Apart (separator.toList ++ text))
    (hseparator : ∀ value ∈ values, ∀ text form', Spells ((print value).toList ++ text) form' →
      Spells (separator.toList ++ ((print value).toList ++ text)) (Then (Single (·.kind = mark)) form'))
    (hitems : ∀ value ∈ values, Spells (print value).toList (form · value)) :
    Spells (separator.intercalate (values.map print)).toList (Separated mark form · values) := by
  induction values with
  | nil => exact absurd rfl hne
  | cons value values ih =>
      have hitem := hitems value (.head _)
      cases values with
      | nil =>
          rw [List.map_singleton, String.intercalate_singleton]
          exact hitem.imp fun _ hform => .last hform
      | cons next values =>
          have hrest := ih (List.cons_ne_nil _ _) (fun value hmem => hseparator value (.tail _ hmem))
            fun value hmem => hitems value (.tail _ hmem)
          rw [List.map_cons, List.map_cons, String.intercalate_cons_cons, String.toList_append,
            String.toList_append, List.append_assoc]
          rw [List.map_cons] at hrest
          obtain ⟨text, htext⟩ := exists_intercalate_eq separator (print next) (values.map print)
          rw [htext] at hrest ⊢
          have hmarked := hseparator next (.tail _ (.head _)) text _ hrest
          refine (hitem.append hmarked (hapart _)).imp ?_
          rintro _ ⟨_, _, rfl, hvalue, _, _, rfl, ⟨token, rfl, hkind⟩, hvalues⟩
          exact .more hvalue hkind hvalues

/-! ### Types -/

/-- The tokens of a printed type, which are an atom unless the type asks for parentheses. -/
structure Printed (type : TypeExpr) (tokens : List Token) : Prop where
  annotated : Annotation tokens type
  applied (h : type.isFunction = false) : Applied tokens type
  atom (h : type.isCompound = false) : Atom tokens type

theorem Printed.of_atom {type : TypeExpr} {tokens : List Token} (h : Atom tokens type) :
    Printed type tokens :=
  ⟨.applied (.atom h), fun _ => .atom h, fun _ => h⟩

theorem spells_parenthesized {text : String} {type : TypeExpr} (h : Spells text.toList (Printed type)) :
    Spells (TypeExpr.parenthesized text).toList (Atom · type) := by
  have htext : (TypeExpr.parenthesized text).toList = '(' :: (text.toList ++ [')']) := by
    simp [TypeExpr.parenthesized]
  rw [htext]
  refine (h.append .closeParen (.mark rfl _)).openParen.imp ?_
  rintro _ ⟨_, _, rfl, ⟨opener, rfl, hopen⟩, _, _, rfl, hprinted, closer, rfl, hclose⟩
  exact .group hopen hprinted.annotated hclose

namespace TypeExpr

theorem apart_displayArgs (args : List TypeExpr) : Apart (displayArgs args).toList := by
  cases args with
  | nil =>
      rw [displayArgs]
      exact .nil
  | cons arg args =>
      rw [displayArgs, String.toList_append, String.toList_append, List.append_assoc]
      exact .blank _

theorem spells_args {args : List TypeExpr} (h : ∀ arg ∈ args, Spells arg.display.toList (Printed arg)) :
    Spells (displayArgs args).toList (Repeated Atom · args) := by
  induction args with
  | nil =>
      rw [displayArgs]
      exact .nil .nil
  | cons arg args ih =>
      have hrest := ih fun arg hmem => h arg (.tail _ hmem)
      have hatom : Spells (if arg.isCompound then parenthesized arg.display else arg.display).toList
          (Atom · arg) := by
        split
        next => exact spells_parenthesized (h arg (.head _))
        next hsimple =>
          exact (h arg (.head _)).imp fun _ hprinted => hprinted.atom (Bool.eq_false_iff.mpr hsimple)
      rw [displayArgs, String.toList_append, String.toList_append, List.append_assoc]
      refine (hatom.append hrest (apart_displayArgs args)).blank.imp ?_
      rintro _ ⟨_, _, rfl, hfirst, hothers⟩
      exact .cons hfirst hothers

def displayField (field : Field TypeExpr) : String :=
  " " ++ field.name ++ " : " ++ field.type.display

theorem displayFields_eq (fields : List (Field TypeExpr)) :
    displayFields fields = fields.map displayField := by
  induction fields with
  | nil => rw [displayFields, List.map_nil]
  | cons field fields ih => rw [displayFields, ih, List.map_cons, displayField]

theorem displayItems_eq (items : List TypeExpr) : displayItems items = items.map (" " ++ ·.display) := by
  induction items with
  | nil => rw [displayItems, List.map_nil]
  | cons item items ih => rw [displayItems, ih, List.map_cons]

def displayPart (part : TypeExpr) : String :=
  if part.isFunction then parenthesized part.display else part.display

theorem displayParts_eq (parts : List TypeExpr) : displayParts parts = parts.map displayPart := by
  induction parts with
  | nil => rw [displayParts, List.map_nil]
  | cons part parts ih => rw [displayParts, ih, List.map_cons, displayPart]

theorem spells_field {field : Field TypeExpr} (hname : IsLowerName field.name)
    (htype : Spells field.type.display.toList (Printed field.type)) :
    Spells (displayField field).toList (Member · field) := by
  have htext : (displayField field).toList =
      ' ' :: (field.name.toList ++ (' ' :: (":".toList ++ (' ' :: field.type.display.toList)))) := by
    simp [displayField]
  have hcolon : Spells ":".toList (Single (·.kind = .colon)) := spells_mark (by decide)
  rw [htext]
  refine (hname.spells.append (hcolon.append htype.blank (.blank _)).blank (.blank _)).blank.imp ?_
  rintro _ ⟨_, _, rfl, ⟨name, rfl, hkind, hspelled⟩, _, _, rfl, ⟨colon, rfl, hcolon⟩, hprinted⟩
  have hmember : Member _ ⟨name.text, field.type⟩ := .intro hkind hcolon hprinted.annotated
  rwa [hspelled] at hmember

theorem spells_fields {fields : List (Field TypeExpr)} (hne : fields ≠ [])
    (hnames : ∀ field ∈ fields, IsLowerName field.name)
    (htypes : ∀ field ∈ fields, Spells field.type.display.toList (Printed field.type)) :
    Spells (",".intercalate (displayFields fields)).toList (Separated .comma Member · fields) := by
  rw [displayFields_eq]
  refine spells_separated hne (fun _ => .mark rfl _) (fun _ _ _ _ h => h.comma) fun field hmem => ?_
  exact spells_field (hnames field hmem) (htypes field hmem)

theorem exists_fields_eq {fields : List (Field TypeExpr)} (hne : fields ≠ []) :
    ∃ rest, (",".intercalate (displayFields fields)).toList = ' ' :: rest := by
  obtain ⟨field, others, rfl⟩ := List.exists_cons_of_ne_nil hne
  rw [displayFields_eq, List.map_cons]
  obtain ⟨rest, hrest⟩ := exists_intercalate_eq "," (displayField field) (others.map displayField)
  rw [hrest]
  simp [displayField]

theorem spells_items {items : List TypeExpr} (hne : items ≠ [])
    (h : ∀ item ∈ items, Spells item.display.toList (Printed item)) :
    Spells (",".intercalate (displayItems items)).toList (Separated .comma Annotation · items) := by
  rw [displayItems_eq]
  refine spells_separated hne (fun _ => .mark rfl _) (fun _ _ _ _ h => h.comma) fun item hmem => ?_
  rw [String.toList_append]
  exact (h item hmem).blank.imp fun _ hprinted => hprinted.annotated

theorem spells_parts {parts : List TypeExpr} (hne : parts ≠ [])
    (h : ∀ part ∈ parts, Spells part.display.toList (Printed part)) :
    Spells (" -> ".intercalate (displayParts parts)).toList (Separated .arrow Applied · parts) := by
  have harrow : Spells "->".toList (Single (·.kind = .arrow)) := spells_mark (by decide)
  rw [displayParts_eq]
  refine spells_separated hne (fun _ => .blank _) (fun _ _ _ _ h => ?_) fun part hmem => ?_
  · exact (harrow.append h.blank (.blank _)).blank
  · rw [displayPart]
    split
    next => exact (spells_parenthesized (h part hmem)).imp fun _ hatom => .atom hatom
    next hplain => exact (h part hmem).imp fun _ hprinted => hprinted.applied (Bool.eq_false_iff.mpr hplain)

/-- A printed type spells the type. -/
theorem WellFormed.spells {type : TypeExpr} (h : type.WellFormed) :
    Spells type.display.toList (Printed type) := by
  -- arguments use the hypothesis for atoms, parts of functions that for applied types, all else that for
  -- annotations
  induction h with
  | @var name hname =>
      rw [display]
      refine hname.spells.imp ?_
      rintro _ ⟨token, rfl, hkind, rfl⟩
      exact .of_atom (.var hkind)
  | @named name args hname hargs ih =>
      obtain ⟨names, rfl, hpath⟩ := hname.spells
      rw [display, String.toList_append]
      refine (hpath.append (spells_args ih) (apart_displayArgs args)).imp ?_
      rintro _ ⟨used, rest, rfl, hused, hrest⟩
      refine ⟨.applied (.named hused hrest), fun _ => .named hused hrest, fun hsimple => ?_⟩
      cases hrest with
      | nil =>
          rw [List.append_nil]
          exact .named hused
      | cons hitem hrest => cases hsimple
  | @record fields hnames htypes ih =>
      rw [display]
      by_cases hfields : fields = []
      · subst hfields
        refine (Spells.closeBrace.openBrace (by decide)).imp ?_
        rintro _ ⟨_, _, rfl, ⟨opener, rfl, hopen⟩, closer, rfl, hclose⟩
        exact .of_atom (.emptyRecord hopen hclose)
      · obtain ⟨rest, hrest⟩ := exists_fields_eq hfields
        have hspells := spells_fields hfields hnames ih
        rw [if_neg (by simpa using hfields), String.toList_append, String.toList_append, List.append_assoc]
        rw [hrest] at hspells ⊢
        refine ((hspells.append Spells.closeBrace.blank (.blank _)).openBrace (by simp)).imp ?_
        rintro _ ⟨_, _, rfl, ⟨opener, rfl, hopen⟩, _, _, rfl, hmembers, closer, rfl, hclose⟩
        exact .of_atom (.record hopen hmembers hclose)
  | @extensible base fields hbase hfields hnames htypes ih =>
      obtain ⟨rest, hrest⟩ := exists_fields_eq hfields
      have hspells := spells_fields hfields hnames ih
      have hbar : Spells "|".toList (Single (·.kind = .pipe)) := spells_mark (by decide)
      have htext : (display (.extensible base fields)).toList =
          '{' :: ' ' :: (base.toList ++ (' ' :: ("|".toList ++
            ((",".intercalate (displayFields fields)).toList ++ [' ', '}'])))) := by
        simp [display]
      rw [htext]
      rw [hrest] at hspells ⊢
      have hclosed := hspells.append Spells.closeBrace.blank (.blank _)
      have hbarred := (hbar.append hclosed (.blank _)).blank
      refine ((hbase.spells.append hbarred (.blank _)).blank.openBrace (by simp)).imp ?_
      rintro _ ⟨_, _, rfl, ⟨opener, rfl, hopen⟩, _, _, rfl, ⟨name, rfl, hname, rfl⟩, _, _, rfl,
        ⟨bar, rfl, hbar⟩, _, _, rfl, hmembers, closer, rfl, hclose⟩
      exact .of_atom (.extensible hopen hname hbar hmembers hclose)
  | @tuple items hcount hitems ih =>
      rw [display]
      rcases hcount with hcount | hcount
      · obtain rfl := List.eq_nil_of_length_eq_zero hcount
        refine Spells.closeParen.openParen.imp ?_
        rintro _ ⟨_, _, rfl, ⟨opener, rfl, hopen⟩, closer, rfl, hclose⟩
        exact .of_atom (.unit hopen hclose)
      · have hne : items ≠ [] := by
          rintro rfl
          cases hcount
        have hspells := spells_items hne ih
        rw [if_neg (by simpa using hne), String.toList_append, String.toList_append, List.append_assoc]
        refine (hspells.append Spells.closeParen.blank (.blank _)).openParen.imp ?_
        rintro _ ⟨_, _, rfl, ⟨opener, rfl, hopen⟩, _, _, rfl, hseparated, closer, rfl, hclose⟩
        exact .of_atom (.tuple hopen hseparated hcount hclose)
  | @function parts hcount hparts ih =>
      have hne : parts ≠ [] := by
        rintro rfl
        cases hcount
      rw [display]
      refine (spells_parts hne ih).imp fun _ hseparated => ?_
      exact ⟨.function hseparated hcount, nofun, nofun⟩

end TypeExpr

/-! ### Declarations -/

theorem Constructor.WellFormed.spells {constructor : Constructor} (h : constructor.WellFormed) :
    Spells constructor.display.toList (Alternative · constructor) := by
  obtain ⟨name, args⟩ := constructor
  obtain ⟨hname, hargs⟩ := h
  obtain ⟨names, rfl, hpath⟩ := hname.spells
  have hspells := TypeExpr.spells_args fun arg hmem => (hargs arg hmem).spells
  rw [display, String.toList_append]
  refine (hpath.append hspells (TypeExpr.apart_displayArgs args)).imp ?_
  rintro _ ⟨_, _, rfl, hused, hrest⟩
  exact .intro hused hrest

theorem ExposedItem.WellFormed.spells {item : ExposedItem} (h : item.WellFormed) :
    Spells item.display.toList (Item · item) := by
  cases item with
  | value name =>
      refine (IsLowerName.spells h).imp ?_
      rintro _ ⟨token, rfl, hkind, rfl⟩
      exact .value hkind
  | type name constructors =>
      have hname := IsUpperName.spells h
      cases constructors with
      | false =>
          refine hname.imp ?_
          rintro _ ⟨token, rfl, hkind, rfl⟩
          exact .type hkind
      | true =>
          have htext : (ExposedItem.type name true).display.toList =
              name.toList ++ ('(' :: ("..".toList ++ [')'])) := by
            simp [display]
          rw [htext]
          refine (hname.append spells_everything (.mark rfl _)).imp ?_
          rintro _ ⟨_, _, rfl, ⟨token, rfl, hkind, rfl⟩, _, _, rfl, ⟨opener, rfl, hopen⟩, _, _, rfl,
            ⟨dots, rfl, hdots⟩, closer, rfl, hclose⟩
          exact .constructors hkind hopen hdots hclose
  | operator symbol =>
      have htext : (ExposedItem.operator symbol).display.toList = '(' :: (symbol.toList ++ [')']) := by
        simp [display]
      rw [htext]
      refine ((IsOperator.spells h).append .closeParen (.mark rfl _)).openParen.imp ?_
      rintro _ ⟨_, _, rfl, ⟨opener, rfl, hopen⟩, _, _, rfl, ⟨token, rfl, hkind, rfl⟩, closer, rfl, hclose⟩
      exact .operator hopen hkind hclose

theorem Exposing.apart_display (exposed : Exposing) : Apart exposed.display.toList := by
  cases exposed with
  | all => exact .blank _
  | list items =>
      rw [display, String.toList_append, String.toList_append, List.append_assoc]
      exact .blank _
  | nothing => exact .nil

theorem Exposing.WellFormed.spells {exposed : Exposing} (h : exposed.WellFormed) :
    Spells exposed.display.toList (Clause · exposed) := by
  have hword : ("exposing", Kind.exposingWord) ∈ Kind.reserved := by decide
  cases exposed with
  | all =>
      have htext : Exposing.all.display.toList =
          ' ' :: ("exposing".toList ++ (' ' :: '(' :: ("..".toList ++ [')']))) := by
        simp [display]
      rw [htext]
      refine (spells_word hword spells_everything).blank.imp ?_
      rintro _ ⟨_, _, rfl, ⟨word, rfl, hword⟩, _, _, rfl, ⟨opener, rfl, hopen⟩, _, _, rfl, ⟨dots, rfl, hdots⟩,
        closer, rfl, hclose⟩
      exact .all hword hopen hdots hclose
  | list items =>
      obtain ⟨hne, hitems⟩ := h
      have htext : (Exposing.list items).display.toList = ' ' :: ("exposing".toList ++
          (' ' :: '(' :: ((", ".intercalate (items.map ExposedItem.display)).toList ++ [')']))) := by
        simp [display]
      have hspells :
          Spells (", ".intercalate (items.map ExposedItem.display)).toList (Separated .comma Item · items) :=
        spells_separated hne (fun _ => .mark rfl _) (fun _ _ _ _ h => h.blank.comma)
          fun item hmem => (hitems item hmem).spells
      have hclosed := (hspells.append .closeParen (.mark rfl _)).openParen
      rw [htext]
      refine (spells_word hword hclosed).blank.imp ?_
      rintro _ ⟨_, _, rfl, ⟨word, rfl, hword⟩, _, _, rfl, ⟨opener, rfl, hopen⟩, _, _, rfl, hused,
        closer, rfl, hclose⟩
      exact .list hword hopen hused hclose
  | nothing => exact .nil .nothing

theorem spells_words {words : List (String × Kind)} (hmem : ∀ word ∈ words, word ∈ Kind.reserved)
    {text : List Char} {form : List Token → Prop} (h : Spells text form) :
    Spells (words.flatMap (fun word => word.1.toList ++ [' ']) ++ text)
      (Then (fun tokens => tokens.map Token.kind = words.map Prod.snd) form) := by
  induction words with
  | nil => exact h.imp fun tokens hform => ⟨[], tokens, rfl, rfl, hform⟩
  | cons word words ih =>
      have hrest := ih fun word hword => hmem word (.tail _ hword)
      rw [List.flatMap_cons, List.append_assoc, List.append_assoc]
      refine (spells_word (hmem word (.head _)) hrest).imp ?_
      rintro _ ⟨_, _, rfl, ⟨first, rfl, hfirst⟩, others, body, rfl, hothers, hbody⟩
      refine ⟨first :: others, body, rfl, ?_, hbody⟩
      dsimp only at hothers ⊢
      rw [List.map_cons, List.map_cons, hfirst, hothers]

/-- The words that open a declaration. -/
def openingWords : Opening → List (String × Kind)
  | .header .plain => [("module", .moduleWord)]
  | .header .port => [("port", .portWord), ("module", .moduleWord)]
  | .header .effect => [("effect", .effectWord), ("module", .moduleWord)]
  | .imported => [("import", .importWord)]
  | .union => [("type", .typeWord)]
  | .aliased => [("type", .typeWord), ("alias", .aliasWord)]

/-- The words that open a declaration as text, with a space after each. -/
def openingText (opening : Opening) : List Char :=
  (openingWords opening).flatMap fun word => word.1.toList ++ [' ']

theorem spells_opening (opening : Opening) {text : List Char} {form : List Token → Prop}
    (h : Spells text form) :
    Spells (openingText opening ++ text)
      (Then (fun tokens => tokens.map Token.kind = openingKinds opening) form) := by
  have hmem : ∀ word ∈ openingWords opening, word ∈ Kind.reserved := by
    cases opening with
    | header kind => cases kind <;> decide
    | _ => decide
  have hkinds : (openingWords opening).map Prod.snd = openingKinds opening := by
    cases opening with
    | header kind => cases kind <;> rfl
    | _ => rfl
  rw [← hkinds]
  exact spells_words hmem h

theorem ModuleKind.words_toList (kind : ModuleKind) : kind.words.toList = openingText (.header kind) := by
  cases kind <;> simp [words, openingText, openingWords]

/-- The name of a declared type with the equals sign, before text that keeps apart. -/
theorem spells_declaredName {name : String} (hname : IsUpperName name) {text : List Char}
    {form : List Token → Prop} (h : Spells text form) (hapart : Apart text) :
    Spells (name.toList ++ ' ' :: ("=".toList ++ text)) (Then (DeclaredName · name) form) := by
  have hequals : Spells "=".toList (Single (·.kind = .equals)) := spells_mark (by decide)
  refine (hname.spells.append (hequals.append h hapart).blank (.blank _)).imp ?_
  rintro _ ⟨_, _, rfl, ⟨token, rfl, hkind, rfl⟩, _, rest, rfl, ⟨equals, rfl, hequals⟩, hrest⟩
  exact ⟨[token, equals], rest, rfl, @DeclaredName.intro token equals [] hkind (by simp) hequals, hrest⟩

theorem spells_constructors {constructors : List Constructor} (hne : constructors ≠ [])
    (h : ∀ constructor ∈ constructors, constructor.WellFormed) :
    Spells (" |".intercalate (constructors.map (" " ++ ·.display))).toList
      (Separated .pipe Alternative · constructors) := by
  have hbar : Spells "|".toList (Single (·.kind = .pipe)) := spells_mark (by decide)
  refine spells_separated hne (fun _ => .blank _) (fun constructor _ text form' hspells => ?_)
    fun constructor hmem => ?_
  · rw [String.toList_append] at hspells ⊢
    exact (hbar.append hspells (.blank _)).blank
  · rw [String.toList_append]
    exact (h constructor hmem).spells.blank

theorem apart_constructors (constructors : List Constructor) :
    Apart (" |".intercalate (constructors.map (" " ++ ·.display))).toList := by
  cases constructors with
  | nil => exact .nil
  | cons constructor others =>
      obtain ⟨rest, hrest⟩ :=
        exists_intercalate_eq " |" (" " ++ constructor.display) (others.map (" " ++ ·.display))
      rw [List.map_cons, hrest, String.toList_append, List.append_assoc]
      exact .blank _

theorem apart_shortName (shortName : Option String) : Apart (shortName.elim "" (" as " ++ ·)).toList := by
  cases shortName with
  | none => exact .nil
  | some short =>
      rw [Option.elim_some, String.toList_append]
      exact .blank _

theorem spells_shortName {shortName : Option String} (h : ∀ short ∈ shortName, IsUpperName short) :
    Spells (shortName.elim "" (" as " ++ ·)).toList (ShortName · shortName) := by
  cases shortName with
  | none => exact .nil .missing
  | some short =>
      have htext : (" as " ++ short).toList = ' ' :: ("as".toList ++ ' ' :: short.toList) := by simp
      have hspells := spells_word (by decide : ("as", Kind.asWord) ∈ _) (h short rfl).spells
      rw [Option.elim_some, htext]
      refine hspells.blank.imp ?_
      rintro _ ⟨_, _, rfl, ⟨word, rfl, hword⟩, name, rfl, hname, rfl⟩
      exact .given hword hname

/-- A printed statement spells the statement. -/
theorem Statement.WellFormed.spells {statement : Statement} (h : statement.WellFormed) :
    Spells statement.display.toList fun tokens =>
      ∀ position, Declaration position tokens (statement.place position) := by
  cases statement with
  | header decl =>
      obtain ⟨kind, name, exposed, _⟩ := decl
      obtain ⟨hname, hexposed⟩ := h
      obtain ⟨names, rfl, hpath⟩ := hname.spells
      rw [display, String.toList_append, String.toList_append, List.append_assoc]
      rw [kind.words_toList]
      refine (spells_opening _ (hpath.append hexposed.spells exposed.apart_display)).imp ?_
      rintro _ ⟨words, _, rfl, hwords, used, rest, rfl, hused, hrest⟩ position
      exact .intro hwords (.header hused (.missing kind) hrest)
  | imported decl =>
      obtain ⟨moduleName, shortName, exposed, position⟩ := decl
      obtain ⟨hname, hshort, hexposed⟩ := h
      obtain ⟨names, rfl, hpath⟩ := hname.spells
      have htext : (Statement.imported ⟨".".intercalate names, shortName, exposed, position⟩).display.toList =
          openingText .imported ++ ((".".intercalate names).toList ++
            ((shortName.elim "" (" as " ++ ·)).toList ++ exposed.display.toList)) := by
        simp [display, openingText, openingWords]
      have hrest := (spells_shortName hshort).append hexposed.spells exposed.apart_display
      have hbody := hpath.append hrest ((apart_shortName shortName).append exposed.apart_display)
      rw [htext]
      refine (spells_opening _ hbody).imp ?_
      rintro _ ⟨_, _, rfl, hwords, _, _, rfl, hused, _, _, rfl, hshort, hclause⟩ position
      exact .intro hwords (.imported hused hshort hclause)
  | union decl =>
      obtain ⟨name, constructors, position⟩ := decl
      obtain ⟨hname, hne, hconstructors⟩ := h
      have htext : (Statement.union ⟨name, constructors, position⟩).display.toList =
          openingText .union ++ (name.toList ++ ' ' :: ("=".toList ++
            (" |".intercalate (constructors.map (" " ++ ·.display))).toList)) := by
        simp [display, openingText, openingWords]
      have hbody :=
        spells_declaredName hname (spells_constructors hne hconstructors) (apart_constructors constructors)
      rw [htext]
      refine (spells_opening _ hbody).imp ?_
      rintro _ ⟨_, _, rfl, hwords, _, _, rfl, hdeclared, halternatives⟩ position
      exact .intro hwords (.union hdeclared halternatives)
  | aliased decl =>
      obtain ⟨name, type, position⟩ := decl
      obtain ⟨hname, htype⟩ := h
      have htext : (Statement.aliased ⟨name, type, position⟩).display.toList =
          openingText .aliased ++ (name.toList ++ ' ' :: ("=".toList ++ ' ' :: type.display.toList)) := by
        simp [display, openingText, openingWords]
      have hbody := spells_declaredName hname htype.spells.blank (.blank _)
      rw [htext]
      refine (spells_opening _ hbody).imp ?_
      rintro _ ⟨_, _, rfl, hwords, _, _, rfl, hdeclared, hprinted⟩ position
      exact .intro hwords (.aliased hdeclared hprinted.annotated)

end ElmNavigation
