import ElmNavigation.Proofs.Declaration.Positions
import ElmNavigation.Proofs.Declaration.WellFormed
import ElmNavigation.Proofs.Token.Kind
import ElmNavigation.Proofs.Token.Piece

/-! What is read is well formed. The tokens of a text are spelled as their kinds ask, a tree takes its
names from the tokens that spell it, and the productions of the grammar leave no list empty that must not
be. -/

namespace ElmNavigation

namespace Token

/-- A token's text is spelled as its kind asks, as far as trees take texts from tokens. -/
structure WellSpelled (token : Token) : Prop where
  upper (h : token.kind = .upperName) : IsUpperName token.text
  name (h : token.kind.isName = true) : IsLowerName token.text
  operator (h : token.kind = .operator) : IsOperator token.text

/-- Trees take no texts from tokens of other kinds. -/
theorem WellSpelled.of_other {kind : Kind} (hupper : kind ≠ .upperName) (hname : kind.isName = false)
    (hoperator : kind ≠ .operator) (chars : List Char) (start : Nat) : WellSpelled ⟨kind, chars, start⟩ where
  upper h := absurd h hupper
  name h := absurd (hname.symm.trans h) (by decide)
  operator h := absurd h hoperator

theorem Piece.wellSpelled {after : List Char} {kind : Kind} {c : Char} {taken : List Char}
    (h : Piece after (some kind) c taken) (start : Nat) : WellSpelled ⟨kind, c :: taken, start⟩ := by
  have htext : (⟨kind, c :: taken, start⟩ : Token).text.toList = c :: taken := String.toList_ofList
  cases h with
  | upper hc htaken =>
      exact ⟨fun _ => ⟨c, taken, htext, hc, htaken⟩, (fun hname => by cases hname),
        fun hkind => by cases hkind⟩
  | number hc htaken => exact .of_other (by decide) rfl (by decide) _ _
  | lower hc htaken =>
      refine ⟨fun hkind => ?_, fun hname => ⟨⟨c, taken, htext, hc, htaken⟩, (Kind.isName_ofWord _).mp hname⟩,
        fun hkind => ?_⟩
      · exact absurd hkind (Kind.ofWord_ne (by decide))
      · exact absurd hkind (Kind.ofWord_ne (by decide))
  | lineComment htaken => exact .of_other (by decide) rfl (by decide) _ _
  | symbols hc htaken hcomment =>
      have hmem := Kind.ofSymbols_mem (String.ofList (c :: taken))
      refine ⟨fun hkind => ?_, fun hname => ?_, fun hkind =>
        ⟨?_, ?_, (Kind.ofSymbols_eq_operator _).mp hkind, ?_⟩⟩
      · dsimp only at hkind
        rw [hkind] at hmem
        exact absurd hmem (by decide)
      · have hall : ∀ kind ∈ Kind.operator :: Kind.marks.map Prod.snd, kind.isName = false := by decide
        rw [hall _ hmem] at hname
        cases hname
      · rw [htext]
        exact List.cons_ne_nil _ _
      · rw [htext]
        exact List.forall_mem_cons.mpr ⟨hc, htaken⟩
      · rw [htext]
        intro hprefix
        obtain ⟨rfl, hrest⟩ := List.cons_prefix_cons.mp hprefix
        obtain ⟨rest, rfl⟩ := hrest
        exact hcomment ⟨rfl, rfl⟩
  | blockComment hclosed => exact .of_other (by decide) rfl (by decide) _ _
  | mark hkind =>
      rw [Kind.ofPunctuation?.eq_def] at hkind
      split at hkind <;> cases hkind <;> exact .of_other (by decide) rfl (by decide) _ _
  | newline htaken => exact .of_other (by decide) rfl (by decide) _ _
  | longString hclosed => exact .of_other (by decide) rfl (by decide) _ _
  | string hkind htaken =>
      rcases hkind with hkind | hkind
      · cases hkind
        exact .of_other (by decide) rfl (by decide) _ _
      · cases hkind
  | char hkind htaken =>
      rcases hkind with hkind | hkind
      · cases hkind
        exact .of_other (by decide) rfl (by decide) _ _
      · cases hkind
  | underscore => exact .of_other (by decide) rfl (by decide) _ _

theorem wellSpelled_of_mem_tokens {text : List Char} {token : Token} (hmem : token ∈ tokens text) :
    token.WellSpelled := by
  obtain ⟨before, c, taken, after, _, _, _, hchars, _, hmunch⟩ := exists_breaks_of_mem_tokens hmem
  obtain ⟨kind, chars, start⟩ := token
  dsimp only at hchars hmunch
  subst hchars
  rcases hmunch with hmunch | ⟨_, rfl⟩
  · exact (munch_piece hmunch).wellSpelled start
  · exact .of_other (by decide) rfl (by decide) _ _

end Token

/-! ### Trees -/

namespace Sentence

open Token

theorem Separated.forall {α : Type} {separator : Kind} {form : List Token → α → Prop} {property : α → Prop}
    {used : List Token} {values : List α} (h : Separated separator form used values)
    (hitem : ∀ tokens value, form tokens value → tokens.Sublist used → property value) :
    ∀ value ∈ values, property value := by
  induction h with
  | last hform => simpa using hitem _ _ hform (.refl _)
  | more hform _ _ ih =>
      refine List.forall_mem_cons.mpr ⟨hitem _ _ hform (List.sublist_append_left _ _), ih ?_⟩
      intro tokens value hvalue hsublist
      exact hitem tokens value hvalue ((hsublist.cons _).trans (List.sublist_append_right _ _))

theorem Separated.ne_nil {α : Type} {separator : Kind} {form : List Token → α → Prop} {used : List Token}
    {values : List α} (h : Separated separator form used values) : values ≠ [] := by
  cases h <;> exact List.cons_ne_nil _ _

theorem Repeated.forall {α : Type} {form : List Token → α → Prop} {property : α → Prop} {used : List Token}
    {values : List α} (h : Repeated form used values)
    (hitem : ∀ tokens value, form tokens value → tokens.Sublist used → property value) :
    ∀ value ∈ values, property value := by
  induction h with
  | nil => simp
  | cons hform _ ih =>
      refine List.forall_mem_cons.mpr ⟨hitem _ _ hform (List.sublist_append_left _ _), ih ?_⟩
      intro tokens value hvalue hsublist
      exact hitem tokens value hvalue (hsublist.trans (List.sublist_append_right _ _))

theorem Qualified.isQualifiedName {tokens : List Token} {names : List String} (h : Qualified tokens names)
    (hspelled : ∀ token ∈ tokens, token.WellSpelled) : IsQualifiedName (".".intercalate names) := by
  refine ⟨names, by cases h <;> exact List.cons_ne_nil _ _, ?_, rfl⟩
  induction h with
  | last hpart => simpa using (hspelled _ (.head _)).upper hpart
  | more hpart _ _ _ _ ih =>
      refine List.forall_mem_cons.mpr ⟨(hspelled _ (.head _)).upper hpart, ih ?_⟩
      exact fun token hmem => hspelled token (.tail _ (.tail _ hmem))

theorem fields_wellFormed {tokens : List Token} {fields : List (Field TypeExpr)}
    (h : Separated .comma
      (Labelled fun tokens type => (∀ token ∈ tokens, token.WellSpelled) → type.WellFormed) tokens fields)
    (hspelled : ∀ token ∈ tokens, token.WellSpelled) :
    ∀ field ∈ fields, IsLowerName field.name ∧ field.type.WellFormed := by
  refine h.forall fun sub field hfield hsublist => ?_
  obtain ⟨hname, _, htype⟩ := hfield
  have hsub := fun token hmem => hspelled token (hsublist.subset hmem)
  exact ⟨(hsub _ (.head _)).name hname, htype fun token hmem => hsub token (.tail _ (.tail _ hmem))⟩

/-- Types are well formed if their tokens are well spelled. -/
theorem wellFormed_productions :
    Productions fun tokens type => (∀ token ∈ tokens, token.WellSpelled) → type.WellFormed where
  named hpath hargs hspelled := by
    refine .named (hpath.isQualifiedName fun t ht => hspelled t (List.mem_append_left _ ht)) ?_
    refine hargs.forall fun sub arg harg hsublist => harg fun t ht => hspelled t ?_
    exact List.mem_append_right _ (hsublist.subset ht)
  var hname hspelled := .var ((hspelled _ (.head _)).name hname)
  emptyRecord _ _ _ := .record (by simp) (by simp)
  record _ hfields _ hspelled := by
    have hall := fields_wellFormed hfields fun t ht => hspelled t (by simp [ht])
    exact .record (fun field hmem => (hall field hmem).1) (fun field hmem => (hall field hmem).2)
  extensible {_ base _ _ _ _} _ hbase _ hfields _ hspelled := by
    have hall := fields_wellFormed hfields fun t ht => hspelled t (by simp [ht])
    refine .extensible ((hspelled base (by simp)).name hbase) hfields.ne_nil ?_ ?_
    · exact fun field hmem => (hall field hmem).1
    · exact fun field hmem => (hall field hmem).2
  unit _ _ _ := .tuple (.inl rfl) (by simp)
  group _ htype _ hspelled := htype fun t ht => hspelled t (by simp [ht])
  tuple _ hitems hmany _ hspelled := by
    refine .tuple (.inr hmany) (hitems.forall fun sub item hitem hsublist => hitem fun t ht => hspelled t ?_)
    have hmem := hsublist.subset ht
    simp [hmem]
  function hparts hmany hspelled := by
    refine .function hmany (hparts.forall fun sub part hpart hsublist => hpart fun t ht => hspelled t ?_)
    exact hsublist.subset ht

theorem Alternative.wellFormed {tokens : List Token} {constructor : Constructor}
    (h : Alternative tokens constructor) (hspelled : ∀ token ∈ tokens, token.WellSpelled) :
    constructor.WellFormed := by
  obtain ⟨hpath, hargs⟩ := h
  refine ⟨hpath.isQualifiedName fun t ht => hspelled t (List.mem_append_left _ ht), ?_⟩
  refine (hargs.of_productions wellFormed_productions).forall fun sub arg harg hsublist => harg ?_
  exact fun t ht => hspelled t (List.mem_append_right _ (hsublist.subset ht))

theorem Item.wellFormed {tokens : List Token} {item : ExposedItem} (h : Item tokens item)
    (hspelled : ∀ token ∈ tokens, token.WellSpelled) : item.WellFormed := by
  cases h with
  | value hname => exact (hspelled _ (.head _)).name hname
  | type hname => exact (hspelled _ (.head _)).upper hname
  | constructors hname _ _ _ => exact (hspelled _ (.head _)).upper hname
  | operator _ hsymbol _ => exact (hspelled _ (.tail _ (.head _))).operator hsymbol

theorem Clause.wellFormed {tokens : List Token} {exposed : Exposing} (h : Clause tokens exposed)
    (hspelled : ∀ token ∈ tokens, token.WellSpelled) : exposed.WellFormed := by
  cases h with
  | nothing => trivial
  | all _ _ _ _ => trivial
  | list _ _ hitems _ =>
      refine ⟨hitems.ne_nil, hitems.forall fun sub item hitem hsublist =>
        hitem.wellFormed fun t ht => hspelled t ?_⟩
      have hmem := hsublist.subset ht
      simp [hmem]

theorem DeclaredName.isUpperName {tokens : List Token} {name : String} (h : DeclaredName tokens name)
    (hspelled : ∀ token ∈ tokens, token.WellSpelled) : IsUpperName name := by
  obtain ⟨hname, _, _⟩ := h
  exact (hspelled _ (.head _)).upper hname

theorem Body.wellFormed {position : Position} {opening : Opening} {tokens : List Token}
    {statement : Statement} (h : Body position opening tokens statement)
    (hspelled : ∀ token ∈ tokens, token.WellSpelled) : statement.WellFormed := by
  cases h with
  | header hpath _ hclause =>
      refine ⟨hpath.isQualifiedName fun t ht => hspelled t ?_, hclause.wellFormed fun t ht => hspelled t ?_⟩
      · simp [ht]
      · simp [ht]
  | imported hpath hshort hclause =>
      refine ⟨hpath.isQualifiedName fun t ht => hspelled t ?_, ?_,
        hclause.wellFormed fun t ht => hspelled t ?_⟩
      · simp [ht]
      · intro short hmem
        cases hshort with
        | missing => cases hmem
        | given _ hname =>
            cases hmem
            exact (hspelled _ (by simp)).upper hname
      · simp [ht]
  | union hname hconstructors =>
      refine ⟨hname.isUpperName fun t ht => hspelled t (List.mem_append_left _ ht), hconstructors.ne_nil, ?_⟩
      refine hconstructors.forall fun sub constructor hform hsublist =>
        hform.wellFormed fun t ht => hspelled t ?_
      exact List.mem_append_right _ (hsublist.subset ht)
  | aliased hname htype =>
      refine ⟨hname.isUpperName fun t ht => hspelled t (List.mem_append_left _ ht), ?_⟩
      exact htype.of_productions wellFormed_productions fun t ht => hspelled t (List.mem_append_right _ ht)

end Sentence

/-- Every declaration that is read is well formed. -/
theorem wellFormed_of_mem_statements {source : String} {statement : Statement}
    (hmem : statement ∈ (parse source).statements) : statement.WellFormed := by
  obtain ⟨constructs, hreads, _⟩ := exists_constructs source.toList
  rw [parse, parseWithDiagnostics_of_reads hreads] at hmem
  obtain ⟨construct, hconstruct, hstatement⟩ := List.mem_filterMap.mp hmem
  obtain ⟨before, first, rest, hplaced, _, rfl⟩ := hreads.exists_of_mem hconstruct
  obtain ⟨opening, words, body, left, _, hsentence, _, hbody⟩ :=
    Construct.exists_body_of_accepted (Construct.statement?_eq_some.mp hstatement)
  refine hbody.wellFormed fun token htoken => ?_
  have hview : token ∈ ((Layout.ofToken first).view 0 (first :: rest)).map (·.toToken) := by
    rw [hsentence]
    simp [htoken]
  obtain ⟨placed, hplacedMem, rfl⟩ := List.mem_map.mp hview
  have hfile := (Layout.view_prefix _ _ _).subset hplacedMem
  have hmember : placed ∈ Token.placed source.toList := by
    rw [hplaced]
    exact List.mem_append_right _ (List.mem_filter.mp hfile).1
  exact Token.wellSpelled_of_mem_tokens (Token.mem_placed_iff.mp hmember).1

end ElmNavigation
