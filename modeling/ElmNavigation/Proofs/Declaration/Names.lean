import ElmNavigation.Proofs.Declaration.Sentence

/-! What a tree takes from the tokens of its sentence: the names in it, in the order of the tokens, and
nothing else. The tokens between the names are words and marks of the grammar. Two things are left out
besides them, the parameters of a declared type and the block of an effect module. -/

namespace ElmNavigation

/-! ### Names of a tree -/

namespace TypeExpr

mutual

/-- The names in a type, in the order in which they are written. -/
def names : TypeExpr → List String
  | var name => [name]
  | named name args => name :: listNames args
  | record fields => fieldNames fields
  | extensible base fields => base :: fieldNames fields
  | tuple items => listNames items
  | function parts => listNames parts

/-- The names in types. -/
def listNames : List TypeExpr → List String
  | [] => []
  | type :: types => names type ++ listNames types

/-- The names in fields, each with its own. -/
def fieldNames : List (Field TypeExpr) → List String
  | [] => []
  | ⟨name, type⟩ :: fields => name :: (names type ++ fieldNames fields)

end

theorem listNames_eq (types : List TypeExpr) : listNames types = types.flatMap names := by
  induction types with
  | nil => rfl
  | cons type types ih => rw [listNames, ih, List.flatMap_cons]

theorem fieldNames_eq (fields : List (Field TypeExpr)) :
    fieldNames fields = fields.flatMap fun field => field.name :: field.type.names := by
  induction fields with
  | nil => rfl
  | cons field fields ih => rw [fieldNames, ih, List.flatMap_cons, List.cons_append]

end TypeExpr

/-- The names in an alternative. -/
def Constructor.names (constructor : Constructor) : List String :=
  constructor.name :: constructor.args.flatMap TypeExpr.names

/-- The names in a declaration, in the order in which they are written. -/
def Statement.names : Statement → List String
  | header decl => decl.name :: decl.exposed.names
  | imported decl => decl.moduleName :: (decl.shortName.toList ++ decl.exposed.names)
  | union decl => decl.name :: decl.constructors.flatMap Constructor.names
  | aliased decl => decl.name :: decl.annotation.names

/-- Whether a kind is a word or a mark of the grammar. -/
def Kind.isConnective : Kind → Bool
  | moduleWord | portWord | effectWord | whereWord | importWord | asWord | exposingWord | typeWord
  | aliasWord => true
  | openParen | closeParen | openBrace | closeBrace | comma | colon | equals | pipe | arrow | dotDot => true
  | _ => false

namespace Sentence

/-- Tokens that spell names one after the other, with nothing but words and marks between them. -/
inductive Spelled : List Token → List String → Prop where
  | nil : Spelled [] []
  | mark {token : Token} {rest : List Token} {names : List String} (hmark : token.kind.isConnective = true)
      (hrest : Spelled rest names) : Spelled (token :: rest) names
  | name {token : Token} {rest : List Token} {names : List String}
      (hname : token.kind.isName = true ∨ token.kind = .upperName ∨ token.kind = .operator)
      (hrest : Spelled rest names) : Spelled (token :: rest) (token.text :: names)
  | path {tokens rest : List Token} {parts names : List String} (hpath : Qualified tokens parts)
      (hrest : Spelled rest names) : Spelled (tokens ++ rest) (".".intercalate parts :: names)

namespace Spelled

theorem append {tokens tokens' : List Token} {names names' : List String} (h : Spelled tokens names)
    (h' : Spelled tokens' names') : Spelled (tokens ++ tokens') (names ++ names') := by
  induction h with
  | nil => exact h'
  | mark hmark _ ih => exact .mark hmark ih
  | name hname _ ih => exact .name hname ih
  | path hpath _ ih =>
      rw [List.append_assoc]
      exact .path hpath ih

theorem of_mark {token : Token} {kind : Kind} (h : token.kind = kind) (hkind : kind.isConnective = true) :
    Spelled [token] [] :=
  .mark (by rwa [h]) .nil

theorem of_marks {tokens : List Token} {kinds : List Kind} (h : tokens.map Token.kind = kinds)
    (hkinds : ∀ kind ∈ kinds, kind.isConnective = true) : Spelled tokens [] := by
  induction tokens generalizing kinds with
  | nil => exact .nil
  | cons token tokens ih =>
      rw [List.map_cons] at h
      subst h
      exact .mark (hkinds _ (.head _)) (ih rfl fun kind hmem => hkinds kind (.tail _ hmem))

/-- A bracket on either side changes nothing. -/
theorem bracketed {opener closer : Token} {kind kind' : Kind} {tokens : List Token} {names : List String}
    (h : Spelled tokens names) (hopen : opener.kind = kind) (hclose : closer.kind = kind')
    (hkind : kind.isConnective = true) (hkind' : kind'.isConnective = true) :
    Spelled (opener :: (tokens ++ [closer])) names := by
  have hclosed := h.append (of_mark hclose hkind')
  rw [List.append_nil] at hclosed
  exact .mark (by rwa [hopen]) hclosed

end Spelled

theorem Separated.spelled {α : Type} {separator : Kind} {form : List Token → α → Prop}
    {names : α → List String} {tokens : List Token} {values : List α}
    (h : Separated separator form tokens values)
    (hform : ∀ tokens value, form tokens value → Spelled tokens (names value))
    (hseparator : separator.isConnective = true) : Spelled tokens (values.flatMap names) := by
  induction h with
  | last hitem =>
      rw [List.flatMap_singleton]
      exact hform _ _ hitem
  | more hitem hmark _ ih =>
      rw [List.flatMap_cons]
      exact (hform _ _ hitem).append (.mark (by rwa [hmark]) ih)

theorem Repeated.spelled {α : Type} {form : List Token → α → Prop} {names : α → List String}
    {tokens : List Token} {values : List α} (h : Repeated form tokens values)
    (hform : ∀ tokens value, form tokens value → Spelled tokens (names value)) :
    Spelled tokens (values.flatMap names) := by
  induction h with
  | nil => exact .nil
  | cons hitem _ ih =>
      rw [List.flatMap_cons]
      exact (hform _ _ hitem).append ih

/-! ### Types -/

theorem fields_spelled {tokens : List Token} {fields : List (Field TypeExpr)}
    (h : Separated .comma (Labelled fun tokens type => Spelled tokens type.names) tokens fields) :
    Spelled tokens (TypeExpr.fieldNames fields) := by
  rw [TypeExpr.fieldNames_eq]
  refine h.spelled ?_ rfl
  rintro tokens field ⟨hname, hcolon, htype⟩
  exact .name (.inl hname) (.mark (by rw [hcolon]; rfl) htype)

/-- The names of types are spelled by their tokens. -/
theorem spelled_productions : Productions fun tokens type => Spelled tokens type.names where
  named hpath hargs := by
    rw [TypeExpr.names, TypeExpr.listNames_eq]
    exact .path hpath (hargs.spelled fun _ _ h => h)
  var hname := .name (.inl hname) .nil
  emptyRecord hopen hclose := .bracketed .nil hopen hclose rfl rfl
  record hopen hfields hclose := (fields_spelled hfields).bracketed hopen hclose rfl rfl
  extensible hopen hbase hbar hfields hclose := by
    have hinner : Spelled _ _ := .name (.inl hbase) (.mark (by rw [hbar]; rfl) (fields_spelled hfields))
    exact hinner.bracketed hopen hclose rfl rfl
  unit hopen hclose := .bracketed .nil hopen hclose rfl rfl
  group hopen htype hclose := htype.bracketed hopen hclose rfl rfl
  tuple hopen hitems hmany hclose := by
    rw [TypeExpr.names, TypeExpr.listNames_eq]
    exact (hitems.spelled (fun _ _ h => h) rfl).bracketed hopen hclose rfl rfl
  function hparts hmany := by
    rw [TypeExpr.names, TypeExpr.listNames_eq]
    exact hparts.spelled (fun _ _ h => h) rfl

theorem Alternative.spelled {tokens : List Token} {constructor : Constructor}
    (h : Alternative tokens constructor) : Spelled tokens constructor.names := by
  obtain ⟨hpath, hargs⟩ := h
  exact .path hpath ((hargs.of_productions spelled_productions).spelled fun _ _ h => h)

theorem Item.spelled {tokens : List Token} {item : ExposedItem} (h : Item tokens item) :
    Spelled tokens [item.name] := by
  cases h with
  | value hname => exact .name (.inl hname) .nil
  | type hname => exact .name (.inr (.inl hname)) .nil
  | constructors hname hopen hdots hclose =>
      have hmark : Spelled _ [] := Spelled.bracketed (.of_mark hdots rfl) hopen hclose rfl rfl
      exact .name (.inr (.inl hname)) hmark
  | operator hopen hsymbol hclose =>
      exact Spelled.bracketed (.name (.inr (.inr hsymbol)) .nil) hopen hclose rfl rfl

theorem Clause.spelled {tokens : List Token} {exposed : Exposing} (h : Clause tokens exposed) :
    Spelled tokens exposed.names := by
  cases h with
  | nothing => exact .nil
  | all hword hopen hdots hclose =>
      exact .mark (by rw [hword]; rfl) (Spelled.bracketed (.of_mark hdots rfl) hopen hclose rfl rfl)
  | @list word opener closer tokens items hword hopen hitems hclose =>
      have hnames : items.map ExposedItem.name = items.flatMap fun item => [item.name] := List.map_eq_flatMap
      have hinner := hitems.spelled (fun _ _ => Item.spelled) rfl
      rw [← hnames] at hinner
      exact .mark (by rw [hword]; rfl) (hinner.bracketed hopen hclose rfl rfl)

theorem ShortName.spelled {tokens : List Token} {short : Option String} (h : ShortName tokens short) :
    Spelled tokens short.toList := by
  cases h with
  | missing => exact .nil
  | given hword hname => exact .mark (by rw [hword]; rfl) (.name (.inr (.inl hname)) .nil)

/-! ### Declarations -/

/-- What a declaration may leave out besides words and marks: the block of an effect module, or the
parameters of a declared type. -/
def LeftOut : Statement → List Token → Prop
  | .header decl, omitted => Block decl.kind omitted
  | .imported _, omitted => omitted = []
  | .union _, omitted => ∀ token ∈ omitted, token.kind.isName = true
  | .aliased _, omitted => ∀ token ∈ omitted, token.kind.isName = true

/-- The tokens after the opening words spell the names of the declaration, but for one run of tokens that
may be left out. -/
theorem Body.spelled {position : Position} {opening : Opening} {tokens : List Token} {statement : Statement}
    (h : Body position opening tokens statement) :
    ∃ front omitted back, tokens = front ++ (omitted ++ back) ∧ Spelled (front ++ back) statement.names ∧
      LeftOut statement omitted := by
  cases h with
  | @header kind tokens block rest names exposed hpath hblock hclause =>
      exact ⟨tokens, block, rest, rfl, .path hpath hclause.spelled, hblock⟩
  | @imported tokens short rest names shortName exposed hpath hshort hclause =>
      exact ⟨tokens, [], short ++ rest, rfl, .path hpath (hshort.spelled.append hclause.spelled), rfl⟩
  | @union tokens rest name constructors hname hconstructors =>
      obtain @⟨name, equals, parameters, hkind, hparameters, hequals⟩ := hname
      have hrest := hconstructors.spelled (fun _ _ => Alternative.spelled) rfl
      refine ⟨[name], parameters, equals :: rest, by simp, ?_, hparameters⟩
      exact .name (.inr (.inl hkind)) (.mark (by rw [hequals]; rfl) hrest)
  | @aliased tokens rest name type hname htype =>
      obtain @⟨name, equals, parameters, hkind, hparameters, hequals⟩ := hname
      refine ⟨[name], parameters, equals :: rest, by simp, ?_, hparameters⟩
      exact .name (.inr (.inl hkind))
        (.mark (by rw [hequals]; rfl) (htype.of_productions spelled_productions))

theorem openingKinds_isConnective (opening : Opening) :
    ∀ kind ∈ openingKinds opening, kind.isConnective = true := by
  cases opening with
  | header kind => cases kind <;> decide
  | _ => decide

/-- The tokens of a declaration spell its names, but for one run of tokens that may be left out. -/
theorem Declaration.spelled {position : Position} {tokens : List Token} {statement : Statement}
    (h : Declaration position tokens statement) :
    ∃ front omitted back, tokens = front ++ (omitted ++ back) ∧ Spelled (front ++ back) statement.names ∧
      LeftOut statement omitted := by
  obtain @⟨opening, words, body, statement, hwords, hbody⟩ := h
  obtain ⟨front, omitted, back, rfl, hspelled, homitted⟩ := hbody.spelled
  refine ⟨words ++ front, omitted, back, by rw [List.append_assoc], ?_, homitted⟩
  rw [List.append_assoc]
  exact (Spelled.of_marks hwords (openingKinds_isConnective opening)).append hspelled

end Sentence

end ElmNavigation
