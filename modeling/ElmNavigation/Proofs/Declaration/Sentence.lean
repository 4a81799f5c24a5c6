import ElmNavigation.Declaration.Grammar

/-! The grammar of declarations as relations between lists of tokens and the trees that they spell. Each
constructor is one production. The rules of the parser are proved sound and complete for these relations
in other modules; nothing here says how a sentence is found. -/

namespace ElmNavigation.Sentence

/-- One or more items with separators between them. -/
inductive Separated {α : Type} (separator : Kind) (item : List Token → α → Prop) :
    List Token → List α → Prop where
  | last {tokens : List Token} {value : α} (hitem : item tokens value) :
      Separated separator item tokens [value]
  | more {tokens rest : List Token} {value : α} {values : List α} {mark : Token} (hitem : item tokens value)
      (hmark : mark.kind = separator) (hrest : Separated separator item rest values) :
      Separated separator item (tokens ++ mark :: rest) (value :: values)

/-- Any number of items with nothing between them. -/
inductive Repeated {α : Type} (item : List Token → α → Prop) : List Token → List α → Prop where
  | nil : Repeated item [] []
  | cons {tokens rest : List Token} {value : α} {values : List α} (hitem : item tokens value)
      (hrest : Repeated item rest values) : Repeated item (tokens ++ rest) (value :: values)

/-- A qualified name by its parts; there is no gap on either side of a dot. -/
inductive Qualified : List Token → List String → Prop where
  | last {part : Token} (hpart : part.kind = .upperName) : Qualified [part] [part.text]
  | more {part dot next : Token} {rest : List Token} {names : List String} (hpart : part.kind = .upperName)
      (hdot : dot.kind = .dot) (hleft : dot.start = part.stop) (hright : next.start = dot.stop)
      (hrest : Qualified (next :: rest) names) : Qualified (part :: dot :: next :: rest) (part.text :: names)

/-! ### Type annotations -/

mutual

/-- A type. -/
inductive Annotation : List Token → TypeExpr → Prop where
  | applied {tokens : List Token} {type : TypeExpr} (happlied : Applied tokens type) : Annotation tokens type
  | function {tokens : List Token} {parts : List TypeExpr} (hparts : Separated .arrow Applied tokens parts)
      (hmany : 2 ≤ parts.length) : Annotation tokens (.function parts)

/-- A type other than a function without parentheses. -/
inductive Applied : List Token → TypeExpr → Prop where
  | atom {tokens : List Token} {type : TypeExpr} (hatom : Atom tokens type) : Applied tokens type
  | named {tokens rest : List Token} {names : List String} {args : List TypeExpr}
      (hpath : Qualified tokens names)
      (hargs : Repeated Atom rest args) : Applied (tokens ++ rest) (.named (".".intercalate names) args)

/-- A type that needs no parentheses as an argument. -/
inductive Atom : List Token → TypeExpr → Prop where
  | named {tokens : List Token} {names : List String} (hpath : Qualified tokens names) :
      Atom tokens (.named (".".intercalate names) [])
  | var {name : Token} (hname : name.kind.isName = true) : Atom [name] (.var name.text)
  | emptyRecord {opener closer : Token} (hopen : opener.kind = .openBrace)
      (hclose : closer.kind = .closeBrace) : Atom [opener, closer] (.record [])
  | record {opener closer : Token} {tokens : List Token} {fields : List (Field TypeExpr)}
      (hopen : opener.kind = .openBrace) (hfields : Separated .comma Member tokens fields)
      (hclose : closer.kind = .closeBrace) : Atom (opener :: (tokens ++ [closer])) (.record fields)
  | extensible {opener base bar closer : Token} {tokens : List Token} {fields : List (Field TypeExpr)}
      (hopen : opener.kind = .openBrace) (hbase : base.kind.isName = true) (hbar : bar.kind = .pipe)
      (hfields : Separated .comma Member tokens fields) (hclose : closer.kind = .closeBrace) :
      Atom (opener :: base :: bar :: (tokens ++ [closer])) (.extensible base.text fields)
  | unit {opener closer : Token} (hopen : opener.kind = .openParen) (hclose : closer.kind = .closeParen) :
      Atom [opener, closer] (.tuple [])
  | group {opener closer : Token} {tokens : List Token} {type : TypeExpr} (hopen : opener.kind = .openParen)
      (htype : Annotation tokens type) (hclose : closer.kind = .closeParen) :
      Atom (opener :: (tokens ++ [closer])) type
  | tuple {opener closer : Token} {tokens : List Token} {items : List TypeExpr}
      (hopen : opener.kind = .openParen)
      (hitems : Separated .comma Annotation tokens items) (hmany : 2 ≤ items.length)
      (hclose : closer.kind = .closeParen) : Atom (opener :: (tokens ++ [closer])) (.tuple items)

/-- A field of a record. -/
inductive Member : List Token → Field TypeExpr → Prop where
  | intro {name colon : Token} {tokens : List Token} {type : TypeExpr} (hname : name.kind.isName = true)
      (hcolon : colon.kind = .colon) (htype : Annotation tokens type) :
      Member (name :: colon :: tokens) ⟨name.text, type⟩

end

/-- A field whose type has the given form. -/
inductive Labelled (form : List Token → TypeExpr → Prop) : List Token → Field TypeExpr → Prop where
  | intro {name colon : Token} {tokens : List Token} {type : TypeExpr} (hname : name.kind.isName = true)
      (hcolon : colon.kind = .colon) (htype : form tokens type) :
      Labelled form (name :: colon :: tokens) ⟨name.text, type⟩

/-- A form of types that every production keeps. -/
structure Productions (form : List Token → TypeExpr → Prop) : Prop where
  named {tokens rest : List Token} {names : List String} {args : List TypeExpr}
    (hpath : Qualified tokens names)
    (hargs : Repeated form rest args) : form (tokens ++ rest) (.named (".".intercalate names) args)
  var {name : Token} (hname : name.kind.isName = true) : form [name] (.var name.text)
  emptyRecord {opener closer : Token} (hopen : opener.kind = .openBrace)
    (hclose : closer.kind = .closeBrace) : form [opener, closer] (.record [])
  record {opener closer : Token} {tokens : List Token} {fields : List (Field TypeExpr)}
    (hopen : opener.kind = .openBrace) (hfields : Separated .comma (Labelled form) tokens fields)
    (hclose : closer.kind = .closeBrace) : form (opener :: (tokens ++ [closer])) (.record fields)
  extensible {opener base bar closer : Token} {tokens : List Token} {fields : List (Field TypeExpr)}
    (hopen : opener.kind = .openBrace) (hbase : base.kind.isName = true) (hbar : bar.kind = .pipe)
    (hfields : Separated .comma (Labelled form) tokens fields) (hclose : closer.kind = .closeBrace) :
    form (opener :: base :: bar :: (tokens ++ [closer])) (.extensible base.text fields)
  unit {opener closer : Token} (hopen : opener.kind = .openParen) (hclose : closer.kind = .closeParen) :
    form [opener, closer] (.tuple [])
  group {opener closer : Token} {tokens : List Token} {type : TypeExpr} (hopen : opener.kind = .openParen)
    (htype : form tokens type) (hclose : closer.kind = .closeParen) :
    form (opener :: (tokens ++ [closer])) type
  tuple {opener closer : Token} {tokens : List Token} {items : List TypeExpr}
    (hopen : opener.kind = .openParen)
    (hitems : Separated .comma form tokens items) (hmany : 2 ≤ items.length)
    (hclose : closer.kind = .closeParen) :
    form (opener :: (tokens ++ [closer])) (.tuple items)
  function {tokens : List Token} {parts : List TypeExpr} (hparts : Separated .arrow form tokens parts)
    (hmany : 2 ≤ parts.length) : form tokens (.function parts)

section

variable {form : List Token → TypeExpr → Prop} {tokens : List Token}

/-- All types other than functions have a form that every production keeps. -/
theorem Applied.of_productions {type : TypeExpr} (htype : Applied tokens type) (h : Productions form) :
    form tokens type := by
  -- a list of types that the grammar allows is a list of types of the form
  refine @Applied.rec (fun tokens type _ => form tokens type) (fun tokens type _ => form tokens type)
    (fun tokens type _ => form tokens type) (fun tokens field _ => Labelled form tokens field)
    (fun tokens parts _ => Separated .arrow form tokens parts)
    (fun tokens args _ => Repeated form tokens args)
    (fun tokens fields _ => Separated .comma (Labelled form) tokens fields)
    (fun tokens items _ => Separated .comma form tokens items)
    ?applied ?function ?atom ?named ?path ?var ?emptyRecord ?record ?extensible ?unit ?group ?tuple ?member
    ?lastPart ?morePart ?noArgs ?moreArgs ?lastField ?moreField ?lastItem ?moreItem tokens type htype
  case applied => exact fun _ hform => hform
  case function => exact fun _ hmany hforms => h.function hforms hmany
  case atom => exact fun _ hform => hform
  case named => exact fun hpath _ hforms => h.named hpath hforms
  case path =>
    intro tokens names hpath
    have hform := h.named hpath .nil
    rwa [List.append_nil] at hform
  case var => exact h.var
  case emptyRecord => exact h.emptyRecord
  case record => exact fun hopen _ hclose hforms => h.record hopen hforms hclose
  case extensible => exact fun hopen hbase hbar _ hclose hforms => h.extensible hopen hbase hbar hforms hclose
  case unit => exact h.unit
  case group => exact fun hopen _ hclose hform => h.group hopen hform hclose
  case tuple => exact fun hopen _ hmany hclose hforms => h.tuple hopen hforms hmany hclose
  case member => exact fun hname hcolon _ hform => .intro hname hcolon hform
  case lastPart => exact fun _ hform => .last hform
  case morePart => exact fun _ hmark _ hform hforms => .more hform hmark hforms
  case noArgs => exact .nil
  case moreArgs => exact fun _ _ hform hforms => .cons hform hforms
  case lastField => exact fun _ hform => .last hform
  case moreField => exact fun _ hmark _ hform hforms => .more hform hmark hforms
  case lastItem => exact fun _ hform => .last hform
  case moreItem => exact fun _ hmark _ hform hforms => .more hform hmark hforms

/-- The parts of a function have a form that every production keeps. -/
theorem Separated.of_productions {separator : Kind} {parts : List TypeExpr}
    (hparts : Separated separator Applied tokens parts) (h : Productions form) :
    Separated separator form tokens parts := by
  induction hparts with
  | last happlied => exact .last (happlied.of_productions h)
  | more happlied hmark _ ih => exact .more (happlied.of_productions h) hmark ih

/-- Arguments have a form that every production keeps. -/
theorem Repeated.of_productions {args : List TypeExpr} (hargs : Repeated Atom tokens args)
    (h : Productions form) : Repeated form tokens args := by
  induction hargs with
  | nil => exact .nil
  | cons hatom _ ih => exact .cons (Applied.of_productions (.atom hatom) h) ih

/-- All types have a form that every production keeps. -/
theorem Annotation.of_productions {type : TypeExpr} (htype : Annotation tokens type) (h : Productions form) :
    form tokens type := by
  cases htype with
  | applied happlied => exact happlied.of_productions h
  | function hparts hmany => exact h.function (hparts.of_productions h) hmany

end

/-- An alternative of a declared type. -/
inductive Alternative : List Token → Constructor → Prop where
  | intro {tokens rest : List Token} {names : List String} {args : List TypeExpr}
      (hpath : Qualified tokens names)
      (hargs : Repeated Atom rest args) : Alternative (tokens ++ rest) ⟨".".intercalate names, args⟩

/-! ### Declarations -/

/-- An entry of an `exposing` list. -/
inductive Item : List Token → ExposedItem → Prop where
  | value {name : Token} (hname : name.kind.isName = true) : Item [name] (.value name.text)
  | type {name : Token} (hname : name.kind = .upperName) : Item [name] (.type name.text false)
  | constructors {name opener dots closer : Token} (hname : name.kind = .upperName)
      (hopen : opener.kind = .openParen) (hdots : dots.kind = .dotDot) (hclose : closer.kind = .closeParen) :
      Item [name, opener, dots, closer] (.type name.text true)
  | operator {opener symbol closer : Token} (hopen : opener.kind = .openParen)
      (hsymbol : symbol.kind = .operator)
      (hclose : closer.kind = .closeParen) : Item [opener, symbol, closer] (.operator symbol.text)

/-- An `exposing` clause, which may be missing. -/
inductive Clause : List Token → Exposing → Prop where
  | nothing : Clause [] .nothing
  | all {word opener dots closer : Token} (hword : word.kind = .exposingWord)
      (hopen : opener.kind = .openParen)
      (hdots : dots.kind = .dotDot) (hclose : closer.kind = .closeParen) :
      Clause [word, opener, dots, closer] .all
  | list {word opener closer : Token} {tokens : List Token} {items : List ExposedItem}
      (hword : word.kind = .exposingWord) (hopen : opener.kind = .openParen)
      (hitems : Separated .comma Item tokens items) (hclose : closer.kind = .closeParen) :
      Clause (word :: opener :: (tokens ++ [closer])) (.list items)

/-- Tokens in which every brace has its partner. -/
inductive Balanced : List Token → Prop where
  | nil : Balanced []
  | other {token : Token} {rest : List Token} (hopen : token.kind ≠ .openBrace)
      (hclose : token.kind ≠ .closeBrace) (hrest : Balanced rest) : Balanced (token :: rest)
  | nested {opener closer : Token} {inner rest : List Token} (hopen : opener.kind = .openBrace)
      (hinner : Balanced inner) (hclose : closer.kind = .closeBrace) (hrest : Balanced rest) :
      Balanced (opener :: (inner ++ closer :: rest))

/-- The block of a module, which only an effect module may have. -/
inductive Block : ModuleKind → List Token → Prop where
  | missing (kind : ModuleKind) : Block kind []
  | braces {word opener closer : Token} {inner : List Token} (hword : word.kind = .whereWord)
      (hopen : opener.kind = .openBrace) (hinner : Balanced inner) (hclose : closer.kind = .closeBrace) :
      Block .effect (word :: opener :: (inner ++ [closer]))

/-- The short name of an import, which may be missing. -/
inductive ShortName : List Token → Option String → Prop where
  | missing : ShortName [] none
  | given {word name : Token} (hword : word.kind = .asWord) (hname : name.kind = .upperName) :
      ShortName [word, name] (some name.text)

/-- The name of a declared type with its parameters and the equals sign. -/
inductive DeclaredName : List Token → String → Prop where
  | intro {name equals : Token} {parameters : List Token} (hname : name.kind = .upperName)
      (hparameters : ∀ parameter ∈ parameters, parameter.kind.isName = true)
      (hequals : equals.kind = .equals) :
      DeclaredName (name :: (parameters ++ [equals])) name.text

/-- A declaration after its opening words. -/
inductive Body (position : Position) : Opening → List Token → Statement → Prop where
  | header {kind : ModuleKind} {tokens block rest : List Token} {names : List String} {exposed : Exposing}
      (hpath : Qualified tokens names) (hblock : Block kind block) (hclause : Clause rest exposed) :
      Body position (.header kind) (tokens ++ (block ++ rest))
        (.header ⟨kind, ".".intercalate names, exposed, position⟩)
  | imported {tokens short rest : List Token} {names : List String} {shortName : Option String}
      {exposed : Exposing}
      (hpath : Qualified tokens names) (hshort : ShortName short shortName) (hclause : Clause rest exposed) :
      Body position .imported (tokens ++ (short ++ rest))
        (.imported ⟨".".intercalate names, shortName, exposed, position⟩)
  | union {tokens rest : List Token} {name : String} {constructors : List Constructor}
      (hname : DeclaredName tokens name) (hconstructors : Separated .pipe Alternative rest constructors) :
      Body position .union (tokens ++ rest) (.union ⟨name, constructors, position⟩)
  | aliased {tokens rest : List Token} {name : String} {type : TypeExpr}
      (hname : DeclaredName tokens name) (htype : Annotation rest type) :
      Body position .aliased (tokens ++ rest) (.aliased ⟨name, type, position⟩)

theorem Body.position_eq {position : Position} {opening : Opening} {tokens : List Token}
    {statement : Statement} (h : Body position opening tokens statement) : statement.position = position := by
  cases h <;> rfl

/-- The kinds of the words that open a declaration. -/
def openingKinds : Opening → List Kind
  | .header .plain => [.moduleWord]
  | .header .port => [.portWord, .moduleWord]
  | .header .effect => [.effectWord, .moduleWord]
  | .imported => [.importWord]
  | .union => [.typeWord]
  | .aliased => [.typeWord, .aliasWord]

/-- A declaration. -/
inductive Declaration (position : Position) : List Token → Statement → Prop where
  | intro {opening : Opening} {words body : List Token} {statement : Statement}
      (hwords : words.map Token.kind = openingKinds opening) (hbody : Body position opening body statement) :
      Declaration position (words ++ body) statement

end ElmNavigation.Sentence
