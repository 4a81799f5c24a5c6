import ElmNavigation.Declaration.Tree
import ElmNavigation.Text.Word
import ElmNavigation.Token.Scanner

/-! The trees that declarations can have. Names are spelled as their kind asks, operators have no meaning
of their own in a declaration, and lists that must not be empty are not. A tree of this form can be
written as text and is read back from it, and no other tree is ever read. -/

namespace ElmNavigation

/-- A capital letter, then letters, digits and underscores. -/
def IsUpperName (name : String) : Prop :=
  ∃ c rest, name.toList = c :: rest ∧ c.isUpper = true ∧ ∀ d ∈ rest, Text.isWordChar d = true

/-- One or more such names with dots between them. -/
def IsQualifiedName (name : String) : Prop :=
  ∃ parts, parts ≠ [] ∧ (∀ part ∈ parts, IsUpperName part) ∧ name = ".".intercalate parts

/-- A small letter, then letters, digits and underscores, but none of the words that open declarations. -/
def IsLowerName (name : String) : Prop :=
  (∃ c rest, name.toList = c :: rest ∧ c.isLower = true ∧ ∀ d ∈ rest, Text.isWordChar d = true) ∧
    name ∉ ["module", "import", "type"]

/-- Symbol characters that neither have a meaning in declarations nor begin a comment. -/
def IsOperator (symbol : String) : Prop :=
  symbol.toList ≠ [] ∧ (∀ c ∈ symbol.toList, Token.isSymbol c = true) ∧
    symbol ∉ [":", "=", "|", "->", "..", "."] ∧ ¬ ['-', '-'] <+: symbol.toList

inductive TypeExpr.WellFormed : TypeExpr → Prop where
  | var {name : String} (hname : IsLowerName name) : WellFormed (.var name)
  | named {name : String} {args : List TypeExpr} (hname : IsQualifiedName name)
      (hargs : ∀ arg ∈ args, WellFormed arg) : WellFormed (.named name args)
  | record {fields : List (Field TypeExpr)} (hnames : ∀ field ∈ fields, IsLowerName field.name)
      (htypes : ∀ field ∈ fields, WellFormed field.type) : WellFormed (.record fields)
  | extensible {base : String} {fields : List (Field TypeExpr)} (hbase : IsLowerName base)
      (hfields : fields ≠ [])
      (hnames : ∀ field ∈ fields, IsLowerName field.name) (htypes : ∀ field ∈ fields, WellFormed field.type) :
      WellFormed (.extensible base fields)
  | tuple {items : List TypeExpr} (hcount : items.length = 0 ∨ 2 ≤ items.length)
      (hitems : ∀ item ∈ items, WellFormed item) : WellFormed (.tuple items)
  | function {parts : List TypeExpr} (hcount : 2 ≤ parts.length) (hparts : ∀ part ∈ parts, WellFormed part) :
      WellFormed (.function parts)

def Constructor.WellFormed (constructor : Constructor) : Prop :=
  IsQualifiedName constructor.name ∧ ∀ arg ∈ constructor.args, arg.WellFormed

def ExposedItem.WellFormed : ExposedItem → Prop
  | value name => IsLowerName name
  | type name _ => IsUpperName name
  | operator symbol => IsOperator symbol

def Exposing.WellFormed : Exposing → Prop
  | all => True
  | list items => items ≠ [] ∧ ∀ item ∈ items, item.WellFormed
  | nothing => True

def Statement.WellFormed : Statement → Prop
  | header decl => IsQualifiedName decl.name ∧ decl.exposed.WellFormed
  | imported decl =>
      IsQualifiedName decl.moduleName ∧ (∀ short ∈ decl.shortName, IsUpperName short) ∧
        decl.exposed.WellFormed
  | union decl =>
      IsUpperName decl.name ∧ decl.constructors ≠ [] ∧
        ∀ constructor ∈ decl.constructors, constructor.WellFormed
  | aliased decl => IsUpperName decl.name ∧ decl.annotation.WellFormed

end ElmNavigation
