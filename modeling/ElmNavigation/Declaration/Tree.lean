import ElmNavigation.Text.LineIndex

/-! The declarations of a file: its module header, its imports and the types that it declares, with
the type annotations inside them. Parentheses that only group are not kept, and neither are the
parameters of a declared type. -/

namespace ElmNavigation

/-- A field of a record, with a type from `α`. -/
structure Field (α : Type) where
  name : String
  type : α
  deriving DecidableEq, Repr

/-- A type annotation. -/
inductive TypeExpr where
  | var (name : String)
  /-- A type by its name, which may be qualified, applied to arguments. -/
  | named (name : String) (args : List TypeExpr)
  | record (fields : List (Field TypeExpr))
  /-- A record that has at least the given fields. -/
  | extensible (base : String) (fields : List (Field TypeExpr))
  /-- A tuple; without items it is the unit type. -/
  | tuple (items : List TypeExpr)
  /-- A function by its argument types and, last, its result type. -/
  | function (parts : List TypeExpr)
  deriving Repr, Inhabited

/-- An alternative of a declared type. -/
structure Constructor where
  name : String
  args : List TypeExpr
  deriving Repr

/-- An entry of an `exposing` list. -/
inductive ExposedItem where
  | value (name : String)
  /-- A type, with or without its constructors. -/
  | type (name : String) (constructors : Bool)
  | operator (symbol : String)
  deriving DecidableEq, Repr

/-- What a header or an import exposes. -/
inductive Exposing where
  | all
  | list (items : List ExposedItem)
  | nothing
  deriving DecidableEq, Repr

inductive ModuleKind where
  | plain
  | port
  | effect
  deriving DecidableEq, Repr

structure ModuleHeader where
  kind : ModuleKind
  name : String
  exposed : Exposing
  position : Position
  deriving DecidableEq, Repr

structure Import where
  moduleName : String
  /-- The short name after `as`. -/
  shortName : Option String
  exposed : Exposing
  position : Position
  deriving DecidableEq, Repr

structure UnionType where
  name : String
  constructors : List Constructor
  position : Position
  deriving Repr

structure TypeAlias where
  name : String
  annotation : TypeExpr
  position : Position
  deriving Repr

/-- A declaration at the top level of a file. -/
inductive Statement where
  | header (decl : ModuleHeader)
  | imported (decl : Import)
  | union (decl : UnionType)
  | aliased (decl : TypeAlias)
  deriving Repr

namespace ExposedItem

/-- The name or symbol that is exposed. -/
def name : ExposedItem → String
  | value name => name
  | type name _ => name
  | operator symbol => symbol

end ExposedItem

/-- The names that a clause lists. -/
def Exposing.names : Exposing → List String
  | list items => items.map ExposedItem.name
  | all | nothing => []

namespace Statement

/-- The position of the first token. -/
def position : Statement → Position
  | header decl => decl.position
  | imported decl => decl.position
  | union decl => decl.position
  | aliased decl => decl.position

/-- The name of the type that a statement declares. -/
def declaredType? : Statement → Option String
  | union decl => some decl.name
  | aliased decl => some decl.name
  | header _ | imported _ => none

end Statement

end ElmNavigation
