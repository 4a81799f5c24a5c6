import ElmNavigation.Declaration.Tree

/-! Declarations as Elm text, each on one line. An argument of a type, or of a constructor, stands in
parentheses if it is itself applied or a function, and a part of a function if it is a function. -/

namespace ElmNavigation

namespace TypeExpr

def isFunction : TypeExpr → Bool
  | function _ => true
  | _ => false

/-- Whether a type needs parentheses as an argument. -/
def isCompound : TypeExpr → Bool
  | named _ args => !args.isEmpty
  | function _ => true
  | _ => false

def parenthesized (text : String) : String :=
  "(" ++ text ++ ")"

mutual

/-- A type annotation as text. -/
def display : TypeExpr → String
  | var name => name
  | named name args => name ++ displayArgs args
  | record fields =>
      if fields.isEmpty then "\x7b\x7d" else "\x7b" ++ ",".intercalate (displayFields fields) ++ " \x7d"
  | extensible base fields => "\x7b " ++ base ++ " |" ++ ",".intercalate (displayFields fields) ++ " \x7d"
  | tuple items => if items.isEmpty then "()" else "(" ++ ",".intercalate (displayItems items) ++ " )"
  | function parts => " -> ".intercalate (displayParts parts)

/-- Arguments, each after a space. -/
def displayArgs : List TypeExpr → String
  | [] => ""
  | arg :: args =>
      " " ++ (if arg.isCompound then parenthesized (display arg) else display arg) ++ displayArgs args

/-- Fields, each after a space. -/
def displayFields : List (Field TypeExpr) → List String
  | [] => []
  | ⟨name, type⟩ :: fields => (" " ++ name ++ " : " ++ display type) :: displayFields fields

/-- Items of a tuple, each after a space. -/
def displayItems : List TypeExpr → List String
  | [] => []
  | item :: items => (" " ++ display item) :: displayItems items

/-- Parts of a function. -/
def displayParts : List TypeExpr → List String
  | [] => []
  | part :: parts =>
      (if part.isFunction then parenthesized (display part) else display part) :: displayParts parts

end

end TypeExpr

/-- An alternative as text. -/
def Constructor.display (constructor : Constructor) : String :=
  constructor.name ++ TypeExpr.displayArgs constructor.args

/-- An entry of an `exposing` list as text. -/
def ExposedItem.display : ExposedItem → String
  | value name => name
  | type name constructors => if constructors then name ++ "(..)" else name
  | operator symbol => "(" ++ symbol ++ ")"

/-- A clause as text, with a space before it unless there is none. -/
def Exposing.display : Exposing → String
  | all => " exposing (..)"
  | list items => " exposing (" ++ ", ".intercalate (items.map ExposedItem.display) ++ ")"
  | nothing => ""

/-- The words before a module's name. -/
def ModuleKind.words : ModuleKind → String
  | plain => "module "
  | port => "port module "
  | effect => "effect module "

/-- A statement as text. -/
def Statement.display : Statement → String
  | header decl => decl.kind.words ++ decl.name ++ decl.exposed.display
  | imported decl =>
      "import " ++ decl.moduleName ++ (decl.shortName.elim "" (" as " ++ ·)) ++ decl.exposed.display
  | union decl => "type " ++ decl.name ++ " =" ++ " |".intercalate (decl.constructors.map (" " ++ ·.display))
  | aliased decl => "type alias " ++ decl.name ++ " = " ++ decl.annotation.display

end ElmNavigation
