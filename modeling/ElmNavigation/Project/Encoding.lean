import ElmNavigation.Json.Value
import ElmNavigation.Project.Definition

/-! Declarations, records and graphs as JSON. The alternatives of a sum are told apart by a member
with a word for each: `statement`, `kind`, `form` or `status`. -/

namespace ElmNavigation

open Json

def Position.toJson (position : Position) : Json :=
  fields [("line", ofNat position.line), ("column", ofNat position.column), ("offset", ofNat position.offset)]

namespace TypeExpr

mutual

/-- A type annotation as JSON. -/
def toJson : TypeExpr → Json
  | var name => fields [("kind", ofText "var"), ("name", ofText name)]
  | named name args =>
      fields [("kind", ofText "constructor"), ("name", ofText name), ("args", array (listToJson args))]
  | record members => fields [("kind", ofText "record"), ("fields", array (fieldsToJson members))]
  | extensible base members =>
      fields [("kind", ofText "extensible_record"), ("base", ofText base),
        ("fields", array (fieldsToJson members))]
  | tuple items => fields [("kind", ofText "tuple"), ("items", array (listToJson items))]
  | function parts => fields [("kind", ofText "function"), ("parts", array (listToJson parts))]

def listToJson : List TypeExpr → List Json
  | [] => []
  | type :: types => toJson type :: listToJson types

def fieldsToJson : List (Field TypeExpr) → List Json
  | [] => []
  | ⟨name, type⟩ :: members =>
      fields [("name", ofText name), ("ty", toJson type)] :: fieldsToJson members

end

end TypeExpr

def Constructor.toJson (constructor : Constructor) : Json :=
  fields [("name", ofText constructor.name), ("args", array (constructor.args.map TypeExpr.toJson))]

def ExposedItem.toJson : ExposedItem → Json
  | value name => fields [("kind", ofText "value"), ("name", ofText name)]
  | type name constructors =>
      fields [("kind", ofText "type"), ("name", ofText name), ("constructors", bool constructors)]
  | operator symbol => fields [("kind", ofText "operator"), ("symbol", ofText symbol)]

def Exposing.toJson : Exposing → Json
  | all => fields [("form", ofText "all")]
  | list items => fields [("form", ofText "list"), ("items", array (items.map ExposedItem.toJson))]
  | nothing => fields [("form", ofText "none")]

def ModuleKind.word : ModuleKind → String
  | plain => "plain"
  | port => "port"
  | effect => "effect"

/-- The members of an import. -/
def Import.members (decl : Import) : List (String × Json) :=
  [("module", ofText decl.moduleName), ("alias", ofOption (decl.shortName.map ofText)),
    ("exposing", decl.exposed.toJson), ("position", decl.position.toJson)]

def Import.toJson (decl : Import) : Json :=
  fields decl.members

def Statement.toJson : Statement → Json
  | header decl =>
      fields [("statement", ofText "module"), ("kind", ofText decl.kind.word), ("name", ofText decl.name),
        ("exposing", decl.exposed.toJson), ("position", decl.position.toJson)]
  | imported decl => fields (("statement", ofText "import") :: decl.members)
  | union decl =>
      fields [("statement", ofText "type"), ("name", ofText decl.name),
        ("constructors", array (decl.constructors.map Constructor.toJson)),
        ("position", decl.position.toJson)]
  | aliased decl =>
      fields [("statement", ofText "type_alias"), ("name", ofText decl.name),
        ("annotation", decl.annotation.toJson), ("position", decl.position.toJson)]

def ParseResult.toJson : ParseResult → Json
  | parsed statements =>
      fields [("status", ofText "parsed"), ("statements", array (statements.map Statement.toJson))]
  | failed => fields [("status", ofText "failed")]

def Path.toJson (path : Path) : Json :=
  ofText path.text

def TypeEntry.toJson (entry : TypeEntry) : Json :=
  fields [("name", ofText entry.name), ("position", entry.position.toJson)]

def FileRecord.toJson (record : FileRecord) : Json :=
  fields [("path", record.path.toJson), ("module_name", ofOption (record.moduleName.map ofText)),
    ("imports", array (record.imports.map Import.toJson)),
    ("exposed_types", array (record.types.map TypeEntry.toJson))]

def Node.toJson (node : Node) : Json :=
  fields [("record", node.record.toJson), ("dependencies", array (node.dependencies.map Path.toJson))]

/-- The owners of modules, by module. -/
def ModuleTable.toJson (table : ModuleTable) : Json :=
  fields (table.owners.map fun (name, path) => (name, path.toJson))

/-- A graph as JSON, with its nodes by path. -/
def DependencyGraph.toJson (graph : DependencyGraph) : Json :=
  fields [("nodes", fields (graph.nodes.map fun node => (node.record.path.text, node.toJson))),
    ("modules", graph.modules.toJson), ("ambiguous", ofTexts graph.ambiguousModules)]

def Definition.toJson (definition : Definition) : Json :=
  fields [("path", definition.path.toJson), ("name", ofText definition.name),
    ("position", definition.position.toJson)]

end ElmNavigation
