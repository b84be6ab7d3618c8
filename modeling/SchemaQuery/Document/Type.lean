-- SUMMARY: Types, entity types and columns as JSON.
import SchemaQuery.Column
import SchemaQuery.DataType.Registry
import SchemaQuery.Json.Basic

/-!
# Types as JSON

A type without parts is written as its tag, any other as an object with the tag
as its one member.
-/

namespace SchemaQuery

-- ---------------------------------------------------------------------------
-- Types
-- ---------------------------------------------------------------------------

namespace DataType

def toJson : DataType → Json
  | .boolean => .str "Boolean"
  | .int => .str "Int"
  | .long => .str "Long"
  | .double => .str "Double"
  | .decimal => .str "Decimal"
  | .string => .str "String"
  | .dateTime => .str "DateTime"
  | .guid => .str "Guid"
  | .object => .str "Object"
  | .null => .str "Null"
  | .array t => .tagged "Array" t.toJson
  | .sequence t => .tagged "Sequence" t.toJson
  | .nullable t => .tagged "Nullable" t.toJson
  | .entity name => .tagged "Entity" (.str name)

/-- The types without parts, by their tags. -/
def atoms : List (String × DataType) :=
  [("Boolean", .boolean), ("Int", .int), ("Long", .long), ("Double", .double),
    ("Decimal", .decimal), ("String", .string), ("DateTime", .dateTime), ("Guid", .guid),
    ("Object", .object), ("Null", .null)]

def ofJson? (j : Json) : Option DataType :=
  match j.variant? with
  | none => none
  | some (tag, none) => atoms.lookup tag
  | some (tag, some ⟨v, _h⟩) =>
    match tag with
    | "Array" => (ofJson? v).map .array
    | "Sequence" => (ofJson? v).map .sequence
    | "Nullable" => (ofJson? v).map .nullable
    | "Entity" => v.str?.map .entity
    | _ => none
termination_by sizeOf j

end DataType

-- ---------------------------------------------------------------------------
-- Entity types
-- ---------------------------------------------------------------------------

def Property.toJson (p : Property) : Json :=
  .obj [("name", .str p.name), ("data_type", p.type.toJson)]

def Property.ofJson? (j : Json) : Option Property := do
  return ⟨← j.field? "name" Json.str?, ← j.field? "data_type" DataType.ofJson?⟩

def EntityType.toJson (e : EntityType) : Json :=
  .obj [("name", .str e.name), ("base", .ofOption .str e.base),
    ("interfaces", .strings e.interfaces), ("properties", .ofList Property.toJson e.properties)]

def EntityType.ofJson? (j : Json) : Option EntityType := do
  return {
    name := ← j.field? "name" Json.str?
    base := ← j.optField? "base" Json.str?
    interfaces := ← j.field? "interfaces" (Json.list? Json.str?)
    properties := ← j.field? "properties" (Json.list? Property.ofJson?) }

def TypeRegistry.toJson (r : TypeRegistry) : Json :=
  .obj [("entities", .obj (r.entities.map fun e => (e.name, e.toJson)))]

-- ---------------------------------------------------------------------------
-- Columns
-- ---------------------------------------------------------------------------

namespace Column

def toJson (c : Column) : Json :=
  .obj [("name", .str c.name), ("ordinal", .ofNat c.ordinal), ("data_type", c.type.toJson)]

def ofJson? (j : Json) : Option Column := do
  return {
    name := ← j.field? "name" Json.str?
    ordinal := ← j.field? "ordinal" Json.nat?
    type := ← j.field? "data_type" DataType.ofJson? }

def listToJson (columns : List Column) : Json := .ofList toJson columns

end Column

end SchemaQuery
