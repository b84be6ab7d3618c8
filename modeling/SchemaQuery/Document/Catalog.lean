-- SUMMARY: Catalogs, schemas and table requests as JSON.
import SchemaQuery.Catalog.Basic
import SchemaQuery.Document.Expr
import SchemaQuery.Document.Method
import SchemaQuery.Sample.Catalog

/-!
# Catalogs as JSON

A catalog is described by the schemas to register, the tables in memory, the
entity types and the environment, on top of the sample catalog or of nothing.
-/

namespace SchemaQuery

-- ---------------------------------------------------------------------------
-- Requests
-- ---------------------------------------------------------------------------

namespace Argument

def toJson : Argument → Json
  | .constant v => .tagged "Constant" v.toJson
  | .dynamic t => .tagged "Dynamic" t.toJson

def ofJson? (j : Json) : Option Argument :=
  match j.variant? with
  | some ("Constant", some v) => (Literal.ofJson? v.1).map .constant
  | some ("Dynamic", some v) => (DataType.ofJson? v.1).map .dynamic
  | _ => none

end Argument

namespace ColumnRequest

def toJson (r : ColumnRequest) : Json :=
  .obj [("all", .bool r.all), ("names", .strings r.names)]

def ofJson? (j : Json) : Option ColumnRequest := do
  return ⟨← j.field? "all" Json.bool?,
    NameSet.ofList (← j.field? "names" (Json.list? Json.str?))⟩

end ColumnRequest

def TableContext.toJson (c : TableContext) : Json :=
  .obj [("alias", .str c.aliasName), ("requested_columns", c.requested.toJson),
    ("environment", .ofTexts c.environment)]

/-- The requests made of each schema. -/
def requestLogToJson (log : List (String × List TableContext)) : Json :=
  .ofList (fun (name, requests) =>
    .obj [("schema", .str name), ("requests", .ofList TableContext.toJson requests)]) log

-- ---------------------------------------------------------------------------
-- Schemas
-- ---------------------------------------------------------------------------

def TableDef.ofJson? (j : Json) : Option TableDef := do
  return {
    name := ← j.field? "method" Json.str?
    parameters := ← match j.part? "parameters" with
      | none => some []
      | some v => v.1.list? DataType.ofJson?
    columns := ← j.field? "columns" (Json.list? fun c => do
      return (← c.field? "name" Json.str?, ← c.field? "dataType" DataType.ofJson?))
    rowType := ← j.optField? "rowType" DataType.ofJson? }

/-- The name and tables of a schema. -/
def StaticSchema.definition? (j : Json) : Option (String × List TableDef) := do
  return (← j.field? "name" Json.str?, ← j.field? "tables" (Json.list? TableDef.ofJson?))

/-- The methods of a schema: the builtin ones unless they are declined, then those listed. -/
def MethodRegistry.ofJson? (j : Json) : Option MethodRegistry := do
  let builtins ← j.optField? "builtins" Json.bool?
  let methods ← j.optField? "methods" (Json.list? Method.ofJson?)
  return ⟨(if builtins = some false then [] else Method.builtins) ++ methods.getD []⟩

/-- A schema. Its arguments are checked with the given types, unless it declines to share them. -/
def StaticSchema.ofJson? (types : TypeRegistry) (j : Json) : Option StaticSchema := do
  let (name, tables) ← j.field? "definition" StaticSchema.definition?
  let share ← j.optField? "shareTypes" Json.bool?
  return {
    name := name
    tables := tables
    methods := ← MethodRegistry.ofJson? j
    types := if share = some false then .empty else types }

-- ---------------------------------------------------------------------------
-- Catalogs
-- ---------------------------------------------------------------------------

/-- The entity types of a description, if it has any. -/
def TypeRegistry.member? (j : Json) : Option (Option TypeRegistry) := do
  return (← j.optField? "entities" (Json.list? EntityType.ofJson?)).map TypeRegistry.ofList

def memoryTableOfJson? (j : Json) : Option (String × List Column) := do
  return (← j.field? "name" Json.str?, ← j.field? "columns" (Json.list? Column.ofJson?))

/-- A table of texts. -/
def textsOfJson? (j : Json) : Option (NameMap String) := do
  return NameMap.ofList (← j.entries? Json.str?)

/-- A catalog from its description. -/
def Catalog.ofJson? (j : Json) : Option Catalog := do
  let _ ← j.members?
  let standard ← j.optField? "standard" Json.bool?
  let start := if standard = some true then Sample.catalog else Catalog.empty
  let types := (← TypeRegistry.member? j).getD start.types
  let schemas ← j.optField? "schemas" (Json.list? (StaticSchema.ofJson? types))
  let tables ← j.optField? "inMemory" (Json.list? memoryTableOfJson?)
  let environment ← j.optField? "environment" textsOfJson?
  let c := { start with types := types, environment := environment.getD start.environment }
  let c := (schemas.getD []).foldl (fun c s => c.register s.toSchema) c
  return (tables.getD []).foldl (fun c (name, columns) => c.withMemoryTable name columns) c

end SchemaQuery
