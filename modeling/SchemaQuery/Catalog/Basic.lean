-- SUMMARY: Catalogs: schemas, in-memory tables, types and the environment.
import SchemaQuery.Catalog.Schema
import SchemaQuery.Text.Quoted

/-!
# Catalogs

A catalog holds schemas, tables kept in memory by the host, the entity types and
the environment. Schemas are known by a key: their name in lower case, without
leading number signs. A schema registered later takes the place of an earlier one
with its key.
-/

namespace SchemaQuery

structure Catalog where
  /-- All schemas ever registered, in order. -/
  registered : List Schema
  types : TypeRegistry
  inMemory : NameMap (List Column)
  builtins : MethodRegistry
  environment : NameMap String

/-- A table asked of the schema of some key. -/
structure TableRequest where
  key : String
  context : TableContext

namespace Catalog

def empty : Catalog := ⟨[], .empty, [], .builtin, []⟩

def withoutSigns (name : String) : String :=
  String.ofList (name.toList.dropWhile (· = '#'))

/-- The key of a schema name. -/
def key (name : String) : String := Text.lowercase (withoutSigns name)

def register (c : Catalog) (s : Schema) : Catalog := { c with registered := c.registered ++ [s] }

def withMemoryTable (c : Catalog) (name : String) (columns : List Column) : Catalog :=
  { c with inMemory := c.inMemory.insert name columns }

/-- The schemas in force, by key. -/
def schemas (c : Catalog) : NameMap Schema :=
  NameMap.ofList (c.registered.map fun s => (key s.name, s))

def schema? (c : Catalog) (name : String) : Option Schema := c.schemas.get? (key name)

def requireSchema (c : Catalog) (name : String) : Except CatalogError Schema :=
  match c.schema? name with
  | some s => .ok s
  | none => .error (.schemaNotFound name)

/-- The names of the schemas in force, in the order of their keys. -/
def schemaNames (c : Catalog) : List String := c.schemas.values.map (·.name)

def memoryTable? (c : Catalog) (name : String) : Option (List Column) := c.inMemory.get? name

def memoryTableNames (c : Catalog) : List String := c.inMemory.keys

def describe (c : Catalog) : String :=
  "SchemaCatalog \x7b schemas: " ++ Text.quoteList c.schemaNames ++ ", in_memory: "
    ++ Text.quoteList c.memoryTableNames ++ " \x7d"

/-- The requests made of each registered schema, in the order of registration. A schema that was
    replaced has none. -/
def requestLog (c : Catalog) (requests : List TableRequest) :
    List (String × List TableContext) :=
  go c.registered
where
  go : List Schema → List (String × List TableContext)
    | [] => []
    | s :: later =>
      let replaced := later.any fun t => key t.name = key s.name
      let own := if replaced then [] else requests.filter fun r => r.key = key s.name
      (s.name, own.map (·.context)) :: go later

end Catalog

end SchemaQuery
