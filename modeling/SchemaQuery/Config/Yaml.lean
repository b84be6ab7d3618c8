-- SUMMARY: Settings and schemas read from YAML documents.
import SchemaQuery.Catalog.Schema
import SchemaQuery.Config.Reader
import SchemaQuery.Document.Type
import SchemaQuery.Yaml.Reader

/-!
# Reading YAML documents

Settings have the same names and defaults as in JSON. A schema is described by
its name and its tables.
-/

namespace SchemaQuery

-- ---------------------------------------------------------------------------
-- Settings
-- ---------------------------------------------------------------------------

namespace Config

/-- A setting of a document. The log filter is a text however it is written. -/
def settingOfYaml (name : String) (v : Yaml) : Json :=
  if name = "logFilter" then .ofOption .str v.text? else v.toJson

def ofYaml? (y : Yaml) : Option Config := do
  let entries ← y.entries?
  Config.ofJson? (.obj (entries.map fun (name, v) => (name, settingOfYaml name v)))

/-- Reads and checks the settings in a YAML text. -/
def parseYaml (text : String) : Except ConfigError Config :=
  match (Yaml.parse? text).bind ofYaml? with
  | some c => c.validate
  | none => .error .yaml

end Config

-- ---------------------------------------------------------------------------
-- Schemas
-- ---------------------------------------------------------------------------

namespace Yaml

/-- The only entry of a name; `some none` when there is no such entry. -/
def optEntry? (y : Yaml) (name : String) : Option (Option Yaml) := do
  match (← y.entries?).filter (·.1 = name) with
  | [] => return none
  | [(_, v)] => return some v
  | _ => none

/-- The only entry of a name, which must be present. -/
def entry? (y : Yaml) (name : String) : Option Yaml := do (← y.optEntry? name)

/-- A type without parts. -/
def dataType? (y : Yaml) : Option DataType := do DataType.atoms.lookup (← y.text?)

/-- A type that may be left out. -/
def optDataType? : Yaml → Option (Option DataType)
  | .scalar true text => if isNull text then some none else (DataType.atoms.lookup text).map some
  | y => y.dataType?.map some

end Yaml

def TableDef.ofYaml? (y : Yaml) : Option TableDef := do
  return {
    name := ← (← y.entry? "method").text?
    parameters := ← match ← y.optEntry? "parameters" with
      | none => some []
      | some v => do (← v.items?).mapM Yaml.dataType?
    columns := ← (← (← y.entry? "columns").items?).mapM fun c => do
      return (← (← c.entry? "name").text?, ← (← c.entry? "dataType").dataType?)
    rowType := ← match ← y.optEntry? "rowType" with
      | none => some none
      | some v => v.optDataType? }

/-- The schema in a YAML text. -/
def StaticSchema.parseYaml? (text : String) : Option StaticSchema := do
  let y ← Yaml.parse? text
  let name ← (← y.entry? "name").text?
  let tables ← (← (← y.entry? "tables").items?).mapM TableDef.ofYaml?
  return .ofTables name tables

end SchemaQuery
