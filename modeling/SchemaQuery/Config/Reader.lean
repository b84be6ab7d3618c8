-- SUMMARY: Settings read from JSON documents.
import SchemaQuery.Config.Basic
import SchemaQuery.Json.Reader

/-!
# Reading settings

Settings are members of an object. Every member may be left out, in which case
the default holds, and members of other names are passed over.
-/

namespace SchemaQuery

/-- A setting of an object: its value if present, else the default. -/
def Json.setting (j : Json) (name : String) (read : Json → Option α) (default : α) : Option α :=
  match j.part? name with
  | none => some default
  | some v => read v.1

/-- The fields of a record written as an array, in the order of their names. -/
def Json.named (names : List String) (j : Json) : Option Json :=
  match j with
  | .obj _ => some j
  | .arr items => if items.length ≤ names.length then some (.obj (names.zip items)) else none
  | _ => none

def SuggestionConfig.ofJson? (j : Json) : Option SuggestionConfig := do
  let j ← j.named ["maxDistance", "maxSuggestions", "phonetic"]
  return {
    maxDistance := ← j.setting "maxDistance" Json.nat? (default : SuggestionConfig).maxDistance
    maxSuggestions :=
      ← j.setting "maxSuggestions" Json.nat? (default : SuggestionConfig).maxSuggestions
    phonetic := ← j.setting "phonetic" Json.bool? (default : SuggestionConfig).phonetic }

def ResolverConfig.ofJson? (j : Json) : Option ResolverConfig := do
  let j ← j.named ["suggestions", "autoAliasPrefix"]
  return {
    suggestions := ← j.setting "suggestions" SuggestionConfig.ofJson? default
    autoAliasPrefix :=
      ← j.setting "autoAliasPrefix" Json.str? (default : ResolverConfig).autoAliasPrefix }

def PlanConfig.ofJson? (j : Json) : Option PlanConfig := do
  let j ← j.named ["transitionTablePrefix", "maxDepth"]
  return {
    transitionTablePrefix := ←
      j.setting "transitionTablePrefix" Json.str? (default : PlanConfig).transitionTablePrefix
    maxDepth := ← j.setting "maxDepth" Json.nat? (default : PlanConfig).maxDepth }

namespace Config

/-- Whether none of some names occurs twice among the members of an object. -/
def membersDistinct (names : List String) : Json → Bool
  | .obj members => names.all fun n => (members.filter (·.1 = n)).length ≤ 1
  | _ => true

/-- The settings of a document. No setting may be given twice. -/
def ofJson? (j : Json) : Option Config := do
  let members ← j.members?
  let settings := Json.obj members
  let distinct := membersDistinct
      ["suggestions", "autoAliasPrefix", "transitionTablePrefix", "maxDepth", "logFilter"] settings
    && ((settings.part? "suggestions").map fun s =>
      membersDistinct ["maxDistance", "maxSuggestions", "phonetic"] s.1).getD true
  if !distinct then none
  return {
    resolver := ← ResolverConfig.ofJson? settings
    planner := ← PlanConfig.ofJson? settings
    logFilter := ← settings.setting "logFilter" Json.str? (default : Config).logFilter }

/-- How deep the containers of a document may be nested. -/
def maxNesting : Nat := 127

/-- Reads and checks settings. -/
def fromJson (j : Json) : Except ConfigError Config :=
  match if j.depth ≤ maxNesting then ofJson? j else none with
  | some c => c.validate
  | none => .error .json

/-- Reads and checks the settings in a JSON text. -/
def parseJson (text : String) : Except ConfigError Config :=
  match Json.parse? text with
  | some j => fromJson j
  | none => .error .json

end Config

end SchemaQuery
