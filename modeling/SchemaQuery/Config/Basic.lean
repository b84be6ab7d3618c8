-- SUMMARY: The settings of the compiler and what makes them usable.
import SchemaQuery.Config.LogFilter
import SchemaQuery.Plan.Draft
import SchemaQuery.Resolve.Context

/-!
# Configuration

The settings of resolution and planning, and the filter of the log. Settings are
checked in a fixed order, and the first unusable one is reported.
-/

namespace SchemaQuery

structure Config where
  resolver : ResolverConfig
  planner : PlanConfig
  logFilter : String
deriving DecidableEq, Repr

instance : Inhabited Config := ⟨⟨default, default, "warn"⟩⟩

inductive ConfigError where
  /-- The text is no JSON document of settings. -/
  | json
  /-- The text is no YAML document of settings. -/
  | yaml
  /-- A setting has a value that cannot be used. -/
  | invalid (field reason : String)
  | logFilter (filter : String)
deriving DecidableEq, Repr

/-- The text of an error about a single setting. -/
def ConfigError.invalidMessage (field reason : String) : String :=
  "Invalid setting '" ++ field ++ "': " ++ reason

namespace Config

/-- The first setting that cannot be used. Generated aliases and tables must not be taken for each
    other. -/
def error? (c : Config) : Option ConfigError :=
  if c.resolver.autoAliasPrefix.isEmpty then
    some (.invalid "autoAliasPrefix" "must not be empty")
  else if c.planner.transitionTablePrefix.isEmpty then
    some (.invalid "transitionTablePrefix" "must not be empty")
  else if c.resolver.autoAliasPrefix = c.planner.transitionTablePrefix then
    some (.invalid "transitionTablePrefix" "must differ from autoAliasPrefix")
  else if c.planner.maxDepth = 0 then some (.invalid "maxDepth" "must be > 0")
  else if !LogFilter.isValid c.logFilter then some (.logFilter c.logFilter)
  else none

def validate (c : Config) : Except ConfigError Config :=
  match c.error? with
  | some e => .error e
  | none => .ok c

end Config

end SchemaQuery
