-- SUMMARY: From a query to a plan.
import SchemaQuery.Config.Basic
import SchemaQuery.Plan.Query
import SchemaQuery.Plan.Render
import SchemaQuery.Resolve.Query

/-!
# Compilation

A query is compiled against a catalog in two stages: it is resolved into a bound
query, and the bound query is planned. The first error ends the compilation.
-/

namespace SchemaQuery

inductive CompileError where
  | config (error : ConfigError)
  | resolve (error : ResolveError)
  | plan (error : PlanError)

/-- The class of an error of resolution. -/
def CompileError.kind? : CompileError → Option ErrorKind
  | .resolve e => some e.kind
  | .config _ | .plan _ => none

structure Compiled where
  plan : Plan
  /-- The bound query behind the plan. -/
  tree : BoundQuery
  /-- The scopes of the query, with the tables of the plan noted. -/
  scopes : Scopes

/-- A catalog with checked settings. -/
structure Compiler where
  catalog : Catalog
  config : Config

namespace Compiler

/-- A compiler, if the settings can be used. -/
def ofConfig (catalog : Catalog) (config : Config) : Except CompileError Compiler :=
  match config.error? with
  | some e => .error (.config e)
  | none => .ok ⟨catalog, config⟩

/-- Compiles a query. Also gives the table requests made on the way. -/
def compile (c : Compiler) (q : Query) : Except CompileError Compiled × List TableRequest :=
  match Resolve.analyze ⟨c.catalog, c.config.resolver⟩ q with
  | (.error e, requests) => (.error (.resolve e), requests)
  | (.ok analysis, requests) =>
    match Plan.ofQuery c.config.planner analysis.scopes analysis.query with
    | .error e => (.error (.plan e), requests)
    | .ok (plan, scopes) => (.ok ⟨plan, analysis.query, scopes⟩, requests)

end Compiler

end SchemaQuery
