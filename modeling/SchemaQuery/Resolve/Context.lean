-- SUMMARY: The setting of resolution: environment, state, clauses and active sources.
import SchemaQuery.Catalog.Basic
import SchemaQuery.Scope.Basic
import SchemaQuery.Suggest.Ranking

/-!
# The setting of resolution

Resolution reads a catalog and a configuration, and works on the scopes, a
counter for generated aliases and the list of the table requests made. A context
says which clause an expression stands in and which source it may read.
-/

namespace SchemaQuery

structure ResolverConfig where
  suggestions : SuggestionConfig
  /-- The start of every generated alias. -/
  autoAliasPrefix : String
deriving DecidableEq, Repr

instance : Inhabited ResolverConfig := ⟨⟨default, "__auto_"⟩⟩

namespace Resolve

structure Env where
  catalog : Catalog
  config : ResolverConfig

structure State where
  scopes : Scopes
  nextAlias : Nat
  requests : List TableRequest

def State.initial : State := ⟨.empty, 0, []⟩

/-- Steps of resolution. The state survives an error, so the requests made before it are known. -/
abbrev Resolver := EStateM ResolveError State

/-- A step that can fail and changes nothing. -/
def ofExcept : Except ResolveError α → Resolver α
  | .ok a => pure a
  | .error e => throw e

/-- A step on the scopes that changes nothing. -/
def readScopes (f : Scopes → Except ResolveError α) : Resolver α := do
  ofExcept (f (← get).scopes)

/-- A step that replaces the scopes. -/
def onScopes (f : Scopes → Except ResolveError Scopes) : Resolver Unit := do
  let s ← get
  let scopes ← ofExcept (f s.scopes)
  set { s with scopes := scopes }

def enterScope (kind : ScopeKind) (name : String) : Resolver Unit := onScopes (·.enter kind name)

def leaveScope : Resolver Unit := onScopes Scopes.leave

/-- A new alias for a source without one. -/
def freshAlias (env : Env) : Resolver String := do
  let s ← get
  set { s with nextAlias := s.nextAlias + 1 }
  return env.config.autoAliasPrefix ++ toString s.nextAlias

/-- The alias of a source, and whether it was written. -/
def aliasOr (env : Env) : Option String → Resolver (String × Bool)
  | some aliasName => return (aliasName, true)
  | none => return (← freshAlias env, false)

def Env.suggest (env : Env) (name : String) (candidates : List String) : List String :=
  env.config.suggestions.suggest name candidates

-- ---------------------------------------------------------------------------
-- Clauses and contexts
-- ---------------------------------------------------------------------------

/-- The clause an expression stands in. -/
inductive Clause where
  | source
  | joinCondition
  | filter
  | groupBy
  | select
  | having
  | orderBy
  | aggregateArgument
deriving DecidableEq, Repr

/-- Aggregates are read where groups are seen. -/
def Clause.allowsAggregates : Clause → Bool
  | .select | .having | .orderBy => true
  | _ => false

def Clause.render : Clause → String
  | .source => "FROM"
  | .joinCondition => "ON"
  | .filter => "WHERE"
  | .groupBy => "GROUP BY"
  | .select => "SELECT"
  | .having => "HAVING"
  | .orderBy => "ORDER BY"
  | .aggregateArgument => "an aggregate argument"

structure Context where
  scope : Nat
  /-- The alias of the active source, which may be a compound. -/
  aliasName : Option String
  clause : Clause
  /-- The bound grouping keys, the targets of field links. -/
  groupBy : List Term

namespace Context

def ofScope (scope : Nat) : Context := ⟨scope, none, .source, []⟩

def withClause (ctx : Context) (clause : Clause) : Context := { ctx with clause := clause }

def withAlias (ctx : Context) (aliasName : String) : Context :=
  { ctx with aliasName := some aliasName }

def withGroupBy (ctx : Context) (keys : List Term) : Context := { ctx with groupBy := keys }

end Context

/-- The plain tables that make up the active source. -/
def sourceTables (scopes : Scopes) (ctx : Context) : Except ResolveError (List TableSymbol) :=
  match ctx.aliasName with
  | none => .ok []
  | some aliasName => do
    let source ← scopes.resolve .table aliasName ctx.scope
    source.compoundTables.mapM fun a => scopes.resolve .table a ctx.scope

end Resolve

end SchemaQuery
