-- SUMMARY: Resolution of the sources of a select block.
import SchemaQuery.Query.Usage
import SchemaQuery.Resolve.Expr

/-!
# Sources

Each source is bound to a symbol in the scope of its block. A join or apply binds
a compound symbol over the sources it is made of, and the sources on its padded
side are marked nullable.
-/

namespace SchemaQuery.Resolve

def addTable (scope : Nat) (t : TableSymbol) : Resolver Unit :=
  onScopes fun scopes => scopes.add scope t.aliasName (.table t)

/-- What a schema is told of an argument. -/
def argumentOf : Term → Argument
  | .literal v _ => .constant v
  | t => .dynamic t.type

/-- The error of a table request. An unknown table is reported with the near misses. -/
def requestError (env : Env) (s : Schema) (method : String) : CatalogError → ResolveError
  | .tableNotFound .. =>
    .tableNotDefined ("#" ++ s.name ++ "." ++ method) (env.suggest method s.tableNames)
  | e => .catalog e

/-- Asks a schema for the columns of a table, and records the request. -/
def requestColumns (env : Env) (s : Schema) (method : String) (context : TableContext)
    (args : List Term) : Resolver (List Column) := do
  modify fun st => { st with requests := st.requests ++ [⟨Catalog.key s.name, context⟩] }
  match s.columnsOf method context (args.map argumentOf) with
  | .ok columns => return columns
  | .error e => throw (requestError env s method e)

/-- Binds a table of a schema. Its arguments may read the active source, if there is one. -/
def bindSchemaSource (env : Env) (usage : ColumnUsage) (schema method : String) (args : List Expr)
    (aliasName : Option String) (ctx : Context) : Resolver BoundSource := do
  match env.catalog.schema? schema with
  | none =>
    throw (.unknownSchema schema
      (env.suggest (Catalog.withoutSigns schema) env.catalog.schemaNames))
  | some s =>
    let args ← (bindAll env args).mapM fun bind => bind (ctx.withClause .source)
    let (aliasName, explicit) ← aliasOr env aliasName
    let context : TableContext :=
      ⟨aliasName, usage.requestedFor aliasName, env.catalog.environment⟩
    let columns ← requestColumns env s method context args
    let rowType := s.rowType method
    addTable ctx.scope (.plain aliasName (.schema s.name method) columns explicit rowType)
    return .schema aliasName s.name method args columns rowType

/-- The columns of a table in memory: a common table expression in sight, or a table of the host. -/
def memoryTable (env : Env) (scopes : Scopes) (name : String) (scope : Nat) :
    Except ResolveError (MemoryOrigin × TableOrigin × List Column) := do
  match ← scopes.tryResolve .table (cteKey name) scope with
  | some cte => return (.cte, .cte name, cte.columns)
  | none =>
    match env.catalog.memoryTable? name with
    | some columns => return (.host, .inMemory name, columns)
    | none =>
      let ctes := (← scopes.visibleTables scope).filterMap fun t =>
        match t.origin with
        | .cte n => some n
        | _ => none
      throw (.tableNotDefined name
        (env.suggest name (ctes ++ env.catalog.memoryTableNames)))

/-- Binds a table in memory. Without an alias it is addressed by its own name. -/
def bindMemorySource (env : Env) (name : String) (aliasName : Option String) (ctx : Context) :
    Resolver BoundSource := do
  let (origin, tableOrigin, columns) ← readScopes fun scopes =>
    memoryTable env scopes name ctx.scope
  let bound := aliasName.getD name
  addTable ctx.scope (.plain bound tableOrigin columns aliasName.isSome .object)
  return .inMemory bound name origin columns

/-- Binds a nested query that is bound itself. -/
def bindSubquerySource (env : Env) (query : BoundQuery) (aliasName : Option String)
    (ctx : Context) : Resolver BoundSource := do
  let (aliasName, explicit) ← aliasOr env aliasName
  addTable ctx.scope (.plain aliasName .subquery query.output explicit .object)
  return .subquery aliasName query query.output

/-- Marks every table of a source as nullable. -/
def markNullable (source : BoundSource) (scope : Nat) : Resolver Unit :=
  onScopes fun scopes => source.leafAliases.foldlM (fun scopes aliasName =>
    scopes.modify .table aliasName scope fun t => { t with nullable := true }) scopes

/-- Binds the compound symbol of two joined sources and gives its alias. -/
def compose (left right : BoundSource) (scope : Nat) : Resolver String := do
  let aliasName := left.aliasName ++ "+" ++ right.aliasName
  addTable scope (.compound aliasName (left.leafAliases ++ right.leafAliases))
  return aliasName

/-- Joins two bound sources. -/
def bindJoin (env : Env) (kind : JoinKind) (left right : BoundSource) (condition : Expr)
    (ctx : Context) : Resolver BoundSource := do
  match kind with
  | .leftOuter => markNullable right ctx.scope
  | .rightOuter => markNullable left ctx.scope
  | .inner => pure ()
  let aliasName ← compose left right ctx.scope
  let condition ←
    bindPredicate env condition ((ctx.withAlias aliasName).withClause .joinCondition)
  return .join aliasName kind left right condition

/-- Applies one bound source to the rows of another. -/
def bindApply (kind : ApplyKind) (left right : BoundSource) (ctx : Context) :
    Resolver BoundSource := do
  if kind = .outer then markNullable right ctx.scope
  let aliasName ← compose left right ctx.scope
  return .apply aliasName kind left right

end SchemaQuery.Resolve
