-- SUMMARY: Resolution of queries into bound queries.
import SchemaQuery.Resolve.Select
import SchemaQuery.Resolve.Source

/-!
# Queries

A query is bound in a scope of its own: first its common table expressions in
the order of their declaration, then its body. The main statement of this module
is `analyze`, which binds a whole query from empty scopes.
-/

namespace SchemaQuery.Resolve

-- ---------------------------------------------------------------------------
-- Common table expressions and set operators
-- ---------------------------------------------------------------------------

/-- A bound common table expression under its declared column names. -/
def renameCte (name : String) (columns : List String) (query : BoundQuery) :
    Except ResolveError BoundQuery :=
  if columns.isEmpty then .ok query
  else if columns.length ≠ query.output.length then
    .error (.cteColumnCountMismatch name columns.length query.output.length)
  else .ok (query.renameOutput columns)

def addCte (scope : Nat) (name : String) (columns : List Column) : Resolver Unit :=
  onScopes fun scopes =>
    scopes.add scope (cteKey name) (.table (.plain name (.cte name) columns false .object))

/-- The first position at which two results differ in type. -/
def typeMismatch? (index : Nat) : List Column → List Column → Option ResolveError
  | l :: ls, r :: rs =>
    if l.type = r.type then typeMismatch? (index + 1) ls rs
    else some (.setOperatorMustHaveSameTypesOfColumns index l.type.render r.type.render)
  | _, _ => none

/-- Why two results cannot be combined on the given keys, if they cannot. -/
def operandError? (env : Env) (keys : List String) (left right : List Column) :
    Option ResolveError :=
  if left.length ≠ right.length then
    some (.setOperatorMustHaveSameQuantityOfColumns left.length right.length)
  else
    typeMismatch? 0 left right <|>
      (keys.find? fun key => !left.any (·.name = key)).map fun key =>
        .setOperatorKeyColumnNotFound key (env.suggest key (left.map (·.name)))

/-- Checks that two bound operands can be combined. -/
def checkOperands (env : Env) (keys : List String) (left right : BoundQuery) : Resolver Unit :=
  match operandError? env keys left.output right.output with
  | some e => throw e
  | none => pure ()

-- ---------------------------------------------------------------------------
-- Queries
-- ---------------------------------------------------------------------------

mutual

/-- Binds a query in the current scope. -/
def bindQuery (env : Env) : Query → Resolver BoundQuery
  | ⟨body, orderBy, skip, take, ctes⟩ => do
    let scope ← readScopes Scopes.requireCurrent
    let ctes ← bindCtes env scope ctes
    let (body, order, output) ← bindBody env scope orderBy body
    return ⟨scope, ctes, body, order, skip, take, output⟩

def bindCtes (env : Env) (scope : Nat) : List Cte → Resolver (List BoundCte)
  | [] => return []
  | ⟨name, columns, query⟩ :: rest => do
    enterScope .cte name
    let query ← bindQuery env query
    leaveScope
    let query ← ofExcept (renameCte name columns query)
    addCte scope name query.output
    return ⟨name, query⟩ :: (← bindCtes env scope rest)

def bindBody (env : Env) (scope : Nat) (orderBy : List OrderItem) :
    QueryBody → Resolver (BoundBody × List SortKey × List Column)
  | .select ⟨_, _, none, _, _, _⟩ => throw .nullFrom
  | .select ⟨distinct, projection, some source, filter, groupBy, having⟩ => do
    let s : Select := ⟨distinct, projection, some source, filter, groupBy, having⟩
    let source ← bindSource env (ColumnUsage.collect s orderBy) source (.ofScope scope)
    let (select, order) ← bindBlock env scope s source orderBy
    return (.select select, order, outputColumns select.fields)
  | .setOperation operator left right keys => do
    if keys.isEmpty then throw (.setOperatorMustHaveKeyColumns operator.render)
    enterScope .setOperator operator.render
    enterScope .query "Query"
    let left ← bindQuery env left
    leaveScope
    enterScope .query "Query"
    let right ← bindQuery env right
    leaveScope
    leaveScope
    checkOperands env keys left right
    let order ← ofExcept (orderBy.mapM (bindOutputKey env left.output))
    return (.setOperation operator keys left right, order, left.output)

def bindSource (env : Env) (usage : ColumnUsage) : Source → Context → Resolver BoundSource
  | .schema schema method args aliasName => bindSchemaSource env usage schema method args aliasName
  | .inMemory name aliasName => bindMemorySource env name aliasName
  | .subquery query aliasName => fun ctx => do
    enterScope .subquery "Subquery"
    let query ← bindQuery env query
    leaveScope
    bindSubquerySource env query aliasName ctx
  | .join kind left right condition => fun ctx => do
    let left ← bindSource env usage left ctx
    let right ← bindSource env usage right ctx
    bindJoin env kind left right condition ctx
  | .apply kind left right => fun ctx => do
    let left ← bindSource env usage left ctx
    -- the applied source may read the columns of the left one
    let right ← bindSource env usage right (ctx.withAlias left.aliasName)
    bindApply kind left right ctx

end

/-- Binds a whole query in a new scope. -/
def analyzeQuery (env : Env) (q : Query) : Resolver BoundQuery := do
  enterScope .query "Query"
  let bound ← bindQuery env q
  leaveScope
  return bound

/-- A bound query with the scopes it was bound in. -/
structure Analysis where
  query : BoundQuery
  scopes : Scopes

/-- Binds a query against a catalog. Also gives the table requests made, up to the error if there
    is one. -/
def analyze (env : Env) (q : Query) : Except ResolveError Analysis × List TableRequest :=
  match (analyzeQuery env q).run .initial with
  | .ok query s => (.ok ⟨query, s.scopes⟩, s.requests)
  | .error e s => (.error e, s.requests)

end SchemaQuery.Resolve
