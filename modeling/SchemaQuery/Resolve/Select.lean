-- SUMMARY: Resolution of a select block whose source is bound.
import SchemaQuery.Query.Usage
import SchemaQuery.Resolve.Expr
import SchemaQuery.Resolve.Grouping

/-!
# Select blocks

The clauses of a block are bound in the order of their dependence: the condition
on rows, the grouping keys, the fields, the condition on groups and the order.
-/

namespace SchemaQuery.Resolve

-- ---------------------------------------------------------------------------
-- Fields
-- ---------------------------------------------------------------------------

/-- One field per column of a table. Names are qualified when the alias was written. -/
def tableFields (t : TableSymbol) : List Field :=
  t.visibleColumns.map fun c =>
    ⟨if t.hasExplicitAlias then t.aliasName ++ "." ++ c.name else c.name,
      columnTerm t.aliasName c t.hasExplicitAlias⟩

/-- The fields of `*` or `qualifier.*`. -/
def wildcardFields (env : Env) (tables : List TableSymbol) :
    Option String → Except ResolveError (List Field)
  | none => .ok (tables.flatMap tableFields)
  | some q =>
    match tables.find? (·.aliasName = q) with
    | some t => .ok (tableFields t)
    | none => .error (.unknownColumnOrAlias q (env.suggest q (tables.map (·.aliasName))))

/-- The fields of one item of the projection. -/
def bindItem (env : Env) (ctx : Context) : SelectItem → Resolver (List Field)
  | .expr e => return [⟨e.render, ← bindExpr env e ctx⟩]
  | .aliased e aliasName => return [⟨aliasName, ← bindExpr env e ctx⟩]
  | .qualifiedWildcard q => readScopes fun scopes => do
    wildcardFields env (← sourceTables scopes ctx) (some q)
  | .wildcard => readScopes fun scopes => do
    wildcardFields env (← sourceTables scopes ctx) none

def bindFields (env : Env) (ctx : Context) (items : List SelectItem) : Resolver (List Field) := do
  return (← items.mapM (bindItem env ctx)).flatten

/-- The columns of a result with the given fields. -/
def outputColumns (fields : List Field) : List Column :=
  Column.number (fields.map fun f => (f.name, f.term.type))

-- ---------------------------------------------------------------------------
-- Order
-- ---------------------------------------------------------------------------

def isWildcard : SelectItem → Bool
  | .wildcard | .qualifiedWildcard _ => true
  | _ => false

def hasAlias (name : String) : SelectItem → Bool
  | .aliased _ aliasName => aliasName = name
  | _ => false

/-- The field that a bare name in the order stands for, when it is the alias of an item. Behind a
    wildcard the field is found by its name, else by its position. -/
def aliasedField? (projection : List SelectItem) (fields : List Field) (name : String) :
    Option Field :=
  match projection.findIdx? (hasAlias name) with
  | none => none
  | some i =>
    if (projection.take i).any isWildcard then fields.find? (·.name = name) else fields[i]?

/-- Binds a sort key. A bare name may be the alias of a field. -/
def bindSortKey (env : Env) (ctx : Context) (projection : List SelectItem) (fields : List Field)
    (item : OrderItem) : Resolver SortKey := do
  let field := match item.expr with
    | .identifier name => aliasedField? projection fields name
    | _ => none
  match field with
  | some f => return ⟨f.term, item.direction⟩
  | none => return ⟨← bindExpr env item.expr ctx, item.direction⟩

/-- Binds a sort key over the result of a set operator, which names a column of the output. -/
def bindOutputKey (env : Env) (output : List Column) (item : OrderItem) :
    Except ResolveError SortKey := do
  let name ← match item.expr with
    | .identifier name => pure name
    | .column table name => pure (qualifiedColumn table name)
    | other =>
      throw (.unsupportedConstruct
        ("ORDER BY " ++ other.render ++ " on a set operator result"))
  match output.find? (·.name = name) with
  | some c => return ⟨.outputField name c.ordinal c.type, item.direction⟩
  | none => throw (.unknownColumnOrAlias name (env.suggest name (output.map (·.name))))

-- ---------------------------------------------------------------------------
-- Blocks
-- ---------------------------------------------------------------------------

/-- Binds the clauses of a select block over its bound source. -/
def bindBlock (env : Env) (scope : Nat) (s : Select) (source : BoundSource)
    (orderBy : List OrderItem) : Resolver (BoundSelect × List SortKey) := do
  let ctx := (Context.ofScope scope).withAlias source.aliasName
  let filter ← s.filter.mapM fun e => bindPredicate env e (ctx.withClause .filter)
  let written ← (bindAll env s.groupBy).mapM fun bind => bind (ctx.withClause .groupBy)
  let grouped := ctx.withGroupBy written
  let fields ← bindFields env (grouped.withClause .select) s.projection
  let having ← s.having.mapM fun e => bindPredicate env e (grouped.withClause .having)
  let order ← orderBy.mapM (bindSortKey env (grouped.withClause .orderBy) s.projection fields)
  let outputs := fields.map (·.term) ++ having.toList ++ order.map (·.term)
  let grouping ← ofExcept
    (groupingOf s.distinct (!written.isEmpty) (outputs.any (·.containsAggregate)) having.isSome)
  let groupBy := if grouping = .distinct then fields.map (·.term) else written
  if grouping ≠ .none then ofExcept (checkGroupedAll groupBy outputs)
  return (⟨scope, source, filter, groupBy, grouping, having, fields⟩, order)

end SchemaQuery.Resolve
