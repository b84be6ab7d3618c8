-- SUMMARY: Resolution of calls: aggregates, methods with the row injected, and raw methods.
import SchemaQuery.Resolve.Context

/-!
# Calls

A call is tried as an aggregate, then as a method with the current row injected,
then as a method that takes the row as an argument; each time first among the
methods of the schemas of the active sources and then among the builtins. An
aggregate registers the update of its accumulator in the scope of the query.
-/

namespace SchemaQuery.Resolve

/-- The tables a call may read: the one it is qualified by, or all active ones. -/
def callSources (env : Env) (tables : List TableSymbol) :
    Option String → Except ResolveError (List TableSymbol)
  | none => .ok tables
  | some q =>
    match tables.find? (·.aliasName = q) with
    | some t => .ok [t]
    | none => .error (.unknownColumnOrAlias q (env.suggest q (tables.map (·.aliasName))))

/-- The schemas of the sources, each with the first source it provides. -/
def providers (catalog : Catalog) (sources : List TableSymbol) : List (TableSymbol × Schema) :=
  sources.foldl (fun acc t =>
    match t.origin with
    | .schema name _ =>
      match catalog.schema? name with
      | some s => if acc.any (·.2.name = s.name) then acc else acc ++ [(t, s)]
      | none => acc
    | _ => acc) []

def hasAggregate (r : MethodRegistry) (name : String) : Bool :=
  (r.candidates name).any (·.kind = .aggregate)

/-- Whether an aggregate of the name is known to a provider or among the builtins. -/
def isAggregateName (env : Env) (provided : List (TableSymbol × Schema)) (name : String) : Bool :=
  provided.any (fun p => hasAggregate p.2.methods name) || hasAggregate env.catalog.builtins name

/-- What a call stands for, with the schema that offers it. -/
inductive Target where
  | aggregate (schema : Option String) (resolved : ResolvedAggregate)
  /-- A method, with the alias of the row at hand. -/
  | method (schema : Option String) (source : Option String) (resolved : ResolvedMethod)

/-- The first match of a call, in the order of preference. -/
def target? (env : Env) (provided : List (TableSymbol × Schema)) (sources : List TableSymbol)
    (name : String) (args : List DataType) : Option Target :=
  let types := env.catalog.types
  let builtins := env.catalog.builtins
  let first := sources.head?
  let aggregate : Option Target :=
    if isAggregateName env provided name then
      (provided.findSome? fun (_, s) =>
        (s.resolveAggregate name args types).map (.aggregate (some s.name)))
        <|> (builtins.resolveAggregate name args types).map (.aggregate none)
    else none
  aggregate
    <|> (provided.findSome? fun (t, s) =>
      (s.resolveMethod name args (some t.rowType) types).map
        (.method (some s.name) (some t.aliasName)))
    <|> (builtins.resolveMethod name args (first.map (·.rowType)) types).map
      (.method none (first.map (·.aliasName)))
    <|> (provided.findSome? fun (_, s) =>
      (s.resolveRaw name args types).map (.method (some s.name) none))
    <|> (builtins.resolveRaw name args types).map (.method none none)

/-- The names a call may have been meant for. -/
def methodCandidates (env : Env) (provided : List (TableSymbol × Schema)) : List String :=
  provided.flatMap (fun p => p.2.methods.names) ++ env.catalog.builtins.names

def methodTerm (schema source : Option String) (m : ResolvedMethod) (args : List Term) : Term :=
  .call ⟨m.name, schema, if m.injectsSource then source else none, m.roles, m.signature⟩ args
    m.returnType

/-- Records an update under a key of a scope. -/
def registerRefresh (scopes : Scopes) (scope : Nat) (key : String) (call : RefreshCall) :
    Except ResolveError Scopes :=
  if (scopes.findIn? key scope).isSome then
    scopes.modify .refresh key scope fun calls => (addRefresh calls call).1
  else scopes.add scope key (.refresh (addRefresh [] call).1)

/-- The read of an accumulator; its update is recorded for the active source. -/
def bindAggregate (ctx : Context) (schema : Option String) (resolved : ResolvedAggregate)
    (args : List Term) : Resolver Term := do
  let method := resolved.method
  if !ctx.clause.allowsAggregates then
    throw (.aggregateNotAllowed method.name ctx.clause.render)
  let accumulator := method.name ++ "(" ++ ", ".intercalate (args.map (·.render)) ++ ")"
  match ctx.aliasName with
  | none =>
    throw (.unsupportedConstruct ("aggregate '" ++ accumulator ++ "' without a FROM source"))
  | some aliasName =>
    let refresh : RefreshCall := ⟨resolved.setter.name, schema, accumulator, args⟩
    onScopes fun scopes => registerRefresh scopes ctx.scope (refreshKey aliasName) refresh
    return .aggregate ⟨method.name, schema, accumulator, method.signature⟩ args method.returnType

/-- A call whose arguments are bound by the given steps. The arguments of an aggregate stand in a
    clause of their own. -/
def bindCall (env : Env) (qualifier : Option String) (name : String)
    (args : List (Context → Resolver Term)) (ctx : Context) : Resolver Term := do
  let tables ← readScopes fun scopes => sourceTables scopes ctx
  let sources ← ofExcept (callSources env tables qualifier)
  let provided := providers env.catalog sources
  let argCtx :=
    if isAggregateName env provided name && ctx.clause.allowsAggregates then
      ctx.withClause .aggregateArgument
    else ctx
  let args ← args.mapM fun bind => bind argCtx
  let types := args.map (·.type)
  match target? env provided sources name types with
  | some (.aggregate schema resolved) => bindAggregate ctx schema resolved args
  | some (.method schema source m) => return methodTerm schema source m args
  | none =>
    throw (.methodNotFound name (types.map (·.render))
      (env.suggest name (methodCandidates env provided)))

end SchemaQuery.Resolve
