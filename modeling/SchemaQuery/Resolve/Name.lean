-- SUMMARY: Resolution of identifiers, qualified names and properties.
import SchemaQuery.Resolve.Context

/-!
# Names

A bare name is a column of exactly one of the active tables. A qualified name is
a column of the table it names, or else a property of the column it names.
-/

namespace SchemaQuery.Resolve

def columnTerm (aliasName : String) (c : Column) (qualify : Bool) : Term :=
  .column aliasName c.name c.ordinal qualify c.type

/-- The names an unknown name may have been meant for: columns and aliases. -/
def nameCandidates (tables : List TableSymbol) : List String :=
  tables.flatMap fun t => t.columnNames ++ [t.aliasName]

/-- The tables that have a column of a name, with that column. -/
def owners (tables : List TableSymbol) (name : String) : List (TableSymbol × Column) :=
  tables.filterMap fun t => (t.column? name).map (t, ·)

/-- A bare name among the active tables. -/
def bindName (env : Env) (tables : List TableSymbol) (name : String) : Except ResolveError Term :=
  match owners tables name with
  | [] => .error (.unknownColumnOrAlias name (env.suggest name (nameCandidates tables)))
  | [(t, c)] => .ok (columnTerm t.aliasName c false)
  | several => .error (.ambiguousColumn name (several.map (·.1.aliasName)))

/-- A property of a value of an entity type. A nullable value gives a nullable property. -/
def bindProperty (env : Env) (base : Term) (name : String) : Except ResolveError Term :=
  let types := env.catalog.types
  match base.type.nonNullable with
  | .entity entity =>
    match types.property? entity name with
    | some t => .ok (.property base name (t.nullableIf base.type.isNullable))
    | none =>
      .error (.unknownProperty name entity (env.suggest name (types.propertyNames entity)))
  | _ => .error (.unknownProperty name base.type.render [])

/-- A name with a qualifier: a column of an active table, or a property of a column. -/
def bindQualified (env : Env) (scopes : Scopes) (ctx : Context) (tables : List TableSymbol)
    (qualifier name : String) : Except ResolveError Term :=
  match tables.find? (·.aliasName = qualifier) with
  | some t =>
    match t.column? name with
    | some c => .ok (columnTerm t.aliasName c true)
    | none =>
      .error (.unknownColumnOrAlias (qualifiedColumn (some qualifier) name)
        (env.suggest name t.columnNames))
  | none =>
    if tables.any fun t => (t.column? qualifier).isSome then do
      bindProperty env (← bindName env tables qualifier) name
    else do
      match ← scopes.tryResolve .table qualifier ctx.scope with
      | some _ =>
        throw (.unsupportedConstruct
          ("'" ++ qualifier ++ "' is not part of the current FROM clause"))
      | none =>
        throw (.unknownColumnOrAlias qualifier (env.suggest qualifier (nameCandidates tables)))

def bindIdentifier (env : Env) (scopes : Scopes) (ctx : Context) (name : String) :
    Except ResolveError Term := do
  bindName env (← sourceTables scopes ctx) name

def bindColumn (env : Env) (scopes : Scopes) (ctx : Context) (table : Option String)
    (name : String) : Except ResolveError Term :=
  match table with
  | none => bindIdentifier env scopes ctx name
  | some qualifier => do
    bindQualified env scopes ctx (← sourceTables scopes ctx) qualifier name

end SchemaQuery.Resolve
