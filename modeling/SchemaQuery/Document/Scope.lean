-- SUMMARY: Symbols and scopes as JSON.
import SchemaQuery.Document.Bound
import SchemaQuery.Scope.Basic

/-!
# Scopes as JSON
-/

namespace SchemaQuery

namespace TableOrigin

def toJson : TableOrigin → Json
  | .schema owner method => .tagged "Schema" (.ofTexts [("schema", owner), ("method", method)])
  | .cte name => .tagged "Cte" (.str name)
  | .inMemory name => .tagged "InMemory" (.str name)
  | .subquery => .str "Subquery"
  | .compound => .str "Compound"

def ofJson? (j : Json) : Option TableOrigin :=
  match j.variant? with
  | some ("Subquery", none) => some .subquery
  | some ("Compound", none) => some .compound
  | some ("Schema", some v) => do
    return .schema (← v.1.field? "schema" Json.str?) (← v.1.field? "method" Json.str?)
  | some ("Cte", some v) => v.1.str?.map .cte
  | some ("InMemory", some v) => v.1.str?.map .inMemory
  | _ => none

end TableOrigin

namespace TableSymbol

def toJson (t : TableSymbol) : Json :=
  .obj [("alias", .str t.aliasName), ("source", t.origin.toJson),
    ("columns", Column.listToJson t.columns), ("has_explicit_alias", .bool t.hasExplicitAlias),
    ("compound_tables", .strings t.compoundTables), ("nullable", .bool t.nullable),
    ("row_type", t.rowType.toJson)]

def ofJson? (j : Json) : Option TableSymbol := do
  return {
    aliasName := ← j.field? "alias" Json.str?
    origin := ← j.field? "source" TableOrigin.ofJson?
    columns := ← j.field? "columns" (Json.list? Column.ofJson?)
    hasExplicitAlias := ← j.field? "has_explicit_alias" Json.bool?
    compoundTables := ← j.field? "compound_tables" (Json.list? Json.str?)
    nullable := ← j.field? "nullable" Json.bool?
    rowType := ← j.field? "row_type" DataType.ofJson? }

end TableSymbol

/-- A list of accumulator updates. -/
def refreshToJson (calls : List RefreshCall) : Json :=
  .obj [("calls", .ofList RefreshCall.toJson calls)]

namespace Symbol

def toJson : Symbol → Json
  | .table t => .tagged "Table" t.toJson
  | .refresh calls => .tagged "RefreshMethods" (refreshToJson calls)

def ofJson? (j : Json) : Option Symbol :=
  match j.variant? with
  | some ("Table", some v) => (TableSymbol.ofJson? v.1).map .table
  | some ("RefreshMethods", some v) =>
    (v.1.field? "calls" (Json.list? RefreshCall.ofJson?)).map .refresh
  | _ => none

end Symbol

namespace ScopeKind

def toJson : ScopeKind → Json
  | .query => .str "Query"
  | .cte => .str "Cte"
  | .setOperator => .str "SetOperator"
  | .subquery => .str "Subquery"

def ofJson? (j : Json) : Option ScopeKind :=
  j.choice? [("Query", .query), ("Cte", .cte), ("SetOperator", .setOperator),
    ("Subquery", .subquery)]

end ScopeKind

def Scope.toJson (s : Scope) : Json :=
  .obj [("id", .ofNat s.id), ("parent_id", .ofOption .ofNat s.parent),
    ("scope_type", s.kind.toJson), ("name", .str s.name), ("attributes", .ofTexts s.attributes),
    ("symbols", .ofList (fun (key, symbol) => .arr [.str key, symbol.toJson]) s.symbols)]

def Scopes.toJson (s : Scopes) : Json := .ofList Scope.toJson s.all

end SchemaQuery
