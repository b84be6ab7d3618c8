-- SUMMARY: Bound queries as JSON.
import SchemaQuery.Bound.Query
import SchemaQuery.Document.Query
import SchemaQuery.Document.Term

/-!
# Bound queries as JSON
-/

namespace SchemaQuery

-- ---------------------------------------------------------------------------
-- Parts without queries
-- ---------------------------------------------------------------------------

namespace RefreshCall

def toJson (c : RefreshCall) : Json :=
  .obj [("setter", .str c.setter), ("schema", .ofOption .str c.schema),
    ("accumulator", .str c.accumulator), ("args", .ofList Term.toJson c.args)]

def ofJson? (j : Json) : Option RefreshCall := do
  return {
    setter := ← j.field? "setter" Json.str?
    schema := ← j.optField? "schema" Json.str?
    accumulator := ← j.field? "accumulator" Json.str?
    args := ← j.field? "args" (Json.list? Term.ofJson?) }

end RefreshCall

namespace Field

def toJson (f : Field) : Json := .obj [("name", .str f.name), ("expr", f.term.toJson)]

def ofJson? (j : Json) : Option Field := do
  return ⟨← j.field? "name" Json.str?, ← j.field? "expr" Term.ofJson?⟩

end Field

namespace SortKey

def toJson (k : SortKey) : Json :=
  .obj [("expr", k.term.toJson), ("direction", k.direction.toJson)]

def ofJson? (j : Json) : Option SortKey := do
  return ⟨← j.field? "expr" Term.ofJson?, ← j.field? "direction" Direction.ofJson?⟩

end SortKey

namespace MemoryOrigin

def toJson : MemoryOrigin → Json
  | .cte => .str "Cte"
  | .host => .str "Host"

def ofJson? (j : Json) : Option MemoryOrigin := j.choice? [("Cte", .cte), ("Host", .host)]

end MemoryOrigin

namespace Grouping

def toJson : Grouping → Json
  | .none => .str "None"
  | .explicit => .str "Explicit"
  | .implicit => .str "Implicit"
  | .distinct => .str "Distinct"

def ofJson? (j : Json) : Option Grouping :=
  j.choice? [("None", .none), ("Explicit", .explicit), ("Implicit", .implicit),
    ("Distinct", .distinct)]

end Grouping

namespace SetOperator

def toJson : SetOperator → Json
  | .union => .str "Union"
  | .unionAll => .str "UnionAll"
  | .intersect => .str "Intersect"
  | .except => .str "Except"

def ofJson? (j : Json) : Option SetOperator :=
  j.choice? [("Union", .union), ("UnionAll", .unionAll), ("Intersect", .intersect),
    ("Except", .except)]

end SetOperator

-- ---------------------------------------------------------------------------
-- Writing
-- ---------------------------------------------------------------------------

mutual

def BoundQuery.toJson : BoundQuery → Json
  | ⟨scope, ctes, body, orderBy, skip, take, output⟩ =>
    .obj [("scope", .ofNat scope), ("ctes", .arr (boundCtesToJson ctes)), ("body", body.toJson),
      ("order_by", .ofList SortKey.toJson orderBy), ("skip", .ofOption .ofNat skip),
      ("take", .ofOption .ofNat take), ("output", Column.listToJson output)]

def boundCtesToJson : List BoundCte → List Json
  | [] => []
  | ⟨name, query⟩ :: rest =>
    .obj [("name", .str name), ("query", query.toJson)] :: boundCtesToJson rest

def BoundBody.toJson : BoundBody → Json
  | .select s => .tagged "Select" s.toJson
  | .setOperation operator keys left right =>
    .tagged "SetOperation" (.obj [("operator", operator.toJson), ("keys", .strings keys),
      ("left", left.toJson), ("right", right.toJson)])

def BoundSelect.toJson : BoundSelect → Json
  | ⟨scope, source, filter, groupBy, grouping, having, fields⟩ =>
    .obj [("scope", .ofNat scope), ("from", source.toJson),
      ("where_clause", .ofOption Term.toJson filter), ("group_by", .ofList Term.toJson groupBy),
      ("grouping", grouping.toJson), ("having", .ofOption Term.toJson having),
      ("fields", .ofList Field.toJson fields)]

def BoundSource.toJson : BoundSource → Json
  | .schema aliasName owner method args columns rowType =>
    .tagged "Schema" (.obj [("alias", .str aliasName), ("schema", .str owner),
      ("method", .str method), ("args", .ofList Term.toJson args),
      ("columns", Column.listToJson columns), ("row_type", rowType.toJson)])
  | .inMemory aliasName table origin columns =>
    .tagged "InMemory" (.obj [("alias", .str aliasName), ("table", .str table),
      ("origin", origin.toJson), ("columns", Column.listToJson columns)])
  | .subquery aliasName query columns =>
    .tagged "Subquery" (.obj [("alias", .str aliasName), ("query", query.toJson),
      ("columns", Column.listToJson columns)])
  | .join aliasName kind left right condition =>
    .tagged "Join" (.obj [("alias", .str aliasName), ("left", left.toJson), ("right", right.toJson),
      ("join_type", kind.toJson), ("on", condition.toJson)])
  | .apply aliasName kind left right =>
    .tagged "Apply" (.obj [("alias", .str aliasName), ("left", left.toJson),
      ("right", right.toJson), ("apply_type", kind.toJson)])

end

-- ---------------------------------------------------------------------------
-- Reading
-- ---------------------------------------------------------------------------

mutual

def BoundQuery.ofJson? (j : Json) : Option BoundQuery := do
  return {
    scope := ← j.field? "scope" Json.nat?
    ctes := ← j.memberItems? "ctes" fun ⟨v, _h⟩ => BoundCte.ofJson? v
    body := ← j.member? "body" fun ⟨v, _h⟩ => BoundBody.ofJson? v
    orderBy := ← j.field? "order_by" (Json.list? SortKey.ofJson?)
    skip := ← j.optField? "skip" Json.nat?
    take := ← j.optField? "take" Json.nat?
    output := ← j.field? "output" (Json.list? Column.ofJson?) }
termination_by sizeOf j

def BoundCte.ofJson? (j : Json) : Option BoundCte := do
  return {
    name := ← j.field? "name" Json.str?
    query := ← j.member? "query" fun ⟨v, _h⟩ => BoundQuery.ofJson? v }
termination_by sizeOf j

def BoundBody.ofJson? (j : Json) : Option BoundBody :=
  match j.variant? with
  | some (tag, some ⟨v, _h⟩) =>
    match tag with
    | "Select" => (BoundSelect.ofJson? v).map .select
    | "SetOperation" => do
      return .setOperation (← v.field? "operator" SetOperator.ofJson?)
        (← v.field? "keys" (Json.list? Json.str?))
        (← v.member? "left" fun ⟨q, _h⟩ => BoundQuery.ofJson? q)
        (← v.member? "right" fun ⟨q, _h⟩ => BoundQuery.ofJson? q)
    | _ => none
  | _ => none
termination_by sizeOf j
decreasing_by all_goals omega

def BoundSelect.ofJson? (j : Json) : Option BoundSelect := do
  return {
    scope := ← j.field? "scope" Json.nat?
    source := ← j.member? "from" fun ⟨v, _h⟩ => BoundSource.ofJson? v
    filter := ← j.optField? "where_clause" Term.ofJson?
    groupBy := ← j.field? "group_by" (Json.list? Term.ofJson?)
    grouping := ← j.field? "grouping" Grouping.ofJson?
    having := ← j.optField? "having" Term.ofJson?
    fields := ← j.field? "fields" (Json.list? Field.ofJson?) }
termination_by sizeOf j

def BoundSource.ofJson? (j : Json) : Option BoundSource :=
  match j.variant? with
  | some (tag, some ⟨v, _h⟩) =>
    match tag with
    | "Schema" => do
      return .schema (← v.field? "alias" Json.str?) (← v.field? "schema" Json.str?)
        (← v.field? "method" Json.str?) (← v.field? "args" (Json.list? Term.ofJson?))
        (← v.field? "columns" (Json.list? Column.ofJson?))
        (← v.field? "row_type" DataType.ofJson?)
    | "InMemory" => do
      return .inMemory (← v.field? "alias" Json.str?) (← v.field? "table" Json.str?)
        (← v.field? "origin" MemoryOrigin.ofJson?)
        (← v.field? "columns" (Json.list? Column.ofJson?))
    | "Subquery" => do
      return .subquery (← v.field? "alias" Json.str?)
        (← v.member? "query" fun ⟨q, _h⟩ => BoundQuery.ofJson? q)
        (← v.field? "columns" (Json.list? Column.ofJson?))
    | "Join" => do
      return .join (← v.field? "alias" Json.str?) (← v.field? "join_type" JoinKind.ofJson?)
        (← v.member? "left" fun ⟨s, _h⟩ => BoundSource.ofJson? s)
        (← v.member? "right" fun ⟨s, _h⟩ => BoundSource.ofJson? s)
        (← v.field? "on" Term.ofJson?)
    | "Apply" => do
      return .apply (← v.field? "alias" Json.str?) (← v.field? "apply_type" ApplyKind.ofJson?)
        (← v.member? "left" fun ⟨s, _h⟩ => BoundSource.ofJson? s)
        (← v.member? "right" fun ⟨s, _h⟩ => BoundSource.ofJson? s)
    | _ => none
  | _ => none
termination_by sizeOf j
decreasing_by all_goals omega

end

end SchemaQuery
