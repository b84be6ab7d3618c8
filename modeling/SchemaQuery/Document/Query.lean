-- SUMMARY: Queries as JSON.
import SchemaQuery.Document.Expr
import SchemaQuery.Query.Basic

/-!
# Queries as JSON
-/

namespace SchemaQuery

-- ---------------------------------------------------------------------------
-- Parts without queries
-- ---------------------------------------------------------------------------

namespace Direction

def toJson : Direction → Json
  | .asc => .str "Asc"
  | .desc => .str "Desc"

def ofJson? (j : Json) : Option Direction := j.choice? [("Asc", .asc), ("Desc", .desc)]

end Direction

namespace JoinKind

def toJson : JoinKind → Json
  | .inner => .str "Inner"
  | .leftOuter => .str "LeftOuter"
  | .rightOuter => .str "RightOuter"

def ofJson? (j : Json) : Option JoinKind :=
  j.choice? [("Inner", .inner), ("LeftOuter", .leftOuter), ("RightOuter", .rightOuter)]

end JoinKind

namespace ApplyKind

def toJson : ApplyKind → Json
  | .cross => .str "Cross"
  | .outer => .str "Outer"

def ofJson? (j : Json) : Option ApplyKind := j.choice? [("Cross", .cross), ("Outer", .outer)]

end ApplyKind

namespace OrderItem

def toJson (o : OrderItem) : Json :=
  .obj [("expr", o.expr.toJson), ("direction", o.direction.toJson)]

def ofJson? (j : Json) : Option OrderItem := do
  return ⟨← j.field? "expr" Expr.ofJson?, ← j.field? "direction" Direction.ofJson?⟩

end OrderItem

namespace SelectItem

def toJson : SelectItem → Json
  | .expr e => .tagged "UnnamedExpr" e.toJson
  | .aliased e aliasName =>
    .tagged "AliasedExpr" (.obj [("expr", e.toJson), ("alias", .str aliasName)])
  | .qualifiedWildcard q => .tagged "QualifiedWildcard" (.str q)
  | .wildcard => .str "Wildcard"

def ofJson? (j : Json) : Option SelectItem :=
  match j.variant? with
  | some ("Wildcard", none) => some .wildcard
  | some ("UnnamedExpr", some v) => (Expr.ofJson? v.1).map .expr
  | some ("AliasedExpr", some v) => do
    return .aliased (← v.1.field? "expr" Expr.ofJson?) (← v.1.field? "alias" Json.str?)
  | some ("QualifiedWildcard", some v) => v.1.str?.map .qualifiedWildcard
  | _ => none

end SelectItem

-- ---------------------------------------------------------------------------
-- Writing
-- ---------------------------------------------------------------------------

/-- The tag of a set operator and the members that tell it from others of the tag. -/
def SetOperator.document : SetOperator → String × List (String × Json)
  | .union => ("Union", [("all", .bool false)])
  | .unionAll => ("Union", [("all", .bool true)])
  | .intersect => ("Intersect", [])
  | .except => ("Except", [])

def selectDocument (distinct : Bool) (projection : List SelectItem) (source : Json)
    (filter : Option Expr) (groupBy : List Expr) (having : Option Expr) : Json :=
  .obj [("distinct", .bool distinct), ("projection", .ofList SelectItem.toJson projection),
    ("from", source), ("where_clause", .ofOption Expr.toJson filter),
    ("group_by", .ofList Expr.toJson groupBy), ("having", .ofOption Expr.toJson having)]

mutual

def Query.toJson : Query → Json
  | ⟨body, orderBy, skip, take, ctes⟩ =>
    .obj [("body", body.toJson), ("order_by", .ofList OrderItem.toJson orderBy),
      ("skip", .ofOption .ofNat skip), ("take", .ofOption .ofNat take),
      ("ctes", .arr (ctesToJson ctes))]

def ctesToJson : List Cte → List Json
  | [] => []
  | ⟨name, columns, query⟩ :: rest =>
    .obj [("name", .str name), ("columns", .strings columns), ("query", query.toJson)]
      :: ctesToJson rest

def QueryBody.toJson : QueryBody → Json
  | .select s => .tagged "Select" s.toJson
  | .setOperation operator left right keys =>
    .tagged operator.document.1 (.obj (("left", left.toJson) :: ("right", right.toJson)
      :: ("keys", .strings keys) :: operator.document.2))

def Select.toJson : Select → Json
  | ⟨distinct, projection, none, filter, groupBy, having⟩ =>
    selectDocument distinct projection .null filter groupBy having
  | ⟨distinct, projection, some source, filter, groupBy, having⟩ =>
    selectDocument distinct projection source.toJson filter groupBy having

def Source.toJson : Source → Json
  | .schema schema method args aliasName =>
    .tagged "Schema" (.obj [("schema", .str schema), ("method", .str method),
      ("args", .ofList Expr.toJson args), ("alias", .ofOption .str aliasName)])
  | .inMemory name aliasName =>
    .tagged "InMemory" (.obj [("name", .str name), ("alias", .ofOption .str aliasName)])
  | .subquery query aliasName =>
    .tagged "Subquery" (.obj [("query", query.toJson), ("alias", .ofOption .str aliasName)])
  | .join kind left right condition =>
    .tagged "Join" (.obj [("left", left.toJson), ("right", right.toJson),
      ("join_type", kind.toJson), ("on", condition.toJson)])
  | .apply kind left right =>
    .tagged "Apply" (.obj [("left", left.toJson), ("right", right.toJson),
      ("apply_type", kind.toJson)])

end

-- ---------------------------------------------------------------------------
-- Reading
-- ---------------------------------------------------------------------------

mutual

def Query.ofJson? (j : Json) : Option Query := do
  return {
    body := ← j.member? "body" fun ⟨v, _h⟩ => QueryBody.ofJson? v
    orderBy := ← j.field? "order_by" (Json.list? OrderItem.ofJson?)
    skip := ← j.optField? "skip" Json.nat?
    take := ← j.optField? "take" Json.nat?
    ctes := ← j.memberItems? "ctes" fun ⟨v, _h⟩ => Cte.ofJson? v }
termination_by sizeOf j

def Cte.ofJson? (j : Json) : Option Cte := do
  return {
    name := ← j.field? "name" Json.str?
    columns := ← j.field? "columns" (Json.list? Json.str?)
    query := ← j.member? "query" fun ⟨v, _h⟩ => Query.ofJson? v }
termination_by sizeOf j

def QueryBody.ofJson? (j : Json) : Option QueryBody :=
  match j.variant? with
  | some (tag, some ⟨v, _h⟩) =>
    match tag with
    | "Select" => (Select.ofJson? v).map .select
    | "Union" => do
      let all ← v.field? "all" Json.bool?
      return .setOperation (if all then .unionAll else .union)
        (← v.member? "left" fun ⟨q, _h⟩ => Query.ofJson? q)
        (← v.member? "right" fun ⟨q, _h⟩ => Query.ofJson? q)
        (← v.field? "keys" (Json.list? Json.str?))
    | "Intersect" => do
      return .setOperation .intersect
        (← v.member? "left" fun ⟨q, _h⟩ => Query.ofJson? q)
        (← v.member? "right" fun ⟨q, _h⟩ => Query.ofJson? q)
        (← v.field? "keys" (Json.list? Json.str?))
    | "Except" => do
      return .setOperation .except
        (← v.member? "left" fun ⟨q, _h⟩ => Query.ofJson? q)
        (← v.member? "right" fun ⟨q, _h⟩ => Query.ofJson? q)
        (← v.field? "keys" (Json.list? Json.str?))
    | _ => none
  | _ => none
termination_by sizeOf j
decreasing_by all_goals omega

def Select.ofJson? (j : Json) : Option Select := do
  return {
    distinct := ← j.field? "distinct" Json.bool?
    projection := ← j.field? "projection" (Json.list? SelectItem.ofJson?)
    source := ← j.optMember? "from" fun ⟨v, _h⟩ => Source.ofJson? v
    filter := ← j.optField? "where_clause" Expr.ofJson?
    groupBy := ← j.field? "group_by" (Json.list? Expr.ofJson?)
    having := ← j.optField? "having" Expr.ofJson? }
termination_by sizeOf j

def Source.ofJson? (j : Json) : Option Source :=
  match j.variant? with
  | some (tag, some ⟨v, _h⟩) =>
    match tag with
    | "Schema" => do
      return .schema (← v.field? "schema" Json.str?) (← v.field? "method" Json.str?)
        (← v.field? "args" (Json.list? Expr.ofJson?)) (← v.optField? "alias" Json.str?)
    | "InMemory" => do
      return .inMemory (← v.field? "name" Json.str?) (← v.optField? "alias" Json.str?)
    | "Subquery" => do
      return .subquery (← v.member? "query" fun ⟨q, _h⟩ => Query.ofJson? q)
        (← v.optField? "alias" Json.str?)
    | "Join" => do
      return .join (← v.field? "join_type" JoinKind.ofJson?)
        (← v.member? "left" fun ⟨s, _h⟩ => Source.ofJson? s)
        (← v.member? "right" fun ⟨s, _h⟩ => Source.ofJson? s)
        (← v.field? "on" Expr.ofJson?)
    | "Apply" => do
      return .apply (← v.field? "apply_type" ApplyKind.ofJson?)
        (← v.member? "left" fun ⟨s, _h⟩ => Source.ofJson? s)
        (← v.member? "right" fun ⟨s, _h⟩ => Source.ofJson? s)
    | _ => none
  | _ => none
termination_by sizeOf j
decreasing_by all_goals omega

end

end SchemaQuery
