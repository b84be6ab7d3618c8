-- SUMMARY: Plans as JSON.
import SchemaQuery.Document.Bound
import SchemaQuery.Plan.Basic

/-!
# Plans as JSON
-/

namespace SchemaQuery.Plan

namespace LoopKind

def toJson : LoopKind → Json
  | .innerJoin => .str "InnerJoin"
  | .leftOuterJoin => .str "LeftOuterJoin"
  | .rightOuterJoin => .str "RightOuterJoin"
  | .crossApply => .str "CrossApply"
  | .outerApply => .str "OuterApply"

def ofJson? (j : Json) : Option LoopKind :=
  j.choice? [("InnerJoin", .innerJoin), ("LeftOuterJoin", .leftOuterJoin),
    ("RightOuterJoin", .rightOuterJoin), ("CrossApply", .crossApply), ("OuterApply", .outerApply)]

end LoopKind

namespace JoinSide

def toJson : JoinSide → Json
  | .left => .str "Left"
  | .right => .str "Right"

def ofJson? (j : Json) : Option JoinSide := j.choice? [("Left", .left), ("Right", .right)]

end JoinSide

namespace Presence

def toJson : Presence → Json
  | .present => .str "Present"
  | .absent => .str "Absent"

def ofJson? (j : Json) : Option Presence := j.choice? [("Present", .present), ("Absent", .absent)]

end Presence

namespace Padding

def toJson (p : Padding) : Json :=
  .obj [("preserved", p.preserved.toJson), ("nulls", Column.listToJson p.nulls)]

def ofJson? (j : Json) : Option Padding := do
  return ⟨← j.field? "preserved" JoinSide.ofJson?, ← j.field? "nulls" (Json.list? Column.ofJson?)⟩

end Padding

namespace Scan

def toJson : Scan → Json
  | .schema aliasName owner method args =>
    .tagged "Schema" (.obj [("alias", .str aliasName), ("schema", .str owner),
      ("method", .str method), ("args", .ofList Term.toJson args)])
  | .inMemory aliasName table =>
    .tagged "InMemory" (.ofTexts [("alias", aliasName), ("table", table)])
  | .transition aliasName table =>
    .tagged "Transition" (.ofTexts [("alias", aliasName), ("table", table)])
  | .loop kind left right predicate padding =>
    .tagged "NestedLoop" (.obj [("kind", kind.toJson), ("left", left.toJson),
      ("right", right.toJson), ("predicate", .ofOption Term.toJson predicate),
      ("padding", .ofOption Padding.toJson padding)])

def ofJson? (j : Json) : Option Scan :=
  match j.variant? with
  | some (tag, some ⟨v, _h⟩) =>
    match tag with
    | "Schema" => do
      return .schema (← v.field? "alias" Json.str?) (← v.field? "schema" Json.str?)
        (← v.field? "method" Json.str?) (← v.field? "args" (Json.list? Term.ofJson?))
    | "InMemory" => do
      return .inMemory (← v.field? "alias" Json.str?) (← v.field? "table" Json.str?)
    | "Transition" => do
      return .transition (← v.field? "alias" Json.str?) (← v.field? "table" Json.str?)
    | "NestedLoop" => do
      return .loop (← v.field? "kind" LoopKind.ofJson?)
        (← v.member? "left" fun ⟨s, _h⟩ => ofJson? s)
        (← v.member? "right" fun ⟨s, _h⟩ => ofJson? s)
        (← v.optField? "predicate" Term.ofJson?) (← v.optField? "padding" Padding.ofJson?)
    | _ => none
  | _ => none
termination_by sizeOf j
decreasing_by all_goals omega

end Scan

namespace Populate

def toJson (s : Populate) : Json :=
  .obj [("target", .str s.target), ("source", s.source.toJson),
    ("filter", .ofOption Term.toJson s.filter), ("skip", .ofOption .ofNat s.skip),
    ("take", .ofOption .ofNat s.take), ("select", .ofList Term.toJson s.select),
    ("order_by", .ofList SortKey.toJson s.orderBy)]

def ofJson? (j : Json) : Option Populate := do
  return {
    target := ← j.field? "target" Json.str?
    source := ← j.field? "source" Scan.ofJson?
    filter := ← j.optField? "filter" Term.ofJson?
    skip := ← j.optField? "skip" Json.nat?
    take := ← j.optField? "take" Json.nat?
    select := ← j.field? "select" (Json.list? Term.ofJson?)
    orderBy := ← j.field? "order_by" (Json.list? SortKey.ofJson?) }

end Populate

namespace Accumulator

def toJson (a : Accumulator) : Json :=
  .obj [("name", .str a.method.name), ("schema", .ofOption .str a.method.schema),
    ("accumulator", .str a.method.accumulator), ("args", .ofList Term.toJson a.args),
    ("signature", .str a.method.signature)]

def ofJson? (j : Json) : Option Accumulator := do
  let method : AggregateRef := {
    name := ← j.field? "name" Json.str?
    schema := ← j.optField? "schema" Json.str?
    accumulator := ← j.field? "accumulator" Json.str?
    signature := ← j.field? "signature" Json.str? }
  return ⟨method, ← j.field? "args" (Json.list? Term.ofJson?)⟩

end Accumulator

namespace Aggregate

def toJson (s : Aggregate) : Json :=
  .obj [("target", .str s.target), ("source", s.source.toJson),
    ("filter", .ofOption Term.toJson s.filter), ("keys", .ofList Term.toJson s.keys),
    ("aggregates", .ofList Accumulator.toJson s.aggregates),
    ("refresh", .ofList RefreshCall.toJson s.refresh)]

def ofJson? (j : Json) : Option Aggregate := do
  return {
    target := ← j.field? "target" Json.str?
    source := ← j.field? "source" Scan.ofJson?
    filter := ← j.optField? "filter" Term.ofJson?
    keys := ← j.field? "keys" (Json.list? Term.ofJson?)
    aggregates := ← j.field? "aggregates" (Json.list? Accumulator.ofJson?)
    refresh := ← j.field? "refresh" (Json.list? RefreshCall.ofJson?) }

end Aggregate

namespace SetMatch

def toJson (s : SetMatch) : Json :=
  .obj [("target", .str s.target), ("source", .str s.source), ("probe", .str s.probe),
    ("key_columns", .strings s.keyColumns), ("expected", s.expected.toJson)]

def ofJson? (j : Json) : Option SetMatch := do
  return {
    target := ← j.field? "target" Json.str?
    source := ← j.field? "source" Json.str?
    probe := ← j.field? "probe" Json.str?
    keyColumns := ← j.field? "key_columns" (Json.list? Json.str?)
    expected := ← j.field? "expected" Presence.ofJson? }

end SetMatch

namespace Node

def toJson : Node → Json
  | .create table columns forGrouping =>
    .tagged "CreateTransitionTable" (.obj [("name", .str table),
      ("columns", Column.listToJson columns), ("for_grouping", .bool forGrouping)])
  | .populate step => .tagged "Populate" step.toJson
  | .aggregate step => .tagged "Aggregate" step.toJson
  | .setMatch step => .tagged "SetMatch" step.toJson
  | .rename source target => .tagged "Rename" (.ofTexts [("from", source), ("to", target)])

def ofJson? (j : Json) : Option Node :=
  match j.variant? with
  | some ("CreateTransitionTable", some v) => do
    return .create (← v.1.field? "name" Json.str?)
      (← v.1.field? "columns" (Json.list? Column.ofJson?)) (← v.1.field? "for_grouping" Json.bool?)
  | some ("Populate", some v) => (Populate.ofJson? v.1).map .populate
  | some ("Aggregate", some v) => (Aggregate.ofJson? v.1).map .aggregate
  | some ("SetMatch", some v) => (SetMatch.ofJson? v.1).map .setMatch
  | some ("Rename", some v) => do
    return .rename (← v.1.field? "from" Json.str?) (← v.1.field? "to" Json.str?)
  | _ => none

end Node

def toJson (p : Plan) : Json :=
  .obj [("nodes", .ofList Node.toJson p.nodes), ("result", .str p.result),
    ("output", Column.listToJson p.output)]

def ofJson? (j : Json) : Option Plan := do
  return {
    nodes := ← j.field? "nodes" (Json.list? Node.ofJson?)
    result := ← j.field? "result" Json.str?
    output := ← j.field? "output" (Json.list? Column.ofJson?) }

end SchemaQuery.Plan
