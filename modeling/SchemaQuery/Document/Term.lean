-- SUMMARY: Bound expressions as JSON.
import SchemaQuery.Bound.Term
import SchemaQuery.Document.Expr
import SchemaQuery.Document.Method

/-!
# Terms as JSON

A term is written as its kind next to its type.
-/

namespace SchemaQuery.Term

/-- A kind, its data and the type. -/
def node (tag : String) (data : Json) (type : DataType) : Json :=
  .obj [("kind", .tagged tag data), ("data_type", type.toJson)]

mutual

def toJson : Term → Json
  | .literal v t => node "Literal" v.toJson t
  | .column aliasName name ordinal qualify t =>
    node "Column" (.obj [("alias", .str aliasName), ("name", .str name),
      ("ordinal", .ofNat ordinal), ("qualify", .bool qualify)]) t
  | .outputField name index t =>
    node "OutputField" (.obj [("name", .str name), ("index", .ofNat index)]) t
  | .tableColumn table name t =>
    node "TransitionColumn" (.ofTexts [("table", table), ("name", name)]) t
  | .groupField index t => node "GroupField" (.ofNat index) t
  | .property e name t => node "Property" (.obj [("expr", e.toJson), ("name", .str name)]) t
  | .binary op left right t =>
    node "Binary" (.obj [("left", left.toJson), ("op", op.toJson), ("right", right.toJson)]) t
  | .unary op e t => node "Unary" (.obj [("op", op.toJson), ("expr", e.toJson)]) t
  | .call m args t =>
    node "Call" (.obj [("name", .str m.name), ("schema", .ofOption .str m.schema),
      ("args", .arr (allToJson args)), ("source_alias", .ofOption .str m.sourceAlias),
      ("roles", .ofList ParamRole.toJson m.roles), ("signature", .str m.signature)]) t
  | .aggregate m args t =>
    node "Aggregate" (.obj [("name", .str m.name), ("schema", .ofOption .str m.schema),
      ("accumulator", .str m.accumulator), ("args", .arr (allToJson args)),
      ("signature", .str m.signature)]) t
  | .case branches none t =>
    node "Case" (.obj [("branches", .arr (branchesToJson branches)), ("else_result", .null)]) t
  | .case branches (some e) t =>
    node "Case" (.obj [("branches", .arr (branchesToJson branches)), ("else_result", e.toJson)]) t
  | .cast e target t => node "Cast" (.obj [("expr", e.toJson), ("target", target.toJson)]) t
  | .list items t => node "List" (.arr (allToJson items)) t
  | .nullAsFalse e t => node "NullAsFalse" e.toJson t

def allToJson : List Term → List Json
  | [] => []
  | t :: ts => t.toJson :: allToJson ts

def branchesToJson : List (Term × Term) → List Json
  | [] => []
  | (c, r) :: bs => .arr [c.toJson, r.toJson] :: branchesToJson bs

end

/-- The two items of an array, as parts of it. -/
def pairParts? (j : Json) (f : j.Part → Option Term) : Option (Term × Term) := do
  match ← j.itemParts? f with
  | [c, r] => return (c, r)
  | _ => none

def ofJson? (j : Json) : Option Term := do
  let type ← j.field? "data_type" DataType.ofJson?
  let ⟨k, _h⟩ ← j.part? "kind"
  match k.variant? with
  | some (tag, some ⟨v, _h⟩) =>
    match tag with
    | "Literal" => return .literal (← Literal.ofJson? v) type
    | "Column" =>
      return .column (← v.field? "alias" Json.str?) (← v.field? "name" Json.str?)
        (← v.field? "ordinal" Json.nat?) (← v.field? "qualify" Json.bool?) type
    | "OutputField" =>
      return .outputField (← v.field? "name" Json.str?) (← v.field? "index" Json.nat?) type
    | "TransitionColumn" =>
      return .tableColumn (← v.field? "table" Json.str?) (← v.field? "name" Json.str?) type
    | "GroupField" => return .groupField (← v.nat?) type
    | "Property" =>
      return .property (← v.member? "expr" fun ⟨e, _h⟩ => ofJson? e)
        (← v.field? "name" Json.str?) type
    | "Binary" =>
      return .binary (← v.field? "op" BinaryOp.ofJson?)
        (← v.member? "left" fun ⟨e, _h⟩ => ofJson? e)
        (← v.member? "right" fun ⟨e, _h⟩ => ofJson? e) type
    | "Unary" =>
      return .unary (← v.field? "op" UnaryOp.ofJson?)
        (← v.member? "expr" fun ⟨e, _h⟩ => ofJson? e) type
    | "Call" =>
      let method : MethodRef := {
        name := ← v.field? "name" Json.str?
        schema := ← v.optField? "schema" Json.str?
        sourceAlias := ← v.optField? "source_alias" Json.str?
        roles := ← v.field? "roles" (Json.list? ParamRole.ofJson?)
        signature := ← v.field? "signature" Json.str? }
      return .call method (← v.memberItems? "args" fun ⟨e, _h⟩ => ofJson? e) type
    | "Aggregate" =>
      let method : AggregateRef := {
        name := ← v.field? "name" Json.str?
        schema := ← v.optField? "schema" Json.str?
        accumulator := ← v.field? "accumulator" Json.str?
        signature := ← v.field? "signature" Json.str? }
      return .aggregate method (← v.memberItems? "args" fun ⟨e, _h⟩ => ofJson? e) type
    | "Case" =>
      return .case
        (← v.memberItems? "branches" fun ⟨b, _h⟩ => pairParts? b fun ⟨e, _h⟩ => ofJson? e)
        (← v.optMember? "else_result" fun ⟨e, _h⟩ => ofJson? e) type
    | "Cast" =>
      return .cast (← v.member? "expr" fun ⟨e, _h⟩ => ofJson? e)
        (← v.field? "target" DataType.ofJson?) type
    | "List" => return .list (← v.itemParts? fun ⟨e, _h⟩ => ofJson? e) type
    | "NullAsFalse" => return .nullAsFalse (← ofJson? v) type
    | _ => none
  | _ => none
termination_by sizeOf j
decreasing_by all_goals omega

end SchemaQuery.Term
