-- SUMMARY: Literals, operators and expressions as JSON.
import SchemaQuery.Document.Type
import SchemaQuery.Expr.Basic

/-!
# Expressions as JSON

A double is read as a number and written as a text of the fewest digits that read
back.
-/

namespace SchemaQuery

-- ---------------------------------------------------------------------------
-- Literals and operators
-- ---------------------------------------------------------------------------

namespace Literal

def toJson : Literal → Json
  | .null => .str "Null"
  | .boolean b => .tagged "Boolean" (.bool b)
  | .integer i => .tagged "Integer" (.int i)
  | .float x => .tagged "Float" (.str (Number.render x))
  | .string s => .tagged "String" (.str s)

def ofJson? (j : Json) : Option Literal :=
  match j.variant? with
  | some ("Null", none) => some .null
  | some ("Boolean", some v) => v.1.bool?.map .boolean
  | some ("Integer", some v) => v.1.int64?.map .integer
  | some ("Float", some v) => v.1.float?.map .float
  | some ("String", some v) => v.1.str?.map .string
  | _ => none

end Literal

namespace BinaryOp

/-- The operators by their tags. -/
def tags : List (String × BinaryOp) :=
  [("Add", .add), ("Sub", .sub), ("Mul", .mul), ("Div", .div), ("Mod", .mod), ("Eq", .eq),
    ("NotEq", .notEq), ("Lt", .lt), ("LtEq", .ltEq), ("Gt", .gt), ("GtEq", .gtEq),
    ("IsDistinctFrom", .isDistinctFrom), ("IsNotDistinctFrom", .isNotDistinctFrom),
    ("And", .and), ("Or", .or), ("Like", .like), ("NotLike", .notLike), ("In", .in_),
    ("NotIn", .notIn), ("Is", .is_), ("IsNot", .isNot)]

def tag : BinaryOp → String
  | .add => "Add"
  | .sub => "Sub"
  | .mul => "Mul"
  | .div => "Div"
  | .mod => "Mod"
  | .eq => "Eq"
  | .notEq => "NotEq"
  | .lt => "Lt"
  | .ltEq => "LtEq"
  | .gt => "Gt"
  | .gtEq => "GtEq"
  | .isDistinctFrom => "IsDistinctFrom"
  | .isNotDistinctFrom => "IsNotDistinctFrom"
  | .and => "And"
  | .or => "Or"
  | .like => "Like"
  | .notLike => "NotLike"
  | .in_ => "In"
  | .notIn => "NotIn"
  | .is_ => "Is"
  | .isNot => "IsNot"

def toJson (op : BinaryOp) : Json := .str op.tag

def ofJson? (j : Json) : Option BinaryOp := j.choice? tags

end BinaryOp

namespace UnaryOp

def toJson : UnaryOp → Json
  | .neg => .str "Neg"
  | .not => .str "Not"

def ofJson? (j : Json) : Option UnaryOp := j.choice? [("Neg", .neg), ("Not", .not)]

end UnaryOp

-- ---------------------------------------------------------------------------
-- Expressions
-- ---------------------------------------------------------------------------

namespace Expr

def caseToJson (conditions results : List Json) (otherwise : Json) : Json :=
  .tagged "Case" (.obj [("conditions", .arr conditions), ("results", .arr results),
    ("else_result", otherwise)])

mutual

def toJson : Expr → Json
  | .literal v => .tagged "Literal" v.toJson
  | .identifier name => .tagged "Identifier" (.str name)
  | .column table name =>
    .tagged "Column" (.obj [("table", .ofOption .str table), ("column", .str name)])
  | .property e name => .tagged "Property" (.obj [("expr", e.toJson), ("name", .str name)])
  | .binary op left right =>
    .tagged "BinaryOp"
      (.obj [("left", left.toJson), ("op", op.toJson), ("right", right.toJson)])
  | .unary op e => .tagged "UnaryOp" (.obj [("op", op.toJson), ("expr", e.toJson)])
  | .call qualifier name args =>
    .tagged "Function" (.obj [("name", .str name), ("qualifier", .ofOption .str qualifier),
      ("args", .arr (allToJson args))])
  | .case conditions results none => caseToJson (allToJson conditions) (allToJson results) .null
  | .case conditions results (some e) =>
    caseToJson (allToJson conditions) (allToJson results) e.toJson
  | .cast e typeName =>
    .tagged "Cast" (.obj [("expr", e.toJson), ("type_name", .str typeName)])
  | .paren e => .tagged "Paren" e.toJson
  | .list items => .tagged "List" (.arr (allToJson items))
  | .fieldLink n => .tagged "FieldLink" (.ofNat n)

def allToJson : List Expr → List Json
  | [] => []
  | e :: es => e.toJson :: allToJson es

end

def ofJson? (j : Json) : Option Expr :=
  match j.variant? with
  | some (tag, some ⟨v, _h⟩) =>
    match tag with
    | "Literal" => (Literal.ofJson? v).map .literal
    | "Identifier" => v.str?.map .identifier
    | "Column" => do
      return .column (← v.optField? "table" Json.str?) (← v.field? "column" Json.str?)
    | "Property" => do
      return .property (← v.member? "expr" fun ⟨e, _h⟩ => ofJson? e)
        (← v.field? "name" Json.str?)
    | "BinaryOp" => do
      return .binary (← v.field? "op" BinaryOp.ofJson?)
        (← v.member? "left" fun ⟨e, _h⟩ => ofJson? e)
        (← v.member? "right" fun ⟨e, _h⟩ => ofJson? e)
    | "UnaryOp" => do
      return .unary (← v.field? "op" UnaryOp.ofJson?)
        (← v.member? "expr" fun ⟨e, _h⟩ => ofJson? e)
    | "Function" => do
      return .call (← v.optField? "qualifier" Json.str?) (← v.field? "name" Json.str?)
        (← v.memberItems? "args" fun ⟨e, _h⟩ => ofJson? e)
    | "Case" => do
      return .case (← v.memberItems? "conditions" fun ⟨e, _h⟩ => ofJson? e)
        (← v.memberItems? "results" fun ⟨e, _h⟩ => ofJson? e)
        (← v.optMember? "else_result" fun ⟨e, _h⟩ => ofJson? e)
    | "Cast" => do
      return .cast (← v.member? "expr" fun ⟨e, _h⟩ => ofJson? e)
        (← v.field? "type_name" Json.str?)
    | "Paren" => (ofJson? v).map .paren
    | "List" => (v.itemParts? fun ⟨e, _h⟩ => ofJson? e).map .list
    | "FieldLink" => v.nat?.map .fieldLink
    | _ => none
  | _ => none
termination_by sizeOf j
decreasing_by all_goals omega

end Expr

end SchemaQuery
