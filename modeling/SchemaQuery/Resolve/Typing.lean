-- SUMMARY: The types of operators.
import SchemaQuery.Resolve.Context

/-!
# Types of operators

Arithmetic keeps the wider of two numeric types and is nullable when an operand
is. Comparisons and logic give plain truth values.
-/

namespace SchemaQuery.Resolve

def isBoolLike (t : DataType) : Bool := t.isBoolean || t = .null

def isStringLike (t : DataType) : Bool := t.isString || t = .null

/-- Whether two values can be compared. -/
def comparable (types : TypeRegistry) (a b : DataType) : Bool :=
  let a := a.nonNullable
  let b := b.nonNullable
  a = b || a = .null || b = .null || b = .object || (a.isNumeric && b.isNumeric)
    || types.isAssignable a b || types.isAssignable b a

/-- The type of an arithmetic operation, nullability apart. Texts can be added, and a null literal
    takes the type of its partner. -/
def arithmeticType? (types : TypeRegistry) (op : BinaryOp) (l r : DataType) : Option DataType :=
  if l.isNumeric && r.isNumeric then some (types.commonAncestor l r)
  else if l = .string && r = .string && op = .add then some .string
  else if l = .null && (r.isNumeric || r.isString) then some r
  else if r = .null && (l.isNumeric || l.isString) then some l
  else none

/-- Whether the operands fit an operator that gives a truth value. -/
def fits (types : TypeRegistry) (op : BinaryOp) (l : DataType) (right : Term) : Bool :=
  let r := right.type.nonNullable
  match op with
  | .and | .or => isBoolLike l && isBoolLike r
  | .like | .notLike => isStringLike l && isStringLike r
  | .in_ | .notIn =>
    match right, r.elementType with
    | .list .., some e => comparable types l e
    | _, _ => false
  | .is_ | .isNot => r = .null
  | _ => comparable types l r

def binaryType (types : TypeRegistry) (op : BinaryOp) (left right : Term) :
    Except ResolveError DataType :=
  let l := left.type
  let r := right.type
  let invalid := ResolveError.invalidOperandTypes op.symbol l.render r.render
  if op.isArithmetic then
    match arithmeticType? types op l.nonNullable r.nonNullable with
    | some t => .ok (t.nullableIf (l.isNullable || r.isNullable))
    | none => .error invalid
  else if fits types op l.nonNullable right then .ok .boolean
  else .error invalid

def isNullableCase : Term → Bool
  | .case _ _ t => t.isNullable
  | _ => false

/-- Equality with a `case` that may be null treats null as a value. -/
def nullSafe (op : BinaryOp) (left right : Term) : BinaryOp :=
  if isNullableCase left || isNullableCase right then
    match op with
    | .eq => .isNotDistinctFrom
    | .notEq => .isDistinctFrom
    | op => op
  else op

/-- A binary operation on bound operands. Operands of logic are made definite first. -/
def binaryTerm (types : TypeRegistry) (op : BinaryOp) (left right : Term) :
    Except ResolveError Term := do
  let left := if op.isLogical then left.asPredicate else left
  let right := if op.isLogical then right.asPredicate else right
  let op := nullSafe op left right
  return .binary op left right (← binaryType types op left right)

def unaryTerm (op : UnaryOp) (operand : Term) : Except ResolveError Term :=
  match op with
  | .not =>
    if isBoolLike operand.type then .ok (.unary .not operand.asPredicate .boolean)
    else .error (.invalidOperandTypes op.symbol "" operand.type.render)
  | .neg =>
    if operand.type.isNumeric then .ok (.unary .neg operand operand.type)
    else .error (.invalidOperandTypes op.symbol "" operand.type.render)

/-- A condition of a clause, which must be a truth value. -/
def predicateTerm (clause : String) (t : Term) : Except ResolveError Term :=
  let t := t.asPredicate
  if isBoolLike t.type then .ok t else .error (.expectedBoolean clause t.type.render)

/-- The type of a `case`: without a default, rows that match no branch give null. -/
def caseType (types : TypeRegistry) (branches : List (Term × Term)) (otherwise : Option Term) :
    DataType :=
  match types.commonType (branches.map (·.2.type) ++ otherwise.toList.map (·.type)) with
  | some t => t.nullableIf otherwise.isNone
  | none => .null

/-- The type of a list of values. -/
def listType (types : TypeRegistry) (items : List Term) : DataType :=
  .array (((types.commonType (items.map (·.type))).map (·.nonNullable)).getD .object)

end SchemaQuery.Resolve
