-- SUMMARY: The types of values: nullability, numeric ranks, rendering and order.

/-!
# Value types

Nullability is explicit: `nullable int` differs from `int`, and `null` is the
type of the null literal. The numeric types form a widening chain from `int` to
`decimal`. Entity types are known by name; a `TypeRegistry` describes them.
-/

namespace SchemaQuery

inductive DataType where
  | boolean
  | int
  | long
  | double
  | decimal
  | string
  | dateTime
  | guid
  /-- Root of the hierarchy. -/
  | object
  /-- Type of the null literal. -/
  | null
  | array (element : DataType)
  | sequence (element : DataType)
  | nullable (inner : DataType)
  | entity (name : String)
deriving DecidableEq, Repr, Inhabited

namespace DataType

/-- The type that also admits null. -/
def toNullable : DataType → DataType
  | .nullable t => .nullable t
  | .null => .null
  | t => .nullable t

def isNullable : DataType → Bool
  | .nullable _ | .null => true
  | _ => false

/-- The type without its outermost nullable wrapper. -/
def nonNullable : DataType → DataType
  | .nullable t => t
  | t => t

/-- The type, nullable when `b` holds. -/
def nullableIf (b : Bool) (t : DataType) : DataType :=
  if b then t.toNullable else t

/-- Position in the widening chain `int < long < double < decimal`, nullability ignored. -/
def numericRank (t : DataType) : Option Nat :=
  match t.nonNullable with
  | .int => some 0
  | .long => some 1
  | .double => some 2
  | .decimal => some 3
  | _ => none

def isNumeric (t : DataType) : Bool := t.numericRank.isSome

def isBoolean (t : DataType) : Bool := t.nonNullable = .boolean

def isString (t : DataType) : Bool := t.nonNullable = .string

/-- Element type of an array or a sequence. -/
def elementType (t : DataType) : Option DataType :=
  match t.nonNullable with
  | .array e | .sequence e => some e
  | _ => none

-- ---------------------------------------------------------------------------
-- Rendering
-- ---------------------------------------------------------------------------

def render : DataType → String
  | .boolean => "bool"
  | .int => "int"
  | .long => "long"
  | .double => "double"
  | .decimal => "decimal"
  | .string => "string"
  | .dateTime => "datetime"
  | .guid => "guid"
  | .object => "object"
  | .null => "null"
  | .array e => e.render ++ "[]"
  | .sequence e => "seq<" ++ e.render ++ ">"
  | .nullable t => t.render ++ "?"
  | .entity name => name

-- ---------------------------------------------------------------------------
-- Order
-- ---------------------------------------------------------------------------

/-- The position of the outermost former. -/
def former : DataType → Nat
  | .boolean => 0
  | .int => 1
  | .long => 2
  | .double => 3
  | .decimal => 4
  | .string => 5
  | .dateTime => 6
  | .guid => 7
  | .object => 8
  | .null => 9
  | .array _ => 10
  | .sequence _ => 11
  | .nullable _ => 12
  | .entity _ => 13

/-- Types compare by their outermost former, then by what is inside. -/
def order : DataType → DataType → Ordering
  | .array a, .array b => a.order b
  | .sequence a, .sequence b => a.order b
  | .nullable a, .nullable b => a.order b
  | .entity a, .entity b => compare a b
  | a, b => compare a.former b.former

end DataType

end SchemaQuery
