-- SUMMARY: Literal values, their types and their rendering.
import SchemaQuery.DataType.Basic
import SchemaQuery.Number.Shortest

/-!
# Literals

The constants of a query. Integers are 64-bit signed, and the narrow ones among
them have the narrow type.
-/

namespace SchemaQuery

inductive Literal where
  | null
  | boolean (value : Bool)
  | integer (value : Int)
  | float (value : Float)
  | string (value : String)
deriving Inhabited

namespace Literal

/-- Equality of values; doubles compare as numbers. -/
def same : Literal → Literal → Bool
  | .null, .null => true
  | .boolean a, .boolean b => a == b
  | .integer a, .integer b => a == b
  | .float a, .float b => a == b
  | .string a, .string b => a == b
  | _, _ => false

/-- The type of a literal: an integer is an `int` when it fits 32 bits, else a `long`. -/
def type : Literal → DataType
  | .null => .null
  | .boolean _ => .boolean
  | .integer i => if -2147483648 ≤ i && i < 2147483648 then .int else .long
  | .float _ => .double
  | .string _ => .string

/-- A text between apostrophes, with the apostrophes inside it doubled. -/
def quoteText (s : String) : String :=
  "'" ++ String.join (s.toList.map fun c => if c = '\'' then "''" else String.singleton c) ++ "'"

def render : Literal → String
  | .null => "null"
  | .boolean b => if b then "true" else "false"
  | .integer i => toString i
  | .float x => Number.render x
  | .string s => quoteText s

end Literal

end SchemaQuery
