-- SUMMARY: YAML values and what plain scalars stand for.
import SchemaQuery.Json.Reader

/-!
# YAML values

A scalar keeps its text and whether it was written plainly. What a plain scalar
stands for is decided where it is read: as a text it is taken literally, as a
value of unknown type it may be a number, a truth value or nothing.
-/

namespace SchemaQuery

inductive Yaml where
  | scalar (plain : Bool) (text : String)
  | seq (items : List Yaml)
  | map (entries : List (String × Yaml))
deriving Inhabited

namespace Yaml

/-- A value that is left out. -/
def absent : Yaml := .scalar true ""

def text? : Yaml → Option String
  | .scalar _ text => some text
  | _ => none

/-- The items of a list; a value left out is an empty list. -/
def items? : Yaml → Option (List Yaml)
  | .seq items => some items
  | .scalar true "" => some []
  | _ => none

/-- The entries of a mapping; a value left out is an empty mapping. -/
def entries? : Yaml → Option (List (String × Yaml))
  | .map entries => some entries
  | .scalar true "" => some []
  | _ => none

/-- The texts that stand for nothing. -/
def isNull (text : String) : Bool := ["", "~", "null", "Null", "NULL"].contains text

-- ---------------------------------------------------------------------------
-- Plain scalars of unknown type
-- ---------------------------------------------------------------------------

/-- The value of a digit in a base. -/
def digit? (base : Nat) (c : Char) : Option Nat := do
  let n ← if c.isDigit then some (c.toNat - '0'.toNat)
    else if 'a' ≤ c && c ≤ 'f' then some (c.toNat - 'a'.toNat + 10)
    else if 'A' ≤ c && c ≤ 'F' then some (c.toNat - 'A'.toNat + 10)
    else none
  if n < base then some n else none

/-- The value of a number in a base. -/
def natural? (base : Nat) (cs : List Char) : Option Nat :=
  if cs.isEmpty then none
  else cs.foldlM (fun n c => return n * base + (← digit? base c)) 0

/-- An integer without its sign. A decimal number has no leading zeros. -/
def magnitude? : List Char → Option Nat
  | '0' :: 'x' :: ds => natural? 16 ds
  | '0' :: 'o' :: ds => natural? 8 ds
  | '0' :: 'b' :: ds => natural? 2 ds
  | ['0'] => some 0
  | '0' :: _ => none
  | ds => natural? 10 ds

def integer? : List Char → Option Int
  | '-' :: ds => (magnitude? ds).map fun n => -(n : Int)
  | '+' :: ds => (magnitude? ds).map Int.ofNat
  | ds => (magnitude? ds).map Int.ofNat

def allDigits (cs : List Char) : Bool := !cs.isEmpty && cs.all Char.isDigit

/-- Digits with a point among or behind them, or only digits. -/
def isDecimal (cs : List Char) : Bool :=
  let whole := cs.takeWhile Char.isDigit
  match cs.dropWhile Char.isDigit with
  | [] => !whole.isEmpty
  | '.' :: places => places.all Char.isDigit && !(whole.isEmpty && places.isEmpty)
  | _ => false

def isExponentMark (c : Char) : Bool := c = 'e' || c = 'E'

def dropSign : List Char → List Char
  | '+' :: cs => cs
  | '-' :: cs => cs
  | cs => cs

/-- Whether a text is a number with a point or an exponent, or one of the special numbers. -/
def isFloat (cs : List Char) : Bool :=
  let body := dropSign cs
  let special := [".inf", ".Inf", ".INF"].contains (String.ofList body)
    || [".nan", ".NaN", ".NAN"].contains (String.ofList cs)
  let leadingZero := allDigits body && body.length > 1 && body.head? = some '0'
  let mantissa := body.takeWhile fun c => !isExponentMark c
  let exponent := match body.dropWhile fun c => !isExponentMark c with
    | [] => true
    | _ :: e => allDigits (dropSign e)
  special || (!leadingZero && isDecimal mantissa && exponent)

/-- What a plain scalar stands for. Of a fractional number only its kind is kept. -/
def plainValue (text : String) : Json :=
  if isNull text then .null
  else if ["true", "True", "TRUE"].contains text then .bool true
  else if ["false", "False", "FALSE"].contains text then .bool false
  else
    match integer? text.toList with
    | some i => .int i
    | none => if isFloat text.toList then .float 0.0 else .str text

mutual

/-- A value of unknown type. -/
def toJson : Yaml → Json
  | .scalar true text => plainValue text
  | .scalar false text => .str text
  | .seq items => .arr (itemsToJson items)
  | .map entries => .obj (entriesToJson entries)

def itemsToJson : List Yaml → List Json
  | [] => []
  | v :: rest => v.toJson :: itemsToJson rest

def entriesToJson : List (String × Yaml) → List (String × Json)
  | [] => []
  | (key, v) :: rest => (key, v.toJson) :: entriesToJson rest

end

end Yaml

end SchemaQuery
