-- SUMMARY: The operators of expressions.

/-!
# Operators

The binary and unary operators of the query language, their symbols and their
classes.
-/

namespace SchemaQuery

inductive BinaryOp where
  | add
  | sub
  | mul
  | div
  | mod
  | eq
  | notEq
  | lt
  | ltEq
  | gt
  | gtEq
  | isDistinctFrom
  | isNotDistinctFrom
  | and
  | or
  | like
  | notLike
  | in_
  | notIn
  | is_
  | isNot
deriving DecidableEq, Repr, Inhabited

inductive UnaryOp where
  | neg
  | not
deriving DecidableEq, Repr, Inhabited

namespace BinaryOp

def isArithmetic : BinaryOp → Bool
  | .add | .sub | .mul | .div | .mod => true
  | _ => false

def isComparison : BinaryOp → Bool
  | .eq | .notEq | .lt | .ltEq | .gt | .gtEq | .isDistinctFrom | .isNotDistinctFrom => true
  | _ => false

def isLogical : BinaryOp → Bool
  | .and | .or => true
  | _ => false

def symbol : BinaryOp → String
  | .add => "+"
  | .sub => "-"
  | .mul => "*"
  | .div => "/"
  | .mod => "%"
  | .eq => "="
  | .notEq => "<>"
  | .lt => "<"
  | .ltEq => "<="
  | .gt => ">"
  | .gtEq => ">="
  | .isDistinctFrom => "is distinct from"
  | .isNotDistinctFrom => "is not distinct from"
  | .and => "and"
  | .or => "or"
  | .like => "like"
  | .notLike => "not like"
  | .in_ => "in"
  | .notIn => "not in"
  | .is_ => "is"
  | .isNot => "is not"

end BinaryOp

namespace UnaryOp

def symbol : UnaryOp → String
  | .neg => "-"
  | .not => "not"

/-- The operator in front of a rendered operand. -/
def apply (op : UnaryOp) (operand : String) : String :=
  match op with
  | .neg => "-" ++ operand
  | .not => "not " ++ operand

end UnaryOp

end SchemaQuery
