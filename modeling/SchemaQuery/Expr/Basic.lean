-- SUMMARY: Expressions as written in a query: rendering, calls and column references.
import SchemaQuery.Literal
import SchemaQuery.Expr.Operator

/-!
# Expressions

The expressions of a query before names are resolved. The conditions and results
of a `case` are two lists; a condition pairs with the result at its position,
and what has no partner is never evaluated.
-/

namespace SchemaQuery

inductive Expr where
  | literal (value : Literal)
  | identifier (name : String)
  | column (table : Option String) (column : String)
  | property (base : Expr) (name : String)
  | binary (op : BinaryOp) (left right : Expr)
  | unary (op : UnaryOp) (operand : Expr)
  | call (qualifier : Option String) (name : String) (args : List Expr)
  | case (conditions results : List Expr) (otherwise : Option Expr)
  | cast (operand : Expr) (typeName : String)
  | paren (inner : Expr)
  | list (items : List Expr)
  /-- The `index`-th grouping key, counted from one. -/
  | fieldLink (index : Nat)
deriving Inhabited

/-- The text `table.column`, or the column alone. -/
def qualifiedColumn (table : Option String) (column : String) : String :=
  match table with
  | some t => t ++ "." ++ column
  | none => column

/-- The pieces of a `case`: its rendered branches and its rendered default. -/
def renderCase (branches : List (String × String)) (otherwise : Option String) : String :=
  let whens := branches.map fun (c, r) => " when " ++ c ++ " then " ++ r
  let rest := match otherwise with
    | some e => " else " ++ e
    | none => ""
  "case" ++ String.join whens ++ rest ++ " end"

namespace Expr

-- ---------------------------------------------------------------------------
-- Rendering
-- ---------------------------------------------------------------------------

mutual

def render : Expr → String
  | .literal v => v.render
  | .identifier name => name
  | .column table name => qualifiedColumn table name
  | .property base name => base.render ++ "." ++ name
  | .binary op left right => left.render ++ " " ++ op.symbol ++ " " ++ right.render
  | .unary op operand => op.apply operand.render
  | .call qualifier name args =>
    qualifiedColumn qualifier name ++ "(" ++ ", ".intercalate (renderAll args) ++ ")"
  | .case conditions results none =>
    renderCase ((renderAll conditions).zip (renderAll results)) none
  | .case conditions results (some e) =>
    renderCase ((renderAll conditions).zip (renderAll results)) (some e.render)
  | .cast operand typeName => "cast(" ++ operand.render ++ " as " ++ typeName ++ ")"
  | .paren inner => "(" ++ inner.render ++ ")"
  | .list items => "(" ++ ", ".intercalate (renderAll items) ++ ")"
  | .fieldLink index => "::" ++ toString index

def renderAll : List Expr → List String
  | [] => []
  | e :: es => e.render :: renderAll es

end

-- ---------------------------------------------------------------------------
-- Calls and references
-- ---------------------------------------------------------------------------

mutual

/-- Whether a call occurs anywhere in the expression. -/
def containsCall : Expr → Bool
  | .call .. => true
  | .literal _ | .identifier _ | .column .. | .fieldLink _ => false
  | .property e _ | .unary _ e | .cast e _ | .paren e => e.containsCall
  | .binary _ left right => left.containsCall || right.containsCall
  | .case conditions results none => anyCall conditions || anyCall results
  | .case conditions results (some e) =>
    anyCall conditions || anyCall results || e.containsCall
  | .list items => anyCall items

def anyCall : List Expr → Bool
  | [] => false
  | e :: es => e.containsCall || anyCall es

end

mutual

/-- The columns an expression names, each with its qualifier if it has one. -/
def references : Expr → List (Option String × String)
  | .identifier name => [(none, name)]
  | .column table name => [(table, name)]
  | .literal _ | .fieldLink _ => []
  | .property e _ | .unary _ e | .cast e _ | .paren e => e.references
  | .binary _ left right => left.references ++ right.references
  | .call _ _ args => referencesAll args
  | .case conditions results none => referencesAll conditions ++ referencesAll results
  | .case conditions results (some e) =>
    referencesAll conditions ++ referencesAll results ++ e.references
  | .list items => referencesAll items

def referencesAll : List Expr → List (Option String × String)
  | [] => []
  | e :: es => e.references ++ referencesAll es

end

end Expr

end SchemaQuery
