-- SUMMARY: Queries: select blocks, their sources, set operators and common table expressions.
import SchemaQuery.Expr.Basic

/-!
# Queries

A query is a body with an order, a page and the common table expressions it may
read. The body is a select block or a set operator over two queries, and the
sources of a select block may again hold queries.
-/

namespace SchemaQuery

inductive Direction where
  | asc
  | desc
deriving DecidableEq, Repr, Inhabited

inductive JoinKind where
  | inner
  | leftOuter
  | rightOuter
deriving DecidableEq, Repr, Inhabited

inductive ApplyKind where
  | cross
  | outer
deriving DecidableEq, Repr, Inhabited

structure OrderItem where
  expr : Expr
  direction : Direction

inductive SelectItem where
  | expr (expr : Expr)
  | aliased (expr : Expr) (aliasName : String)
  | qualifiedWildcard (qualifier : String)
  | wildcard

/-- The binary operators on whole queries. -/
inductive SetOperator where
  | union
  | unionAll
  | intersect
  | except
deriving DecidableEq, Repr, Inhabited

def SetOperator.render : SetOperator → String
  | .union => "UNION"
  | .unionAll => "UNION ALL"
  | .intersect => "INTERSECT"
  | .except => "EXCEPT"

mutual

structure Query where
  body : QueryBody
  orderBy : List OrderItem
  skip : Option Nat
  take : Option Nat
  ctes : List Cte

inductive QueryBody where
  | select (select : Select)
  | setOperation (operator : SetOperator) (left right : Query) (keys : List String)

structure Select where
  distinct : Bool
  projection : List SelectItem
  source : Option Source
  filter : Option Expr
  groupBy : List Expr
  having : Option Expr

inductive Source where
  | schema (schema method : String) (args : List Expr) (aliasName : Option String)
  | inMemory (name : String) (aliasName : Option String)
  | subquery (query : Query) (aliasName : Option String)
  | join (kind : JoinKind) (left right : Source) (condition : Expr)
  | apply (kind : ApplyKind) (left right : Source)

/-- A common table expression; its columns, if any are given, rename those of the query. -/
structure Cte where
  name : String
  columns : List String
  query : Query

end

end SchemaQuery
