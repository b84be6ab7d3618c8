-- SUMMARY: Building queries step by step.
import SchemaQuery.Query.Basic

/-!
# Building queries

Short ways to write expressions, sources, select blocks and queries. Each step
returns the extended value.
-/

namespace SchemaQuery

namespace Expr

def ofColumn (aliasName column : String) : Expr := .column (some aliasName) column

def ofCall (name : String) (args : List Expr) : Expr := .call none name args

def ofQualifiedCall (qualifier name : String) (args : List Expr) : Expr :=
  .call (some qualifier) name args

def equals (left right : Expr) : Expr := .binary .eq left right

def conj (left right : Expr) : Expr := .binary .and left right

def negate (e : Expr) : Expr := .unary .not e

def ofInt (i : Int) : Expr := .literal (.integer i)

def ofString (s : String) : Expr := .literal (.string s)

def ofBool (b : Bool) : Expr := .literal (.boolean b)

def ofNull : Expr := .literal .null

def ofBranches (branches : List (Expr × Expr)) (otherwise : Option Expr) : Expr :=
  .case (branches.map (·.1)) (branches.map (·.2)) otherwise

end Expr

namespace Source

def ofSchema (owner method : String) (args : List Expr) : Source := .schema owner method args none

def ofMemory (name : String) : Source := .inMemory name none

def ofQuery (q : Query) : Source := .subquery q none

/-- Names a source. A join or apply has no name of its own and stays as it is. -/
def withAlias (s : Source) (aliasName : String) : Source :=
  match s with
  | .schema owner method args _ => .schema owner method args (some aliasName)
  | .inMemory name _ => .inMemory name (some aliasName)
  | .subquery q _ => .subquery q (some aliasName)
  | s => s

end Source

namespace Select

def empty : Select := ⟨false, [], none, none, [], none⟩

def add (s : Select) (item : SelectItem) : Select :=
  { s with projection := s.projection ++ [item] }

def addExpr (s : Select) (e : Expr) : Select := s.add (.expr e)

def addAliased (s : Select) (e : Expr) (aliasName : String) : Select := s.add (.aliased e aliasName)

def addAll (s : Select) : Select := s.add .wildcard

def withProjection (s : Select) (items : List SelectItem) : Select := { s with projection := items }

def withSource (s : Select) (source : Source) : Select := { s with source := some source }

def withFilter (s : Select) (e : Expr) : Select := { s with filter := some e }

def withGroupBy (s : Select) (keys : List Expr) : Select := { s with groupBy := keys }

def withHaving (s : Select) (e : Expr) : Select := { s with having := some e }

def withDistinct (s : Select) : Select := { s with distinct := true }

end Select

namespace Query

def ofBody (body : QueryBody) : Query := ⟨body, [], none, none, []⟩

def ofSelect (s : Select) : Query := ofBody (.select s)

def combine (operator : SetOperator) (left right : Query) (keys : List String) : Query :=
  ofBody (.setOperation operator left right keys)

def withSkip (q : Query) (n : Nat) : Query := { q with skip := some n }

def withTake (q : Query) (n : Nat) : Query := { q with take := some n }

def withOrder (q : Query) (items : List OrderItem) : Query := { q with orderBy := items }

def withCtes (q : Query) (ctes : List Cte) : Query := { q with ctes := ctes }

end Query

end SchemaQuery
