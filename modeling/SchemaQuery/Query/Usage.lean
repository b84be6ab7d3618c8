-- SUMMARY: The columns a select block may read from each of its sources.
import SchemaQuery.Query.Basic
import SchemaQuery.Catalog.Request

/-!
# Column usage

Before names are resolved, a select block is searched for the columns it names.
A qualified name is asked of its source only, an unqualified one of every
source. Nested queries have a usage of their own and are not searched.
-/

namespace SchemaQuery

structure ColumnUsage where
  byAlias : NameMap ColumnRequest
  unqualified : ColumnRequest

/-- The columns named by the arguments and conditions of a source. -/
def Source.references : Source → List (Option String × String)
  | .schema _ _ args _ => Expr.referencesAll args
  | .inMemory .. | .subquery .. => []
  | .join _ left right condition => left.references ++ right.references ++ condition.references
  | .apply _ left right => left.references ++ right.references

namespace ColumnUsage

def empty : ColumnUsage := ⟨[], .none⟩

/-- Changes what is asked of one alias. -/
def update (u : ColumnUsage) (aliasName : String) (f : ColumnRequest → ColumnRequest) :
    ColumnUsage :=
  { u with byAlias := u.byAlias.insert aliasName (f ((u.byAlias.get? aliasName).getD .none)) }

def addReference (u : ColumnUsage) : Option String × String → ColumnUsage
  | (some aliasName, column) => u.update aliasName (·.insert column)
  | (none, column) => { u with unqualified := u.unqualified.insert column }

def addReferences (u : ColumnUsage) (refs : List (Option String × String)) : ColumnUsage :=
  refs.foldl addReference u

def addItem (u : ColumnUsage) : SelectItem → ColumnUsage
  | .expr e | .aliased e _ => u.addReferences e.references
  | .qualifiedWildcard aliasName => u.update aliasName fun r => { r with all := true }
  | .wildcard => { u with unqualified := { u.unqualified with all := true } }

/-- The usage of a select block under the order applied to it. -/
def collect (s : Select) (orderBy : List OrderItem) : ColumnUsage :=
  let clauses := s.filter.toList ++ s.groupBy ++ s.having.toList ++ orderBy.map (·.expr)
  let named := clauses.flatMap Expr.references
  let sources := (s.source.map Source.references).getD []
  (s.projection.foldl addItem empty).addReferences (named ++ sources)

/-- The columns asked of the source bound to an alias. -/
def requestedFor (u : ColumnUsage) (aliasName : String) : ColumnRequest :=
  match u.byAlias.get? aliasName with
  | some r => u.unqualified.merge r
  | none => u.unqualified

end ColumnUsage

end SchemaQuery
