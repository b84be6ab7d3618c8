-- SUMMARY: What a schema is told when a table is asked for: columns, context and arguments.
import SchemaQuery.NameMap
import SchemaQuery.Literal

/-!
# Table requests

A schema describes a table for one use in a query. It learns the alias of that
use, the columns the query may read from it, the environment of the host and the
argument values or types.
-/

namespace SchemaQuery

/-- The columns asked of a source: all of them, or those named. -/
structure ColumnRequest where
  all : Bool
  names : NameSet
deriving DecidableEq, Repr

namespace ColumnRequest

def none : ColumnRequest := ⟨false, []⟩

/-- Every column. -/
def everything : ColumnRequest := ⟨true, []⟩

def contains (r : ColumnRequest) (column : String) : Bool :=
  r.all || List.contains r.names column

def insert (r : ColumnRequest) (column : String) : ColumnRequest :=
  { r with names := NameSet.insert column r.names }

def merge (r s : ColumnRequest) : ColumnRequest :=
  ⟨r.all || s.all, NameSet.union r.names s.names⟩

end ColumnRequest

/-- The context of one use of a table. -/
structure TableContext where
  aliasName : String
  requested : ColumnRequest
  environment : NameMap String
deriving DecidableEq, Repr

/-- An argument of a table: a constant of the query, or a value known by its type only. -/
inductive Argument where
  | constant (value : Literal)
  | dynamic (type : DataType)

namespace Argument

def type : Argument → DataType
  | .constant v => v.type
  | .dynamic t => t

def constant? : Argument → Option Literal
  | .constant v => some v
  | .dynamic _ => Option.none

end Argument

end SchemaQuery
