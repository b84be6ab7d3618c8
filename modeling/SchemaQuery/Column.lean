-- SUMMARY: Columns of tables.
import SchemaQuery.DataType.Basic

/-!
# Columns

A column has a name, a position in its table and a type.
-/

namespace SchemaQuery

structure Column where
  name : String
  ordinal : Nat
  type : DataType
deriving DecidableEq, Repr, Inhabited

namespace Column

/-- The column as seen on the padded side of an outer join. -/
def toNullable (c : Column) : Column := { c with type := c.type.toNullable }

/-- Columns with their positions as ordinals. -/
def number (defs : List (String × DataType)) : List Column :=
  defs.zipIdx.map fun ((name, type), i) => ⟨name, i, type⟩

/-- The first column of a name. -/
def find? (columns : List Column) (name : String) : Option Column :=
  columns.find? (·.name = name)

/-- Whether the columns have exactly the given names, in order. -/
def haveNames (columns : List Column) (names : List String) : Bool :=
  columns.map (·.name) = names

/-- Whether the columns are exactly the given ones, in order, each at its own position. -/
def haveTypes (columns : List Column) (expected : List (String × DataType)) : Bool :=
  columns = number expected

end Column

end SchemaQuery
