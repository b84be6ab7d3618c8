-- SUMMARY: The symbols that aliases stand for.
import SchemaQuery.Bound.Query

/-!
# Symbols

An alias stands for a table: a plain one with columns of its own, or a compound
of the sources of a join. The updates that the aggregates of a source need are
kept as a second kind of symbol under a key derived from the alias.
-/

namespace SchemaQuery

/-- Where the rows of a table come from. -/
inductive TableOrigin where
  | schema (schema method : String)
  | cte (name : String)
  | inMemory (name : String)
  | subquery
  /-- A join or apply of other sources. -/
  | compound
deriving DecidableEq, Repr

structure TableSymbol where
  aliasName : String
  origin : TableOrigin
  columns : List Column
  /-- Whether the alias was written in the query. -/
  hasExplicitAlias : Bool
  /-- The aliases of the sources it is made of; its own for a plain table. -/
  compoundTables : List String
  /-- Whether its columns are seen as nullable, being on the padded side of a join. -/
  nullable : Bool
  /-- The type of the row handed to methods. -/
  rowType : DataType
deriving DecidableEq, Repr

inductive Symbol where
  | table (table : TableSymbol)
  | refresh (calls : List RefreshCall)

namespace TableSymbol

/-- A table that is made of itself alone. -/
def plain (aliasName : String) (origin : TableOrigin) (columns : List Column) (explicit : Bool)
    (rowType : DataType) : TableSymbol :=
  ⟨aliasName, origin, columns, explicit, [aliasName], false, rowType⟩

/-- A table made of sources that are already bound. -/
def compound (aliasName : String) (tables : List String) : TableSymbol :=
  ⟨aliasName, .compound, [], false, tables, false, .object⟩

def isCompound (t : TableSymbol) : Bool := t.origin = .compound

/-- A column as the query sees it. -/
def view (t : TableSymbol) (c : Column) : Column := if t.nullable then c.toNullable else c

/-- The first column of a name, as the query sees it. -/
def column? (t : TableSymbol) (name : String) : Option Column :=
  (t.columns.find? (·.name = name)).map t.view

/-- All columns, as the query sees them. -/
def visibleColumns (t : TableSymbol) : List Column := t.columns.map t.view

def columnNames (t : TableSymbol) : List String := t.columns.map (·.name)

end TableSymbol

/-- The key of the accumulator updates of an alias. -/
def refreshKey (aliasName : String) : String := aliasName ++ "#refresh"

/-- The key of a common table expression. Its name is no alias, so a table may be called like it. -/
def cteKey (name : String) : String := name ++ "#cte"

/-- Adds an update unless one that renders alike is present; says whether it was added. -/
def addRefresh (calls : List RefreshCall) (c : RefreshCall) : List RefreshCall × Bool :=
  if calls.any (·.render = c.render) then (calls, false) else (calls ++ [c], true)

/-- One kind of symbol: its name, and the way into it and back. -/
structure SymbolView (α : Type) where
  kind : String
  get? : Symbol → Option α
  put : α → Symbol

namespace SymbolView

def table : SymbolView TableSymbol where
  kind := "table"
  get?
    | .table t => some t
    | .refresh _ => none
  put := .table

def refresh : SymbolView (List RefreshCall) where
  kind := "refresh method list"
  get?
    | .refresh calls => some calls
    | .table _ => none
  put := .refresh

end SymbolView

end SchemaQuery
