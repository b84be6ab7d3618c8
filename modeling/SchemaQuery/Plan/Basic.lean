-- SUMMARY: Plans: the ordered steps that fill transition tables.
import SchemaQuery.Bound.Query

/-!
# Plans

A plan is a list of steps that are carried out one after the other. Steps declare
transition tables and fill them; a step may read every table declared before it.
The rows of the query are those of the table `result` at the end.
-/

namespace SchemaQuery

namespace Plan

inductive LoopKind where
  | innerJoin
  | leftOuterJoin
  | rightOuterJoin
  | crossApply
  | outerApply
deriving DecidableEq, Repr, Inhabited

inductive JoinSide where
  | left
  | right
deriving DecidableEq, Repr, Inhabited

/-- The row made for a row of the preserved side that matches nothing: `nulls` are the columns
    set to null. -/
structure Padding where
  preserved : JoinSide
  nulls : List Column
deriving DecidableEq, Repr

/-- What a step reads its rows from. -/
inductive Scan where
  /-- The rows of a table of a schema. -/
  | schema (aliasName schema method : String) (args : List Term)
  /-- The rows of a table of the host. -/
  | inMemory (aliasName table : String)
  /-- The rows of a transition table. -/
  | transition (aliasName table : String)
  /-- The pairs of rows of two scans. An apply has no predicate. -/
  | loop (kind : LoopKind) (left right : Scan) (predicate : Option Term)
      (padding : Option Padding)

/-- The alias under which the rows of a scan are read. -/
def Scan.aliasName : Scan → String
  | .schema aliasName _ _ _ | .inMemory aliasName _ | .transition aliasName _ => aliasName
  | .loop _ left right _ _ => left.aliasName ++ "+" ++ right.aliasName

/-- Appends a row to the target for every row of the source that passes the filter. -/
structure Populate where
  target : String
  source : Scan
  filter : Option Term
  /-- How many rows to leave out and to take, after sorting. -/
  skip : Option Nat
  take : Option Nat
  /-- One term for every column of the target. -/
  select : List Term
  orderBy : List SortKey

/-- An accumulator of a grouping table. -/
structure Accumulator where
  method : AggregateRef
  args : List Term

/-- Groups the rows of the source that pass the filter, and updates the accumulators of the group
    of every row. Without keys all rows are one group. -/
structure Aggregate where
  target : String
  source : Scan
  filter : Option Term
  keys : List Term
  aggregates : List Accumulator
  refresh : List RefreshCall

/-- The non-empty initial parts of the keys, shortest first. -/
def Aggregate.keyPrefixes (s : Aggregate) : List (List Term) :=
  (List.range s.keys.length).map fun n => s.keys.take (n + 1)

/-- Whether a key has to be found in the probed table. -/
inductive Presence where
  | present
  | absent
deriving DecidableEq, Repr, Inhabited

/-- Appends the rows of the source whose key is, or is not, found in the probed table. -/
structure SetMatch where
  target : String
  source : String
  probe : String
  keyColumns : List String
  expected : Presence
deriving DecidableEq, Repr

inductive Node where
  /-- Declares a transition table. A grouping table has one row per group. -/
  | create (table : String) (columns : List Column) (forGrouping : Bool)
  | populate (step : Populate)
  | aggregate (step : Aggregate)
  | setMatch (step : SetMatch)
  /-- Gives a table another name. -/
  | rename (source target : String)

/-- The table that a node writes or names. -/
def Node.target : Node → String
  | .create table _ _ => table
  | .populate step => step.target
  | .aggregate step => step.target
  | .setMatch step => step.target
  | .rename _ target => target

end Plan

structure Plan where
  nodes : List Plan.Node
  /-- The table that holds the rows of the query at the end. -/
  result : String
  /-- The columns of the result. -/
  output : List Column

namespace Plan

/-- A declared table: its name, its columns and whether it is for grouping. -/
def Node.declared? : Node → Option (String × List Column × Bool)
  | .create table columns forGrouping => some (table, columns, forGrouping)
  | _ => none

/-- The tables that a plan declares, in order. -/
def tables (p : Plan) : List (String × List Column × Bool) := p.nodes.filterMap Node.declared?

/-- The columns of the first declaration of a table. -/
def columnsOf? (p : Plan) (table : String) : Option (List Column) :=
  (p.tables.find? (·.1 = table)).map (·.2.1)

end Plan

end SchemaQuery
