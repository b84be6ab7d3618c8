-- SUMMARY: The rows at hand while planning a block, and reads of their columns.
import SchemaQuery.Plan.Basic
import SchemaQuery.Plan.Error
import SchemaQuery.Plan.Needs
import SchemaQuery.Plan.Draft

/-!
# Relations

A source of a block is at hand either directly, under its own alias, or as part of
a transition table, where the column `c` of the alias `a` is called `a.c`. The
columns that terms read are redirected accordingly by `relocate`.
-/

namespace SchemaQuery.Plan

/-- The name in a transition table of a column of an alias. -/
def qualifiedName (aliasName column : String) : String := aliasName ++ "." ++ column

/-- Rows that a step can read. -/
structure Relation where
  scan : Scan
  /-- The transition table that holds the rows; none for a source read directly. -/
  table : Option String
  /-- The aliases whose columns the rows have. -/
  leaves : List String

namespace Relation

/-- A source that is read directly. -/
def leaf (aliasName : String) (scan : Scan) : Relation := ⟨scan, none, [aliasName]⟩

/-- A transition table with the columns of some sources. -/
def transition (aliasName table : String) (leaves : List String) : Relation :=
  ⟨.transition aliasName table, some table, leaves⟩

def carries (r : Relation) (aliasName : String) : Bool := r.leaves.contains aliasName

/-- The term that reads a column of a carried alias. -/
def read (r : Relation) (aliasName : String) (c : Column) : Term :=
  match r.table with
  | some table => .tableColumn table (qualifiedName aliasName c.name) c.type
  | none => .column aliasName c.name c.ordinal true c.type

end Relation

-- ---------------------------------------------------------------------------
-- Redirecting reads
-- ---------------------------------------------------------------------------

/-- The error of a column that no relation carries. -/
def detached? (relations : List Relation) : Term → Option PlanError
  | .column aliasName name _ _ _ =>
    if relations.any (·.carries aliasName) then none else some (.detachedColumn aliasName name)
  | _ => none

/-- Redirects a column to the transition table that holds it. The first relation that carries the
    alias counts. -/
def relocateNode (relations : List Relation) (t : Term) : Term :=
  match t with
  | .column aliasName name _ _ type =>
    match (relations.find? (·.carries aliasName)).bind (·.table) with
    | some table => .tableColumn table (qualifiedName aliasName name) type
    | none => t
  | _ => t

/-- Redirects all columns of a term to the relations that carry them. -/
def relocate (relations : List Relation) (t : Term) : Except PlanError Term :=
  match t.subterms.findSome? (detached? relations) with
  | some e => .error e
  | none => .ok (t.mapUp (relocateNode relations))

def relocateAll (relations : List Relation) (ts : List Term) : Except PlanError (List Term) :=
  ts.mapM (relocate relations)

/-- Sort keys over redirected terms. -/
def relocateOrder (relations : List Relation) (keys : List SortKey) :
    Except PlanError (List SortKey) :=
  keys.mapM fun k => return { k with term := ← relocate relations k.term }

-- ---------------------------------------------------------------------------
-- Trimming
-- ---------------------------------------------------------------------------

/-- The needed columns of some sources, each with the alias it belongs to. -/
def trimmedColumns (scopes : Scopes) (scope : Nat) (leaves : List String) (needs : ColumnNeeds) :
    Except PlanError (List (String × Column)) := do
  let columns ← leaves.mapM fun aliasName => do
    let table ← ofLookup (scopes.resolve .table aliasName scope)
    return (needs.columnsOf table).map fun c => (aliasName, c)
  return columns.flatten

end SchemaQuery.Plan
