-- SUMMARY: The columns that later steps read.
import SchemaQuery.NameMap
import SchemaQuery.Scope.Symbol

/-!
# Column needs

A join keeps only the columns that are read after it. The needs of a list of
terms are the columns they read, for each alias, and the aliases whose row is
handed to a method as a whole.
-/

namespace SchemaQuery.Plan

structure ColumnNeeds where
  columns : NameMap NameSet
  /-- The aliases of which every column is needed. -/
  whole : NameSet
deriving DecidableEq, Repr

namespace ColumnNeeds

def empty : ColumnNeeds := ⟨[], []⟩

/-- Adds what a single node of a term reads. -/
def addNode (n : ColumnNeeds) : Term → ColumnNeeds
  | .column aliasName name _ _ _ =>
    { n with columns :=
        n.columns.insert aliasName (NameSet.insert name ((n.columns.get? aliasName).getD [])) }
  | .call method _ _ =>
    match method.sourceAlias with
    | some aliasName => { n with whole := NameSet.insert aliasName n.whole }
    | none => n
  | _ => n

/-- Adds what a term reads. -/
def add (n : ColumnNeeds) (t : Term) : ColumnNeeds := t.subterms.foldl addNode n

/-- Adds what a list of terms reads. -/
def addAll (n : ColumnNeeds) (ts : List Term) : ColumnNeeds := ts.foldl add n

/-- Whether the row of an alias is needed as a whole. -/
def needsRow (n : ColumnNeeds) (aliasName : String) : Bool := n.whole.contains aliasName

def needs (n : ColumnNeeds) (aliasName column : String) : Bool :=
  n.needsRow aliasName || ((n.columns.get? aliasName).getD []).contains column

/-- The needed columns of a table, in the order of declaration. -/
def columnsOf (n : ColumnNeeds) (t : TableSymbol) : List Column :=
  t.visibleColumns.filter fun c => n.needs t.aliasName c.name

end ColumnNeeds

end SchemaQuery.Plan
