-- SUMMARY: The steps that combine the operands of set operators.
import SchemaQuery.Plan.Draft

/-!
# Set operators

The rows of the left operand stand in a table of their own. Those of the right
operand are appended to it, for a union of all rows, or go into a second table
with the same columns, from which the result is matched by key.
-/

namespace SchemaQuery.Plan

def emitMatch (target source probe : String) (keys : List String) (expected : Presence) :
    Planner Unit :=
  emit (.setMatch ⟨target, source, probe, keys, expected⟩)

/-- Where the right operand writes its rows, given the table and columns of the left one. -/
def rightTable (operator : SetOperator) (left : String) (output : List Column) :
    Planner String :=
  match operator with
  | .unionAll => return left
  | .union | .intersect | .except => declare "select" output false

/-- Combines the filled tables of two operands and gives the table of the result. -/
def combineTables (operator : SetOperator) (keys : List String) (output : List Column)
    (left right : String) : Planner String :=
  match operator with
  | .unionAll => return left
  | .union => do
    emitMatch left right left keys .absent
    return left
  | .intersect => do
    let target ← declare "intersect" output false
    emitMatch target right left keys .present
    return target
  | .except => do
    let target ← declare "except" output false
    emitMatch target left right keys .absent
    return target

/-- Reads a field of the output from the table that holds it. -/
def readOutput (table : String) (t : Term) : Term :=
  match t with
  | .outputField name _ type => .tableColumn table name type
  | _ => t

/-- Whether the rows of a set operator have to be copied: to sort or page them, or because they
    belong in another table. -/
def needsCopy (orderBy : List SortKey) (skip take : Option Nat) (destination : Destination) :
    Bool :=
  !orderBy.isEmpty || skip.isSome || take.isSome || destination ≠ .fresh

/-- Sorts and pages the rows of a set operator, and puts them where they belong. -/
def finishSetQuery (orderBy : List SortKey) (skip take : Option Nat) (output : List Column)
    (table : String) (destination : Destination) : Planner String := do
  if needsCopy orderBy skip take destination then
    let target ← destination.table "result" output
    emit (.populate {
      target := target
      source := .transition table table
      filter := none
      skip := skip
      take := take
      select := output.map fun c => .tableColumn table c.name c.type
      orderBy := orderBy.map fun k => { k with term := k.term.mapUp (readOutput table) } })
    return target
  else return table

end SchemaQuery.Plan
