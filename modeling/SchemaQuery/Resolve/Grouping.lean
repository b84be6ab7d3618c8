-- SUMMARY: How a select block groups its rows, and which terms a group has a value for.
import SchemaQuery.Resolve.Context

/-!
# Grouping

A block groups by its written keys, by all fields when it is distinct, or into a
single group when it reads aggregates. In a grouped block every column outside
an aggregate must be part of a key.
-/

namespace SchemaQuery.Resolve

/-- Whether a term is one of the keys. -/
def isKey (keys : List Term) (t : Term) : Bool := keys.any (·.sameValue t)

mutual

/-- Accepts a term that has one value per group. -/
def checkGrouped (keys : List Term) (t : Term) : Except ResolveError Unit :=
  if isKey keys t then .ok ()
  else
    match t with
    | .aggregate .. | .literal .. | .groupField .. => .ok ()
    | .column .. => .error (.columnMustBeGrouped t.render)
    | .outputField .. | .tableColumn .. => .ok ()
    | .property e _ _ | .unary _ e _ | .cast e _ _ | .nullAsFalse e _ => checkGrouped keys e
    | .binary _ left right _ => do
      checkGrouped keys left
      checkGrouped keys right
    | .call _ args _ | .list args _ => checkGroupedAll keys args
    | .case branches none _ => checkGroupedBranches keys branches
    | .case branches (some e) _ => do
      checkGroupedBranches keys branches
      checkGrouped keys e

def checkGroupedAll (keys : List Term) : List Term → Except ResolveError Unit
  | [] => .ok ()
  | t :: ts => do
    checkGrouped keys t
    checkGroupedAll keys ts

def checkGroupedBranches (keys : List Term) : List (Term × Term) → Except ResolveError Unit
  | [] => .ok ()
  | (c, r) :: bs => do
    checkGrouped keys c
    checkGrouped keys r
    checkGroupedBranches keys bs

end

/-- The grouping of a block. -/
def groupingOf (distinct hasKeys hasAggregates hasHaving : Bool) : Except ResolveError Grouping :=
  if distinct then
    if hasKeys || hasAggregates then
      .error (.unsupportedConstruct "DISTINCT combined with GROUP BY or aggregates")
    else .ok .distinct
  else if hasKeys then .ok .explicit
  else if hasAggregates then .ok .implicit
  else if hasHaving then .error (.unsupportedConstruct "HAVING without GROUP BY or aggregates")
  else .ok .none

end SchemaQuery.Resolve
