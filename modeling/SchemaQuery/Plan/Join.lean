-- SUMMARY: The step that joins two relations.
import SchemaQuery.Plan.Relation
import SchemaQuery.Plan.Draft

/-!
# Joins

Two relations are joined by a nested loop into a transition table that has the
columns needed later, those of the left relation first.
-/

namespace SchemaQuery.Plan

def LoopKind.ofJoin : JoinKind → LoopKind
  | .inner => .innerJoin
  | .leftOuter => .leftOuterJoin
  | .rightOuter => .rightOuterJoin

def LoopKind.ofApply : ApplyKind → LoopKind
  | .cross => .crossApply
  | .outer => .outerApply

/-- The columns of a join table, named after the alias they come from. -/
def joinColumns (sources : List (String × Column)) : List Column :=
  Column.number (sources.map fun (aliasName, c) => (qualifiedName aliasName c.name, c.type))

/-- The terms that fill a join table. -/
def joinSelect (left right : Relation) (sources : List (String × Column)) : List Term :=
  sources.map fun (aliasName, c) =>
    if left.carries aliasName then left.read aliasName c else right.read aliasName c

/-- The columns of a join table that come from one side. -/
def sideColumns (side : Relation) (sources : List (String × Column)) : List Column :=
  ((joinColumns sources).zip sources).filterMap fun (column, aliasName, _) =>
    if side.carries aliasName then some column else none

/-- The padding of a join: an outer join or apply sets the columns of its other side to null. -/
def paddingOf (kind : LoopKind) (left right : Relation) (sources : List (String × Column)) :
    Option Padding :=
  match kind with
  | .leftOuterJoin | .outerApply => some ⟨.left, sideColumns right sources⟩
  | .rightOuterJoin => some ⟨.right, sideColumns left sources⟩
  | .innerJoin | .crossApply => none

/-- Joins two relations into a new table. `needs` are the columns read later, and `outer` is the
    relation around an enclosing apply. -/
def joinRelations (scope : Nat) (aliasName : String) (kind : LoopKind) (condition : Option Term)
    (needs : ColumnNeeds) (outer : Option Relation) (left right : Relation) :
    Planner Relation := do
  let leaves := left.leaves ++ right.leaves
  let sources ← liftExcept (trimmedColumns (← get).scopes scope leaves needs)
  let predicate ← liftExcept (condition.mapM (relocate ([left, right] ++ outer.toList)))
  let table ← declare "join" (joinColumns sources) false
  emit (.populate {
    target := table
    source := .loop kind left.scan right.scan predicate (paddingOf kind left right sources)
    filter := none
    skip := none
    take := none
    select := joinSelect left right sources
    orderBy := [] })
  return .transition aliasName table leaves

end SchemaQuery.Plan
