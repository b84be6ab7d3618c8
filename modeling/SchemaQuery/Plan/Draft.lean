-- SUMMARY: Plans in the making: emitted nodes, table names and the depth of nesting.
import SchemaQuery.Plan.Basic
import SchemaQuery.Plan.Error
import SchemaQuery.Scope.Basic

/-!
# Drafts

A draft collects the nodes of a plan in order, hands out names for transition
tables and counts how deeply queries are nested. Planning works on a draft and
on the scopes the query was bound in.
-/

namespace SchemaQuery

structure PlanConfig where
  /-- The start of every name of a transition table. -/
  transitionTablePrefix : String
  /-- How deeply queries may be nested. -/
  maxDepth : Nat
deriving DecidableEq, Repr

instance : Inhabited PlanConfig := ⟨⟨"__t", 64⟩⟩

namespace Plan

structure Draft where
  config : PlanConfig
  nodes : List Node
  /-- The number of the next transition table. -/
  next : Nat
  depth : Nat

namespace Draft

def empty (config : PlanConfig) : Draft := ⟨config, [], 0, 0⟩

/-- The name of the next transition table, which tells its role. -/
def tableName (d : Draft) (role : String) : String :=
  d.config.transitionTablePrefix ++ toString d.next ++ "_" ++ role

/-- Uses up the name of the next transition table. -/
def advance (d : Draft) : Draft := { d with next := d.next + 1 }

def emit (d : Draft) (n : Node) : Draft := { d with nodes := d.nodes ++ [n] }

/-- Goes one query deeper. -/
def enter (d : Draft) : Draft := { d with depth := d.depth + 1 }

/-- Returns from a nested query. -/
def exit (d : Draft) : Draft := { d with depth := d.depth - 1 }

/-- The error of being nested too deeply. -/
def depthError? (d : Draft) (context : String) : Option PlanError :=
  if d.config.maxDepth < d.depth then
    some (.recursionLimitExceeded context d.depth d.config.maxDepth)
  else none

end Draft

-- ---------------------------------------------------------------------------
-- Steps of planning
-- ---------------------------------------------------------------------------

structure State where
  scopes : Scopes
  draft : Draft

/-- Steps of planning. -/
abbrev Planner := EStateM PlanError State

/-- A step that can fail and changes nothing. -/
def liftExcept : Except PlanError α → Planner α
  | .ok a => pure a
  | .error e => throw e

/-- The outcome of a lookup in the scopes. -/
def ofLookup : Except ResolveError α → Except PlanError α
  | .ok a => .ok a
  | .error e => .error (.symbol e.message)

def emit (n : Node) : Planner Unit :=
  modify fun s => { s with draft := s.draft.emit n }

/-- A new name for a transition table. -/
def nextTable (role : String) : Planner String := do
  let s ← get
  set { s with draft := s.draft.advance }
  return s.draft.tableName role

/-- Goes one query deeper, unless that is too deep. -/
def enterQuery (context : String) : Planner Unit := do
  let s ← get
  let draft := s.draft.enter
  set { s with draft := draft }
  match draft.depthError? context with
  | some e => throw e
  | none => pure ()

def exitQuery : Planner Unit :=
  modify fun s => { s with draft := s.draft.exit }

/-- Declares a new transition table. -/
def declare (role : String) (columns : List Column) (forGrouping : Bool) : Planner String := do
  let table ← nextTable role
  emit (.create table columns forGrouping)
  return table

/-- Where a query writes its rows. -/
inductive Destination where
  /-- A new table with the columns of the query. -/
  | fresh
  /-- A table that is declared already. -/
  | existing (table : String)
deriving DecidableEq, Repr

/-- The table of a destination, declared if it is new. -/
def Destination.table (role : String) (columns : List Column) : Destination → Planner String
  | .fresh => declare role columns false
  | .existing table => return table

end Plan

end SchemaQuery
