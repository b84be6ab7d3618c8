-- SUMMARY: The plan of a bound query.
import SchemaQuery.Plan.Join
import SchemaQuery.Plan.Grouping
import SchemaQuery.Plan.SetOperation

/-!
# Plans of queries

The plan of a query fills the tables of its common table expressions first, then
those of its sources from the left, and last the table of its own rows. The name
of that table is noted as an attribute of the scope of the query.
-/

namespace SchemaQuery.Plan

/-- The attribute of a scope that names the table with the rows of its query. -/
def tableAttribute : String := "transitionTable"

def setTableAttribute (scope : Nat) (table : String) : Planner Unit := do
  let s ← get
  let scopes ← liftExcept (ofLookup (s.scopes.setAttribute scope tableAttribute table))
  set { s with scopes := scopes }

/-- The updates registered for the source of a block. -/
def refreshCalls (scopes : Scopes) (s : BoundSelect) : Except PlanError (List RefreshCall) := do
  return (← ofLookup
    (scopes.tryResolve .refresh (refreshKey s.source.aliasName) s.scope)).getD []

/-- What a block reads from its source. -/
def blockNeeds (s : BoundSelect) (orderBy : List SortKey) (refresh : List RefreshCall) :
    ColumnNeeds :=
  ColumnNeeds.empty.addAll (s.filter.toList ++ s.fields.map (·.term) ++ s.groupBy
    ++ s.having.toList ++ orderBy.map (·.term) ++ refresh.flatMap (·.args))

/-- Plans a block without groups over its source. -/
def planProjection (s : BoundSelect) (orderBy : List SortKey) (skip take : Option Nat)
    (output : List Column) (relation : Relation) (destination : Destination) :
    Planner String := do
  let filter ← liftExcept (s.filter.mapM (relocate [relation]))
  let select ← liftExcept (relocateAll [relation] (s.fields.map (·.term)))
  let order ← liftExcept (relocateOrder [relation] orderBy)
  let target ← destination.table "select" output
  emit (.populate {
    target := target
    source := relation.scan
    filter := filter
    skip := skip
    take := take
    select := select
    orderBy := order })
  return target

/-- Plans a block over its source. -/
def planBlock (s : BoundSelect) (orderBy : List SortKey) (skip take : Option Nat)
    (output : List Column) (refresh : List RefreshCall) (relation : Relation)
    (destination : Destination) : Planner String :=
  if s.isGrouped then planGrouped s orderBy skip take output relation refresh destination
  else planProjection s orderBy skip take output relation destination

/-- The scan of a table in memory. -/
def memoryScan (aliasName table : String) : MemoryOrigin → Scan
  | .cte => .transition aliasName table
  | .host => .inMemory aliasName table

/-- The arguments of a schema table, which may read the relation around an apply. -/
def scanArguments (outer : Option Relation) (args : List Term) : Except PlanError (List Term) :=
  match outer with
  | some r => relocateAll [r] args
  | none => .ok args

mutual

/-- Plans a query and gives the table with its rows. -/
def planQuery : BoundQuery → Destination → Planner String
  | ⟨scope, ctes, body, orderBy, skip, take, output⟩, destination => do
    enterQuery "query lowering"
    planCtes ctes
    let table ← planBody orderBy skip take output body destination
    exitQuery
    setTableAttribute scope table
    return table

/-- Plans common table expressions and gives their tables the declared names. -/
def planCtes : List BoundCte → Planner Unit
  | [] => pure ()
  | ⟨name, query⟩ :: rest => do
    let table ← planQuery query .fresh
    emit (.rename table name)
    planCtes rest

def planBody (orderBy : List SortKey) (skip take : Option Nat) (output : List Column) :
    BoundBody → Destination → Planner String
  | .select ⟨scope, source, filter, groupBy, grouping, having, fields⟩, destination => do
    let s : BoundSelect := ⟨scope, source, filter, groupBy, grouping, having, fields⟩
    let refresh ← liftExcept (refreshCalls (← get).scopes s)
    let relation ← planSource scope source (blockNeeds s orderBy refresh) none
    planBlock s orderBy skip take output refresh relation destination
  | .setOperation operator keys left right, destination => do
    let columns := left.output
    let leftTable ← planQuery left .fresh
    let rightTable ← rightTable operator leftTable columns
    let rightTable ← planQuery right (.existing rightTable)
    let table ← combineTables operator keys columns leftTable rightTable
    finishSetQuery orderBy skip take output table destination

/-- Plans a source and gives the relation that later steps read. `needs` are the columns read after
    the source is built, and `outer` is the left side of an enclosing apply. -/
def planSource (scope : Nat) :
    BoundSource → ColumnNeeds → Option Relation → Planner Relation
  | .schema aliasName schema method args _ _, _, outer => do
    let args ← liftExcept (scanArguments outer args)
    return .leaf aliasName (.schema aliasName schema method args)
  | .inMemory aliasName table origin _, _, _ =>
    return .leaf aliasName (memoryScan aliasName table origin)
  | .subquery aliasName query _, _, _ => do
    let table ← planQuery query .fresh
    return .leaf aliasName (.transition aliasName table)
  | .join aliasName kind left right condition, needs, outer => do
    -- both sides also have what the join itself reads
    let inputs := (needs.add condition).addAll right.arguments
    let leftRelation ← planSource scope left inputs outer
    let rightRelation ← planSource scope right inputs outer
    joinRelations scope aliasName (.ofJoin kind) (some condition) needs outer leftRelation
      rightRelation
  | .apply aliasName kind left right, needs, outer => do
    let inputs := needs.addAll right.arguments
    let leftRelation ← planSource scope left inputs outer
    let rightRelation ← planSource scope right inputs (some leftRelation)
    joinRelations scope aliasName (.ofApply kind) none needs outer leftRelation rightRelation

end

/-- Plans a bound query from the scopes it was bound in. The scopes come back with the tables of
    all queries noted. -/
def ofQuery (config : PlanConfig) (scopes : Scopes) (q : BoundQuery) :
    Except PlanError (Plan × Scopes) :=
  match (planQuery q .fresh).run ⟨scopes, .empty config⟩ with
  | .ok table s => .ok (⟨s.draft.nodes, table, q.output⟩, s.scopes)
  | .error e _ => .error e

end SchemaQuery.Plan
