-- SUMMARY: The two steps of a grouped block.
import SchemaQuery.Plan.Relation
import SchemaQuery.Plan.Draft

/-!
# Grouping

A grouped block fills two tables. The first has a row for every group, with the
keys and the accumulators. The second is filled from the first: there a key is
read as a group field and an aggregate as its accumulator, which is what
`regroup` does.
-/

namespace SchemaQuery.Plan

-- ---------------------------------------------------------------------------
-- Reading from groups
-- ---------------------------------------------------------------------------

mutual

/-- Reads keys and aggregates from the row of the group. -/
def regroupTerm (keys : List Term) (table : String) (t : Term) : Term :=
  match keys.findIdx? (·.sameValue t) with
  | some i => .groupField i t.type
  | none =>
    match t with
    | .literal .. | .column .. | .outputField .. | .tableColumn .. | .groupField .. => t
    | .aggregate method _ type => .tableColumn table method.accumulator type
    | .property e name type => .property (regroupTerm keys table e) name type
    | .binary op left right type =>
      .binary op (regroupTerm keys table left) (regroupTerm keys table right) type
    | .unary op e type => .unary op (regroupTerm keys table e) type
    | .call method args type => .call method (regroupTerms keys table args) type
    | .case branches none type => .case (regroupBranches keys table branches) none type
    | .case branches (some e) type =>
      .case (regroupBranches keys table branches) (some (regroupTerm keys table e)) type
    | .cast e target type => .cast (regroupTerm keys table e) target type
    | .list items type => .list (regroupTerms keys table items) type
    | .nullAsFalse e type => .nullAsFalse (regroupTerm keys table e) type

def regroupTerms (keys : List Term) (table : String) : List Term → List Term
  | [] => []
  | t :: ts => regroupTerm keys table t :: regroupTerms keys table ts

def regroupBranches (keys : List Term) (table : String) :
    List (Term × Term) → List (Term × Term)
  | [] => []
  | (c, r) :: bs =>
    (regroupTerm keys table c, regroupTerm keys table r) :: regroupBranches keys table bs

end

/-- The error of a column that is still read from a row of the source. -/
def ungrouped? : Term → Option PlanError
  | .column aliasName name _ _ _ =>
    some (.unsupportedConstruct
      ("column '" ++ aliasName ++ "." ++ name ++ "' read outside its group"))
  | _ => none

/-- An output of a grouped block, read from the row of the group. -/
def regroup (keys : List Term) (table : String) (t : Term) : Except PlanError Term :=
  let grouped := regroupTerm keys table t
  match grouped.subterms.findSome? ungrouped? with
  | some e => .error e
  | none => .ok grouped

def regroupOrder (keys : List Term) (table : String) (order : List SortKey) :
    Except PlanError (List SortKey) :=
  order.mapM fun k => return { k with term := ← regroup keys table k.term }

-- ---------------------------------------------------------------------------
-- Accumulators
-- ---------------------------------------------------------------------------

/-- Adds an aggregate unless its accumulator is present. -/
def addAggregate (acc : List (Accumulator × DataType)) : Term → List (Accumulator × DataType)
  | .aggregate method args type =>
    if acc.any (·.1.method.accumulator = method.accumulator) then acc
    else acc ++ [(⟨method, args⟩, type)]
  | _ => acc

/-- The aggregates that occur in some terms, the first of each accumulator. -/
def distinctAggregates (outputs : List Term) : List (Accumulator × DataType) :=
  (outputs.flatMap Term.subterms).foldl addAggregate []

/-- The columns of a grouping table: the keys, then the accumulators. -/
def groupColumns (keys : List Term) (aggregates : List (Accumulator × DataType)) : List Column :=
  Column.number (keys.map (fun k => (k.render, k.type))
    ++ aggregates.map fun (a, type) => (a.method.accumulator, type))

def relocateAccumulator (relations : List Relation) (a : Accumulator) :
    Except PlanError Accumulator :=
  return { a with args := ← relocateAll relations a.args }

def relocateRefresh (relations : List Relation) (c : RefreshCall) :
    Except PlanError RefreshCall :=
  return { c with args := ← relocateAll relations c.args }

-- ---------------------------------------------------------------------------
-- Blocks
-- ---------------------------------------------------------------------------

/-- The keys of the groups; a block without written keys has one group. -/
def groupKeys (s : BoundSelect) : List Term :=
  if s.grouping = .implicit then [] else s.groupBy

/-- What a grouped block reads from its groups. -/
def groupOutputs (s : BoundSelect) (orderBy : List SortKey) : List Term :=
  s.fields.map (·.term) ++ s.having.toList ++ orderBy.map (·.term)

/-- The step that groups the rows of the source. -/
def aggregateStep (s : BoundSelect) (orderBy : List SortKey) (relation : Relation)
    (refresh : List RefreshCall) (table : String) : Except PlanError Aggregate := do
  let aggregates ← (distinctAggregates (groupOutputs s orderBy)).mapM fun (a, _) =>
    relocateAccumulator [relation] a
  let refresh ← refresh.mapM (relocateRefresh [relation])
  let filter ← s.filter.mapM (relocate [relation])
  let keys ← relocateAll [relation] (groupKeys s)
  return ⟨table, relation.scan, filter, keys, aggregates, refresh⟩

/-- Plans a grouped block over its source. -/
def planGrouped (s : BoundSelect) (orderBy : List SortKey) (skip take : Option Nat)
    (output : List Column) (relation : Relation) (refresh : List RefreshCall)
    (destination : Destination) : Planner String := do
  let keys := groupKeys s
  let table ← declare "group"
    (groupColumns keys (distinctAggregates (groupOutputs s orderBy))) true
  emit (.aggregate (← liftExcept (aggregateStep s orderBy relation refresh table)))
  let select ← liftExcept (s.fields.mapM fun f => regroup keys table f.term)
  let having ← liftExcept (s.having.mapM (regroup keys table))
  let order ← liftExcept (regroupOrder keys table orderBy)
  let target ← destination.table "score" output
  emit (.populate {
    target := target
    source := .transition s.source.aliasName table
    filter := having
    skip := skip
    take := take
    select := select
    orderBy := order })
  return target

end SchemaQuery.Plan
