-- SUMMARY: Planning as a sequence of moves on its state, and the queries it visits on the way.
import Mathlib.Logic.Relation
import SchemaQuery.Proofs.Plan.Depth
import SchemaQuery.Proofs.Query.Shape
import SchemaQuery.Resolve.Query

/-!
# Moves of planning

A run of planning that ends well is a sequence of moves, and there are few kinds
of them: a `Move` changes the depth, notes an attribute, declares a table, or
emits nodes. What holds of every plan is proved of each kind of move. Within the
run, every query of the bound query has its own body planned at some point
(`Visits`).
-/

namespace SchemaQuery.Plan

/-! ## Steps that end well -/

theorem run_emit_ok {n : Node} {st st' : State} {x : Unit} :
    emit n st = .ok x st' ↔ st' = { st with draft := st.draft.emit n } := by
  rw [emit, run_modify_ok]
  exact eq_comm

theorem run_liftExcept_ok {α : Type} {x : Except PlanError α} {a : α} {st st' : State} :
    liftExcept x st = .ok a st' ↔ x = .ok a ∧ st = st' := by
  cases x with
  | ok b => simp [liftExcept]
  | error e => simp [liftExcept]

/-- The state after a table was declared. -/
def State.declared (st : State) (role : String) (columns : List Column) (forGrouping : Bool) :
    State :=
  ⟨st.scopes, st.draft.advance.emit (.create (st.draft.tableName role) columns forGrouping)⟩

theorem run_declare_ok {role : String} {columns : List Column} {forGrouping : Bool}
    {st st' : State} {table : String} :
    declare role columns forGrouping st = .ok table st' ↔
      table = st.draft.tableName role ∧ st' = st.declared role columns forGrouping := by
  simp only [declare, nextTable, run_bind_ok, run_get_ok, run_set_ok, run_emit_ok, run_pure_ok]
  constructor
  · rintro ⟨_, _, ⟨_, _, ⟨rfl, rfl⟩, _, _, rfl, rfl, rfl⟩, _, _, rfl, rfl, rfl⟩
    exact ⟨rfl, rfl⟩
  · rintro ⟨rfl, rfl⟩
    exact ⟨_, _, ⟨_, _, ⟨rfl, rfl⟩, ⟨⟩, _, rfl, rfl, rfl⟩, ⟨⟩, _, rfl, rfl, rfl⟩

section Equations

-- Many proofs below open these definitions. Their equations are generated once, here.
attribute [local simp] planQuery planCtes planBody planSource

end Equations

/-- The steps of planning a block: updates, source, clauses. -/
theorem planBody_select (orderBy : List SortKey) (skip take : Option Nat) (output : List Column)
    (b : BoundSelect) (destination : Destination) :
    planBody orderBy skip take output (.select b) destination = (do
      let refresh ← liftExcept (refreshCalls (← get).scopes b)
      let relation ← planSource b.scope b.source (blockNeeds b orderBy refresh) none
      planBlock b orderBy skip take output refresh relation destination) := by
  cases b
  simp only [planBody]

/-! ## Moves -/

def Scan.isLoop : Scan → Bool
  | .loop .. => true
  | _ => false

/-- The nodes that neither declare, join nor group. -/
def Node.isPlain : Node → Bool
  | .populate step => !step.source.isLoop
  | .setMatch _ | .rename .. => true
  | .create .. | .aggregate _ => false

/-- The step that fills a join table. -/
def joinStep (table : String) (kind : LoopKind) (predicate : Option Term) (left right : Relation)
    (sources : List (String × Column)) : Populate where
  target := table
  source := .loop kind left.scan right.scan predicate (paddingOf kind left right sources)
  filter := none
  skip := none
  take := none
  select := joinSelect left right sources
  orderBy := []

/-- The state after a join table was declared and filled. -/
def State.joined (st : State) (kind : LoopKind) (predicate : Option Term) (left right : Relation)
    (sources : List (String × Column)) : State :=
  ⟨st.scopes, (st.declared "join" (joinColumns sources) false).draft.emit
    (.populate (joinStep (st.draft.tableName "join") kind predicate left right sources))⟩

/-- One change that planning some queries makes to its state. -/
inductive Move (qs : List BoundQuery) : State → State → Prop where
  | depth (st : State) (n : Nat) : Move qs st { st with draft := { st.draft with depth := n } }
  | note (st : State) {scope : Nat} {key value : String} {scopes : Scopes}
      (h : st.scopes.setAttribute scope key value = .ok scopes) : Move qs st { st with scopes }
  | declare (st : State) (role : String) (columns : List Column) (forGrouping : Bool) :
      Move qs st (st.declared role columns forGrouping)
  | plain (st : State) {n : Node} (h : n.isPlain = true) :
      Move qs st { st with draft := st.draft.emit n }
  | join (st : State) (kind : LoopKind) (predicate : Option Term) (left right : Relation)
      (sources : List (String × Column)) : Move qs st (st.joined kind predicate left right sources)
  | group (st : State) {q : BoundQuery} {b : BoundSelect} {calls : List RefreshCall}
      {relation : Relation} {table : String} {step : Aggregate} (hq : q ∈ qs)
      (hb : q.body = .select b) (hcalls : refreshCalls st.scopes b = .ok calls)
      (hstep : aggregateStep b q.orderBy relation calls table = .ok step) :
      Move qs st { st with draft := st.draft.emit (.aggregate step) }

abbrev Moves (qs : List BoundQuery) : State → State → Prop := Relation.ReflTransGen (Move qs)

/-- Between two states the body of a query, which is one of the queries with all that is nested in
    it, was planned. -/
def Visits (qs : List BoundQuery) (q : BoundQuery) (st st' : State) : Prop :=
  q.queries ⊆ qs ∧ ∃ st₁ st₂ table destination, Moves qs st st₁ ∧
    planBody q.orderBy q.skip q.take q.output q.body destination st₁ = .ok table st₂ ∧
    Moves qs st₂ st'

variable {qs : List BoundQuery} {st st₁ st₂ st' : State}

theorem Visits.extend {q : BoundQuery} (h : Visits qs q st₁ st₂) (hpre : Moves qs st st₁)
    (hpost : Moves qs st₂ st') : Visits qs q st st' := by
  obtain ⟨hqs, s₁, s₂, table, destination, hs₁, hrun, hs₂⟩ := h
  exact ⟨hqs, s₁, s₂, table, destination, hpre.trans hs₁, hrun, hs₂.trans hpost⟩

/-! ## Scopes -/

theorem SameBindings.refl (s : Scopes) : SameBindings s s := ⟨rfl, fun _ => rfl, fun _ _ => rfl⟩

theorem SameBindings.chain {s s' : Scopes} (h : SameBindings s s') (id : Nat) :
    s'.chain id = s.chain id :=
  Scopes.chain_congr h.length h.parent id

/-- Updates are found by bindings alone. -/
theorem SameBindings.refreshCalls {s s' : Scopes} (h : SameBindings s s') (b : BoundSelect) :
    refreshCalls s' b = refreshCalls s b := by
  have hfind : s'.findIn? (refreshKey b.source.aliasName) =
      s.findIn? (refreshKey b.source.aliasName) := funext fun i => h.find _ i
  simp only [Plan.refreshCalls, Scopes.tryResolve, Scopes.lookup, h.chain, hfind]

theorem Move.scopes (h : Move qs st st') : SameBindings st.scopes st'.scopes := by
  cases h with
  | note h => exact setAttribute_sameBindings h
  | _ => exact .refl _

theorem Moves.scopes (h : Moves qs st st') : SameBindings st.scopes st'.scopes := by
  induction h with
  | refl => exact .refl _
  | tail _ hmove ih => exact ih.trans hmove.scopes

/-! ## Steps -/

theorem Moves.emit {n : Node} (h : n.isPlain = true) {x : Unit}
    (hrun : Plan.emit n st = .ok x st') : Moves qs st st' := by
  rw [run_emit_ok.1 hrun]
  exact .single (.plain st h)

theorem Moves.declare {role : String} {columns : List Column} {forGrouping : Bool}
    {table : String} (hrun : Plan.declare role columns forGrouping st = .ok table st') :
    Moves qs st st' := by
  obtain ⟨-, rfl⟩ := run_declare_ok.1 hrun
  exact .single (.declare st role columns forGrouping)

theorem Moves.destination {role : String} {columns : List Column} {destination : Destination}
    {table : String} (hrun : destination.table role columns st = .ok table st') :
    Moves qs st st' := by
  cases destination with
  | fresh => exact .declare hrun
  | existing t =>
    obtain ⟨-, rfl⟩ := run_pure_ok.1 hrun
    exact .refl

theorem Moves.rightTable {operator : SetOperator} {left table : String} {output : List Column}
    (hrun : Plan.rightTable operator left output st = .ok table st') : Moves qs st st' := by
  cases operator with
  | unionAll =>
    obtain ⟨-, rfl⟩ := run_pure_ok.1 hrun
    exact .refl
  | union | intersect | except => exact .declare hrun

theorem Moves.combineTables {operator : SetOperator} {keys : List String} {output : List Column}
    {left right table : String}
    (hrun : Plan.combineTables operator keys output left right st = .ok table st') :
    Moves qs st st' := by
  cases operator with
  | unionAll =>
    obtain ⟨-, rfl⟩ := run_pure_ok.1 hrun
    exact .refl
  | union =>
    obtain ⟨_, _, hmatch, hpure⟩ := run_bind_ok.1 hrun
    obtain ⟨-, rfl⟩ := run_pure_ok.1 hpure
    exact .emit rfl hmatch
  | intersect | except =>
    obtain ⟨_, _, hdeclare, hrest⟩ := run_bind_ok.1 hrun
    obtain ⟨_, _, hmatch, hpure⟩ := run_bind_ok.1 hrest
    obtain ⟨-, rfl⟩ := run_pure_ok.1 hpure
    exact (Moves.declare hdeclare).trans (Moves.emit rfl hmatch)

theorem Moves.finishSetQuery {orderBy : List SortKey} {skip take : Option Nat}
    {output : List Column} {result table : String} {destination : Destination}
    (hrun : Plan.finishSetQuery orderBy skip take output result destination st = .ok table st') :
    Moves qs st st' := by
  unfold Plan.finishSetQuery at hrun
  split at hrun
  · obtain ⟨_, _, htable, hrest⟩ := run_bind_ok.1 hrun
    obtain ⟨_, _, hemit, hpure⟩ := run_bind_ok.1 hrest
    obtain ⟨-, rfl⟩ := run_pure_ok.1 hpure
    exact (Moves.destination htable).trans (Moves.emit rfl hemit)
  · obtain ⟨-, rfl⟩ := run_pure_ok.1 hrun
    exact .refl

theorem Moves.enterQuery {context : String} {x : Unit}
    (hrun : Plan.enterQuery context st = .ok x st') : Moves qs st st' := by
  rw [enterQuery_run] at hrun
  split at hrun
  · cases hrun
  · cases hrun
    exact .single (.depth st _)

theorem Moves.exitQuery {x : Unit} (hrun : Plan.exitQuery st = .ok x st') : Moves qs st st' := by
  obtain rfl := run_modify_ok.1 hrun
  exact .single (.depth st _)

theorem run_setTableAttribute_ok {scope : Nat} {table : String} {x : Unit}
    (hrun : setTableAttribute scope table st = .ok x st') :
    ∃ scopes, st.scopes.setAttribute scope tableAttribute table = .ok scopes ∧
      st' = ⟨scopes, st.draft⟩ := by
  obtain ⟨_, _, hget, hrest⟩ := run_bind_ok.1 hrun
  obtain ⟨rfl, rfl⟩ := run_get_ok.1 hget
  obtain ⟨scopes, _, hlift, hset⟩ := run_bind_ok.1 hrest
  obtain ⟨hscopes, rfl⟩ := run_liftExcept_ok.1 hlift
  obtain rfl := run_set_ok.1 hset
  cases hattribute : st.scopes.setAttribute scope tableAttribute table with
  | ok scopes' =>
    rw [hattribute] at hscopes
    cases hscopes
    exact ⟨scopes, rfl, rfl⟩
  | error e =>
    rw [hattribute] at hscopes
    cases hscopes

theorem Moves.setTableAttribute {scope : Nat} {table : String} {x : Unit}
    (hrun : Plan.setTableAttribute scope table st = .ok x st') : Moves qs st st' := by
  obtain ⟨scopes, hattribute, rfl⟩ := run_setTableAttribute_ok hrun
  exact .single (.note st hattribute)

/-- The only node of a join that does not declare its table fills it. -/
theorem run_joinRelations_ok {scope : Nat} {a : String} {kind : LoopKind}
    {condition : Option Term} {needs : ColumnNeeds} {outer : Option Relation}
    {left right r : Relation} :
    joinRelations scope a kind condition needs outer left right st = .ok r st' ↔
      ∃ sources predicate,
        trimmedColumns st.scopes scope (left.leaves ++ right.leaves) needs = .ok sources ∧
        condition.mapM (relocate ([left, right] ++ outer.toList)) = .ok predicate ∧
        r = .transition a (st.draft.tableName "join") (left.leaves ++ right.leaves) ∧
        st' = st.joined kind predicate left right sources := by
  simp only [joinRelations, run_bind_ok, run_get_ok, run_liftExcept_ok, run_declare_ok, run_emit_ok,
    run_pure_ok]
  constructor
  · rintro ⟨_, _, ⟨rfl, rfl⟩, sources, _, ⟨hsources, rfl⟩, predicate, _, ⟨hpredicate, rfl⟩, _, _,
      ⟨rfl, rfl⟩, _, _, rfl, rfl, rfl⟩
    exact ⟨sources, predicate, hsources, hpredicate, rfl, rfl⟩
  · rintro ⟨sources, predicate, hsources, hpredicate, rfl, rfl⟩
    exact ⟨_, _, ⟨rfl, rfl⟩, sources, _, ⟨hsources, rfl⟩, predicate, _, ⟨hpredicate, rfl⟩, _, _,
      ⟨rfl, rfl⟩, ⟨⟩, _, rfl, rfl, rfl⟩

/-- A grouped block declares its groups, fills them, and reads them into its destination. -/
theorem run_planGrouped_ok {b : BoundSelect} {orderBy : List SortKey} {skip take : Option Nat}
    {output : List Column} {relation : Relation} {calls : List RefreshCall}
    {destination : Destination} {table : String}
    (hrun : planGrouped b orderBy skip take output relation calls destination st = .ok table st') :
    ∃ step select having order st₁,
      aggregateStep b orderBy relation calls (st.draft.tableName "group") = .ok step ∧
      b.fields.mapM (fun f => regroup (groupKeys b) (st.draft.tableName "group") f.term) =
        .ok select ∧
      b.having.mapM (regroup (groupKeys b) (st.draft.tableName "group")) = .ok having ∧
      regroupOrder (groupKeys b) (st.draft.tableName "group") orderBy = .ok order ∧
      destination.table "score" output ⟨st.scopes, (st.declared "group" (groupColumns (groupKeys b)
        (distinctAggregates (groupOutputs b orderBy))) true).draft.emit (.aggregate step)⟩ =
          .ok table st₁ ∧
      st' = ⟨st₁.scopes, st₁.draft.emit (.populate ⟨table,
        .transition b.source.aliasName (st.draft.tableName "group"), having, skip, take, select,
        order⟩)⟩ := by
  obtain ⟨_, _, hdeclare, hrun⟩ := run_bind_ok.1 hrun
  obtain ⟨rfl, rfl⟩ := run_declare_ok.1 hdeclare
  obtain ⟨step, _, hlift, hrun⟩ := run_bind_ok.1 hrun
  obtain ⟨hstep, rfl⟩ := run_liftExcept_ok.1 hlift
  obtain ⟨_, _, hemit, hrun⟩ := run_bind_ok.1 hrun
  obtain rfl := run_emit_ok.1 hemit
  obtain ⟨select, _, hlift, hrun⟩ := run_bind_ok.1 hrun
  obtain ⟨hselect, rfl⟩ := run_liftExcept_ok.1 hlift
  obtain ⟨having, _, hlift, hrun⟩ := run_bind_ok.1 hrun
  obtain ⟨hhaving, rfl⟩ := run_liftExcept_ok.1 hlift
  obtain ⟨order, _, hlift, hrun⟩ := run_bind_ok.1 hrun
  obtain ⟨horder, rfl⟩ := run_liftExcept_ok.1 hlift
  obtain ⟨_, st₁, htable, hrun⟩ := run_bind_ok.1 hrun
  obtain ⟨_, _, hfill, hpure⟩ := run_bind_ok.1 hrun
  obtain rfl := run_emit_ok.1 hfill
  obtain ⟨rfl, rfl⟩ := run_pure_ok.1 hpure
  exact ⟨step, select, having, order, st₁, hstep, hselect, hhaving, horder, htable, rfl⟩

/-- A block without groups reads its relation into its destination. -/
theorem run_planProjection_ok {b : BoundSelect} {orderBy : List SortKey} {skip take : Option Nat}
    {output : List Column} {relation : Relation} {destination : Destination} {table : String}
    (hrun : planProjection b orderBy skip take output relation destination st = .ok table st') :
    ∃ filter select order st₁, b.filter.mapM (relocate [relation]) = .ok filter ∧
      relocateAll [relation] (b.fields.map (·.term)) = .ok select ∧
      relocateOrder [relation] orderBy = .ok order ∧
      destination.table "select" output st = .ok table st₁ ∧
      st' = ⟨st₁.scopes, st₁.draft.emit
        (.populate ⟨table, relation.scan, filter, skip, take, select, order⟩)⟩ := by
  obtain ⟨filter, _, hlift, hrun⟩ := run_bind_ok.1 hrun
  obtain ⟨hfilter, rfl⟩ := run_liftExcept_ok.1 hlift
  obtain ⟨select, _, hlift, hrun⟩ := run_bind_ok.1 hrun
  obtain ⟨hselect, rfl⟩ := run_liftExcept_ok.1 hlift
  obtain ⟨order, _, hlift, hrun⟩ := run_bind_ok.1 hrun
  obtain ⟨horder, rfl⟩ := run_liftExcept_ok.1 hlift
  obtain ⟨_, st₁, htable, hrun⟩ := run_bind_ok.1 hrun
  obtain ⟨_, _, hfill, hpure⟩ := run_bind_ok.1 hrun
  obtain rfl := run_emit_ok.1 hfill
  obtain ⟨rfl, rfl⟩ := run_pure_ok.1 hpure
  exact ⟨filter, select, order, st₁, hfilter, hselect, horder, htable, rfl⟩

theorem Moves.planBlock {q : BoundQuery} {b : BoundSelect} {skip take : Option Nat}
    {output : List Column} {calls : List RefreshCall} {relation : Relation}
    {destination : Destination} {table : String} (hq : q ∈ qs) (hb : q.body = .select b)
    (hcalls : refreshCalls st.scopes b = .ok calls) (hscan : relation.scan.isLoop = false)
    (hrun : planBlock b q.orderBy skip take output calls relation destination st = .ok table st') :
    Moves qs st st' := by
  unfold Plan.planBlock at hrun
  split at hrun
  · obtain ⟨step, _, _, _, st₁, hstep, -, -, -, htable, rfl⟩ := run_planGrouped_ok hrun
    have hdeclare : Moves qs st (st.declared "group" (groupColumns (groupKeys b)
      (distinctAggregates (groupOutputs b q.orderBy))) true) := .single (.declare st _ _ _)
    have hgroup := hdeclare.tail (.group _ hq hb hcalls hstep)
    exact (hgroup.trans (Moves.destination htable)).tail (.plain _ rfl)
  · obtain ⟨filter, select, order, st₁, -, -, -, htable, rfl⟩ := run_planProjection_ok hrun
    exact (Moves.destination htable).tail (.plain _ (by simp [Node.isPlain, hscan]))

/-! ## Queries -/

section Induction

variable (qs : List BoundQuery)

/-- Between two states the bodies of all these queries were planned. -/
def Passes (visited : List BoundQuery) (st st' : State) : Prop :=
  Moves qs st st' ∧ ∀ q ∈ visited, Visits qs q st st'

def MovesQuery (q : BoundQuery) : Prop :=
  ∀ destination st table st', q.queries ⊆ qs → planQuery q destination st = .ok table st' →
    Passes qs q.queries st st'

def MovesCtes (ctes : List BoundCte) : Prop :=
  ∀ st x st', BoundQuery.queriesOfCtes ctes ⊆ qs → planCtes ctes st = .ok x st' →
    Passes qs (BoundQuery.queriesOfCtes ctes) st st'

def MovesBody (body : BoundBody) : Prop :=
  ∀ orderBy skip take output destination st table st', body.queries ⊆ qs →
    (∃ q ∈ qs, q.body = body ∧ q.orderBy = orderBy) →
    planBody orderBy skip take output body destination st = .ok table st' →
    Passes qs body.queries st st'

def MovesSource (src : BoundSource) : Prop :=
  ∀ scope needs outer st r st', src.queries ⊆ qs → planSource scope src needs outer st = .ok r st' →
    r.scan.isLoop = false ∧ Passes qs src.queries st st'

end Induction

namespace Passes

variable {visited visited' : List BoundQuery}

theorem of_moves (h : Moves qs st st') : Passes qs [] st st' := ⟨h, by simp⟩

theorem append (h : Passes qs visited st st₁) (h' : Passes qs visited' st₁ st') :
    Passes qs (visited ++ visited') st st' := by
  refine ⟨h.1.trans h'.1, fun q hq => ?_⟩
  rcases List.mem_append.1 hq with hq | hq
  · exact (h.2 q hq).extend .refl h'.1
  · exact (h'.2 q hq).extend h.1 .refl

theorem before (h : Passes qs visited st₁ st') (hmoves : Moves qs st st₁) :
    Passes qs visited st st' :=
  (of_moves hmoves).append h

theorem after (h : Passes qs visited st st₁) (hmoves : Moves qs st₁ st') :
    Passes qs visited st st' := by
  simpa using h.append (of_moves hmoves)

end Passes

/-- A leaf was planned: the scan that reads it, and the state after it. -/
inductive LeafRun (outer : Option Relation) (st : State) : BoundSource → Scan → State → Prop
  | schema {a schema method : String} {args args' : List Term} {columns : List Column}
      {type : DataType} (hargs : scanArguments outer args = .ok args') :
      LeafRun outer st (.schema a schema method args columns type)
        (.schema a schema method args') st
  | inMemory (a table : String) (origin : MemoryOrigin) (columns : List Column) :
      LeafRun outer st (.inMemory a table origin columns) (memoryScan a table origin) st
  | subquery {a table : String} {query : BoundQuery} {columns : List Column} {st' : State}
      (hquery : planQuery query .fresh st = .ok table st') :
      LeafRun outer st (.subquery a query columns) (.transition a table) st'

theorem exists_leafRun {scope : Nat} {src : BoundSource} {needs : ColumnNeeds}
    {outer : Option Relation} {r : Relation} (hleaf : src.isLeaf = true)
    (hrun : planSource scope src needs outer st = .ok r st') :
    ∃ scan, LeafRun outer st src scan st' ∧ r = .leaf src.aliasName scan := by
  cases src with
  | schema =>
    simp only [planSource] at hrun
    obtain ⟨_, _, hlift, hpure⟩ := run_bind_ok.1 hrun
    obtain ⟨hargs, rfl⟩ := run_liftExcept_ok.1 hlift
    obtain ⟨rfl, rfl⟩ := run_pure_ok.1 hpure
    exact ⟨_, .schema hargs, rfl⟩
  | inMemory =>
    simp only [planSource] at hrun
    obtain ⟨rfl, rfl⟩ := run_pure_ok.1 hrun
    exact ⟨_, .inMemory .., rfl⟩
  | subquery =>
    simp only [planSource] at hrun
    obtain ⟨_, _, hquery, hpure⟩ := run_bind_ok.1 hrun
    obtain ⟨rfl, rfl⟩ := run_pure_ok.1 hpure
    exact ⟨_, .subquery hquery, rfl⟩
  | join | apply => cases hleaf

theorem movesSource_schema (a schema method : String) (args : List Term) (columns : List Column)
    (type : DataType) : MovesSource qs (.schema a schema method args columns type) := by
  intro scope needs outer st r st' _ hrun
  obtain ⟨_, ⟨⟩, rfl⟩ := exists_leafRun rfl hrun
  simp only [BoundSource.queries]
  exact ⟨rfl, .of_moves .refl⟩

theorem movesSource_inMemory (a table : String) (origin : MemoryOrigin) (columns : List Column) :
    MovesSource qs (.inMemory a table origin columns) := by
  intro scope needs outer st r st' _ hrun
  obtain ⟨_, ⟨⟩, rfl⟩ := exists_leafRun rfl hrun
  simp only [BoundSource.queries]
  refine ⟨?_, .of_moves .refl⟩
  cases origin <;> rfl

theorem movesSource_subquery {a : String} {q : BoundQuery} {columns : List Column}
    (hq : MovesQuery qs q) : MovesSource qs (.subquery a q columns) := by
  intro scope needs outer st r st' hqs hrun
  obtain ⟨_, _ | _ | hquery, rfl⟩ := exists_leafRun rfl hrun
  simp only [BoundSource.queries] at hqs ⊢
  exact ⟨rfl, hq _ _ _ _ hqs hquery⟩

theorem Moves.joinRelations {scope : Nat} {a : String} {kind : LoopKind}
    {condition : Option Term} {needs : ColumnNeeds} {outer : Option Relation}
    {left right r : Relation}
    (hrun : Plan.joinRelations scope a kind condition needs outer left right st = .ok r st') :
    r.scan.isLoop = false ∧ Moves qs st st' := by
  obtain ⟨sources, predicate, -, -, rfl, rfl⟩ := run_joinRelations_ok.1 hrun
  exact ⟨rfl, .single (.join st kind predicate left right sources)⟩

theorem movesSource_join {a : String} {kind : JoinKind} {left right : BoundSource}
    {condition : Term} (hl : MovesSource qs left) (hr : MovesSource qs right) :
    MovesSource qs (.join a kind left right condition) := by
  intro scope needs outer st r st' hqs hrun
  simp only [BoundSource.queries, List.append_subset] at hqs ⊢
  simp only [planSource] at hrun
  obtain ⟨_, _, hleft, hrun⟩ := run_bind_ok.1 hrun
  obtain ⟨_, _, hright, hjoin⟩ := run_bind_ok.1 hrun
  obtain ⟨hscan, hmoves⟩ := Moves.joinRelations hjoin
  exact ⟨hscan, ((hl _ _ _ _ _ _ hqs.1 hleft).2.append (hr _ _ _ _ _ _ hqs.2 hright).2).after
    hmoves⟩

theorem movesSource_apply {a : String} {kind : ApplyKind} {left right : BoundSource}
    (hl : MovesSource qs left) (hr : MovesSource qs right) :
    MovesSource qs (.apply a kind left right) := by
  intro scope needs outer st r st' hqs hrun
  simp only [BoundSource.queries, List.append_subset] at hqs ⊢
  simp only [planSource] at hrun
  obtain ⟨_, _, hleft, hrun⟩ := run_bind_ok.1 hrun
  obtain ⟨_, _, hright, hjoin⟩ := run_bind_ok.1 hrun
  obtain ⟨hscan, hmoves⟩ := Moves.joinRelations hjoin
  exact ⟨hscan, ((hl _ _ _ _ _ _ hqs.1 hleft).2.append (hr _ _ _ _ _ _ hqs.2 hright).2).after
    hmoves⟩

theorem movesBody_select {b : BoundSelect} (hsource : MovesSource qs b.source) :
    MovesBody qs (.select b) := by
  intro orderBy skip take output destination st table st' hqs hself hrun
  obtain ⟨q, hq, hb, rfl⟩ := hself
  rw [BoundBody.queries_select] at hqs ⊢
  rw [planBody_select] at hrun
  obtain ⟨_, _, hget, hrun⟩ := run_bind_ok.1 hrun
  obtain ⟨rfl, rfl⟩ := run_get_ok.1 hget
  obtain ⟨calls, _, hlift, hrun⟩ := run_bind_ok.1 hrun
  obtain ⟨hcalls, rfl⟩ := run_liftExcept_ok.1 hlift
  obtain ⟨relation, _, hplan, hrun⟩ := run_bind_ok.1 hrun
  obtain ⟨hscan, hpasses⟩ := hsource _ _ _ _ _ _ hqs hplan
  exact hpasses.after (.planBlock hq hb ((hpasses.1.scopes.refreshCalls b).trans hcalls) hscan
    hrun)

theorem movesBody_setOperation {operator : SetOperator} {keys : List String}
    {left right : BoundQuery} (hl : MovesQuery qs left) (hr : MovesQuery qs right) :
    MovesBody qs (.setOperation operator keys left right) := by
  intro orderBy skip take output destination st table st' hqs _ hrun
  rw [BoundBody.queries_setOperation] at hqs ⊢
  rw [List.append_subset] at hqs
  simp only [planBody] at hrun
  obtain ⟨_, _, hleft, hrun⟩ := run_bind_ok.1 hrun
  obtain ⟨_, _, htable, hrun⟩ := run_bind_ok.1 hrun
  obtain ⟨_, _, hright, hrun⟩ := run_bind_ok.1 hrun
  obtain ⟨_, _, hcombine, hfinish⟩ := run_bind_ok.1 hrun
  have hboth := (hl _ _ _ _ hqs.1 hleft).append
    ((hr _ _ _ _ hqs.2 hright).before (Moves.rightTable htable))
  exact (hboth.after (Moves.combineTables hcombine)).after (Moves.finishSetQuery hfinish)

theorem movesQuery_mk {scope : Nat} {ctes : List BoundCte} {body : BoundBody}
    {orderBy : List SortKey} {skip take : Option Nat} {output : List Column}
    (hctes : MovesCtes qs ctes) (hbody : MovesBody qs body) :
    MovesQuery qs ⟨scope, ctes, body, orderBy, skip, take, output⟩ := by
  intro destination st table st' hqs hrun
  have hall := hqs
  rw [BoundQuery.queries_eq] at hqs ⊢
  rw [List.cons_subset, List.append_subset] at hqs
  obtain ⟨hself, hqsc, hqsb⟩ := hqs
  simp only [planQuery] at hrun
  obtain ⟨_, _, henter, hrun⟩ := run_bind_ok.1 hrun
  obtain ⟨_, _, hplanCtes, hrun⟩ := run_bind_ok.1 hrun
  obtain ⟨_, _, hplanBody, hrun⟩ := run_bind_ok.1 hrun
  obtain ⟨_, _, hexit, hrun⟩ := run_bind_ok.1 hrun
  obtain ⟨_, _, hset, hpure⟩ := run_bind_ok.1 hrun
  obtain ⟨rfl, rfl⟩ := run_pure_ok.1 hpure
  have hpre := (hctes _ _ _ hqsc hplanCtes).before (Moves.enterQuery henter)
  have hpost : Moves qs _ _ := (Moves.exitQuery hexit).trans (Moves.setTableAttribute hset)
  have hinner := hbody _ _ _ _ _ _ _ _ hqsb ⟨_, hself, rfl, rfl⟩ hplanBody
  have hnested := (hpre.append hinner).after hpost
  refine ⟨hnested.1, fun q hq => ?_⟩
  rcases List.mem_cons.1 hq with rfl | hq
  · exact ⟨hall, _, _, _, destination, hpre.1, hplanBody, hpost⟩
  · exact hnested.2 q hq

theorem movesCtes_nil : MovesCtes qs [] := by
  intro st x st' _ hrun
  simp only [planCtes] at hrun
  obtain ⟨-, rfl⟩ := run_pure_ok.1 hrun
  exact .of_moves .refl

theorem movesCtes_cons {name : String} {q : BoundQuery} {rest : List BoundCte}
    (hq : MovesQuery qs q) (hrest : MovesCtes qs rest) : MovesCtes qs (⟨name, q⟩ :: rest) := by
  intro st x st' hqs hrun
  simp only [BoundQuery.queriesOfCtes, List.append_subset] at hqs ⊢
  simp only [planCtes] at hrun
  obtain ⟨_, _, hquery, hrun⟩ := run_bind_ok.1 hrun
  obtain ⟨_, _, hemit, hrun⟩ := run_bind_ok.1 hrun
  exact (hq _ _ _ _ hqs.1 hquery).append
    ((hrest _ _ _ hqs.2 hrun).before (Moves.emit rfl hemit))

mutual

theorem planQuery_moves : ∀ q : BoundQuery, MovesQuery qs q
  | ⟨_, ctes, body, _, _, _, _⟩ => movesQuery_mk (planCtes_moves ctes) (planBody_moves body)

theorem planCtes_moves : ∀ ctes : List BoundCte, MovesCtes qs ctes
  | [] => movesCtes_nil
  | ⟨_, query⟩ :: rest => movesCtes_cons (planQuery_moves query) (planCtes_moves rest)

theorem planBody_moves : ∀ body : BoundBody, MovesBody qs body
  | .select ⟨_, source, _, _, _, _, _⟩ => movesBody_select (planSource_moves source)
  | .setOperation _ _ left right =>
    movesBody_setOperation (planQuery_moves left) (planQuery_moves right)

theorem planSource_moves : ∀ src : BoundSource, MovesSource qs src
  | .schema a schema method args columns type =>
    movesSource_schema a schema method args columns type
  | .inMemory a table origin columns => movesSource_inMemory a table origin columns
  | .subquery _ query _ => movesSource_subquery (planQuery_moves query)
  | .join _ _ left right _ => movesSource_join (planSource_moves left) (planSource_moves right)
  | .apply _ _ left right => movesSource_apply (planSource_moves left) (planSource_moves right)

end

/-- A plan is made by moves from the empty draft, and the body of every query is planned. -/
theorem ofQuery_passes {config : PlanConfig} {scopes scopes' : Scopes} {q : BoundQuery}
    {plan : Plan} (h : ofQuery config scopes q = .ok (plan, scopes')) :
    ∃ st, Passes q.queries q.queries ⟨scopes, .empty config⟩ st ∧ plan.nodes = st.draft.nodes ∧
      scopes' = st.scopes := by
  unfold ofQuery at h
  cases hrun : (planQuery q .fresh).run ⟨scopes, .empty config⟩ with
  | ok table st =>
    rw [hrun] at h
    cases h
    exact ⟨st, planQuery_moves q _ _ _ _ (List.Subset.refl _) hrun, rfl, rfl⟩
  | error e st =>
    rw [hrun] at h
    cases h

/-- A query whose plan passes a check, found by evaluation. -/
theorem exists_plan_of_check (env : Resolve.Env) (config : PlanConfig) (q : Query)
    (P : Resolve.Analysis → Plan → Bool)
    (h : ((Resolve.analyze env q).1.toOption.any fun a =>
      (ofQuery config a.scopes a.query).toOption.any fun result => P a result.1) = true) :
    ∃ a requests plan scopes, Resolve.analyze env q = (.ok a, requests) ∧
      ofQuery config a.scopes a.query = .ok (plan, scopes) ∧ P a plan = true := by
  obtain ⟨a, requests, ha, hcheck⟩ := exists_ok_of_check _ _ h
  cases hplan : ofQuery config a.scopes a.query with
  | error e =>
    rw [hplan] at hcheck
    cases hcheck
  | ok result =>
    rw [hplan, Except.toOption, Option.any_some] at hcheck
    exact ⟨a, requests, result.1, result.2, ha, hplan, hcheck⟩

end SchemaQuery.Plan
