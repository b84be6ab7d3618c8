-- SUMMARY: A scan of a common table expression reads the table of the expression that resolution found.
import SchemaQuery.Proofs.Plan.Complete
import SchemaQuery.Proofs.Resolve.CteScopes

/-!
# Scans of common table expressions

A plan has one flat space of names. A common table expression is renamed to its
name when its query was planned, and a later expression takes the name over. The
names and scans in the nodes of a plan match the declarations and reads of the
query one by one (`planQuery_shows`). Since resolution finds the expression that was
declared last, a scan reads the table that resolution meant (`ofQuery_scansChosen`),
except where resolution has taken an alias for an expression.
-/

namespace SchemaQuery.Plan

/-! ## Names in nodes -/

/-- What nodes do with the name of a common table expression. -/
inductive NameEvent where
  /-- A table is given the name. -/
  | names (table : String)
  /-- The table of that name is scanned under an alias. -/
  | scans (aliasName : String)
deriving DecidableEq

def Scan.nameEvents (name : String) (scan : Scan) : List NameEvent :=
  (scan.tables.filter (·.2 = name)).map fun x => .scans x.1

def Node.nameEvents (name : String) : Node → List NameEvent
  | .rename table target => if target = name then [.names table] else []
  | .populate step => step.source.nameEvents name
  | .aggregate step => step.source.nameEvents name
  | .create .. | .setMatch .. => []

def nameEvents (name : String) (ns : List Node) : List NameEvent :=
  ns.flatMap (Node.nameEvents name)

/-- The aliases of scans, each with the table that has the name at that time. -/
def scansWithTable : Option String → List NameEvent → List (String × Option String)
  | _, [] => []
  | _, .names table :: es => scansWithTable (some table) es
  | latest, .scans a :: es => (a, latest) :: scansWithTable latest es

/-- The scans of a name in some nodes, in order: the alias, and the table that was given the name
    last. -/
def namedScans (name : String) (ns : List Node) : List (String × Option String) :=
  scansWithTable none (nameEvents name ns)

section Events

variable {name : String}

theorem nameEvents_append (ns ns' : List Node) :
    nameEvents name (ns ++ ns') = nameEvents name ns ++ nameEvents name ns' :=
  List.flatMap_append

theorem Scan.nameEvents_loop (kind : LoopKind) (left right : Scan) (predicate : Option Term)
    (padding : Option Padding) : (loop kind left right predicate padding).nameEvents name =
      left.nameEvents name ++ right.nameEvents name := by
  simp [nameEvents, tables]

/-- A numbered table is no expression. -/
theorem nameEvents_transition {st : State} {table : String} (hold : st.IsOld table)
    (hname : ¬ IsReserved st.draft.config name) (a : String) :
    (Scan.transition a table).nameEvents name = [] := by
  have hne : table ≠ name := by
    rintro rfl
    obtain ⟨k, role, -, rfl⟩ := hold
    exact hname (isReserved_numberedTable _ _ _)
  simp [Scan.nameEvents, Scan.tables, hne]

end Events

/-! ## Matching events -/

/-- The name goes to the table of the declared query, and the scan has the alias of the source. -/
def Matches (st : State) : CteEvent → NameEvent → Prop
  | .declares _ c, .names table =>
    st.scopes.attribute? c.scope tableAttribute = some table ∧
      .create table c.output false ∈ st.draft.nodes
  | .reads u, .scans a => a = u.aliasName
  | .declares .., .scans _ | .reads _, .names _ => False

/-- Between two states queries with the given scopes were planned, and nodes were emitted that match
    the events of a name. -/
structure Shows (name : String) (planned : List Nat) (es : List CteEvent) (st st' : State) :
    Prop where
  nodes : ∃ ns, st'.draft.nodes = st.draft.nodes ++ ns ∧
    List.Forall₂ (Matches st') es (nameEvents name ns)
  noted : ∀ i, i ∉ planned →
    st'.scopes.attribute? i tableAttribute = st.scopes.attribute? i tableAttribute
  declared : ∀ d c, .declares d c ∈ es → c.scope ∈ planned

variable {name : String} {planned planned' : List Nat} {es es' : List CteEvent}
  {us : List CteUse} {st st₁ st' : State} {table : String}

/-- Events still match after other queries were planned. -/
theorem matches_later {ms : List NameEvent} (h : List.Forall₂ (Matches st) es ms)
    (hnodes : st.draft.nodes ⊆ st'.draft.nodes)
    (hnoted : ∀ d c, .declares d c ∈ es → st'.scopes.attribute? c.scope tableAttribute =
      st.scopes.attribute? c.scope tableAttribute) : List.Forall₂ (Matches st') es ms := by
  induction h with
  | nil => exact .nil
  | @cons e m es ms hmatch _ ih =>
    refine .cons ?_ (ih fun d c hmem => hnoted d c (List.mem_cons_of_mem _ hmem))
    cases e with
    | declares d c =>
      cases m with
      | names table => exact ⟨(hnoted d c List.mem_cons_self).trans hmatch.1, hnodes hmatch.2⟩
      | scans a => exact hmatch
    | reads u => cases m <;> exact hmatch

theorem matches_reads (us : List CteUse) :
    List.Forall₂ (Matches st) (us.map .reads) (us.map fun u => .scans u.aliasName) := by
  induction us with
  | nil => exact .nil
  | cons u us ih => exact .cons rfl ih

namespace Shows

theorem widen (h : Shows name planned es st st') (hle : planned ⊆ planned') :
    Shows name planned' es st st' :=
  ⟨h.nodes, fun i hi => h.noted i fun hmem => hi (hle hmem),
    fun d c hmem => hle (h.declared d c hmem)⟩

theorem followedBy (h : Shows name planned es st st₁) (h' : Shows name planned' es' st₁ st')
    (hsame : ∀ i ∈ planned, st'.scopes.attribute? i tableAttribute =
      st₁.scopes.attribute? i tableAttribute) :
    Shows name (planned ++ planned') (es ++ es') st st' where
  nodes := by
    obtain ⟨ns, hns, hmatch⟩ := h.nodes
    obtain ⟨ns', hns', hmatch'⟩ := h'.nodes
    refine ⟨ns ++ ns', by rw [hns', hns, List.append_assoc], ?_⟩
    rw [nameEvents_append]
    exact List.rel_append (matches_later hmatch (subset_of_appended h'.nodes) fun d c hmem =>
      hsame c.scope (h.declared d c hmem)) hmatch'
  noted := by
    intro i hi
    rw [List.mem_append, not_or] at hi
    exact (h'.noted i hi.2).trans (h.noted i hi.1)
  declared := by
    intro d c hmem
    rw [List.mem_append] at hmem ⊢
    exact hmem.imp (h.declared d c) (h'.declared d c)

theorem append (h : Shows name planned es st st₁) (h' : Shows name planned' es' st₁ st')
    (hother : planned.Disjoint planned') :
    Shows name (planned ++ planned') (es ++ es') st st' :=
  h.followedBy h' fun _ hi => h'.noted _ (hother hi)

/-- Planning that leaves the attributes as they are. -/
theorem after (h : Shows name planned es st st₁) (h' : Shows name [] es' st₁ st') :
    Shows name planned (es ++ es') st st' := by
  simpa using h.append h' (List.disjoint_nil_right _)

theorem quietly (h : Shows name planned es st st₁) (h' : Shows name [] [] st₁ st') :
    Shows name planned es st st' := by
  simpa using h.after h'

theorem before (h : Shows name planned es st₁ st') (hpre : Shows name [] [] st st₁) :
    Shows name planned es st st' := hpre.append h (List.disjoint_nil_left _)

/-- Nodes that scan the sources which are expressions of the name. -/
theorem steps {ns : List Node} (hscopes : st'.scopes = st.scopes)
    (hnodes : st'.draft.nodes = st.draft.nodes ++ ns)
    (hevents : nameEvents name ns = us.map fun u => .scans u.aliasName) :
    Shows name [] (us.map .reads) st st' where
  nodes := ⟨ns, hnodes, hevents ▸ matches_reads us⟩
  noted := fun _ _ => by rw [hscopes]
  declared := fun d c hmem => absurd hmem (quiet_reads us d c)

theorem quiet {ns : List Node} (hscopes : st'.scopes = st.scopes)
    (hnodes : st'.draft.nodes = st.draft.nodes ++ ns) (hevents : nameEvents name ns = []) :
    Shows name [] [] st st' :=
  @steps _ [] _ _ _ hscopes hnodes hevents

theorem same (hscopes : st'.scopes = st.scopes) (hnodes : st'.draft.nodes = st.draft.nodes) :
    Shows name [] [] st st' :=
  .quiet hscopes (hnodes.trans (List.append_nil _).symm) rfl

theorem declare {role : String} {columns : List Column} {forGrouping : Bool}
    (hrun : Plan.declare role columns forGrouping st = .ok table st') :
    Shows name [] [] st st' ∧ .create table columns forGrouping ∈ st'.draft.nodes := by
  obtain ⟨rfl, rfl⟩ := run_declare_ok.1 hrun
  exact ⟨.quiet rfl rfl rfl, List.mem_append_right _ (List.mem_singleton_self _)⟩

theorem destination {destination : Destination} {role : String} {columns : List Column}
    (hrun : destination.table role columns st = .ok table st') :
    Shows name [] [] st st' ∧
      (destination = .fresh → .create table columns false ∈ st'.draft.nodes) := by
  cases destination with
  | fresh => exact (declare hrun).imp_right fun h _ => h
  | existing t =>
    obtain ⟨rfl, rfl⟩ := run_pure_ok.1 hrun
    exact ⟨.same rfl rfl, nofun⟩

theorem emit {n : Node} (hrun : Plan.emit n st = .ok () st')
    (hevents : n.nameEvents name = us.map fun u => .scans u.aliasName) :
    Shows name [] (us.map .reads) st st' := by
  obtain rfl := run_emit_ok.1 hrun
  exact .steps rfl rfl (by simpa [Plan.nameEvents] using hevents)

theorem emitQuiet {n : Node} (hrun : Plan.emit n st = .ok () st')
    (hevents : n.nameEvents name = []) : Shows name [] [] st st' :=
  @emit _ [] _ _ n hrun hevents

/-- The table of a destination is filled. -/
theorem fill {destination : Destination} {role : String} {columns : List Column} {n : Node}
    (htable : destination.table role columns st = .ok table st₁)
    (hrun : Plan.emit n st₁ = .ok () st')
    (hevents : n.nameEvents name = us.map fun u => .scans u.aliasName) :
    Shows name [] (us.map .reads) st st' ∧
      (destination = .fresh → .create table columns false ∈ st'.draft.nodes) := by
  obtain ⟨hshows, hcreate⟩ := Shows.destination htable
  have hfill := Shows.emit hrun hevents
  exact ⟨hfill.before hshows, fun h => subset_of_appended hfill.nodes (hcreate h)⟩

theorem enterQuery {context : String} {x : Unit} (hrun : Plan.enterQuery context st = .ok x st') :
    Shows name [] [] st st' := by
  rw [enterQuery_run] at hrun
  split at hrun <;> cases hrun
  exact .same rfl rfl

theorem exitQuery {x : Unit} (hrun : Plan.exitQuery st = .ok x st') :
    Shows name [] [] st st' := by
  obtain rfl := run_modify_ok.1 hrun
  exact .same rfl rfl

end Shows

theorem Shows.setTableAttribute {scope : Nat} {x : Unit}
    (hrun : Plan.setTableAttribute scope table st = .ok x st') :
    Shows name [scope] [] st st' ∧ st'.scopes.attribute? scope tableAttribute = some table := by
  obtain ⟨scopes, hset, rfl⟩ := run_setTableAttribute_ok hrun
  have hattribute := attribute?_setAttribute hset
  refine ⟨⟨⟨[], (List.append_nil _).symm, .nil⟩, fun i hi => ?_,
    fun d c h => absurd h List.not_mem_nil⟩, ?_⟩
  · rw [hattribute, if_neg fun he => hi (List.mem_singleton.2 he)]
  · rw [hattribute, if_pos rfl]

/-! ## The induction -/

-- The statements of the induction, one for each kind of node.

section Cases

variable (name)

def ShowsQuery (q : BoundQuery) : Prop :=
  ∀ {destination : Destination} {st st' : State} {table : String},
    ¬ IsReserved st.draft.config name → (q.queries.map (·.scope)).Nodup →
    (∀ q' ∈ q.queries, q'.Formed) → planQuery q destination st = .ok table st' →
    Shows name (q.queries.map (·.scope)) (q.cteEvents name) st st' ∧
      st'.scopes.attribute? q.scope tableAttribute = some table ∧
      (destination = .fresh → .create table q.output false ∈ st'.draft.nodes)

def ShowsCtes (ctes : List BoundCte) : Prop :=
  ∀ {scope : Nat} {st st' : State} {x : Unit}, ¬ IsReserved st.draft.config name →
    ((BoundQuery.queriesOfCtes ctes).map (·.scope)).Nodup →
    (∀ q' ∈ BoundQuery.queriesOfCtes ctes, q'.Formed) → planCtes ctes st = .ok x st' →
    Shows name ((BoundQuery.queriesOfCtes ctes).map (·.scope))
      (BoundQuery.eventsOfCtes name scope ctes) st st'

def ShowsBody (body : BoundBody) : Prop :=
  ∀ {scope : Nat} {orderBy : List SortKey} {skip take : Option Nat} {output : List Column}
    {destination : Destination} {st st' : State} {table : String},
    ¬ IsReserved st.draft.config name → (body.queries.map (·.scope)).Nodup →
    (∀ q' ∈ body.queries, q'.Formed) → body.Gives orderBy output →
    planBody orderBy skip take output body destination st = .ok table st' →
    Shows name (body.queries.map (·.scope)) (body.cteEvents name scope) st st' ∧
      (destination = .fresh → .create table output false ∈ st'.draft.nodes)

/-- What the relation of a source scans under the name is the source itself. -/
def ShowsSource (src : BoundSource) : Prop :=
  ∀ {scope blockScope : Nat} {needs : ColumnNeeds} {outer : Option Relation} {st st' : State}
    {r : Relation}, ¬ IsReserved st.draft.config name → (src.queries.map (·.scope)).Nodup →
    (∀ q' ∈ src.queries, q'.Formed) → planSource blockScope src needs outer st = .ok r st' →
    Shows name (src.queries.map (·.scope)) (src.cteEvents name scope) st st' ∧
      r.scan.nameEvents name = (src.cteUses name scope).map fun u => .scans u.aliasName

end Cases

/-! ## Sources -/

theorem showsSource_schema (a schema method : String) (args : List Term) (columns : List Column)
    (type : DataType) : ShowsSource name (.schema a schema method args columns type) := by
  intro scope blockScope needs outer st st' r _ _ _ hrun
  obtain ⟨_, ⟨⟩, rfl⟩ := exists_leafRun rfl hrun
  rw [BoundSource.queries, BoundSource.cteEvents]
  exact ⟨.same rfl rfl, rfl⟩

theorem showsSource_inMemory (a table : String) (origin : MemoryOrigin) (columns : List Column) :
    ShowsSource name (.inMemory a table origin columns) := by
  intro scope blockScope needs outer st st' r _ _ _ hrun
  obtain ⟨_, ⟨⟩, rfl⟩ := exists_leafRun rfl hrun
  rw [BoundSource.queries, BoundSource.cteEvents]
  refine ⟨.same rfl rfl, ?_⟩
  cases origin with
  | host => rfl
  | cte =>
    by_cases htable : table = name <;>
      simp [Relation.leaf, memoryScan, Scan.nameEvents, Scan.tables, BoundSource.cteUses, htable]

theorem showsSource_subquery {a : String} {q : BoundQuery} {columns : List Column}
    (hq : ShowsQuery name q) : ShowsSource name (.subquery a q columns) := by
  intro scope blockScope needs outer st st' r hname hscopes hformed hrun
  rw [BoundSource.queries] at hscopes hformed
  obtain ⟨_, _ | _ | hquery, rfl⟩ := exists_leafRun rfl hrun
  obtain ⟨hshows, -⟩ := hq hname hscopes hformed hquery
  obtain ⟨hfills, hcreated⟩ : Fills [] st _ ∧ Created st _ _ := planQuery_fills q hquery
  rw [BoundSource.queries, BoundSource.cteEvents]
  exact ⟨hshows, nameEvents_transition hcreated.2 (hfills.config ▸ hname) a⟩

theorem cteEvents_pair (name : String) {src : BoundSource} {p : Pair} (hp : src.pair? = some p)
    (scope : Nat) :
    src.cteUses name scope = [] ∧
    src.cteEvents name scope = p.left.cteEvents name scope ++ (p.right.cteEvents name scope ++
      (p.left.cteUses name scope ++ p.right.cteUses name scope).map .reads) := by
  cases src with
  | join | apply =>
    cases hp
    rw [BoundSource.cteEvents]
    exact ⟨rfl, rfl⟩
  | _ => cases hp

theorem showsSource_pair {src : BoundSource} {p : Pair} (hp : src.pair? = some p)
    (hl : ShowsSource name p.left) (hr : ShowsSource name p.right) : ShowsSource name src := by
  intro scope blockScope needs outer st st' r hname hscopes hformed hrun
  rw [queries_pair hp, List.map_append] at hscopes
  rw [queries_pair hp, List.forall_mem_append] at hformed
  obtain ⟨st₁, st₂, lr, rr, sources, ⟨hleft, hright, -, rfl⟩, rfl⟩ := exists_pairRun hp hrun
  have hfl := planSource_fills _ hleft
  have hfr := planSource_fills _ hright
  obtain ⟨hdistinctl, hdistinctr, hdisjoint⟩ := List.nodup_append'.1 hscopes
  obtain ⟨hsl, hscansl⟩ := @hl scope _ _ _ _ _ _ hname hdistinctl hformed.1 hleft
  obtain ⟨hsr, hscansr⟩ :=
    @hr scope _ _ _ _ _ _ (hfl.config ▸ hname) hdistinctr hformed.2 hright
  obtain ⟨huses, hevents⟩ := cteEvents_pair name hp scope
  obtain ⟨-, hcreated⟩ := Fills.declared st₂ "join" (joinColumns sources) false
  rw [hevents, huses, queries_pair hp, List.map_append, ← List.append_assoc]
  refine ⟨(hsl.append hsr hdisjoint).after (.steps rfl (List.append_assoc _ _ _) ?_), ?_⟩
  · simp [nameEvents, Node.nameEvents, joinStep, Scan.nameEvents_loop, hscansl, hscansr]
  · exact nameEvents_transition hcreated.2 ((hfr.config.trans hfl.config).symm ▸ hname) _

/-! ## Blocks -/

section Block

variable {b : BoundSelect} {calls : List RefreshCall} {r : Relation} {destination : Destination}
  {orderBy : List SortKey} {skip take : Option Nat} {output : List Column}

theorem Shows.planProjection
    (hscans : r.scan.nameEvents name = us.map fun u => .scans u.aliasName)
    (hrun : Plan.planProjection b orderBy skip take output r destination st = .ok table st') :
    Shows name [] (us.map .reads) st st' ∧
      (destination = .fresh → .create table output false ∈ st'.draft.nodes) := by
  obtain ⟨filter, select, order, st₁, -, -, -, htable, rfl⟩ := run_planProjection_ok hrun
  exact Shows.fill htable (run_emit_ok.2 rfl) hscans

/-- A grouped block scans its source once, to group its rows. -/
theorem Shows.planGrouped (hname : ¬ IsReserved st.draft.config name)
    (hscans : r.scan.nameEvents name = us.map fun u => .scans u.aliasName)
    (hrun : Plan.planGrouped b orderBy skip take output r calls destination st = .ok table st') :
    Shows name [] (us.map .reads) st st' ∧
      (destination = .fresh → .create table output false ∈ st'.draft.nodes) := by
  obtain ⟨step, select, having, order, st₁, hstep, -, -, -, htable, rfl⟩ := run_planGrouped_ok hrun
  obtain rfl := eq_of_aggregateStep hstep
  obtain ⟨-, hcreated⟩ := Fills.declared st "group" (groupColumns (groupKeys b)
    (distinctAggregates (groupOutputs b orderBy))) true
  have hgroup : Shows name [] (us.map .reads) st ⟨st.scopes, (st.declared "group" (groupColumns
      (groupKeys b) (distinctAggregates (groupOutputs b orderBy))) true).draft.emit
        (.aggregate (groupStep b orderBy r calls (st.draft.tableName "group")))⟩ :=
    .steps rfl (List.append_assoc _ _ _)
      (by simpa [nameEvents, Node.nameEvents, groupStep] using hscans)
  refine And.imp_left hgroup.quietly
    (@Shows.fill name [] _ _ _ _ _ _ _ _ htable (run_emit_ok.2 rfl) ?_)
  exact nameEvents_transition hcreated.2 hname b.source.aliasName

end Block

theorem showsBody_select {b : BoundSelect} (hsource : ShowsSource name b.source) :
    ShowsBody name (.select b) := by
  intro scope orderBy skip take output destination st st' table hname hscopes hformed _ hrun
  rw [BoundBody.queries_select] at hscopes hformed
  rw [planBody_select] at hrun
  obtain ⟨_, _, hget, hrun⟩ := run_bind_ok.1 hrun
  obtain ⟨rfl, rfl⟩ := run_get_ok.1 hget
  obtain ⟨calls, _, hlift, hrun⟩ := run_bind_ok.1 hrun
  obtain ⟨-, rfl⟩ := run_liftExcept_ok.1 hlift
  obtain ⟨r, st₁, hplan, hrun⟩ := run_bind_ok.1 hrun
  have hfills := planSource_fills _ hplan
  obtain ⟨hshows, hscans⟩ := @hsource scope _ _ _ _ _ _ hname hscopes hformed hplan
  rw [BoundBody.queries_select, BoundBody.cteEvents_select]
  unfold planBlock at hrun
  split at hrun
  · exact (Shows.planGrouped (hfills.config ▸ hname) hscans hrun).imp_left hshows.after
  · exact (Shows.planProjection hscans hrun).imp_left hshows.after

/-! ## Set operators -/

section SetOperator

variable {operator : SetOperator} {keys : List String} {columns output : List Column}
  {lt rt : String} {destination : Destination} {orderBy : List SortKey} {skip take : Option Nat}

theorem Shows.rightTable (hrun : Plan.rightTable operator lt columns st = .ok rt st') :
    Shows name [] [] st st' := by
  cases operator with
  | unionAll =>
    obtain ⟨-, rfl⟩ := run_pure_ok.1 hrun
    exact .same rfl rfl
  | union | intersect | except => exact (Shows.declare hrun).1

/-- The table of the result has the columns of the left operand. -/
theorem Shows.combineTables (hleft : .create lt columns false ∈ st.draft.nodes)
    (hrun : Plan.combineTables operator keys columns lt rt st = .ok table st') :
    Shows name [] [] st st' ∧ .create table columns false ∈ st'.draft.nodes := by
  cases operator with
  | unionAll =>
    obtain ⟨rfl, rfl⟩ := run_pure_ok.1 hrun
    exact ⟨.same rfl rfl, hleft⟩
  | union =>
    obtain ⟨_, _, hmatch, hpure⟩ := run_bind_ok.1 hrun
    obtain ⟨rfl, rfl⟩ := run_pure_ok.1 hpure
    have hshows : Shows name [] [] st _ := .emitQuiet hmatch rfl
    exact ⟨hshows, subset_of_appended hshows.nodes hleft⟩
  | intersect | except =>
    obtain ⟨target, _, hdeclare, hrest⟩ := run_bind_ok.1 hrun
    obtain ⟨_, _, hmatch, hpure⟩ := run_bind_ok.1 hrest
    obtain ⟨rfl, rfl⟩ := run_pure_ok.1 hpure
    obtain ⟨hshows, hcreate⟩ := Shows.declare hdeclare
    have hmatched : Shows name [] [] _ _ := .emitQuiet hmatch rfl
    exact ⟨hmatched.before hshows, subset_of_appended hmatched.nodes hcreate⟩

theorem Shows.finishSetQuery (hname : ¬ IsReserved st.draft.config name)
    (hresult : .create lt output false ∈ st.draft.nodes) (hold : st.IsOld lt)
    (hrun : Plan.finishSetQuery orderBy skip take output lt destination st = .ok table st') :
    Shows name [] [] st st' ∧
      (destination = .fresh → .create table output false ∈ st'.draft.nodes) := by
  unfold Plan.finishSetQuery at hrun
  split at hrun
  · obtain ⟨_, _, htable, hrest⟩ := run_bind_ok.1 hrun
    obtain ⟨_, _, hemit, hpure⟩ := run_bind_ok.1 hrest
    obtain ⟨rfl, rfl⟩ := run_pure_ok.1 hpure
    exact @Shows.fill name [] _ _ _ _ _ _ _ _ htable hemit (nameEvents_transition hold hname _)
  · obtain ⟨rfl, rfl⟩ := run_pure_ok.1 hrun
    exact ⟨.same rfl rfl, fun _ => hresult⟩

end SetOperator

theorem showsBody_setOperation {operator : SetOperator} {keys : List String}
    {left right : BoundQuery} (hl : ShowsQuery name left) (hr : ShowsQuery name right) :
    ShowsBody name (.setOperation operator keys left right) := by
  intro scope orderBy skip take output destination st st' table hname hscopes hformed hgives hrun
  rw [BoundBody.queries_setOperation, List.map_append] at hscopes
  rw [BoundBody.queries_setOperation, List.forall_mem_append] at hformed
  obtain rfl : output = left.output := hgives.columns
  simp only [planBody] at hrun
  obtain ⟨lt, st₁, hleft, hrun⟩ := run_bind_ok.1 hrun
  obtain ⟨rt, st₂, htable, hrun⟩ := run_bind_ok.1 hrun
  obtain ⟨rt', st₃, hright, hrun⟩ := run_bind_ok.1 hrun
  obtain ⟨result, st₄, hcombine, hfinish⟩ := run_bind_ok.1 hrun
  have htables := operandTables (planQuery_fills left) (planQuery_fills right) hleft htable hright
    hcombine
  have hfl := (planQuery_fills left hleft).1
  have hft := (Fills.rightTable htable).1
  obtain ⟨hdistinctl, hdistinctr, hdisjoint⟩ := List.nodup_append'.1 hscopes
  obtain ⟨hsl, -, hcreate⟩ := hl hname hdistinctl hformed.1 hleft
  have hst : Shows name [] [] st₁ st₂ := .rightTable htable
  obtain ⟨hsr, -⟩ := hr ((hft.config.trans hfl.config).symm ▸ hname) hdistinctr hformed.2 hright
  have hkept := subset_of_appended hsr.nodes (subset_of_appended hst.nodes (hcreate rfl))
  obtain ⟨hsc, hcombined⟩ := Shows.combineTables hkept hcombine
  obtain ⟨hsf, hoften⟩ :=
    Shows.finishSetQuery (htables.fills.config ▸ hname) hcombined htables.result.2 hfinish
  rw [BoundBody.queries_setOperation, List.map_append, BoundBody.cteEvents]
  exact ⟨(((hsl.quietly hst).append hsr hdisjoint).quietly hsc).quietly hsf, hoften⟩

/-! ## Queries -/

theorem showsQuery_mk {scope : Nat} {ctes : List BoundCte} {body : BoundBody}
    {orderBy : List SortKey} {skip take : Option Nat} {output : List Column}
    (hctes : ShowsCtes name ctes) (hbody : ShowsBody name body) :
    ShowsQuery name ⟨scope, ctes, body, orderBy, skip, take, output⟩ := by
  intro destination st st' table hname hscopes hformed hrun
  rw [BoundQuery.queries, List.map_cons, List.map_append, List.nodup_cons] at hscopes
  obtain ⟨hown, hdistinct⟩ := hscopes
  obtain ⟨hdistinctc, hdistinctb, hdisjoint⟩ := List.nodup_append'.1 hdistinct
  rw [BoundQuery.queries, List.forall_mem_cons, List.forall_mem_append] at hformed
  obtain ⟨hself, hformedc, hformedb⟩ := hformed
  simp only [planQuery] at hrun
  obtain ⟨_, st₁, henter, hrun⟩ := run_bind_ok.1 hrun
  obtain ⟨_, st₂, hplanCtes, hrun⟩ := run_bind_ok.1 hrun
  obtain ⟨_, st₃, hplanBody, hrun⟩ := run_bind_ok.1 hrun
  obtain ⟨_, st₄, hexit, hrun⟩ := run_bind_ok.1 hrun
  obtain ⟨_, st₅, hset, hpure⟩ := run_bind_ok.1 hrun
  obtain ⟨rfl, rfl⟩ := run_pure_ok.1 hpure
  have hfe : Fills [] st st₁ := .enterQuery henter
  have hfc := planCtes_fills ctes hplanCtes
  have hsc := @hctes scope _ _ _ (hfe.config ▸ hname) hdistinctc hformedc hplanCtes
  obtain ⟨hsb, hcreate⟩ := @hbody scope _ _ _ _ _ _ _ _ ((hfc.config.trans hfe.config).symm ▸ hname)
    hdistinctb hformedb hself.gives hplanBody
  have hse : Shows name [] [] st₃ st₄ := .exitQuery hexit
  obtain ⟨hsa, hattribute⟩ : Shows name [scope] [] st₄ st₅ ∧ _ := Shows.setTableAttribute hset
  -- the attribute of the query is noted last, and belongs to none of the queries in it
  have hall := (((hsc.append hsb hdisjoint).before (.enterQuery henter)).quietly hse).append hsa
    (List.disjoint_singleton.2 hown)
  refine ⟨?_, hattribute, fun h => subset_of_appended hsa.nodes
    (subset_of_appended hse.nodes (hcreate h))⟩
  rw [BoundQuery.queries, BoundQuery.cteEvents, List.map_cons, List.map_append]
  rw [List.append_nil] at hall
  exact hall.widen (List.append_subset.2 ⟨List.subset_cons_self _ _, by simp⟩)

theorem showsCtes_nil : ShowsCtes name [] := by
  intro scope st st' x _ _ _ hrun
  simp only [planCtes] at hrun
  obtain ⟨-, rfl⟩ := run_pure_ok.1 hrun
  rw [BoundQuery.queriesOfCtes, BoundQuery.eventsOfCtes]
  exact .same rfl rfl

theorem showsCtes_cons {n : String} {q : BoundQuery} {rest : List BoundCte}
    (hq : ShowsQuery name q) (hrest : ShowsCtes name rest) : ShowsCtes name (⟨n, q⟩ :: rest) := by
  intro scope st st' x hname hscopes hformed hrun
  rw [BoundQuery.queriesOfCtes, List.map_append] at hscopes
  rw [BoundQuery.queriesOfCtes, List.forall_mem_append] at hformed
  simp only [planCtes] at hrun
  obtain ⟨table, st₁, hquery, hrun⟩ := run_bind_ok.1 hrun
  obtain ⟨_, st₂, hemit, hrun⟩ := run_bind_ok.1 hrun
  obtain ⟨hdistinctq, hdistinctr, hdisjoint⟩ := List.nodup_append'.1 hscopes
  obtain ⟨hsq, hattribute, hcreate⟩ := hq hname hdistinctq hformed.1 hquery
  have hfq := (planQuery_fills q hquery).1
  have hfn : Fills [] st₁ st₂ := .emit (by simp [Node.filled?]) hemit
  have hsr := @hrest scope _ _ _ ((hfn.config.trans hfq.config).symm ▸ hname) hdistinctr hformed.2
    hrun
  have hrenamed : Shows name [q.scope] (if n = name then [.declares scope q] else []) st₁ st₂ := by
    obtain rfl := run_emit_ok.1 hemit
    refine ⟨⟨[.rename table n], rfl, ?_⟩, fun _ _ => rfl, fun d c hmem => ?_⟩
    · simp only [nameEvents, Node.nameEvents, List.flatMap_cons, List.flatMap_nil, List.append_nil]
      split
      · exact .cons ⟨hattribute, List.mem_append_left _ (hcreate rfl)⟩ .nil
      · exact .nil
    · split at hmem
      · cases List.mem_singleton.1 hmem
        exact List.mem_singleton_self _
      · cases hmem
  have hown : q.scope ∈ q.queries.map (·.scope) := List.mem_map_of_mem q.self_mem_queries
  have hdeclared := (hsq.followedBy hrenamed fun i _ => ?_).widen
    (List.append_subset.2 ⟨List.Subset.refl _, List.cons_subset.2 ⟨hown, List.nil_subset _⟩⟩)
  · rw [BoundQuery.queriesOfCtes, List.map_append, BoundQuery.eventsOfCtes, ← List.append_assoc]
    exact hdeclared.append hsr hdisjoint
  · obtain rfl := run_emit_ok.1 hemit
    rfl

mutual

theorem planQuery_shows : ∀ q : BoundQuery, ShowsQuery name q
  | ⟨_, ctes, body, _, _, _, _⟩ => showsQuery_mk (planCtes_shows ctes) (planBody_shows body)

theorem planCtes_shows : ∀ ctes : List BoundCte, ShowsCtes name ctes
  | [] => showsCtes_nil
  | ⟨_, query⟩ :: rest => showsCtes_cons (planQuery_shows query) (planCtes_shows rest)

theorem planBody_shows : ∀ body : BoundBody, ShowsBody name body
  | .select ⟨_, source, _, _, _, _, _⟩ => showsBody_select (planSource_shows source)
  | .setOperation _ _ left right =>
    showsBody_setOperation (planQuery_shows left) (planQuery_shows right)

theorem planSource_shows : ∀ src : BoundSource, ShowsSource name src
  | .schema a schema method args columns type =>
    showsSource_schema a schema method args columns type
  | .inMemory a table origin columns => showsSource_inMemory a table origin columns
  | .subquery _ query _ => showsSource_subquery (planQuery_shows query)
  | .join _ _ left right _ => showsSource_pair rfl (planSource_shows left) (planSource_shows right)
  | .apply _ _ left right => showsSource_pair rfl (planSource_shows left) (planSource_shows right)

end

/-! ## Plans -/

/-- The table holds the rows of an expression that is declared in the scope, and has columns as
    given. -/
def IsTableOf (name : String) (a : Resolve.Analysis) (plan : Plan) (scopes : Scopes) (scope : Nat)
    (columns : List Column) (table : String) : Prop :=
  ∃ q ∈ a.query.queries, q.scope = scope ∧ ∃ c, ⟨name, c⟩ ∈ q.ctes ∧
    scopes.attribute? c.scope tableAttribute = some table ∧ plan.columnsOf? table = some columns

/-- A scan reads the table of the expression that resolution found for a source, in the nearest
    scope that binds its key. The exception are scopes where an alias is that key. -/
structure ScansChosen (name : String) (a : Resolve.Analysis) (plan : Plan) (scopes : Scopes)
    (use : CteUse) (scan : String × Option String) : Prop where
  aliasName : scan.1 = use.aliasName
  chosen : ∃ ids d, a.scopes.chain use.scope = .ok ids ∧
    a.scopes.bindingScope? (cteKey name) ids = some d ∧
      (Resolve.KeyAliased name a.query.queries d ∨
        ∃ table, scan.2 = some table ∧ IsTableOf name a plan scopes d use.columns table)

/-- The table that has the name is that of the latest declaration. -/
def Names (st : State) : Option CteDeclaration → Option String → Prop
  | some (d, c), some table => Matches st (.declares d c) (.names table)
  | none, none => True
  | some _, none | none, some _ => False

theorem forall₂_scansWithTable {R : Option CteDeclaration → CteUse → Prop}
    {S : CteUse → String × Option String → Prop} {ms : List NameEvent}
    (h : List.Forall₂ (Matches st) es ms) {latest : Option CteDeclaration}
    {latestTable : Option String}
    (hfollows : Follows R latest es) (hlatest : Names st latest latestTable)
    (hstep : ∀ latest latestTable u, R latest u → Names st latest latestTable →
      S u (u.aliasName, latestTable)) :
    List.Forall₂ S (es.filterMap CteEvent.use?) (scansWithTable latestTable ms) := by
  induction h generalizing latest latestTable with
  | nil => exact .nil
  | @cons e m es ms hmatch _ ih =>
    cases e with
    | declares d c =>
      cases m with
      | names table => exact ih hfollows hmatch
      | scans a => exact hmatch.elim
    | reads u =>
      cases m with
      | names table => exact hmatch.elim
      | scans a =>
        obtain rfl : a = u.aliasName := hmatch
        exact .cons (hstep latest latestTable u hfollows.1 hlatest) (ih hfollows.2 hlatest)

/-- The scans of a common table expression in the plan of a resolved query are those of its sources,
    in order, if the name does not start like those of the tables of the plan. Each reads the table
    that was given the name last, and that is the table of the expression that resolution found,
    unless what it found is an alias. -/
theorem ofQuery_scansChosen {env : Resolve.Env} {q : Query} {a : Resolve.Analysis}
    {requests : List TableRequest} (ha : Resolve.analyze env q = (.ok a, requests))
    {config : PlanConfig} {plan : Plan} {scopes : Scopes}
    (h : ofQuery config a.scopes a.query = .ok (plan, scopes)) (hname : ¬ IsReserved config name) :
    List.Forall₂ (ScansChosen name a plan scopes) (a.query.cteUses name)
      (namedScans name plan.nodes) := by
  obtain ⟨hfollows, hdistinct⟩ := Resolve.analyze_follows ha name
  obtain ⟨hordered, -⟩ := @Resolve.analyze_sealed env (fun _ => True) _ _ _ (fun _ => trivial)
    (fun _ _ => trivial) ha
  obtain ⟨hsound, -⟩ := ofQuery_sound ha h
  unfold ofQuery at h
  cases hrun : (planQuery a.query .fresh).run ⟨a.scopes, .empty config⟩ with
  | error e st =>
    rw [hrun] at h
    cases h
  | ok table st =>
    rw [hrun] at h
    cases h
    obtain ⟨hshows, -⟩ := planQuery_shows a.query hname hdistinct (Resolve.analyze_formed ha) hrun
    obtain ⟨ns, hns, hmatches⟩ := hshows.nodes
    obtain rfl : st.draft.nodes = ns := hns
    refine forall₂_scansWithTable hmatches (hfollows.declaredIn a.query.declaredIn nofun) trivial ?_
    rintro latest latestTable u ⟨⟨d, hnearest, hfound⟩, hdeclared⟩ hnames
    obtain ⟨ids, hchain, hids⟩ := Scopes.chain_nearest hordered hnearest.lt_length (cteKey name)
    refine ⟨rfl, ids, d, hchain, (hids d).2 hnearest, hfound.imp_right ?_⟩
    rintro ⟨c, rfl, hcolumns⟩
    obtain ⟨q', hq', hscope, hc⟩ := hdeclared d c rfl
    cases latestTable with
    | none => exact hnames.elim
    | some table =>
      obtain ⟨hattribute, hcreate⟩ := hnames
      exact ⟨table, rfl, q', hq', hscope, c, hc, hattribute,
        hcolumns ▸ columnsOf?_of_create hsound hcreate⟩

/-- Stands for `with people as (with recent as (select Name from #A.entities() a)
    select Name from recent),
    cities as (select "recent#cte".City from #A.entities() "recent#cte"
    inner join recent on "recent#cte".Name = recent.Name),
    recent as (select City from #A.entities() b)
    select people.Name, recent.City from people inner join recent on people.Name = recent.City` -/
def reusedName : Query :=
  (Query.ofSelect (((Select.empty.addExpr (.ofColumn "people" "Name")).addExpr
    (.ofColumn "recent" "City")).withSource
      (.join .inner (.ofMemory "people") (.ofMemory "recent")
        (.equals (.ofColumn "people" "Name") (.ofColumn "recent" "City"))))).withCtes
    [⟨"people", [], (Query.ofSelect ((Select.empty.addExpr (.identifier "Name")).withSource
        (.ofMemory "recent"))).withCtes
      [⟨"recent", [], .ofSelect ((Select.empty.addExpr (.identifier "Name")).withSource
        (Sample.entitiesAs "a"))⟩]⟩,
     ⟨"cities", [], .ofSelect ((Select.empty.addExpr (.ofColumn "recent#cte" "City")).withSource
        (.join .inner (Sample.entitiesAs "recent#cte") (.ofMemory "recent")
          (.equals (.ofColumn "recent#cte" "Name") (.ofColumn "recent" "Name"))))⟩,
     ⟨"recent", [], .ofSelect ((Select.empty.addExpr (.identifier "City")).withSource
        (Sample.entitiesAs "b"))⟩]

/-- The name is declared twice, and both times the scan after it reads the right table. The scan in
    between reads a table with other columns than resolution has bound: an alias is the key. -/
theorem ofQuery_scansChosen_reusedName :
    ∃ analysis requests plan scopes,
      Resolve.analyze ⟨Sample.catalog, default⟩ reusedName = (.ok analysis, requests) ∧
      ofQuery default analysis.scopes analysis.query = .ok (plan, scopes) ∧
      ¬ IsReserved default "recent" ∧
      namedScans "recent" plan.nodes = [("recent", some "__t0_select"),
        ("recent", some "__t0_select"), ("recent", some "__t4_select")] ∧
      ∃ inner keyed outer, analysis.query.cteUses "recent" = [inner, keyed, outer] ∧
        plan.columnsOf? "__t0_select" = some inner.columns ∧
        plan.columnsOf? "__t4_select" = some outer.columns ∧
        plan.columnsOf? "__t0_select" ≠ some keyed.columns ∧
        ∃ ids d, analysis.scopes.chain keyed.scope = .ok ids ∧
          analysis.scopes.bindingScope? (cteKey "recent") ids = some d ∧
          Resolve.KeyAliased "recent" analysis.query.queries d := by
  have hreserved : ¬ IsReserved default "recent" := by decide +kernel
  obtain ⟨analysis, requests, plan, scopes, h, hplan, hcheck⟩ := exists_plan_of_check
    ⟨Sample.catalog, default⟩ default reusedName (fun a plan => decide
      (namedScans "recent" plan.nodes = [("recent", some "__t0_select"),
        ("recent", some "__t0_select"), ("recent", some "__t4_select")] ∧
      (a.query.cteUses "recent").map (fun u =>
        (decide (plan.columnsOf? "__t0_select" = some u.columns),
          decide (plan.columnsOf? "__t4_select" = some u.columns))) =
        [(true, false), (false, false), (false, true)]))
    (by decide +kernel)
  obtain ⟨hscans, hcolumns⟩ := of_decide_eq_true hcheck
  have hchosen := ofQuery_scansChosen h hplan hreserved
  rw [hscans] at hchosen
  obtain ⟨inner, keyed, outer, huses⟩ := List.length_eq_three.1 hchosen.length_eq
  simp only [huses, List.map_cons, List.map_nil, List.cons.injEq, Prod.mk.injEq,
    decide_eq_true_eq, decide_eq_false_iff_not, and_true] at hcolumns
  obtain ⟨⟨hinner, -⟩, ⟨hkeyed, -⟩, -, houter⟩ := hcolumns
  refine ⟨analysis, requests, plan, scopes, h, hplan, hreserved, hscans, inner, keyed, outer, huses,
    hinner, houter, hkeyed, ?_⟩
  rw [huses, List.forall₂_cons, List.forall₂_cons] at hchosen
  obtain ⟨ids, d, hchain, hbinding, hfound⟩ := hchosen.2.1.chosen
  refine ⟨ids, d, hchain, hbinding, hfound.resolve_right ?_⟩
  rintro ⟨table, htable, q, -, -, c, -, -, hread⟩
  cases htable
  exact hkeyed hread

end SchemaQuery.Plan
