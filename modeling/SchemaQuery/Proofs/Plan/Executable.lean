-- SUMMARY: A plan can be carried out from top to bottom: what a node uses was created or named before it.
import SchemaQuery.Proofs.Plan.Declared

/-!
# Executable plans

A node of a plan uses tables by name. By cases on the emitted nodes, the tables it
fills, matches and reads columns of were created by nodes before it. The scans of
common table expressions are the one exception. A common table expression is found
under a key made from its name (`cteKey`), and an alias may be written like such a
key. A table in memory is then taken for a common table expression, and the plan
scans a table that no node gives that name. `ofQuery_runs` says that this is the
only way in which a plan can fail to run.
-/

namespace SchemaQuery

/-- The aliases of all sources of some queries. -/
def BoundQuery.sourceAliases (qs : List BoundQuery) : List String :=
  (BoundQuery.blocksOf qs).flatMap fun b => b.source.parts.map (·.aliasName)

namespace Plan

/-! ## Tables of nodes -/

/-- The tables that some nodes create. -/
def createdTables (ns : List Node) : List String := (ns.filterMap Node.declared?).map (·.1)

/-- The name that a node gives a table. -/
def Node.exposed? : Node → Option String
  | .rename _ name => some name
  | _ => none

/-- The names that some nodes give to tables. -/
def exposedNames (ns : List Node) : List String := ns.filterMap Node.exposed?

/-- The tables that have to be there for a node, those it scans aside. -/
def Node.operands : Node → List String
  | .create .. => []
  | .populate step => [step.target]
  | .aggregate step => [step.target]
  | .setMatch step => [step.target, step.source, step.probe]
  | .rename source _ => [source]

/-- A node can be carried out after the nodes `before`, in a query with the given aliases. -/
structure Runs (aliases : List String) (before : List Node) (n : Node) : Prop where
  operands : ∀ table ∈ n.operands, table ∈ createdTables before
  columns : ∀ t ∈ n.terms ++ n.updateTerms, ∀ table name type,
    .tableColumn table name type ∈ t.subterms → table ∈ createdTables before
  scans : ∀ al table, (al, table) ∈ n.scans →
    table ∈ createdTables before ∨ table ∈ exposedNames before ∨ cteKey table ∈ aliases

theorem mem_createdTables {ns : List Node} {table : String} {columns : List Column}
    {forGrouping : Bool} (h : .create table columns forGrouping ∈ ns) :
    table ∈ createdTables ns :=
  List.mem_map.2 ⟨_, mem_declared.2 h, rfl⟩

theorem Exposed.mem_names {ns : List Node} {name : String} (h : Exposed ns name) :
    name ∈ exposedNames ns := by
  obtain ⟨table, h⟩ := h
  exact List.mem_filterMap.2 ⟨_, h, rfl⟩

theorem Setting.HasAlias.mem {E : Setting} {a : String} (h : E.HasAlias a) :
    a ∈ BoundQuery.sourceAliases E.queries := by
  obtain ⟨b, hb, p, hp, rfl⟩ := h
  exact List.mem_flatMap.2 ⟨b, hb, List.mem_map_of_mem hp⟩

/-! ## Scans and columns -/

section Planned

variable {E : Setting} {before : List Node} {q : BoundQuery} {b : BoundSelect}
  {calls : List RefreshCall} {src : BoundSource} {needs : ColumnNeeds} {ro : Option Relation}
  {r : Relation} {scope : Nat}

/-- The tables that the scan of a part reads. -/
theorem Planned.scan_created {al table : String} (h : Planned E scope before ro src needs r)
    (hscan : (al, table) ∈ r.scan.tables) : table ∈ createdTables before ∨
      table ∈ exposedNames before ∨ cteKey table ∈ BoundQuery.sourceAliases E.queries := by
  cases h with
  | schema | host => cases hscan
  | cte _ _ _ _ h =>
    cases List.mem_singleton.1 hscan
    exact .inr (h.imp Exposed.mem_names Setting.HasAlias.mem)
  | subquery _ _ _ _ _ htable =>
    cases List.mem_singleton.1 hscan
    exact .inl (mem_createdTables htable.declared)
  | pair _ _ _ htable =>
    cases List.mem_singleton.1 hscan
    exact .inl (mem_createdTables htable.declared)

theorem Planned.table_created {table : String} (h : Planned E scope before ro src needs r)
    (htable : r.table = some table) : table ∈ createdTables before := by
  cases h with
  | pair _ _ _ hjoin =>
    cases htable
    exact mem_createdTables hjoin.declared
  | _ => cases htable

/-- The updates that a block finds were registered for some block. -/
theorem update_owner (hE : E.Resolved) (hq : q ∈ E.queries) (hb : q.body = .select b)
    (h : refreshCalls E.scopes b = .ok calls) {c : RefreshCall} (hc : c ∈ calls) :
    ∃ e ∈ BoundQuery.blocksOf E.queries,
      c ∈ E.scopes.refreshOf e.scope e.source.aliasName := by
  obtain ⟨-, hid, -⟩ := hE.sealed.blocks _ (BoundQuery.mem_blocksOf hq hb)
  rcases lookup_of_refreshCalls h with ⟨-, rfl⟩ | hlookup
  · cases hc
  · obtain ⟨found, hfound, hfind⟩ :=
      Scopes.lookup_cases hE.ordered hid (refreshKey b.source.aliasName)
    cases hfound.symm.trans hlookup
    obtain ⟨i, hi, hfind⟩ := hfind _ rfl
    obtain ⟨e, he, -, -, rfl, -⟩ :=
      hE.sealed.owner (Nat.zero_le i) (Nat.lt_of_le_of_lt hi hid) hfind
    exact ⟨e, he, hc⟩

/-- The updates that a block finds read leaves of some block. -/
theorem updates_read (hE : E.Resolved) (hq : q ∈ E.queries) (hb : q.body = .select b)
    (h : refreshCalls E.scopes b = .ok calls) {c : RefreshCall} (hc : c ∈ calls) :
    ∃ leaves, ∀ t ∈ c.args, ∀ u ∈ t.subterms, u.ReadsFrom leaves := by
  obtain ⟨e, he, hc⟩ := update_owner hE hq hb h hc
  exact ⟨_, (hE.sealed.blocks e he).2.2.updates_read hc⟩

/-- The updates of a grouping step read the table of its source. -/
theorem BlockPlanned.updates_created (hE : E.Resolved) (h : BlockPlanned E before q b calls r)
    {t : Term} (ht : t ∈ readFrom r (calls.flatMap (·.args))) {table name : String}
    {type : DataType} (hu : .tableColumn table name type ∈ t.subterms) :
    table ∈ createdTables before := by
  obtain ⟨x, hx, rfl⟩ := List.mem_map.1 ht
  obtain ⟨c, hc, hx⟩ := List.mem_flatMap.1 hx
  obtain ⟨leaves, hreads⟩ := updates_read hE h.mem h.body h.registered hc
  obtain ⟨v, hv, heq⟩ := mem_subterms_relocated hu
  obtain ⟨_, _, _, _, -, -, r', hr', htable⟩ := column_of_relocated (hreads x hx v hv) heq
  obtain rfl : r' = r := by simpa using List.mem_of_find?_eq_some hr'
  exact h.planned.table_created htable

end Planned

/-! ## Nodes -/

section Emitted

variable {E : Setting} {before : List Node} {n : Node}

theorem Accepts.created {q : BoundQuery} {table : String} (h : Accepts E before q table) :
    table ∈ createdTables before := by
  obtain ⟨columns, htable, -⟩ := h
  exact mem_createdTables htable.declared

theorem Emitted.operands_created (h : Emitted E before n) :
    ∀ table ∈ n.operands, table ∈ createdTables before := by
  intro table ht
  cases h with
  | create => cases ht
  | join _ _ _ _ _ _ _ htable =>
    obtain rfl := List.mem_singleton.1 ht
    exact mem_createdTables htable.declared
  | project _ _ htarget | score _ _ _ _ htarget | copy _ _ _ htarget =>
    obtain rfl := List.mem_singleton.1 ht
    exact htarget.created
  | aggregate _ _ htable =>
    obtain rfl := List.mem_singleton.1 ht
    obtain ⟨rest, rfl⟩ := htable
    exact mem_createdTables (List.mem_append_right _ (List.mem_singleton_self _))
  | setMatch _ _ _ htarget hsource hprobe =>
    simp only [Node.operands, List.mem_cons, List.not_mem_nil, or_false] at ht
    rcases ht with rfl | rfl | rfl
    · exact mem_createdTables htarget.declared
    · exact mem_createdTables hsource.declared
    · exact mem_createdTables hprobe.declared
  | rename _ _ hsource =>
    obtain rfl := List.mem_singleton.1 ht
    exact mem_createdTables hsource.declared

theorem Emitted.columns_created (hE : E.Resolved) (h : Emitted E before n) :
    ∀ t ∈ n.terms ++ n.updateTerms, ∀ table name type,
      .tableColumn table name type ∈ t.subterms → table ∈ createdTables before := by
  intro t ht table name type hu
  rcases List.mem_append.1 ht with ht | ht
  · obtain ⟨columns, forGrouping, hcreate, -⟩ := h.terms_declared hE t ht _ _ _ hu
    exact mem_createdTables hcreate
  · cases h with
    | @aggregate q b calls r target h hgrouped =>
      rw [updateTerms_group] at ht
      exact h.updates_created hE ht hu
    | _ => cases ht

theorem Emitted.scans_created (h : Emitted E before n) :
    ∀ al table, (al, table) ∈ n.scans → table ∈ createdTables before ∨
      table ∈ exposedNames before ∨ cteKey table ∈ BoundQuery.sourceAliases E.queries := by
  intro al table hscan
  cases h with
  | create | setMatch | rename => cases hscan
  | @join _ _ _ _ _ _ _ _ l r _ _ _ _ _ _ _ hl hr =>
    change _ ∈ l.scan.tables ++ r.scan.tables at hscan
    rcases List.mem_append.1 hscan with hscan | hscan
    · exact hl.scan_created hscan
    · exact hr.scan_created hscan
  | project h | aggregate h => exact h.planned.scan_created hscan
  | score _ _ htable =>
    cases List.mem_singleton.1 hscan
    exact .inl (mem_createdTables htable)
  | copy _ _ htable =>
    cases List.mem_singleton.1 hscan
    exact .inl (mem_createdTables htable.declared)

end Emitted

/-! ## Plans -/

/-- The plan of a resolved query can be carried out node by node: no table is created twice, every
    node uses only what the nodes before it have created or named, and the result has the columns of
    the output. A scan can miss its table only if some alias is the key of a common table
    expression. -/
theorem ofQuery_runs {env : Resolve.Env} {q : Query} {a : Resolve.Analysis}
    {requests : List TableRequest} (ha : Resolve.analyze env q = (.ok a, requests))
    {config : PlanConfig} {plan : Plan} {scopes : Scopes}
    (h : ofQuery config a.scopes a.query = .ok (plan, scopes)) :
    (createdTables plan.nodes).Nodup ∧
    (∀ before n after, plan.nodes = before ++ n :: after →
      Runs (BoundQuery.sourceAliases a.query.queries) before n) ∧
    plan.columnsOf? plan.result = some plan.output := by
  obtain ⟨hsound, hresult⟩ := ofQuery_sound ha h
  have hE := resolved_of_analyze ha config
  refine ⟨hsound.nodup, fun before n after hnodes => ?_, columnsOf?_of_create hsound hresult⟩
  have hemitted := hsound before n after hnodes
  exact ⟨hemitted.operands_created, hemitted.columns_created hE, hemitted.scans_created⟩

/-- Stands for `select "recent#cte".City, recent.Name from #A.entities() "recent#cte"
    inner join recent on "recent#cte".Name = recent.Name` -/
def keyedAlias : Query :=
  .ofSelect (((Select.empty.addExpr (.ofColumn "recent#cte" "City")).addExpr
    (.ofColumn "recent" "Name")).withSource
      (.join .inner (Sample.entitiesAs "recent#cte") (.ofMemory "recent")
        (.equals (.ofColumn "recent#cte" "Name") (.ofColumn "recent" "Name"))))

/-- The plan scans `recent` as a transition table, though no node creates it or gives a table that
    name: an alias is its key. -/
theorem ofQuery_runs_keyedAlias :
    ∃ analysis requests plan scopes,
      Resolve.analyze ⟨Sample.catalog, default⟩ keyedAlias = (.ok analysis, requests) ∧
      ofQuery default analysis.scopes analysis.query = .ok (plan, scopes) ∧
      (∃ n ∈ plan.nodes, ("recent", "recent") ∈ n.scans) ∧
      "recent" ∉ createdTables plan.nodes ∧ "recent" ∉ exposedNames plan.nodes ∧
      cteKey "recent" ∈ BoundQuery.sourceAliases analysis.query.queries := by
  obtain ⟨analysis, requests, plan, scopes, h, hplan, hcheck⟩ := exists_plan_of_check
    ⟨Sample.catalog, default⟩ default keyedAlias (fun _ plan => decide
      ((∃ n ∈ plan.nodes, ("recent", "recent") ∈ n.scans) ∧
        "recent" ∉ createdTables plan.nodes ∧ "recent" ∉ exposedNames plan.nodes))
    (by decide +kernel)
  obtain ⟨⟨n, hn, hscan⟩, hcreated, hexposed⟩ := of_decide_eq_true hcheck
  obtain ⟨before, after, hnodes⟩ := List.append_of_mem hn
  have hruns := (ofQuery_runs h hplan).2.1 before n after hnodes
  refine ⟨analysis, requests, plan, scopes, h, hplan, ⟨n, hn, hscan⟩, hcreated, hexposed, ?_⟩
  have hle : before ⊆ plan.nodes := hnodes ▸ List.subset_append_left _ _
  rcases hruns.scans _ _ hscan with hmem | hmem | hmem
  · exact absurd (List.map_subset _ (List.filterMap_subset _ hle) hmem) hcreated
  · exact absurd (List.filterMap_subset _ hle hmem) hexposed
  · exact hmem

end Plan

end SchemaQuery
