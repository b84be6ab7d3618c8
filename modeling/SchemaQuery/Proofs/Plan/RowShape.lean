-- SUMMARY: Tables fit what they are for: filled columns, compared tables and the tables noted for queries have the declared types.
import SchemaQuery.Proofs.Plan.Emission
import SchemaQuery.Proofs.Plan.JoinRows
import SchemaQuery.Proofs.Resolve.Runs
import SchemaQuery.Sample.Catalog
import SchemaQuery.Sample.Query

/-!
# Steps that fit their tables

A step that fills a table has one term for every declared column, of the type of
the column (`ofQuery_fills_typed`). The terms of a step are read from other tables
than the terms of the query, but redirecting a read keeps its type
(`type_relocated`, `type_regroupTerm`), so it is enough to compare the query with
the table. A step of a set operator works on three tables, which are declared with
the same columns (`ofQuery_setMatch_layout`). Every query of the tree has a scope of
its own, which names a table with the types of the query (`ofQuery_records`).
-/

namespace SchemaQuery

/-! ## Redirected terms -/

/-- Changing the nodes of a term keeps its type if it keeps the type of every node. -/
theorem Term.type_mapUp {f : Term → Term} (hf : ∀ t, (f t).type = t.type) (t : Term) :
    (t.mapUp f).type = t.type := by
  cases t with
  | case branches otherwise => cases otherwise <;> rw [Term.mapUp, hf] <;> rfl
  | _ => rw [Term.mapUp, hf] <;> rfl

namespace Plan

theorem type_relocated (relations : List Relation) (t : Term) :
    (t.mapUp (relocateNode relations)).type = t.type :=
  t.type_mapUp relocateNode_type

theorem type_regroupTerm (keys : List Term) (table : String) (t : Term) :
    (regroupTerm keys table t).type = t.type := by
  unfold regroupTerm
  split
  · rfl
  · cases t with
    | case branches otherwise => cases otherwise <;> rfl
    | _ => rfl

theorem type_joinTerm (l r : Relation) (s : String × Column) :
    (joinTerm l r s).type = s.2.type := by
  simp only [joinTerm, Relation.read]
  split <;> split <;> rfl

/-! ## Types of columns -/

/-- The fields of a block have the types of its output. -/
theorem types_of_fields {q : BoundQuery} {b : BoundSelect} (hq : q.Formed)
    (hbody : q.body = .select b) :
    b.fields.map (fun f => f.term.type) = q.output.map (·.type) := by
  have hgives := hq.gives
  rw [hbody] at hgives
  rw [hgives, Resolve.outputColumns, number_types, List.map_map]
  rfl

/-! ## Filled tables -/

variable {E : Setting} {before : List Node}

/-- A table that is declared before a node of a plan has these columns in the whole plan. -/
theorem columnsOf?_of_before {p : Plan} (hsound : Sound E p.nodes) {rest : List Node}
    (hnodes : p.nodes = before ++ rest) {table : String} {columns : List Column}
    {forGrouping : Bool} (hmem : .create table columns forGrouping ∈ before) :
    p.columnsOf? table = some columns :=
  columnsOf?_of_create hsound (hnodes ▸ List.mem_append_left rest hmem)

/-- A step that fills a table gives the types that the table is declared with. -/
theorem Emitted.types (hformed : ∀ q ∈ E.queries, q.Formed) {step : Populate}
    (h : Emitted E before (.populate step)) : ∃ columns,
      .create step.target columns false ∈ before ∧
      step.select.map (·.type) = columns.map (·.type) := by
  -- the target takes the rows of a query, so it has the types of its output
  have accepted {q : BoundQuery} {target : String} {ts : List Term}
      (htarget : Accepts E before q target)
      (htypes : ts.map (·.type) = q.output.map (·.type)) : ∃ columns,
      .create target columns false ∈ before ∧ ts.map (·.type) = columns.map (·.type) := by
    obtain ⟨columns, htable, hcolumns⟩ := htarget
    exact ⟨columns, htable.declared, htypes.trans hcolumns.symm⟩
  cases h with
  | @join _ _ _ _ _ _ p ro l r table sources _ _ _ _ _ _ _ htable =>
    refine ⟨joinColumns sources, htable.declared, ?_⟩
    have hselect : (p.step table ro l r sources).select = sources.map (joinTerm l r) := rfl
    rw [hselect, List.map_map, joinColumns, number_types, List.map_map]
    exact List.map_congr_left fun s _ => type_joinTerm l r s
  | project h _ htarget =>
    refine accepted htarget ?_
    rw [← types_of_fields (hformed _ h.mem) h.body, projectStep, readFrom, List.map_map,
      List.map_map]
    exact List.map_congr_left fun f _ => type_relocated _ _
  | score h _ _ _ htarget =>
    refine accepted htarget ?_
    rw [← types_of_fields (hformed _ h.mem) h.body, scoreStep, List.map_map]
    exact List.map_congr_left fun f _ => type_regroupTerm _ _ _
  | copy _ _ _ htarget =>
    refine accepted htarget ?_
    rw [copyStep, List.map_map]
    rfl

/-- The step of a node that fills a table. -/
def Node.populate? : Node → Option Populate
  | .populate step => some step
  | _ => none

theorem mem_populate {ns : List Node} {step : Populate} :
    step ∈ ns.filterMap Node.populate? ↔ .populate step ∈ ns := by
  rw [List.mem_filterMap]
  constructor
  · rintro ⟨n, hn, hstep⟩
    cases n <;> cases hstep
    exact hn
  · exact fun h => ⟨_, h, rfl⟩

/-- Every step that fills a table has a term for each column of the table, which is declared before
    the step, and the term has the type of the column. -/
theorem ofQuery_fills_typed {env : Resolve.Env} {query : Query} {analysis : Resolve.Analysis}
    {requests : List TableRequest} (ha : Resolve.analyze env query = (.ok analysis, requests))
    {config : PlanConfig} {plan : Plan} {scopes : Scopes}
    (h : ofQuery config analysis.scopes analysis.query = .ok (plan, scopes))
    {before after : List Node} {step : Populate}
    (hnodes : plan.nodes = before ++ .populate step :: after) :
    ∃ columns, .create step.target columns false ∈ before ∧
      plan.columnsOf? step.target = some columns ∧
      List.Forall₂ (fun (t : Term) (c : Column) => t.type = c.type) step.select columns := by
  obtain ⟨hsound, -⟩ := ofQuery_sound ha h
  obtain ⟨columns, hdeclared, htypes⟩ :=
    (hsound _ _ _ hnodes).types (Resolve.analyze_formed ha)
  rw [← List.forall₂_eq_eq_eq, List.forall₂_map_left_iff, List.forall₂_map_right_iff] at htypes
  exact ⟨columns, hdeclared, columnsOf?_of_before hsound hnodes hdeclared, htypes⟩

/-- Stands for `select City, Count(City) from #A.entities() a group by City union (City)
    (select Name, Population from #A.entities() b except (Name)
    select Country, Population from #A.entities() c)` -/
def townsOrCountries : Query :=
  .combine .union Sample.groupByCity
    (.combine .except
      (.ofSelect (((Select.empty.addExpr (.identifier "Name")).addExpr
        (.identifier "Population")).withSource (Sample.entitiesAs "b")))
      (.ofSelect (((Select.empty.addExpr (.identifier "Country")).addExpr
        (.identifier "Population")).withSource (Sample.entitiesAs "c")))
      ["Name"])
    ["City"]

/-- Stands for `with places (Label, Total) as (...) select p.Total, a.Name from places p
    inner join #A.entities() a on p.Label = a.City`, over the query above -/
def labelledPlaces : Query :=
  (Query.ofSelect (((Select.empty.addExpr (.ofColumn "p" "Total")).addExpr
    (.ofColumn "a" "Name")).withSource
      (.join .inner ((Source.ofMemory "places").withAlias "p") (Sample.entitiesAs "a")
        (.equals (.ofColumn "p" "Label") (.ofColumn "a" "City"))))).withCtes
    [⟨"places", ["Label", "Total"], townsOrCountries⟩]

/-- The columns that the common table expression declares. -/
def labelledColumns : List Column := [⟨"Label", 0, .string⟩, ⟨"Total", 1, .long⟩]

/-- The rows of the nested operator are copied into a table that was declared for the operand of
    the outer one, under the names of the common table expression. -/
theorem ofQuery_fills_typed_labelledPlaces :
    ∃ analysis requests plan scopes before step after,
      Resolve.analyze ⟨Sample.catalog, default⟩ labelledPlaces = (.ok analysis, requests) ∧
      ofQuery default analysis.scopes analysis.query = .ok (plan, scopes) ∧
      plan.nodes = before ++ .populate step :: after ∧ step.target = "__t2_select" ∧
      plan.columnsOf? "__t2_select" = some labelledColumns ∧
      List.Forall₂ (fun (t : Term) (c : Column) => t.type = c.type) step.select
        labelledColumns := by
  obtain ⟨analysis, requests, plan, scopes, h, hplan, hcheck⟩ := exists_plan_of_check
    ⟨Sample.catalog, default⟩ default labelledPlaces (fun _ plan => decide
      ((∃ step ∈ plan.nodes.filterMap Node.populate?, step.target = "__t2_select") ∧
        plan.columnsOf? "__t2_select" = some labelledColumns))
    (by decide +kernel)
  obtain ⟨⟨step, hstep, htarget⟩, hcolumns⟩ := of_decide_eq_true hcheck
  obtain ⟨before, after, hnodes⟩ := List.append_of_mem (mem_populate.1 hstep)
  obtain ⟨columns, -, hcolumns', htyped⟩ := ofQuery_fills_typed h hplan hnodes
  rw [htarget, hcolumns] at hcolumns'
  cases hcolumns'
  exact ⟨analysis, requests, plan, scopes, before, step, after, h, hplan, hnodes, htarget, hcolumns,
    htyped⟩

/-! ## Compared tables -/

/-- A step of a set operator works on tables with the columns of the left operand. -/
theorem Emitted.layout (hformed : ∀ q ∈ E.queries, q.Formed) {step : SetMatch}
    (h : Emitted E before (.setMatch step)) : step.keyColumns ≠ [] ∧ ∃ columns,
      (∀ table ∈ [step.target, step.source, step.probe], .create table columns false ∈ before) ∧
      ∀ key ∈ step.keyColumns, key ∈ columns.map (·.name) := by
  cases h with
  | @setMatch q left _ _ _ _ _ _ _ hq hbody htarget hsource hprobe =>
    have hcombines := (hformed q hq).gives
    rw [hbody] at hcombines
    refine ⟨hcombines.hasKeys, left.output, ?_, hcombines.keys⟩
    simp only [List.forall_mem_cons, List.not_mem_nil, false_implies, implies_true, and_true]
    exact ⟨htarget.declared, hsource.declared, hprobe.declared⟩

/-- The step of a node that compares tables. -/
def Node.setMatch? : Node → Option SetMatch
  | .setMatch step => some step
  | _ => none

theorem mem_setMatch {ns : List Node} {step : SetMatch} :
    step ∈ ns.filterMap Node.setMatch? ↔ .setMatch step ∈ ns := by
  rw [List.mem_filterMap]
  constructor
  · rintro ⟨n, hn, hstep⟩
    cases n <;> cases hstep
    exact hn
  · exact fun h => ⟨_, h, rfl⟩

/-- Every step of a set operator appends to, reads and probes tables that are declared before it
    with the same columns. It has keys, and all keys are names of these columns. -/
theorem ofQuery_setMatch_layout {env : Resolve.Env} {query : Query} {analysis : Resolve.Analysis}
    {requests : List TableRequest} (ha : Resolve.analyze env query = (.ok analysis, requests))
    {config : PlanConfig} {plan : Plan} {scopes : Scopes}
    (h : ofQuery config analysis.scopes analysis.query = .ok (plan, scopes))
    {before after : List Node} {step : SetMatch}
    (hnodes : plan.nodes = before ++ .setMatch step :: after) :
    step.keyColumns ≠ [] ∧ ∃ columns,
      (∀ table ∈ [step.target, step.source, step.probe],
        .create table columns false ∈ before ∧ plan.columnsOf? table = some columns) ∧
      ∀ key ∈ step.keyColumns, key ∈ columns.map (·.name) := by
  obtain ⟨hsound, -⟩ := ofQuery_sound ha h
  obtain ⟨hkeys, columns, hdeclared, hnames⟩ :=
    (hsound _ _ _ hnodes).layout (Resolve.analyze_formed ha)
  refine ⟨hkeys, columns, fun table htable => ⟨hdeclared table htable, ?_⟩, hnames⟩
  exact columnsOf?_of_before hsound hnodes (hdeclared table htable)

/-- The outer operator appends to the table that it probes. All its tables have the names of the
    common table expression, though its right operand names its columns otherwise. -/
theorem ofQuery_setMatch_layout_labelledPlaces :
    ∃ analysis requests plan scopes before after,
      Resolve.analyze ⟨Sample.catalog, default⟩ labelledPlaces = (.ok analysis, requests) ∧
      ofQuery default analysis.scopes analysis.query = .ok (plan, scopes) ∧
      plan.nodes = before ++
        .setMatch ⟨"__t1_score", "__t2_select", "__t1_score", ["Label"], .absent⟩ :: after ∧
      ∀ table ∈ ["__t1_score", "__t2_select"],
        .create table labelledColumns false ∈ before ∧
          plan.columnsOf? table = some labelledColumns := by
  obtain ⟨analysis, requests, plan, scopes, h, hplan, hcheck⟩ := exists_plan_of_check
    ⟨Sample.catalog, default⟩ default labelledPlaces (fun _ plan => decide
      (⟨"__t1_score", "__t2_select", "__t1_score", ["Label"], .absent⟩ ∈
          plan.nodes.filterMap Node.setMatch? ∧
        plan.columnsOf? "__t1_score" = some labelledColumns))
    (by decide +kernel)
  obtain ⟨hstep, hcolumns⟩ := of_decide_eq_true hcheck
  obtain ⟨before, after, hnodes⟩ := List.append_of_mem (mem_setMatch.1 hstep)
  obtain ⟨-, columns, hlayout, -⟩ := ofQuery_setMatch_layout h hplan hnodes
  have heq := (hlayout "__t1_score" (by simp)).2
  rw [hcolumns] at heq
  cases heq
  refine ⟨analysis, requests, plan, scopes, before, after, h, hplan, hnodes, ?_⟩
  intro table htable
  exact hlayout table (List.mem_append_left ["__t1_score"] htable)

/-! ## Tables of queries -/

/-- Every query has a scope of its own below those of the queries around it, and planning notes there
    a declared table with the types of the output. -/
theorem ofQuery_records {env : Resolve.Env} {query : Query} {analysis : Resolve.Analysis}
    {requests : List TableRequest} (ha : Resolve.analyze env query = (.ok analysis, requests)) :
    (analysis.query.queries.map (·.scope)).Nodup ∧
      (∀ q ∈ analysis.query.queries, ∀ q' ∈ q.nested, analysis.scopes.Below q'.scope q.scope) ∧
      ∀ config plan scopes, ofQuery config analysis.scopes analysis.query = .ok (plan, scopes) →
        ∀ q ∈ analysis.query.queries, ∃ table columns,
          scopes.attribute? q.scope tableAttribute = some table ∧
          .create table columns false ∈ plan.nodes ∧ plan.columnsOf? table = some columns ∧
          List.Forall₂ (fun (c c' : Column) => c.type = c'.type) columns q.output := by
  refine ⟨(Resolve.analyze_follows ha "").2, (Resolve.analyze_runsBelow ha).below, ?_⟩
  intro config plan scopes h q hq
  obtain ⟨hsound, -⟩ := ofQuery_sound ha h
  obtain ⟨table, columns, hnoted, hcreate, htypes⟩ := ofQuery_noted ha h hq
  rw [← List.forall₂_eq_eq_eq, List.forall₂_map_left_iff, List.forall₂_map_right_iff] at htypes
  exact ⟨table, columns, hnoted, hcreate, columnsOf?_of_create hsound hcreate, htypes⟩

/-- An expression, both operands of its operator and both operands of the nested one. -/
theorem ofQuery_records_labelledPlaces :
    ∃ analysis requests plan scopes,
      Resolve.analyze ⟨Sample.catalog, default⟩ labelledPlaces = (.ok analysis, requests) ∧
      ofQuery default analysis.scopes analysis.query = .ok (plan, scopes) ∧
      analysis.query.queries.map (fun q => (q.scope, q.nested.map (·.scope))) =
        [(0, [1, 3, 4, 6, 7]), (1, [3, 4, 6, 7]), (3, []), (4, [6, 7]), (6, []), (7, [])] ∧
      (∀ q ∈ analysis.query.queries, ∀ q' ∈ q.nested, analysis.scopes.Below q'.scope q.scope) ∧
      ∀ q ∈ analysis.query.queries, ∃ table columns,
        scopes.attribute? q.scope tableAttribute = some table ∧
        plan.columnsOf? table = some columns ∧
        List.Forall₂ (fun (c c' : Column) => c.type = c'.type) columns q.output := by
  obtain ⟨analysis, requests, plan, scopes, h, hplan, hcheck⟩ := exists_plan_of_check
    ⟨Sample.catalog, default⟩ default labelledPlaces (fun analysis _ => decide
      (analysis.query.queries.map (fun q => (q.scope, q.nested.map (·.scope))) =
        [(0, [1, 3, 4, 6, 7]), (1, [3, 4, 6, 7]), (3, []), (4, [6, 7]), (6, []), (7, [])]))
    (by decide +kernel)
  obtain ⟨-, hbelow, hnoted⟩ := ofQuery_records h
  refine ⟨analysis, requests, plan, scopes, h, hplan, of_decide_eq_true hcheck, hbelow, ?_⟩
  intro q hq
  obtain ⟨table, columns, hattribute, -, hcolumns, htypes⟩ := hnoted _ _ _ hplan q hq
  exact ⟨table, columns, hattribute, hcolumns, htypes⟩

end Plan

end SchemaQuery
