-- SUMMARY: A resolved query has a plan exactly when it is not nested too deeply.
import SchemaQuery.Proofs.Plan.Block
import SchemaQuery.Proofs.Plan.Moves
import SchemaQuery.Proofs.Plan.Updates
import SchemaQuery.Proofs.Resolve.Query
import SchemaQuery.Sample.Catalog
import SchemaQuery.Sample.Query

/-!
# Outcome of planning

Resolution and planning walk over a query independently. Every lookup and every
redirection that planning makes was prepared by resolution, so planning can only
fail by going too deep: `ofQuery_of_analyze` says exactly when it does, and with
which error.
-/

namespace SchemaQuery.Plan

/-! ## Statements of the induction -/

section Induction

variable (s : Scopes) (limit : Nat) (qs : List BoundQuery)

/-- The relation around a source, if there is one, carries the leaves that its terms may read. -/
def CarriesOuter (outer : Option Relation) (leaves : List (String × List Column)) : Prop :=
  leaves = [] ∧ outer = none ∨ ∃ r, outer = some r ∧ r.leaves = leaves.map (·.1)

def PlansQuery (q : BoundQuery) : Prop :=
  q.queries ⊆ qs → ∀ destination, GoesDown s limit q.depth (planQuery q destination) fun _ => True

def PlansCtes (ctes : List BoundCte) : Prop :=
  BoundQuery.queriesOfCtes ctes ⊆ qs →
    GoesDown s limit (BoundQuery.depthOfCtes ctes) (planCtes ctes) fun _ => True

def PlansBody (body : BoundBody) : Prop :=
  ∀ orderBy skip take output destination, body.queries ⊆ qs →
    (∀ b, body = .select b → b.block orderBy ∈ BoundQuery.blocksOf qs) →
    GoesDown s limit body.depth (planBody orderBy skip take output body destination) fun _ => True

def PlansSource (src : BoundSource) : Prop :=
  ∀ {scope : Nat} {outer : Option Relation} {leaves : List (String × List Column)} needs,
    src.queries ⊆ qs → SourceBound s scope src → src.Reads leaves → CarriesOuter outer leaves →
    GoesDown s limit src.depth (planSource scope src needs outer) fun r =>
      r.leaves = src.leafAliases

end Induction

variable {s : Scopes} {limit : Nat} {qs : List BoundQuery}

/-! ## Sources -/

theorem plansSource_schema (a schema method : String) (args : List Term) (columns : List Column)
    (type : DataType) : PlansSource s limit qs (.schema a schema method args columns type) := by
  intro scope outer leaves needs _ _ hreads houter
  have hargs : ∃ args', scanArguments outer args = .ok args' := by
    rcases houter with ⟨-, rfl⟩ | ⟨r, rfl, hr⟩
    · exact ⟨args, rfl⟩
    · exact ⟨_, relocateAll_of_reads hreads (carried_of_leaves hr.symm)⟩
  obtain ⟨args', hargs'⟩ := hargs
  simp only [planSource, BoundSource.depth]
  exact (GoesDown.liftExcept hargs').after fun _ _ => .pure rfl

/-- Joining two relations over the leaves of a source. -/
theorem joinRelations_level {scope : Nat} {src : BoundSource} {a : String} {kind : LoopKind}
    {condition : Option Term} {outer : Option Relation} {left right : Relation}
    (hs : s.Ordered) (hsrc : SourceBound s scope src)
    (hleaves : left.leaves ++ right.leaves = src.leafAliases)
    (hcondition : ∀ x ∈ condition.toList, ∀ u ∈ x.subterms, u.ReadsFrom src.leaves)
    (needs : ColumnNeeds) :
    GoesDown s limit 0 (joinRelations scope a kind condition needs outer left right) fun r =>
      r.leaves = src.leafAliases := by
  obtain ⟨tables, ht⟩ := hsrc.leafTables
  have hcarried : Carried ([left, right] ++ outer.toList) src.leaves := by
    intro l hl
    have hmem : l.1 ∈ left.leaves ++ right.leaves := by
      rw [hleaves, ← src.map_leaves]
      exact List.mem_map_of_mem hl
    rcases List.mem_append.1 hmem with hmem | hmem <;> simp [Relation.carries, hmem]
  refine GoesDown.get.after fun st hst => ?_
  have hcolumns := trimmedColumns_of_leafTables (hst.scopes.ordered hs)
    (ht.frame fun k => hst.scopes.find k scope) needs
  rw [← hleaves] at hcolumns
  refine (GoesDown.liftExcept hcolumns).after fun sources _ => ?_
  refine (GoesDown.liftExcept (relocateOption_of_reads hcondition hcarried)).after fun _ _ => ?_
  refine (declare_level _ _ _).after fun table _ => ?_
  exact (emit_level _).after fun _ _ => .pure hleaves

theorem plansSource_join {a : String} {kind : JoinKind} {left right : BoundSource}
    {condition : Term} (hs : s.Ordered) (hl : PlansSource s limit qs left)
    (hr : PlansSource s limit qs right) :
    PlansSource s limit qs (.join a kind left right condition) := by
  intro scope outer leaves needs hqs hsrc hreads houter
  obtain ⟨hreadsl, hreadsr, hcondition⟩ := hreads
  simp only [BoundSource.queries, List.append_subset] at hqs
  simp only [planSource, BoundSource.depth]
  refine (hl _ hqs.1 (fun p hp => hsrc p (by simp [BoundSource.parts, hp])) hreadsl houter).bind
    fun leftRelation hleft => ?_
  refine (hr _ hqs.2 (fun p hp => hsrc p (by simp [BoundSource.parts, hp])) hreadsr houter).seq
    fun rightRelation hright => ?_
  refine joinRelations_level hs hsrc ?_ ?_ needs
  · rw [hleft, hright]
    rfl
  · simpa [BoundSource.leaves] using hcondition

theorem plansSource_apply {a : String} {kind : ApplyKind} {left right : BoundSource}
    (hs : s.Ordered) (hl : PlansSource s limit qs left) (hr : PlansSource s limit qs right) :
    PlansSource s limit qs (.apply a kind left right) := by
  intro scope outer leaves needs hqs hsrc hreads houter
  obtain ⟨hreadsl, hreadsr⟩ := hreads
  simp only [BoundSource.queries, List.append_subset] at hqs
  simp only [planSource, BoundSource.depth]
  refine (hl _ hqs.1 (fun p hp => hsrc p (by simp [BoundSource.parts, hp])) hreadsl houter).bind
    fun leftRelation hleft => ?_
  -- the applied source reads the left relation and nothing further out
  refine (hr _ hqs.2 (fun p hp => hsrc p (by simp [BoundSource.parts, hp])) hreadsr
    (.inr ⟨leftRelation, rfl, hleft.trans left.map_leaves.symm⟩)).seq fun rightRelation hright => ?_
  refine joinRelations_level hs hsrc ?_ (by simp) needs
  rw [hleft, hright]
  rfl

theorem plansSource_subquery {a : String} {q : BoundQuery} {columns : List Column}
    (hq : PlansQuery s limit qs q) : PlansSource s limit qs (.subquery a q columns) := by
  intro scope outer leaves needs hqs _ _ _
  simp only [BoundSource.queries] at hqs
  simp only [planSource, BoundSource.depth]
  exact (hq hqs .fresh).seq fun _ _ => .pure rfl

theorem plansSource_inMemory (a table : String) (origin : MemoryOrigin) (columns : List Column) :
    PlansSource s limit qs (.inMemory a table origin columns) := by
  intro scope outer leaves needs _ _ _ _
  simp only [planSource, BoundSource.depth]
  exact .pure rfl

/-! ## Set operators -/

theorem rightTable_level (operator : SetOperator) (left : String) (output : List Column) :
    GoesDown s limit 0 (rightTable operator left output) fun _ => True := by
  cases operator with
  | unionAll => exact .pure trivial
  | union | intersect | except => exact declare_level _ _ _

theorem combineTables_level (operator : SetOperator) (keys : List String) (output : List Column)
    (left right : String) :
    GoesDown s limit 0 (combineTables operator keys output left right) fun _ => True := by
  cases operator with
  | unionAll => exact .pure trivial
  | union => exact (emit_level _).after fun _ _ => .pure trivial
  | intersect | except =>
    exact (declare_level _ _ _).after fun _ _ => (emit_level _).after fun _ _ => .pure trivial

theorem finishSetQuery_level (orderBy : List SortKey) (skip take : Option Nat)
    (output : List Column) (table : String) (destination : Destination) :
    GoesDown s limit 0 (finishSetQuery orderBy skip take output table destination)
      fun _ => True := by
  unfold finishSetQuery
  split
  · exact (destination_level _ _ _).after fun _ _ => (emit_level _).after fun _ _ => .pure trivial
  · exact .pure trivial

/-! ## Queries -/

theorem plansBody_setOperation {operator : SetOperator} {keys : List String}
    {left right : BoundQuery} (hl : PlansQuery s limit qs left) (hr : PlansQuery s limit qs right) :
    PlansBody s limit qs (.setOperation operator keys left right) := by
  intro orderBy skip take output destination hqs _
  simp only [BoundBody.queries_setOperation, List.append_subset] at hqs
  rw [BoundBody.depth_setOperation]
  simp only [planBody]
  refine (hl hqs.1 .fresh).bind fun leftTable _ => ?_
  refine (rightTable_level _ _ _).after fun table _ => ?_
  refine (hr hqs.2 _).seq fun rightTable _ => ?_
  refine (combineTables_level _ _ _ _ _).after fun table _ => ?_
  exact finishSetQuery_level _ _ _ _ _ _

theorem plansBody_select {b : BoundSelect} (hs : s.Ordered)
    (hsealed : Sealed PlainName s 0 s.all.length qs) (hsource : PlansSource s limit qs b.source) :
    PlansBody s limit qs (.select b) := by
  intro orderBy skip take output destination hqs hblock
  have hmem := hblock b rfl
  obtain ⟨-, -, hbound⟩ := hsealed.blocks _ hmem
  rw [BoundBody.queries_select] at hqs
  rw [BoundBody.depth_select, planBody_select]
  refine GoesDown.get.after fun st hst => ?_
  -- the scopes at hand bind what the resolved scopes bind
  have hsealed' : Sealed PlainName st.scopes 0 st.scopes.all.length qs :=
    hst.scopes.length ▸ hsealed.frame fun i _ _ k => hst.scopes.find k i
  obtain ⟨calls, hcalls, leaves, hnames, hreads⟩ :=
    refreshCalls_of_sealed (hst.scopes.ordered hs) hsealed' hmem
  refine (GoesDown.liftExcept hcalls).after ?_
  rintro _ rfl
  refine (hsource _ hqs hbound.source hbound.sourceReads (.inl ⟨rfl, rfl⟩)).seq
    fun relation hrelation => ?_
  exact planBlock_level hbound hrelation hnames hreads skip take output destination

theorem plansQuery_mk {scope : Nat} {ctes : List BoundCte} {body : BoundBody}
    {orderBy : List SortKey} {skip take : Option Nat} {output : List Column}
    (hsealed : Sealed PlainName s 0 s.all.length qs) (hctes : PlansCtes s limit qs ctes)
    (hbody : PlansBody s limit qs body) :
    PlansQuery s limit qs ⟨scope, ctes, body, orderBy, skip, take, output⟩ := by
  intro hqs destination
  rw [BoundQuery.queries_eq, List.cons_subset, List.append_subset] at hqs
  obtain ⟨hself, hqsc, hqsb⟩ := hqs
  have hscope : scope < s.all.length := (hsealed.scopes _ hself).2
  have hblock : ∀ b, body = .select b → b.block orderBy ∈ BoundQuery.blocksOf qs := by
    rintro b rfl
    exact List.mem_filterMap.2 ⟨_, hself, rfl⟩
  rw [BoundQuery.depth_eq]
  have hinner := (hctes hqsc).bind fun _ _ => hbody orderBy skip take output destination hqsb hblock
  have hnest := hinner.nest fun table _ => (setTableAttribute_level hscope table).after
    fun _ _ => GoesDown.pure (Q := fun _ => True) (a := table) trivial
  simpa only [planQuery, bind_assoc] using hnest

theorem plansCtes_nil : PlansCtes s limit qs [] := by
  intro _
  simp only [planCtes, BoundQuery.depthOfCtes]
  exact .pure trivial

theorem plansCtes_cons {name : String} {q : BoundQuery} {rest : List BoundCte}
    (hq : PlansQuery s limit qs q) (hrest : PlansCtes s limit qs rest) :
    PlansCtes s limit qs (⟨name, q⟩ :: rest) := by
  intro hqs
  simp only [BoundQuery.queriesOfCtes, List.append_subset] at hqs
  simp only [planCtes, BoundQuery.depthOfCtes]
  exact (hq hqs.1 .fresh).bind fun _ _ => (emit_level _).after fun _ _ => hrest hqs.2

mutual

theorem planQuery_goesDown (hs : s.Ordered) (hsealed : Sealed PlainName s 0 s.all.length qs) :
    ∀ q : BoundQuery, PlansQuery s limit qs q
  | ⟨_, ctes, body, _, _, _, _⟩ =>
    plansQuery_mk hsealed (planCtes_goesDown hs hsealed ctes) (planBody_goesDown hs hsealed body)

theorem planCtes_goesDown (hs : s.Ordered) (hsealed : Sealed PlainName s 0 s.all.length qs) :
    ∀ ctes : List BoundCte, PlansCtes s limit qs ctes
  | [] => plansCtes_nil
  | ⟨_, query⟩ :: rest =>
    plansCtes_cons (planQuery_goesDown hs hsealed query) (planCtes_goesDown hs hsealed rest)

theorem planBody_goesDown (hs : s.Ordered) (hsealed : Sealed PlainName s 0 s.all.length qs) :
    ∀ body : BoundBody, PlansBody s limit qs body
  | .select ⟨_, source, _, _, _, _, _⟩ =>
    plansBody_select hs hsealed (planSource_goesDown hs hsealed source)
  | .setOperation _ _ left right =>
    plansBody_setOperation (planQuery_goesDown hs hsealed left) (planQuery_goesDown hs hsealed right)

theorem planSource_goesDown (hs : s.Ordered) (hsealed : Sealed PlainName s 0 s.all.length qs) :
    ∀ src : BoundSource, PlansSource s limit qs src
  | .schema a schema method args columns type => plansSource_schema a schema method args columns type
  | .inMemory a table origin columns => plansSource_inMemory a table origin columns
  | .subquery _ query _ => plansSource_subquery (planQuery_goesDown hs hsealed query)
  | .join _ _ left right _ =>
    plansSource_join hs (planSource_goesDown hs hsealed left) (planSource_goesDown hs hsealed right)
  | .apply _ _ left right =>
    plansSource_apply hs (planSource_goesDown hs hsealed left) (planSource_goesDown hs hsealed right)

end

/-! ## Resolved queries -/

/-- A resolved query with plain names has a plan exactly when its queries are nested no deeper than
    the limit, and otherwise planning ends with the error of going one query too deep. -/
theorem ofQuery_of_analyze {env : Resolve.Env} {q : Query} {analysis : Resolve.Analysis}
    {requests : List TableRequest} (hauto : PlainName env.config.autoAliasPrefix)
    (hnames : ∀ n ∈ q.sourceNames, PlainName n)
    (h : Resolve.analyze env q = (.ok analysis, requests)) (config : PlanConfig) :
    ((∃ plan scopes, ofQuery config analysis.scopes analysis.query = .ok (plan, scopes)) ↔
      q.depth ≤ config.maxDepth) ∧
    (config.maxDepth < q.depth → ofQuery config analysis.scopes analysis.query =
      .error (.recursionLimitExceeded "query lowering" (config.maxDepth + 1) config.maxDepth)) := by
  obtain ⟨hs, hsealed, hdepth⟩ := Resolve.analyze_sealed
    (fun n => hauto.append (plainName_toString n)) hnames h
  have hstart : Steady analysis.scopes config.maxDepth ⟨analysis.scopes, .empty config⟩ :=
    ⟨⟨rfl, fun _ => rfl, fun _ _ => rfl⟩, rfl, Nat.zero_le _⟩
  obtain ⟨hok, herror⟩ :=
    planQuery_goesDown hs hsealed analysis.query (List.Subset.refl _) .fresh _ hstart
  rw [hdepth] at hok herror
  have hfail (hlt : config.maxDepth < q.depth) : ofQuery config analysis.scopes analysis.query =
      .error (limitError config.maxDepth) := by
    obtain ⟨st, hrun⟩ := herror (by simpa [Draft.empty] using hlt)
    simp only [ofQuery, EStateM.run, hrun]
  refine ⟨⟨?_, ?_⟩, hfail⟩
  · rintro ⟨plan, scopes, hplan⟩
    by_contra hle
    rw [hfail (Nat.lt_of_not_le hle)] at hplan
    cases hplan
  · intro hle
    obtain ⟨table, st, hrun, -⟩ := hok (by simpa [Draft.empty] using hle)
    exact ⟨⟨st.draft.nodes, table, analysis.query.output⟩, st.scopes, by
      simp only [ofQuery, EStateM.run, hrun]⟩

/-- A block over a grouped common table expression with renamed columns, planned with just enough
    depth and with too little. -/
theorem ofQuery_of_analyze_groupedCte :
    ∃ analysis requests, Resolve.analyze ⟨Sample.catalog, default⟩
        (Sample.simpleCte.withCtes [⟨"p", ["Name", "Total"], Sample.groupByWithHaving⟩]) =
        (.ok analysis, requests) ∧
      (∃ plan scopes, ofQuery ⟨"__t", 2⟩ analysis.scopes analysis.query = .ok (plan, scopes)) ∧
      ofQuery ⟨"__t", 1⟩ analysis.scopes analysis.query =
        .error (.recursionLimitExceeded "query lowering" 2 1) := by
  obtain ⟨analysis, requests, h, -⟩ := exists_ok_of_check (Resolve.analyze ⟨Sample.catalog, default⟩
      (Sample.simpleCte.withCtes [⟨"p", ["Name", "Total"], Sample.groupByWithHaving⟩]))
    (fun _ => true) (by decide +kernel)
  have hplan := ofQuery_of_analyze (by decide) (by decide +kernel) h
  exact ⟨analysis, requests, h, (hplan ⟨"__t", 2⟩).1.2 (by decide +kernel),
    (hplan ⟨"__t", 1⟩).2 (by decide +kernel)⟩

end SchemaQuery.Plan
