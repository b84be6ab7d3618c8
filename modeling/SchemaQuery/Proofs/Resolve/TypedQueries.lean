-- SUMMARY: All expressions of a resolved query have normal types, and its conditions are definite.
import SchemaQuery.Proofs.Resolve.Output
import SchemaQuery.Proofs.Resolve.TypedTerms
import SchemaQuery.Proofs.Resolve.Written
import SchemaQuery.Sample.Catalog
import SchemaQuery.Sample.Query

/-!
# Typed queries

Types pass from one query to another through tables: a nested query or a common
table expression becomes a table with the types of its output, and an outer join
makes the columns of a table nullable. All tables in scope keep to normal types
at every step, so the terms of all queries in a resolved one are typed
(`analyze_typed`).
-/

namespace SchemaQuery

namespace Resolve

variable {env : Env} {s s' : State}

/-! ## Steps on the scopes -/

/-- Marking a table as nullable changes no type that it holds. -/
theorem markAll_normal {scope : Nat} {as : List String} {scopes scopes' : Scopes}
    (hs : scopes.AllTables TableSymbol.NormalTypes)
    (h : markAll scope as scopes = .ok scopes') : scopes'.AllTables TableSymbol.NormalTypes := by
  induction as generalizing scopes with
  | nil =>
    cases h
    exact hs
  | cons a as ih =>
    obtain ⟨marked, hmark, hrest⟩ := markAll_cons.1 h
    refine ih (hs.modifyTable ?_ hmark) hrest
    exact fun _ ht => ⟨ht.columns, ht.row⟩

namespace NormalTables

theorem enter (hs : NormalTables s) {kind : ScopeKind} {name : String} {x : Unit}
    (h : enterScope kind name s = .ok x s') : NormalTables s' := by
  obtain rfl := run_enterScope_ok.1 h
  exact Scopes.AllTables.enter hs kind name

theorem leave (hs : NormalTables s) {x : Unit} (h : leaveScope s = .ok x s') :
    NormalTables s' := by
  obtain ⟨scopes, hleave, rfl⟩ := run_leaveScope_ok.1 h
  exact Scopes.AllTables.leave hs hleave

theorem add (hs : NormalTables s) {scope : Nat} {a : String} {table : TableSymbol}
    (htable : table.NormalTypes) (h : s.scopes.add scope a (.table table) = .ok s'.scopes) :
    NormalTables s' := by
  have hsat : (Symbol.table table).Satisfies TableSymbol.NormalTypes := htable
  exact Scopes.AllTables.add hs hsat h

theorem marked (hs : NormalTables s) {scope : Nat} {as : List String}
    (h : MarkedAll scope as s s') : NormalTables s' :=
  markAll_normal hs h.marked

theorem composed (hs : NormalTables s) {left right : BoundSource} {scope : Nat} {a : String}
    (h : compose left right scope s = .ok a s') : NormalTables s' :=
  hs.add ⟨by simp [TableSymbol.compound], rfl⟩ (compose_run h).2

end NormalTables

end Resolve

/-! ## Queries -/

/-- The conditions of the joins in a source. -/
def BoundSource.conditions : BoundSource → List Term
  | .schema .. | .inMemory .. | .subquery .. => []
  | .join _ _ left right condition => left.conditions ++ right.conditions ++ [condition]
  | .apply _ _ left right => left.conditions ++ right.conditions

/-- The terms of a body with its order, those in nested queries apart. -/
def BoundBody.terms (order : List SortKey) : BoundBody → List Term
  | .select s => s.clauses order
  | .setOperation .. => order.map (·.term)

/-- The conditions of a body: those of joins, on rows and on groups. -/
def BoundBody.conditions : BoundBody → List Term
  | .select s => s.source.conditions ++ s.filter.toList ++ s.having.toList
  | .setOperation .. => []

/-- Terms are typed, and those among them that are used as conditions are conditions. -/
structure TypedTerms (terms conditions : List Term) : Prop where
  typed : ∀ t ∈ terms, t.Typed
  conditions : ∀ p ∈ conditions, p.IsCondition

/-- The terms of a query itself are typed. -/
def BoundQuery.Typed (q : BoundQuery) : Prop :=
  TypedTerms (q.body.terms q.orderBy) q.body.conditions

theorem SortKey.typed_renameOutput {k : SortKey} (h : k.term.Typed) (names : List String) :
    (k.renameOutput names).term.Typed := by
  unfold renameOutput
  split
  · rename_i n index type hterm
    split
    · have htype : type.isNormal := by
        have hnormal := h.normal
        rwa [hterm] at hnormal
      exact .node htype trivial (by simp [Term.children])
    · exact h
  · exact h

theorem BoundQuery.Typed.renameOutput {q : BoundQuery} (h : q.Typed) (names : List String) :
    (q.renameOutput names).Typed := by
  obtain ⟨scope, ctes, body, orderBy, skip, take, output⟩ := q
  obtain ⟨htyped, hconditions⟩ := h
  cases body with
  | select s =>
    refine ⟨?_, hconditions⟩
    simp only [BoundBody.terms, BoundSelect.clauses, List.forall_mem_append,
      BoundQuery.renameOutput, BoundBody.renameOutput, map_term_renameFields] at htyped ⊢
    refine ⟨htyped.1, ?_⟩
    simp only [List.forall_mem_map] at htyped ⊢
    exact fun k hk => SortKey.typed_renameOutput (htyped.2 k hk) names
  | setOperation operator keys left right =>
    refine ⟨?_, hconditions⟩
    simp only [BoundBody.terms, BoundQuery.renameOutput, BoundBody.renameOutput,
      List.forall_mem_map] at htyped ⊢
    exact fun k hk => SortKey.typed_renameOutput (htyped k hk) names

namespace Resolve

section Cases

variable (env : Env)

-- The statements of the induction, one for each kind of node.

def TypesQuery (q : Query) : Prop :=
  ∀ {s s' : State} {b : BoundQuery}, NormalTables s → bindQuery env q s = .ok b s' →
    NormalTables s' ∧ (∀ c ∈ b.output, c.type.isNormal) ∧ ∀ q' ∈ b.queries, q'.Typed

def TypesCtes (ctes : List Cte) : Prop :=
  ∀ {scope : Nat} {s s' : State} {bs : List BoundCte}, NormalTables s →
    bindCtes env scope ctes s = .ok bs s' →
    NormalTables s' ∧ ∀ q' ∈ BoundQuery.queriesOfCtes bs, q'.Typed

def TypesBody (body : QueryBody) : Prop :=
  ∀ {scope : Nat} {orderBy : List OrderItem} {s s' : State} {b : BoundBody} {order : List SortKey}
    {output : List Column}, NormalTables s →
    bindBody env scope orderBy body s = .ok (b, order, output) s' →
    NormalTables s' ∧ (∀ c ∈ output, c.type.isNormal) ∧
      TypedTerms (b.terms order) b.conditions ∧ ∀ q' ∈ b.queries, q'.Typed

def TypesSource (src : Source) : Prop :=
  ∀ {ctx : Context} {usage : ColumnUsage} {s s' : State} {b : BoundSource}, ctx.groupBy = [] →
    NormalTables s → bindSource env usage src ctx s = .ok b s' →
    NormalTables s' ∧ TypedTerms b.clauses b.conditions ∧ ∀ q' ∈ b.queries, q'.Typed

end Cases

variable {env : Env}

theorem renameCte_typed {name : String} {columns : List String} {q q' : BoundQuery}
    (houtput : ∀ c ∈ q.output, c.type.isNormal) (hq : ∀ p ∈ q.queries, p.Typed)
    (h : renameCte name columns q = .ok q') :
    (∀ c ∈ q'.output, c.type.isNormal) ∧ ∀ p ∈ q'.queries, p.Typed := by
  unfold renameCte at h
  split at h
  · cases h
    exact ⟨houtput, hq⟩
  · split at h
    · cases h
    · cases h
      have htypes : ∀ t ∈ q.output.map (·.type), t.isNormal := List.forall_mem_map.2 houtput
      rw [← map_type_renameColumns q.output columns, ← BoundQuery.output_renameOutput] at htypes
      refine ⟨List.forall_mem_map.1 htypes, fun p hp => ?_⟩
      obtain ⟨p', hp', rfl | rfl⟩ := q.mem_queries_renameOutput columns p hp
      · exact hq p hp'
      · exact (hq p' hp').renameOutput columns

theorem typesCtes_nil : TypesCtes env [] := by
  intro scope s s' bs hs h
  simp only [bindCtes, run_pure_ok] at h
  obtain ⟨rfl, rfl⟩ := h
  exact ⟨hs, by simp [BoundQuery.queriesOfCtes]⟩

theorem typesCtes_cons {name : String} {columns : List String} {q : Query} {rest : List Cte}
    (hq : TypesQuery env q) (hrest : TypesCtes env rest) :
    TypesCtes env (⟨name, columns, q⟩ :: rest) := by
  intro scope s s' bs hs h
  simp only [bindCtes, run_bind_ok, run_ofExcept_ok, run_pure_ok] at h
  obtain ⟨_, s₁, henter, b, s₂, hbind, _, s₃, hleave, b', _, ⟨hrename, rfl⟩, _, s₄, hstep, bs', s₅,
    hctes, rfl, rfl⟩ := h
  obtain ⟨hs₂, houtput, hqueries⟩ := hq (hs.enter henter) hbind
  obtain ⟨houtput, hqueries⟩ := renameCte_typed houtput hqueries hrename
  obtain ⟨scopes, hadd, rfl⟩ := run_onScopes_ok.1 hstep
  have htable : (TableSymbol.plain name (.cte name) b'.output false .object).NormalTypes :=
    ⟨houtput, rfl⟩
  obtain ⟨hs₅, hqueries'⟩ := hrest ((hs₂.leave hleave).add htable hadd) hctes
  rw [BoundQuery.queriesOfCtes, List.forall_mem_append]
  exact ⟨hs₅, hqueries, hqueries'⟩

theorem typesBody_nullSource {distinct : Bool} {projection : List SelectItem}
    {filter : Option Expr} {groupBy : List Expr} {having : Option Expr} :
    TypesBody env (.select ⟨distinct, projection, none, filter, groupBy, having⟩) := by
  intro scope orderBy s s' b order output _ h
  simp [bindBody] at h

theorem typesBody_select (hc : env.catalog.NormalTypes) {distinct : Bool}
    {projection : List SelectItem} {source : Source} {filter : Option Expr} {groupBy : List Expr}
    {having : Option Expr} (hsource : TypesSource env source) :
    TypesBody env (.select ⟨distinct, projection, some source, filter, groupBy, having⟩) := by
  intro scope orderBy s s' b order output hs h
  simp only [bindBody, run_bind_ok, run_pure_ok, Prod.mk.injEq] at h
  obtain ⟨src, s₁, hsrc, ⟨sel, order'⟩, s₂, hblock, ⟨rfl, rfl, rfl⟩, rfl⟩ := h
  obtain ⟨hs₁, hterms, hqueries⟩ := @hsource (.ofScope scope) _ _ _ _ rfl hs hsrc
  obtain ⟨hs₂, hblockTerms⟩ := bindBlock_keeps (typeRules hc)
    ⟨⟨distinct, projection, some source, filter, groupBy, having⟩, orderBy⟩
    (nameRules_typed hc _) (fun item _ => spreadRules_typed item) hs₁ hblock
  obtain ⟨-, -, -, -, -, -, -, -, -, -, -, -, rfl, -⟩ := run_bindBlock_ok hblock
  refine ⟨hs₂, ?_, ⟨?_, ?_⟩, ?_⟩
  · intro c hcolumn
    obtain ⟨d, hd, htype⟩ := Column.type_of_mem_number hcolumn
    obtain ⟨f, hf, rfl⟩ := List.mem_map.1 hd
    exact htype ▸ (hblockTerms.fields f hf).normal
  · simp only [BoundBody.terms, BoundSelect.clauses, List.forall_mem_append, List.forall_mem_map,
      Option.mem_toList]
    exact ⟨⟨⟨⟨⟨hterms.typed, fun p hp => (hblockTerms.filter p hp).1⟩, hblockTerms.groupBy⟩,
      hblockTerms.fields⟩, fun p hp => (hblockTerms.having p hp).1⟩, hblockTerms.order⟩
  · simp only [BoundBody.conditions, List.forall_mem_append, Option.mem_toList]
    exact ⟨⟨hterms.conditions, fun p hp => (hblockTerms.filter p hp).2⟩,
      fun p hp => (hblockTerms.having p hp).2⟩
  · rwa [BoundBody.queries_select]

theorem bindOutputKey_typed {output : List Column} (houtput : ∀ c ∈ output, c.type.isNormal)
    {item : OrderItem} {k : SortKey} (hnumbered : Numbered output)
    (h : bindOutputKey env output item = .ok k) : k.term.Typed := by
  obtain ⟨c, hcolumn, hterm⟩ := bindOutputKey_readsOutput hnumbered h
  rw [hterm]
  exact .node (houtput c (List.mem_of_getElem? hcolumn)) trivial (by simp [Term.children])

theorem typesBody_setOperation {operator : SetOperator} {keys : List String} {left right : Query}
    (hl : TypesQuery env left) (hr : TypesQuery env right) :
    TypesBody env (.setOperation operator left right keys) := by
  intro scope orderBy s s' b order output hs h
  simp only [bindBody] at h
  cases hkeys : keys.isEmpty with
  | true => simp [hkeys, run_bind_ok] at h
  | false =>
    simp only [hkeys, Bool.false_eq_true, if_false, run_bind_ok, run_pure_ok, Prod.mk.injEq,
      run_ofExcept_ok] at h
    obtain ⟨_, s₁, henter, _, s₂, henterl, bl, s₃, hleft, _, s₄, hleavel, _, s₅, henterr, br, s₆,
      hright, _, s₇, hleaver, _, s₈, hleave, _, s₉, hcheck, order', _, ⟨horder, rfl⟩,
      ⟨rfl, rfl, rfl⟩, rfl⟩ := h
    obtain ⟨rfl, -⟩ := checkOperands_run hcheck
    obtain ⟨hs₃, houtput, hqueriesl⟩ := hl ((hs.enter henter).enter henterl) hleft
    obtain ⟨hs₆, -, hqueriesr⟩ := hr ((hs₃.leave hleavel).enter henterr) hright
    have hnumbered : Numbered bl.output :=
      (bindQuery_formed left hleft bl bl.self_mem_queries).numbered
    refine ⟨(hs₆.leave hleaver).leave hleave, houtput, ⟨?_, by simp [BoundBody.conditions]⟩, ?_⟩
    · rw [BoundBody.terms, List.forall_mem_map]
      intro k hk
      obtain ⟨item, -, hitem⟩ := mem_of_except_mapM horder hk
      exact bindOutputKey_typed houtput hnumbered hitem
    · rw [BoundBody.queries_setOperation, List.forall_mem_append]
      exact ⟨hqueriesl, hqueriesr⟩

theorem typesQuery_mk {body : QueryBody} {orderBy : List OrderItem} {skip take : Option Nat}
    {ctes : List Cte} (hctes : TypesCtes env ctes) (hbody : TypesBody env body) :
    TypesQuery env ⟨body, orderBy, skip, take, ctes⟩ := by
  intro s s' b hs h
  simp only [bindQuery, run_bind_ok, run_readScopes_ok, run_pure_ok] at h
  obtain ⟨scope, _, ⟨-, rfl⟩, bctes, s₁, hbctes, ⟨bbody, order, output⟩, s₂, hbbody, rfl, rfl⟩ := h
  obtain ⟨hs₁, hqueries⟩ := hctes hs hbctes
  obtain ⟨hs₂, houtput, hterms, hqueries'⟩ := hbody hs₁ hbbody
  refine ⟨hs₂, houtput, ?_⟩
  rw [BoundQuery.queries_eq, List.forall_mem_cons, List.forall_mem_append]
  exact ⟨hterms, hqueries, hqueries'⟩

theorem typesSource_schema (hc : env.catalog.NormalTypes) (schema method : String)
    (args : List Expr) (a : Option String) : TypesSource env (.schema schema method args a) := by
  intro ctx usage s s' b hlinks hs h
  simp only [bindSource] at h
  unfold bindSchemaSource at h
  cases hschema : env.catalog.schema? schema with
  | none => simp [hschema] at h
  | some provider =>
    simp only [hschema, run_bind_ok, run_pure_ok] at h
    obtain ⟨ts, u, hargs, r, v, halias, columns, x, hrequest, _, y, hstep, rfl, rfl⟩ := h
    have hprovider := hc.schemas provider (NameMap.mem_values_of_get? hschema)
    obtain ⟨hu, htyped⟩ := bindList_keeps (bindAll_keeps (typeRules hc) args (nameRules_typed hc _))
      hs (by simp [Context.withClause, hlinks]) hargs
    obtain ⟨⟨_, rfl⟩, -⟩ := run_aliasOr_ok halias
    obtain ⟨hcolumns, rfl⟩ := run_requestColumns_ok hrequest
    obtain ⟨scopes, hadd, rfl⟩ := run_onScopes_ok.1 hstep
    have htable : (TableSymbol.plain r.1 (.schema provider.name method) columns r.2
        (provider.rowType method)).NormalTypes :=
      ⟨hprovider.columns _ _ _ _ hcolumns, hprovider.row method⟩
    refine ⟨hu.add htable hadd, ⟨htyped, ?_⟩, ?_⟩
    · simp [BoundSource.conditions]
    · simp [BoundSource.queries]

theorem typesSource_inMemory (hc : env.catalog.NormalTypes) (name : String) (a : Option String) :
    TypesSource env (.inMemory name a) := by
  intro ctx usage s s' b _ hs h
  simp only [bindSource] at h
  obtain ⟨origin, tableOrigin, columns, rfl, hmemory, hadd⟩ := bindMemorySource_run h
  have hcolumns : ∀ c ∈ columns, c.type.isNormal := by
    rcases memoryTable_cases hmemory with ⟨t, hfound, -, -, rfl⟩ | ⟨hhost, -, -⟩
    · exact (hs.of_tryResolve hfound).columns
    · exact hc.inMemory columns (NameMap.mem_values_of_get? hhost)
  refine ⟨hs.add ⟨hcolumns, rfl⟩ hadd, ⟨?_, ?_⟩, ?_⟩
  · simp [BoundSource.clauses]
  · simp [BoundSource.conditions]
  · simp [BoundSource.queries]

theorem typesSource_subquery {q : Query} (a : Option String) (hq : TypesQuery env q) :
    TypesSource env (.subquery q a) := by
  intro ctx usage s s' b _ hs h
  simp only [bindSource, bindSubquerySource, run_bind_ok, run_pure_ok] at h
  obtain ⟨_, s₁, henter, bq, s₂, hbind, _, s₃, hleave, r, s₄, halias, _, s₅, hstep, rfl, rfl⟩ := h
  obtain ⟨hs₂, houtput, hqueries⟩ := hq (hs.enter henter) hbind
  obtain ⟨⟨_, rfl⟩, -⟩ := run_aliasOr_ok halias
  obtain ⟨scopes, hadd, rfl⟩ := run_onScopes_ok.1 hstep
  have htable : (TableSymbol.plain r.1 .subquery bq.output r.2 .object).NormalTypes :=
    ⟨houtput, rfl⟩
  refine ⟨(hs₂.leave hleave).add htable hadd, ⟨?_, ?_⟩, ?_⟩
  · simp [BoundSource.clauses]
  · simp [BoundSource.conditions]
  · rwa [BoundSource.queries]

theorem typesSource_join (hc : env.catalog.NormalTypes) (kind : JoinKind) {left right : Source}
    (condition : Expr) (hl : TypesSource env left) (hr : TypesSource env right) :
    TypesSource env (.join kind left right condition) := by
  intro ctx usage s s' b hlinks hs h
  simp only [bindSource, run_bind_ok] at h
  obtain ⟨bl, s₁, hleft, br, s₂, hright, h⟩ := h
  obtain ⟨u, hmark, a, v, c, hcompose, hcondition, rfl⟩ := run_bindJoin_ok h
  obtain ⟨hs₁, htermsl, hqueriesl⟩ := hl hlinks hs hleft
  obtain ⟨hs₂, htermsr, hqueriesr⟩ := hr hlinks hs₁ hright
  obtain ⟨hs', hp⟩ := bindPredicate_keeps (typeRules hc) (nameRules_typed hc _)
    ((hs₂.marked hmark).composed hcompose)
    (by simp [Context.withClause, Context.withAlias, hlinks]) hcondition
  refine ⟨hs', ⟨?_, ?_⟩, ?_⟩
  · simp only [BoundSource.clauses, List.forall_mem_append, List.forall_mem_singleton]
    exact ⟨⟨htermsl.typed, htermsr.typed⟩, hp.1⟩
  · simp only [BoundSource.conditions, List.forall_mem_append, List.forall_mem_singleton]
    exact ⟨⟨htermsl.conditions, htermsr.conditions⟩, hp.2⟩
  · simp only [BoundSource.queries, List.forall_mem_append]
    exact ⟨hqueriesl, hqueriesr⟩

theorem typesSource_apply (kind : ApplyKind) {left right : Source} (hl : TypesSource env left)
    (hr : TypesSource env right) : TypesSource env (.apply kind left right) := by
  intro ctx usage s s' b hlinks hs h
  simp only [bindSource, run_bind_ok] at h
  obtain ⟨bl, s₁, hleft, br, s₂, hright, h⟩ := h
  obtain ⟨u, hmark, a, hcompose, rfl⟩ := run_bindApply_ok h
  obtain ⟨hs₁, htermsl, hqueriesl⟩ := hl hlinks hs hleft
  obtain ⟨hs₂, htermsr, hqueriesr⟩ := @hr (ctx.withAlias bl.aliasName) _ _ _ _ hlinks hs₁ hright
  refine ⟨(hs₂.marked hmark).composed hcompose, ⟨?_, ?_⟩, ?_⟩
  · simp only [BoundSource.clauses, List.forall_mem_append]
    exact ⟨htermsl.typed, htermsr.typed⟩
  · simp only [BoundSource.conditions, List.forall_mem_append]
    exact ⟨htermsl.conditions, htermsr.conditions⟩
  · simp only [BoundSource.queries, List.forall_mem_append]
    exact ⟨hqueriesl, hqueriesr⟩

mutual

theorem bindQuery_typed (hc : env.catalog.NormalTypes) : ∀ q : Query, TypesQuery env q
  | ⟨body, _, _, _, ctes⟩ => typesQuery_mk (bindCtes_typed hc ctes) (bindBody_typed hc body)

theorem bindCtes_typed (hc : env.catalog.NormalTypes) : ∀ ctes : List Cte, TypesCtes env ctes
  | [] => typesCtes_nil
  | ⟨_, _, query⟩ :: rest => typesCtes_cons (bindQuery_typed hc query) (bindCtes_typed hc rest)

theorem bindBody_typed (hc : env.catalog.NormalTypes) : ∀ body : QueryBody, TypesBody env body
  | .select ⟨_, _, none, _, _, _⟩ => typesBody_nullSource
  | .select ⟨_, _, some source, _, _, _⟩ => typesBody_select hc (bindSource_typed hc source)
  | .setOperation _ left right _ =>
    typesBody_setOperation (bindQuery_typed hc left) (bindQuery_typed hc right)

theorem bindSource_typed (hc : env.catalog.NormalTypes) : ∀ source : Source, TypesSource env source
  | .schema schema method args a => typesSource_schema hc schema method args a
  | .inMemory name a => typesSource_inMemory hc name a
  | .subquery query a => typesSource_subquery a (bindQuery_typed hc query)
  | .join kind left right condition =>
    typesSource_join hc kind condition (bindSource_typed hc left) (bindSource_typed hc right)
  | .apply kind left right =>
    typesSource_apply kind (bindSource_typed hc left) (bindSource_typed hc right)

end

/-- Over a catalog of normal types the terms of every query in a resolved one are typed: they have
    normal types, and what is used as a condition is a plain truth value or a null literal. -/
theorem analyze_typed (hc : env.catalog.NormalTypes) {q : Query} {a : Analysis}
    {requests : List TableRequest} (h : analyze env q = (.ok a, requests)) :
    ∀ q' ∈ a.query.queries, q'.Typed := by
  obtain ⟨s, hbind, -⟩ := run_analyze_ok h
  have hinitial : NormalTables
      { State.initial with scopes := (Scopes.empty.entered .query "Query") } :=
    Scopes.AllTables.empty.enter .query "Query"
  exact (bindQuery_typed hc q hinitial hbind).2.2

/-- Stands for `with paid (Person, Paid) as (select PersonId, IsPaid from #B.orders() o)
    select a.Name, case when p.Paid then a.Id else null end
    from #A.entities() a left outer join paid p on a.Id = p.Person and p.Paid
    where not p.Paid` -/
def paidOrders : Query :=
  (Query.ofSelect ((((Select.empty.addExpr (.ofColumn "a" "Name")).addExpr
    (.ofBranches [(.ofColumn "p" "Paid", .ofColumn "a" "Id")] (some .ofNull))).withSource
      (.join .leftOuter (Sample.entitiesAs "a") ((Source.ofMemory "paid").withAlias "p")
        (.conj (.equals (.ofColumn "a" "Id") (.ofColumn "p" "Person"))
          (.ofColumn "p" "Paid")))).withFilter (.negate (.ofColumn "p" "Paid")))).withCtes
    [⟨"paid", ["Person", "Paid"], .ofSelect (((Select.empty.addExpr
      (.identifier "PersonId")).addExpr (.identifier "IsPaid")).withSource (Sample.ordersAs "o"))⟩]

/-- The nullable column `Paid` of the common table expression is read as a condition in a join, in a
    filter and in a `case`, and is made definite each time. -/
theorem analyze_typed_paidOrders : ∃ analysis requests,
    Sample.catalog.NormalTypes ∧
    analyze ⟨Sample.catalog, default⟩ paidOrders = (.ok analysis, requests) ∧
    (analysis.query.queries.map fun q => (q.body.terms q.orderBy).map (·.type)) =
      [[.boolean, .boolean, .string, .nullable .int], [.int, .nullable .boolean]] ∧
    ∀ q ∈ analysis.query.queries, q.Typed := by
  have hschemas : Sample.catalog.schemas.values = [Sample.people.toSchema, Sample.orders.toSchema] :=
    rfl
  have hc : Sample.catalog.NormalTypes := by
    refine ⟨by decide +kernel, by decide +kernel, ?_, by decide +kernel⟩
    rw [hschemas, List.forall_mem_cons, List.forall_mem_singleton]
    exact ⟨StaticSchema.normalTypes (by decide +kernel),
      StaticSchema.normalTypes (by decide +kernel)⟩
  obtain ⟨analysis, requests, h, hcheck⟩ := exists_ok_of_check
    (analyze ⟨Sample.catalog, default⟩ paidOrders) (fun a => decide
      ((a.query.queries.map fun q => (q.body.terms q.orderBy).map (·.type)) =
        [[.boolean, .boolean, .string, .nullable .int], [.int, .nullable .boolean]]))
    (by decide +kernel)
  exact ⟨analysis, requests, hc, h, of_decide_eq_true hcheck, analyze_typed hc h⟩

end Resolve

end SchemaQuery
