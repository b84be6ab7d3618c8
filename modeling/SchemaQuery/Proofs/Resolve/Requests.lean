-- SUMMARY: Schemas are asked for every column that is read from them, but for columns written only as qualifiers.
import SchemaQuery.Proofs.Resolve.Query
import SchemaQuery.Proofs.Resolve.Written
import SchemaQuery.Sample.Catalog
import SchemaQuery.Sample.Query

/-!
# Requested columns

A schema is asked for the columns of a table before any name is resolved, by what
a select block has written. Which columns are read is known later. `analyze_answers`
pairs the requests of a resolved query with its tables, in the order of resolution.
A request names every column that is read from its table, with one exception: a
column that is written only before a dot, as in `Self.Name`, is taken for an alias
and is not asked for.
-/

namespace SchemaQuery

/-! ## Tables of a query -/

mutual

/-- The blocks in which a query uses tables of schemas, one for each use, in the order of
    resolution. -/
def Query.tableUses : Query → List WrittenBlock
  | ⟨body, orderBy, _, _, ctes⟩ => Query.tableUsesOfCtes ctes ++ body.tableUses orderBy

def Query.tableUsesOfCtes : List Cte → List WrittenBlock
  | [] => []
  | ⟨_, _, query⟩ :: rest => query.tableUses ++ Query.tableUsesOfCtes rest

def QueryBody.tableUses (orderBy : List OrderItem) : QueryBody → List WrittenBlock
  | .select ⟨_, _, none, _, _, _⟩ => []
  | .select ⟨distinct, projection, some source, filter, groupBy, having⟩ =>
    source.tableUses ⟨⟨distinct, projection, some source, filter, groupBy, having⟩, orderBy⟩
  | .setOperation _ left right _ => left.tableUses ++ right.tableUses

def Source.tableUses (block : WrittenBlock) : Source → List WrittenBlock
  | .schema .. => [block]
  | .inMemory .. => []
  | .subquery query _ => query.tableUses
  | .join _ left right _ | .apply _ left right => left.tableUses block ++ right.tableUses block

end

/-- A bound table of a schema, with all columns that its block reads from any table. -/
structure TableRead where
  aliasName : String
  schema : String
  blockReads : List (String × String)
deriving DecidableEq

mutual

/-- The tables of schemas in a bound query, in the order of resolution. -/
def BoundQuery.tableReads : BoundQuery → List TableRead
  | ⟨_, ctes, body, orderBy, _, _, _⟩ =>
    BoundQuery.tableReadsOfCtes ctes ++ body.tableReads orderBy

def BoundQuery.tableReadsOfCtes : List BoundCte → List TableRead
  | [] => []
  | ⟨_, query⟩ :: rest => query.tableReads ++ BoundQuery.tableReadsOfCtes rest

def BoundBody.tableReads (orderBy : List SortKey) : BoundBody → List TableRead
  | .select ⟨scope, source, filter, groupBy, grouping, having, fields⟩ =>
    source.tableReads (((⟨scope, source, filter, groupBy, grouping, having, fields⟩ :
      BoundSelect).clauses orderBy).flatMap Term.reads)
  | .setOperation _ _ left right => left.tableReads ++ right.tableReads

def BoundSource.tableReads (blockReads : List (String × String)) : BoundSource → List TableRead
  | .schema a schema _ _ _ _ => [⟨a, schema, blockReads⟩]
  | .inMemory .. => []
  | .subquery _ query _ => query.tableReads
  | .join _ _ left right _ | .apply _ _ left right =>
    left.tableReads blockReads ++ right.tableReads blockReads

end

namespace BoundBody

theorem tableReads_select (orderBy : List SortKey) (s : BoundSelect) :
    (select s).tableReads orderBy =
      s.source.tableReads ((s.clauses orderBy).flatMap Term.reads) := by
  cases s
  simp [tableReads]

end BoundBody

namespace BoundQuery

theorem tableReads_eq (q : BoundQuery) :
    q.tableReads = tableReadsOfCtes q.ctes ++ q.body.tableReads q.orderBy := by
  cases q
  simp [tableReads]

/-- A sort key reads the same columns after the output is renamed. -/
theorem reads_renameOutput (k : SortKey) (names : List String) :
    (k.renameOutput names).term.reads = k.term.reads := by
  unfold SortKey.renameOutput
  split
  · rename_i n i type hterm
    split
    · rw [hterm]
      rfl
    · rfl
  · rfl

theorem tableReads_renameOutput (names : List String) : ∀ q : BoundQuery,
    (q.renameOutput names).tableReads = q.tableReads
  | ⟨scope, ctes, .select s, orderBy, skip, take, output⟩ => by
    rw [renameOutput, BoundBody.renameOutput, tableReads_eq, tableReads_eq,
      BoundBody.tableReads_select, BoundBody.tableReads_select]
    simp only [BoundSelect.clauses, map_term_renameFields, List.flatMap_append, List.map_map,
      List.flatMap_map, Function.comp_def, reads_renameOutput]
  | ⟨scope, ctes, .setOperation operator keys left right, orderBy, skip, take, output⟩ => by
    rw [renameOutput, BoundBody.renameOutput, tableReads_eq, tableReads_eq, BoundBody.tableReads,
      BoundBody.tableReads, tableReads_renameOutput names left, tableReads_renameOutput names right]

end BoundQuery

/-! ## Answered requests -/

/-- A column that is written before a dot, and nowhere asked for. -/
def WrittenBlock.OnlyQualifies (w : WrittenBlock) (a n : String) : Prop :=
  ¬ w.Asks a n ∧ w.Qualifies n

instance (w : WrittenBlock) (a n : String) : Decidable (w.OnlyQualifies a n) :=
  inferInstanceAs (Decidable (_ ∧ _))

/-- A request was made for a table of a block, and it misses the columns that are written as
    qualifiers only. -/
structure RequestFor (w : WrittenBlock) (t : TableRead) (r : TableRequest) : Prop where
  key : r.key = Catalog.key t.schema
  aliasName : r.context.aliasName = t.aliasName
  columns : ∀ n, (t.aliasName, n) ∈ t.blockReads →
    (r.context.requested.contains n = false ↔ w.OnlyQualifies t.aliasName n)

/-- The requests for some tables, one by one. -/
inductive Answered : List WrittenBlock → List TableRead → List TableRequest → Prop where
  | nil : Answered [] [] []
  | cons {w : WrittenBlock} {t : TableRead} {r : TableRequest} {ws : List WrittenBlock}
      {ts : List TableRead} {rs : List TableRequest} (h : RequestFor w t r)
      (hrest : Answered ws ts rs) : Answered (w :: ws) (t :: ts) (r :: rs)

theorem Answered.append {ws ws' : List WrittenBlock} {ts ts' : List TableRead}
    {rs rs' : List TableRequest} (h : Answered ws ts rs) (h' : Answered ws' ts' rs') :
    Answered (ws ++ ws') (ts ++ ts') (rs ++ rs') := by
  induction h with
  | nil => exact h'
  | cons h _ ih => exact .cons h ih

theorem Answered.of_singleton {ws : List WrittenBlock} {t : TableRead} {rs : List TableRequest}
    (h : Answered ws [t] rs) : ∃ w r, ws = [w] ∧ rs = [r] ∧ RequestFor w t r := by
  cases h with
  | cons h hrest =>
    cases hrest
    exact ⟨_, _, rfl, rfl, h⟩

namespace Resolve

/-! ## Steps on the state -/

section Steps

variable {env : Env} {s s' : State}

theorem addTable_requests {scope : Nat} {t : TableSymbol} {x : Unit}
    (h : addTable scope t s = .ok x s') : s'.requests = s.requests := by
  obtain ⟨scopes, -, rfl⟩ := run_onScopes_ok.1 h
  rfl

theorem compose_requests {left right : BoundSource} {scope : Nat} {a : String}
    (h : compose left right scope s = .ok a s') : s'.requests = s.requests := by
  obtain ⟨_, _, hadd, hpure⟩ := run_bind_ok.1 h
  obtain ⟨-, rfl⟩ := run_pure_ok.1 hpure
  exact addTable_requests hadd

theorem MarkedAll.requests {as : List String} {scope : Nat} (h : MarkedAll scope as s s') :
    s'.requests = s.requests := by
  rw [h.state]

end Steps

/-! ## The induction -/

/-- Between two states requests were made for some tables. -/
def Asked (ws : List WrittenBlock) (ts : List TableRead) (s s' : State) : Prop :=
  ∃ rs, s'.requests = s.requests ++ rs ∧ Answered ws ts rs

section Asked

variable {ws ws' : List WrittenBlock} {ts ts' : List TableRead} {s u s' : State}

theorem Asked.nil (h : s'.requests = s.requests) : Asked [] [] s s' :=
  ⟨[], by rw [h, List.append_nil], .nil⟩

theorem Asked.append (h : Asked ws ts s u) (h' : Asked ws' ts' u s') :
    Asked (ws ++ ws') (ts ++ ts') s s' := by
  obtain ⟨rs, hrs, hanswered⟩ := h
  obtain ⟨rs', hrs', hanswered'⟩ := h'
  exact ⟨rs ++ rs', by rw [hrs', hrs, List.append_assoc], hanswered.append hanswered'⟩

theorem Asked.after (h : Asked ws ts s u) (hpost : s'.requests = u.requests) :
    Asked ws ts s s' := by
  unfold Asked
  rw [hpost]
  exact h

/-- Entering and leaving a scope makes no requests. -/
theorem Asked.nested {kind : ScopeKind} {name : String} {s s₁ s₂ s' : State} {x y : Unit}
    (h : Asked ws ts s₁ s₂) (henter : enterScope kind name s = .ok x s₁)
    (hleave : leaveScope s₂ = .ok y s') : Asked ws ts s s' := by
  obtain rfl := run_enterScope_ok.1 henter
  obtain ⟨scopes, -, rfl⟩ := run_leaveScope_ok.1 hleave
  exact h

end Asked

-- The statements of the induction, one for each kind of node.

section Cases

variable (env : Env)

def AsksQuery (q : Query) : Prop :=
  ∀ {s s' : State} {b : BoundQuery}, bindQuery env q s = .ok b s' →
    Asked q.tableUses b.tableReads s s'

def AsksCtes (ctes : List Cte) : Prop :=
  ∀ {scope : Nat} {s s' : State} {bs : List BoundCte}, bindCtes env scope ctes s = .ok bs s' →
    Asked (Query.tableUsesOfCtes ctes) (BoundQuery.tableReadsOfCtes bs) s s'

def AsksBody (body : QueryBody) : Prop :=
  ∀ {scope : Nat} {orderBy : List OrderItem} {s s' : State}
    {r : BoundBody × List SortKey × List Column}, bindBody env scope orderBy body s = .ok r s' →
    Asked (body.tableUses orderBy) (r.1.tableReads r.2.1) s s'

/-- The terms in a source read what its block has written. The requests are right whatever else the
    block reads of this kind, since its clauses are bound later. -/
def AsksSource (source : Source) : Prop :=
  ∀ {w : WrittenBlock} {ctx : Context} {s s' : State} {b : BoundSource}, ctx.groupBy = [] →
    Admits w.MayRead source.references →
    bindSource env (.collect w.select w.orderBy) source ctx s = .ok b s' →
    (∀ t ∈ b.clauses, t.ReadsOnly w.MayRead) ∧
    ∀ reads : List (String × String), (∀ a n, (a, n) ∈ reads → w.MayRead a n) →
      Asked (source.tableUses w) (b.tableReads reads) s s'

end Cases

variable {env : Env}

/-- A request with the usage of a block. -/
theorem requestFor_collect {w : WrittenBlock} {t : TableRead} (environment : NameMap String)
    (hreads : ∀ a n, (a, n) ∈ t.blockReads → w.MayRead a n) :
    RequestFor w t ⟨Catalog.key t.schema, t.aliasName,
      (ColumnUsage.collect w.select w.orderBy).requestedFor t.aliasName, environment⟩ where
  key := rfl
  aliasName := rfl
  columns := by
    intro n hn
    rw [← Bool.not_eq_true, ColumnUsage.contains_requestedFor_collect]
    exact ⟨fun hasks => ⟨hasks, (hreads _ n hn).resolve_left hasks⟩, fun honly => honly.1⟩

theorem asksSource_schema (schema method : String) (args : List Expr) (a : Option String) :
    AsksSource env (.schema schema method args a) := by
  intro w ctx s s' b hlinks hadmits h
  simp only [bindSource] at h
  unfold bindSchemaSource at h
  cases hschema : env.catalog.schema? schema with
  | none => simp [hschema] at h
  | some provider =>
    simp only [hschema, run_bind_ok, run_pure_ok] at h
    obtain ⟨ts, u, hargs, ⟨name, explicit⟩, v, halias, columns, x, hrequest, _, y, hadd, rfl,
      rfl⟩ := h
    obtain ⟨hsame, hterms⟩ := bindAll_reads hadmits (by simp [Context.withClause, hlinks]) hargs
    refine ⟨hterms, fun reads hreads =>
      ⟨[_], ?_, .cons (requestFor_collect env.catalog.environment hreads) .nil⟩⟩
    obtain ⟨⟨_, rfl⟩, -⟩ := run_aliasOr_ok halias
    obtain ⟨-, rfl⟩ := run_requestColumns_ok hrequest
    rw [addTable_requests hadd, hsame]

theorem asksSource_inMemory (name : String) (a : Option String) :
    AsksSource env (.inMemory name a) := by
  intro w ctx s s' b _ _ h
  simp only [bindSource, bindMemorySource, run_bind_ok, run_readScopes_ok, run_pure_ok] at h
  obtain ⟨⟨origin, tableOrigin, columns⟩, _, ⟨-, rfl⟩, _, u, hadd, rfl, rfl⟩ := h
  exact ⟨by simp [BoundSource.clauses], fun reads _ => .nil (addTable_requests hadd)⟩

theorem asksSource_subquery {q : Query} (a : Option String) (hq : AsksQuery env q) :
    AsksSource env (.subquery q a) := by
  intro w ctx s s' b _ _ h
  simp only [bindSource, run_bind_ok] at h
  obtain ⟨_, s₁, henter, bq, s₂, hquery, _, s₃, hleave, h⟩ := h
  simp only [bindSubquerySource, run_bind_ok, run_pure_ok] at h
  obtain ⟨⟨name, explicit⟩, s₄, halias, _, s₅, hadd, rfl, rfl⟩ := h
  refine ⟨by simp [BoundSource.clauses], fun reads _ => ?_⟩
  rw [Source.tableUses, BoundSource.tableReads]
  obtain ⟨⟨_, rfl⟩, -⟩ := run_aliasOr_ok halias
  refine ((hq hquery).nested henter hleave).after ?_
  rw [addTable_requests hadd]

theorem asksSource_join (kind : JoinKind) {left right : Source} (condition : Expr)
    (hl : AsksSource env left) (hr : AsksSource env right) :
    AsksSource env (.join kind left right condition) := by
  intro w ctx s s' b hlinks hadmits h
  rw [Source.references] at hadmits
  simp only [bindSource, run_bind_ok] at h
  obtain ⟨bl, s₁, hleft, br, s₂, hright, h⟩ := h
  obtain ⟨u, hmark, a, v, c, hcompose, hcondition, rfl⟩ := run_bindJoin_ok h
  obtain ⟨hclausesl, haskedl⟩ := hl hlinks hadmits.left.left hleft
  obtain ⟨hclausesr, haskedr⟩ := hr hlinks hadmits.left.right hright
  obtain ⟨hsame, hreads⟩ := bindPredicate_reads hadmits.right
    (by simp [Context.withClause, Context.withAlias, hlinks]) hcondition
  refine ⟨?_, fun reads hreads => ?_⟩
  · simp only [BoundSource.clauses, List.forall_mem_append]
    exact ⟨⟨hclausesl, hclausesr⟩, by simpa using hreads⟩
  · rw [Source.tableUses, BoundSource.tableReads]
    refine ((haskedl reads hreads).append (haskedr reads hreads)).after ?_
    rw [hsame, compose_requests hcompose, hmark.requests]

theorem asksSource_apply (kind : ApplyKind) {left right : Source}
    (hl : AsksSource env left) (hr : AsksSource env right) :
    AsksSource env (.apply kind left right) := by
  intro w ctx s s' b hlinks hadmits h
  rw [Source.references] at hadmits
  simp only [bindSource, run_bind_ok] at h
  obtain ⟨bl, s₁, hleft, br, s₂, hright, h⟩ := h
  obtain ⟨u, hmark, a, hcompose, rfl⟩ := run_bindApply_ok h
  obtain ⟨hclausesl, haskedl⟩ := hl hlinks hadmits.left hleft
  obtain ⟨hclausesr, haskedr⟩ := @hr w (ctx.withAlias bl.aliasName) s₁ s₂ br hlinks hadmits.right
    hright
  refine ⟨?_, fun reads hreads => ?_⟩
  · simp only [BoundSource.clauses, List.forall_mem_append]
    exact ⟨hclausesl, hclausesr⟩
  · rw [Source.tableUses, BoundSource.tableReads]
    refine ((haskedl reads hreads).append (haskedr reads hreads)).after ?_
    rw [compose_requests hcompose, hmark.requests]

theorem asksBody_nullSource {distinct : Bool} {projection : List SelectItem}
    {filter : Option Expr} {groupBy : List Expr} {having : Option Expr} :
    AsksBody env (.select ⟨distinct, projection, none, filter, groupBy, having⟩) := by
  intro scope orderBy s s' r h
  simp [bindBody] at h

theorem asksBody_select {distinct : Bool} {projection : List SelectItem} {source : Source}
    {filter : Option Expr} {groupBy : List Expr} {having : Option Expr}
    (hsource : AsksSource env source) :
    AsksBody env (.select ⟨distinct, projection, some source, filter, groupBy, having⟩) := by
  intro scope orderBy s s' r h
  simp only [bindBody, run_bind_ok, run_pure_ok] at h
  obtain ⟨src, s₁, hbind, ⟨b, order⟩, s₂, hblock, rfl, rfl⟩ := h
  let w : WrittenBlock := ⟨⟨distinct, projection, some source, filter, groupBy, having⟩, orderBy⟩
  obtain ⟨hclauses, hasked⟩ := @hsource w (.ofScope scope) s s₁ src rfl
    (w.admits.of_subset (w.source_references_subset rfl)) hbind
  obtain ⟨hsame, rfl, hreads⟩ := bindBlock_reads hclauses hblock
  rw [QueryBody.tableUses, BoundBody.tableReads_select]
  refine (hasked _ fun a n hmem => ?_).after hsame
  obtain ⟨t, ht, hmem⟩ := List.mem_flatMap.1 hmem
  exact hreads t ht a n hmem

theorem asksBody_setOperation (operator : SetOperator) {left right : Query} (keys : List String)
    (hl : AsksQuery env left) (hr : AsksQuery env right) :
    AsksBody env (.setOperation operator left right keys) := by
  intro scope orderBy s s' r h
  simp only [bindBody] at h
  cases hkeys : keys.isEmpty with
  | true => simp [hkeys, run_bind_ok] at h
  | false =>
    simp only [hkeys, Bool.false_eq_true, if_false, run_bind_ok, run_pure_ok, run_ofExcept_ok] at h
    obtain ⟨_, s₁, henter, _, s₂, henterl, bl, s₃, hleft, _, s₄, hleavel, _, s₅, henterr, br, s₆,
      hright, _, s₇, hleaver, _, s₈, hleave, _, s₉, hcheck, order, _, ⟨-, rfl⟩, rfl, rfl⟩ := h
    obtain ⟨rfl, -⟩ := checkOperands_run hcheck
    rw [QueryBody.tableUses, BoundBody.tableReads]
    exact (((hl hleft).nested henterl hleavel).append
      ((hr hright).nested henterr hleaver)).nested henter hleave

theorem asksQuery_mk {body : QueryBody} {orderBy : List OrderItem} {skip take : Option Nat}
    {ctes : List Cte} (hctes : AsksCtes env ctes) (hbody : AsksBody env body) :
    AsksQuery env ⟨body, orderBy, skip, take, ctes⟩ := by
  intro s s' b h
  simp only [bindQuery, run_bind_ok, run_readScopes_ok, run_pure_ok] at h
  obtain ⟨scope, _, ⟨-, rfl⟩, bctes, s₁, hbctes, ⟨bbody, order, output⟩, s₂, hbbody, rfl, rfl⟩ := h
  rw [Query.tableUses, BoundQuery.tableReads_eq]
  exact (hctes hbctes).append (hbody hbbody)

theorem asksCtes_nil : AsksCtes env [] := by
  intro scope s s' bs h
  simp only [bindCtes, run_pure_ok] at h
  obtain ⟨rfl, rfl⟩ := h
  exact .nil rfl

theorem asksCtes_cons (name : String) (columns : List String) {q : Query} {rest : List Cte}
    (hq : AsksQuery env q) (hrest : AsksCtes env rest) :
    AsksCtes env (⟨name, columns, q⟩ :: rest) := by
  intro scope s s' bs h
  simp only [bindCtes, run_bind_ok, run_ofExcept_ok, run_pure_ok] at h
  obtain ⟨_, s₁, henter, bq, s₂, hquery, _, s₃, hleave, renamed, _, ⟨hrename, rfl⟩, _, s₄, hadd,
    brest, s₅, hbrest, rfl, rfl⟩ := h
  have hreads : renamed.tableReads = bq.tableReads := by
    unfold renameCte at hrename
    split at hrename
    · cases hrename
      rfl
    · split at hrename <;> cases hrename
      exact bq.tableReads_renameOutput columns
  have hadded : s₄.requests = s₃.requests := by
    obtain ⟨scopes, -, rfl⟩ := run_onScopes_ok.1 hadd
    rfl
  rw [Query.tableUsesOfCtes, BoundQuery.tableReadsOfCtes, hreads]
  exact (((hq hquery).nested henter hleave).after hadded).append (hrest hbrest)

mutual

theorem bindQuery_asks : ∀ q : Query, AsksQuery env q
  | ⟨body, _, _, _, ctes⟩ => asksQuery_mk (bindCtes_asks ctes) (bindBody_asks body)

theorem bindCtes_asks : ∀ ctes : List Cte, AsksCtes env ctes
  | [] => asksCtes_nil
  | ⟨name, columns, query⟩ :: rest =>
    asksCtes_cons name columns (bindQuery_asks query) (bindCtes_asks rest)

theorem bindBody_asks : ∀ body : QueryBody, AsksBody env body
  | .select ⟨_, _, none, _, _, _⟩ => asksBody_nullSource
  | .select ⟨_, _, some source, _, _, _⟩ => asksBody_select (bindSource_asks source)
  | .setOperation operator left right keys =>
    asksBody_setOperation operator keys (bindQuery_asks left) (bindQuery_asks right)

theorem bindSource_asks : ∀ source : Source, AsksSource env source
  | .schema schema method args a => asksSource_schema schema method args a
  | .inMemory name a => asksSource_inMemory name a
  | .subquery query a => asksSource_subquery a (bindQuery_asks query)
  | .join kind left right condition =>
    asksSource_join kind condition (bindSource_asks left) (bindSource_asks right)
  | .apply kind left right => asksSource_apply kind (bindSource_asks left) (bindSource_asks right)

end

/-! ## Queries -/

/-- The requests made while a query is resolved are those for its tables of schemas, in order. Each
    asks for every column that is read from its table, unless the block of the table has written the
    column as a qualifier only. -/
theorem analyze_answers {q : Query} {a : Analysis} {requests : List TableRequest}
    (h : analyze env q = (.ok a, requests)) :
    Answered q.tableUses a.query.tableReads requests := by
  unfold analyze at h
  cases hrun : (analyzeQuery env q).run .initial with
  | error e s => simp [hrun] at h
  | ok b s =>
    simp only [hrun, Prod.mk.injEq, Except.ok.injEq] at h
    obtain ⟨rfl, rfl⟩ := h
    simp only [analyzeQuery, EStateM.run, run_bind_ok, run_pure_ok] at hrun
    obtain ⟨_, s₁, henter, b', s₂, hbind, _, s₃, hleave, rfl, rfl⟩ := hrun
    obtain ⟨rs, hrs, hanswered⟩ := (bindQuery_asks q hbind).nested henter hleave
    rw [hrs]
    exact hanswered

/-- Stands for `select Self.Name, a.City from #A.entities() a where Self.Name = City` -/
def namedSelf : Query :=
  .ofSelect ((((Select.empty.addExpr (.ofColumn "Self" "Name")).addExpr
    (.ofColumn "a" "City")).withSource (Sample.entitiesAs "a")).withFilter
      (.equals (.ofColumn "Self" "Name") (.identifier "City")))

/-- `Self` is a column of the table and is read, but not asked for. -/
theorem analyze_answers_namedSelf :
    ∃ analysis request, analyze ⟨Sample.catalog, default⟩ namedSelf = (.ok analysis, [request]) ∧
      (∃ t ∈ analysis.query.tableReads, t.aliasName = "a" ∧
        ("a", "Self") ∈ t.blockReads ∧ ("a", "City") ∈ t.blockReads) ∧
      request.context.requested.contains "Self" = false ∧
      request.context.requested.contains "City" = true := by
  obtain ⟨analysis, requests, h, hcheck⟩ := exists_ok_of_check
    (analyze ⟨Sample.catalog, default⟩ namedSelf) (fun a => decide (a.query.tableReads.map
      (fun t => (t.aliasName, decide (("a", "Self") ∈ t.blockReads ∧ ("a", "City") ∈ t.blockReads)))
        = [("a", true)]))
    (by decide +kernel)
  rw [decide_eq_true_eq] at hcheck
  obtain ⟨t, hreads, ht⟩ := List.map_eq_singleton_iff.1 hcheck
  obtain ⟨halias, hread⟩ : t.aliasName = "a" ∧
      (("a", "Self") ∈ t.blockReads ∧ ("a", "City") ∈ t.blockReads) := by simpa using ht
  have hanswered := analyze_answers h
  rw [hreads] at hanswered
  obtain ⟨w, request, huses, rfl, hrequest⟩ := hanswered.of_singleton
  have hself := hrequest.columns "Self" (halias ▸ hread.1)
  have hcity := hrequest.columns "City" (halias ▸ hread.2)
  have hwritten : ∀ w ∈ namedSelf.tableUses,
      w.OnlyQualifies "a" "Self" ∧ ¬ w.OnlyQualifies "a" "City" := by decide +kernel
  obtain ⟨honly, hasked⟩ := hwritten w (huses ▸ List.mem_singleton_self w)
  rw [halias] at hself hcity
  refine ⟨analysis, request, h, ⟨t, hreads ▸ List.mem_singleton_self t, halias, hread⟩,
    hself.2 honly, ?_⟩
  simpa using fun hfalse => hasked (hcity.1 hfalse)

end Resolve

end SchemaQuery
