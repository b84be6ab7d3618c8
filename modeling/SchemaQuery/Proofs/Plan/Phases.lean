-- SUMMARY: Steps over rows and steps over groups keep apart: what the terms of a step can still have.
import SchemaQuery.Proofs.Plan.Executable
import SchemaQuery.Proofs.Plan.GroupOutputs

/-!
# Phases of a plan

Three kinds of nodes in a bound term stand for what is there only later: an
aggregate and a key of a group once the rows are grouped, a field of a result once
the result is there. The terms of a step over rows have none of them. A step over
groups has keys, and where it reads a key the grouping table has a column for it.
It has no columns of sources, unless it reads the table for a common table
expression of that name. Main statement: `ofQuery_phases`.
-/

namespace SchemaQuery

/-! ## Terms over rows -/

namespace Term

/-- A node that no row of a source or table gives a value. -/
def isDeferred : Term → Bool
  | .outputField .. | .groupField .. | .aggregate .. => true
  | _ => false

/-- The position of the key that a node stands for. -/
def keyIndex? : Term → Option Nat
  | .groupField i _ => some i
  | _ => none

/-- All nodes have values on rows. -/
def OverRows (t : Term) : Prop := ∀ u ∈ t.subterms, u.isDeferred = false

theorem isDeferred_of_label {t t' : Term} (h : t.label = t'.label) :
    t.isDeferred = t'.isDeferred := by
  have hlabel (u : Term) : u.label.isDeferred = u.isDeferred := by cases u <;> rfl
  rw [← hlabel t, h, hlabel]

/-- Of the deferred nodes, resolution leaves aggregates in a clause only. -/
theorem isAggregate_of_seesIn {t : Term} {leaves : List (String × List Column)}
    (h : t.SeesIn leaves) (hdeferred : t.isDeferred = true) : t.isAggregate = true := by
  cases t with
  | aggregate => rfl
  | outputField | groupField => exact absurd h id
  | _ => cases hdeferred

theorem overRows_of_sees {t : Term} (hsees : ∀ u ∈ t.subterms, ∃ leaves, u.SeesIn leaves)
    (hplain : t.aggregates = []) : t.OverRows := by
  intro u hu
  obtain ⟨leaves, hsees⟩ := hsees u hu
  cases hdeferred : u.isDeferred with
  | false => rfl
  | true =>
    have hmem : u ∈ t.aggregates := mem_aggregates.2 ⟨hu, isAggregate_of_seesIn hsees hdeferred⟩
    rw [hplain] at hmem
    cases hmem

theorem OverRows.relocated {t : Term} (h : t.OverRows) (relations : List Plan.Relation) :
    (t.mapUp (Plan.relocateNode relations)).OverRows := by
  intro u hu
  obtain ⟨v, hv, rfl⟩ := Plan.mem_subterms_relocated hu
  have hv := h v hv
  cases hcolumn : v.columnAlias? with
  | none => rw [isDeferred_of_label (Plan.relocated_node hcolumn).1, hv]
  | some a =>
    cases v with
    | column =>
      simp only [mapUp, Plan.relocateNode]
      split <;> rfl
    | _ => cases hcolumn

theorem type_eq_of_sameValue {t t' : Term} (h : t.sameValue t' = true) : t.type = t'.type := by
  have hsame := (sameValue_iff.1 h).1
  cases t with
  | case branches otherwise type =>
    cases t' with
    | case branches' otherwise' type' =>
      cases otherwise <;> cases otherwise' <;> simp_all [SameNode, label, sameValue, Term.type]
    | _ => cases otherwise <;> cases h
  | _ => cases t' <;> simp_all [SameNode, label, sameValue, type]

end Term

/-- The arguments of an aggregate in an output have no aggregates. -/
theorem BlockBound.plain_arguments {Named : String → Prop} {s : Scopes} {b : Block}
    (h : BlockBound Named s b) {out : Term} (hout : out ∈ b.outputs) {m : AggregateRef}
    {args : List Term} {type : DataType} (hg : .aggregate m args type ∈ out.aggregates) :
    ∀ arg ∈ args, arg.aggregates = [] := by
  obtain ⟨tables, -, hresolved⟩ := h.resolved
  exact hresolved out hout _ hg _ (Term.self_mem_subterms _)

namespace Plan

section Clauses

variable {E : Setting} {before : List Node} {q : BoundQuery} {b : BoundSelect}
  {calls : List RefreshCall} {src : BoundSource} {outer : Option (BoundSource × ColumnNeeds)}
  {needs : ColumnNeeds} {ro : Option Relation} {r : Relation} {t : Term}

theorem Setting.Resolved.overRows_clause (hE : E.Resolved) (hq : q ∈ E.queries)
    (hb : q.body = .select b) (ht : t ∈ b.source.clauses) : t.OverRows := by
  have hseen := hE.seen _ (BoundQuery.mem_blocksOf hq hb)
  refine Term.overRows_of_sees (fun u hu => ?_) (hseen.sourcePlain t ht)
  rcases hseen.source.exists_part ht hu with hsees | ⟨part, -, hsees⟩
  · exact ⟨_, hsees⟩
  · exact ⟨_, hsees⟩

theorem plain_of_sourceTerms (hblock : BlockBound (fun _ => True) E.scopes (b.block q.orderBy))
    (ht : t ∈ sourceTerms b q.orderBy) : t.aggregates = [] := by
  unfold sourceTerms at ht
  split at ht
  · rw [groupKeys_eq hblock] at ht
    rcases List.mem_append.1 ht with ht | ht
    · exact hblock.plain t ht
    · obtain ⟨⟨a, type⟩, ha, ht⟩ := List.mem_flatMap.1 ht
      obtain ⟨out, hout, hg⟩ := mem_distinctAggregates ha
      exact hblock.plain_arguments hout hg t ht
  · rename_i hgrouped
    have hnone : (b.block q.orderBy).grouping = .none := by
      simpa [BoundSelect.isGrouped, BoundSelect.block] using hgrouped
    rw [List.append_assoc] at ht
    rcases List.mem_append.1 ht with ht | ht
    · exact hblock.plain t (List.mem_append_left _ ht)
    · refine hblock.ungrouped hnone t ?_
      change t ∈ groupOutputs b q.orderBy
      simp only [groupOutputs, List.mem_append] at ht ⊢
      tauto

theorem Setting.Resolved.overRows_sourceTerm (hE : E.Resolved) (hq : q ∈ E.queries)
    (hb : q.body = .select b) (ht : t ∈ sourceTerms b q.orderBy) : t.OverRows := by
  obtain ⟨clause, hclause, hin⟩ := sourceTerms_occur ht
  have hsees := (hE.seen _ (BoundQuery.mem_blocksOf hq hb)).clauses clause hclause
  exact Term.overRows_of_sees (fun u hu => ⟨_, hsees u (Term.mem_subterms_trans hu hin)⟩)
    (plain_of_sourceTerms (hE.block hq hb) ht)

/-- An update that a block finds has the arguments of an aggregate, its own or one around it. -/
theorem Setting.Resolved.overRows_update (hE : E.Resolved) (hq : q ∈ E.queries)
    (hb : q.body = .select b) (hcalls : refreshCalls E.scopes b = .ok calls) {c : RefreshCall}
    (hc : c ∈ calls) (ht : t ∈ c.args) : t.OverRows := by
  obtain ⟨e, he, hc⟩ := update_owner hE hq hb hcalls hc
  have hbound := (hE.sealed.blocks e he).2.2
  obtain ⟨out, hout, m, type, hg⟩ := hbound.aggregate_of_update hc
  exact Term.overRows_of_sees (fun u hu => ⟨_, hE.update_sees he hc ht hu⟩)
    (hbound.plain_arguments hout hg t ht)

theorem Planned.scan_overRows (hE : E.Resolved) (hq : q ∈ E.queries) (hb : q.body = .select b)
    (hpart : PartOf b.source (blockNeeds b q.orderBy calls) src outer needs)
    (h : Planned E b.scope before ro src needs r) : ∀ t ∈ r.scan.terms, t.OverRows := by
  intro t ht
  obtain ⟨x, hx, rfl, -⟩ := h.mem_scan_terms (hpart.reads (hE.block hq hb).sourceReads) ht
  exact (hE.overRows_clause hq hb (BoundSource.clauses_subset hpart.mem_parts
    (src.arguments_subset_clauses hx))).relocated _

theorem BlockPlanned.overRows (hE : E.Resolved) (h : BlockPlanned E before q b calls r) :
    ∀ t ∈ r.scan.terms ++ readFrom r (sourceTerms b q.orderBy) ++
      readFrom r (calls.flatMap (·.args)), t.OverRows := by
  intro t ht
  simp only [List.mem_append] at ht
  rcases ht with (ht | ht) | ht
  · exact h.planned.scan_overRows hE h.mem h.body .root t ht
  · obtain ⟨x, hx, rfl⟩ := List.mem_map.1 ht
    exact (hE.overRows_sourceTerm h.mem h.body hx).relocated _
  · obtain ⟨x, hx, rfl⟩ := List.mem_map.1 ht
    obtain ⟨c, hc, hx⟩ := List.mem_flatMap.1 hx
    exact (hE.overRows_update h.mem h.body h.registered hc hx).relocated _

theorem overRows_joinTerm (l r : Relation) (s : String × Column) : (joinTerm l r s).OverRows := by
  have hread (rel : Relation) : (rel.read s.1 s.2).OverRows := by
    intro u hu
    unfold Relation.read at hu
    split at hu <;> (obtain rfl := List.mem_singleton.1 hu; rfl)
  unfold joinTerm
  split
  · exact hread l
  · exact hread r

end Clauses

/-! ## Terms over groups -/

/-- Read from its group, a term has keys for deferred nodes, each at the type of the key. -/
theorem key_of_regrouped {keys : List Term} {table : String} {t : Term}
    (hsees : ∀ u ∈ t.subterms, ∃ leaves, u.SeesIn leaves) {u : Term}
    (hu : u ∈ (regroupTerm keys table t).subterms) (hdeferred : u.isDeferred = true) :
    ∃ i k, keys[i]? = some k ∧ u = .groupField i k.type := by
  induction t using Term.childInduction with
  | step t ih =>
    cases hkey : Resolve.isKey keys t with
    | true =>
      obtain ⟨i, k, hk, hsame, hread⟩ : ∃ i k, keys[i]? = some k ∧ k.sameValue t = true ∧
        regroupTerm keys table t = .groupField i t.type := regroupTerm_key hkey
      rw [hread] at hu
      obtain rfl := List.mem_singleton.1 hu
      exact ⟨i, k, hk, by rw [Term.type_eq_of_sameValue hsame]⟩
    | false =>
      cases hagg : t.isAggregate with
      | true =>
        cases t with
        | aggregate m args type =>
          rw [regroupTerm_aggregate hkey] at hu
          obtain rfl := List.mem_singleton.1 hu
          cases hdeferred
        | _ => cases hagg
      | false =>
        obtain ⟨-, hchildren⟩ : _ ∧ (regroupTerm keys table t).children = _ :=
          regroupTerm_children hkey hagg
        rw [Term.mem_subterms, hchildren] at hu
        rcases hu with rfl | ⟨_, hc, hu⟩
        · -- the node itself is no key and no aggregate, and stays as it is
          rw [Term.isDeferred_of_label (label_regroupTerm table hkey hagg)] at hdeferred
          obtain ⟨leaves, hself⟩ := hsees t t.self_mem_subterms
          rw [Term.isAggregate_of_seesIn hself hdeferred] at hagg
          cases hagg
        · obtain ⟨c, hmem, rfl⟩ := List.mem_map.1 hc
          exact ih c hmem (fun v hv => hsees v (Term.mem_subterms.2 (.inr ⟨c, hmem, hv⟩))) hu

/-- The keys of a block are the first columns of its grouping table. -/
theorem groupTable_key {q : BoundQuery} {b : BoundSelect} {i : Nat} {k : Term}
    (h : (groupKeys b)[i]? = some k) : (groupTable q b)[i]?.map (·.type) = some k.type := by
  obtain ⟨hlt, -⟩ := List.getElem?_eq_some_iff.1 h
  rw [← List.getElem?_map, groupTable, groupColumns, number_types, List.map_append,
    List.getElem?_append_left (by simpa using hlt)]
  simp [h]

/-! ## Plans -/

/-- A node has terms over rows only, or it reads the groups of a block. -/
theorem Emitted.phases {E : Setting} {before : List Node} {n : Node} (hE : E.Resolved)
    (h : Emitted E before n) : (∀ t ∈ n.terms ++ n.updateTerms, t.OverRows) ∨
      ∃ q b calls r table target, BlockPlanned E before q b calls r ∧
        .create table (groupTable q b) true ∈ before ∧
        .aggregate (groupStep b q.orderBy r calls table) ∈ before ∧
        n = .populate (scoreStep q b table target) := by
  cases h with
  | create | setMatch | rename =>
    refine .inl fun t ht => ?_
    cases ht
  | @join q b calls src outer needs p ro l r table sources hq hb hpart hp houter hl hr =>
    refine .inl fun t ht => ?_
    rw [updateTerms_populate, List.append_nil, terms_join] at ht
    simp only [List.mem_append] at ht
    rcases ht with ((ht | ht) | ht) | ht
    · obtain ⟨x, hx, rfl⟩ := List.mem_map.1 ht
      exact (hE.overRows_clause hq hb (BoundSource.clauses_subset hpart.mem_parts
        (condition_subset_clauses hp hx))).relocated _
    · exact hl.scan_overRows hE hq hb (hpart.left hp) t ht
    · exact hr.scan_overRows hE hq hb (hpart.right hp) t ht
    · obtain ⟨s, -, rfl⟩ := List.mem_map.1 (joinSelect_eq l r sources ▸ ht)
      exact overRows_joinTerm l r s
  | project h hgrouped =>
    refine .inl fun t ht => h.overRows hE t (List.mem_append_left _ ?_)
    rwa [updateTerms_populate, List.append_nil, terms_project hgrouped] at ht
  | aggregate h hgrouped =>
    rw [terms_group hgrouped, updateTerms_group]
    exact .inl (h.overRows hE)
  | score h _ htable hfill =>
    exact .inr ⟨_, _, _, _, _, _, h, htable, hfill, rfl⟩
  | copy hq hbody =>
    refine .inl fun t ht u hu => ?_
    rw [updateTerms_populate, List.append_nil] at ht
    obtain ⟨c, -, rfl⟩ := mem_terms_copy (hE.formed _ hq) hbody ht
    obtain rfl := List.mem_singleton.1 hu
    rfl

/-- The node reads a grouping table for its key at some position, which has the type: one step fills
    the table, for more keys than that, and the column at the position has the type. -/
def ReadsKey (plan : Plan) (n : Node) (i : Nat) (type : DataType) : Prop :=
  ∃ step al columns group, n = .populate step ∧ step.source = .transition al group.target ∧
    .create group.target columns true ∈ plan.nodes ∧ .aggregate group ∈ plan.nodes ∧
    (∀ group', .aggregate group' ∈ plan.nodes → group'.target = group.target → group' = group) ∧
    i < group.keys.length ∧ columns[i]?.map (·.type) = some type

/-- The steps of the plan of a resolved query have no fields of results and no aggregates in their
    terms. Keys of groups are read from a grouping table only, at the type of the key. A step that
    reads a grouping table has no column of a source, unless a common table expression has the name
    of the table and the step reads the table for it. -/
theorem ofQuery_phases {env : Resolve.Env} {query : Query} {analysis : Resolve.Analysis}
    {requests : List TableRequest} (ha : Resolve.analyze env query = (.ok analysis, requests))
    {config : PlanConfig} {plan : Plan} {scopes : Scopes}
    (h : ofQuery config analysis.scopes analysis.query = .ok (plan, scopes))
    {n : Node} (hn : n ∈ plan.nodes) :
    (∀ t ∈ n.terms ++ n.updateTerms, (∀ name i type, .outputField name i type ∉ t.subterms) ∧
      (∀ m args type, .aggregate m args type ∉ t.subterms) ∧
      ∀ i type, .groupField i type ∈ t.subterms → plan.ReadsKey n i type) ∧
    ∀ al table columns, (al, table) ∈ n.scans → .create table columns true ∈ plan.nodes →
      (∀ t ∈ n.terms ++ n.updateTerms, ∀ a x o qualify type,
        .column a x o qualify type ∉ t.subterms) ∨
      ScansCte analysis.query.queries n al table := by
  obtain ⟨hsound, -⟩ := ofQuery_sound ha h
  have hE := resolved_of_analyze ha config
  obtain ⟨before, after, hnodes⟩ := List.append_of_mem hn
  have hle : before ⊆ plan.nodes := hnodes ▸ List.subset_append_left _ _
  have hemitted := hsound before n after hnodes
  refine ⟨fun t ht => ?_, fun al table columns hscan hcreate => ?_⟩
  · rcases hemitted.phases hE with hrows | ⟨q, b, calls, r, table, target, hplanned, htable, hfill, rfl⟩
    · refine ⟨fun name i type hu => ?_, fun m args type hu => ?_, fun i type hu => ?_⟩
      · cases hrows t ht _ hu
      · cases hrows t ht _ hu
      · cases hrows t ht _ hu
    · rw [updateTerms_populate, List.append_nil] at ht
      obtain ⟨x, hx, rfl⟩ := mem_terms_score ht
      have hsees : ∀ u ∈ x.subterms, ∃ leaves, u.SeesIn leaves := fun u hu =>
        ⟨_, (hE.seen _ (BoundQuery.mem_blocksOf hplanned.mem hplanned.body)).clauses x
          (List.mem_append_right _ hx) u hu⟩
      refine ⟨fun name i type hu => ?_, fun m args type hu => ?_, fun i type hu => ?_⟩
      · obtain ⟨_, _, -, heq⟩ := key_of_regrouped hsees hu rfl
        cases heq
      · obtain ⟨_, _, -, heq⟩ := key_of_regrouped hsees hu rfl
        cases heq
      · obtain ⟨_, k, hk, heq⟩ := key_of_regrouped hsees hu rfl
        cases heq
        obtain ⟨hlt, -⟩ := List.getElem?_eq_some_iff.1 hk
        refine ⟨_, _, _, groupStep b q.orderBy r calls table, rfl, rfl, hle htable, hle hfill,
          fun group' hmem htarget => hsound.groupStep_unique (hle hfill) hmem htarget, ?_,
          groupTable_key hk⟩
        simpa [groupStep, readFrom] using hlt
  · refine (hemitted.reads_groups hsound hle hcreate hscan).symm.imp_left ?_
    rintro ⟨q, hq, b, hb, hgrouped, -, -, target, rfl⟩ t ht a x o qualify type hu
    rw [updateTerms_populate, List.append_nil] at ht
    cases columnAlias?_score hE hq hb hgrouped t ht _ hu

/-- Stands for `with "__t1_group" as (select a.City as City from #A.entities() a)
    select x.City, y.City from "__t1_group" x inner join
    (select b.City as City from #A.entities() b group by b.City) y on x.City = y.City` -/
def namedLikeGroups : Query :=
  (Query.ofSelect (((Select.empty.addExpr (.ofColumn "x" "City")).addExpr
    (.ofColumn "y" "City")).withSource
      (.join .inner ((Source.ofMemory "__t1_group").withAlias "x")
        ((Source.ofQuery (.ofSelect (((Select.empty.addAliased (.ofColumn "b" "City")
          "City").withSource (Sample.entitiesAs "b")).withGroupBy [.ofColumn "b" "City"]))).withAlias
            "y") (.equals (.ofColumn "x" "City") (.ofColumn "y" "City"))))).withCtes
    [⟨"__t1_group", [], .ofSelect ((Select.empty.addAliased (.ofColumn "a" "City")
      "City").withSource (Sample.entitiesAs "a"))⟩]

/-- The groups of the subquery are read for their key. The join reads columns of `x` beside a table
    of the same name, since the common table expression has it. -/
theorem ofQuery_phases_namedLikeGroups :
    ∃ analysis requests plan scopes,
      Resolve.analyze ⟨Sample.catalog, default⟩ namedLikeGroups = (.ok analysis, requests) ∧
      ofQuery default analysis.scopes analysis.query = .ok (plan, scopes) ∧
      (∃ n ∈ plan.nodes, ∃ type, plan.ReadsKey n 0 type) ∧
      (∃ columns, .create "__t1_group" columns true ∈ plan.nodes) ∧
      ∃ n ∈ plan.nodes, ("x", "__t1_group") ∈ n.scans ∧
        (∃ t ∈ n.terms ++ n.updateTerms, ∃ u ∈ t.subterms, u.columnAlias? = some "x") ∧
        ScansCte analysis.query.queries n "x" "__t1_group" := by
  obtain ⟨analysis, requests, plan, scopes, h, hplan, hcheck⟩ := exists_plan_of_check
    ⟨Sample.catalog, default⟩ default namedLikeGroups (fun _ plan => decide
      ((∃ n ∈ plan.nodes, ∃ t ∈ n.terms ++ n.updateTerms, ∃ u ∈ t.subterms,
          u.keyIndex? = some 0) ∧
        (∃ d ∈ plan.nodes.filterMap Node.declared?, d.1 = "__t1_group" ∧ d.2.2 = true) ∧
        ∃ n ∈ plan.nodes, ("x", "__t1_group") ∈ n.scans ∧
          ∃ t ∈ n.terms ++ n.updateTerms, ∃ u ∈ t.subterms, u.columnAlias? = some "x"))
    (by decide +kernel)
  rw [decide_eq_true_eq] at hcheck
  obtain ⟨⟨n, hn, t, ht, u, hu, hindex⟩, ⟨⟨_, columns, _⟩, hcreate, rfl, rfl⟩, n', hn', hscan, hrow⟩ :=
    hcheck
  have hcreate := mem_declared.1 hcreate
  refine ⟨analysis, requests, plan, scopes, h, hplan, ⟨n, hn, ?_⟩, ⟨columns, hcreate⟩, n', hn',
    hscan, hrow, ?_⟩
  · cases u with
    | groupField i type =>
      cases hindex
      exact ⟨type, ((ofQuery_phases h hplan hn).1 t ht).2.2 0 type hu⟩
    | _ => cases hindex
  · refine ((ofQuery_phases h hplan hn').2 _ _ _ hscan hcreate).resolve_left fun hnone => ?_
    obtain ⟨t, ht, u, hu, halias⟩ := hrow
    cases u with
    | column => exact hnone t ht _ _ _ _ _ hu
    | _ => cases halias

end Plan

end SchemaQuery
