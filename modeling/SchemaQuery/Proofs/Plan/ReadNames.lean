-- SUMMARY: When a read by name finds one column: exactly unless needed columns, keys or outputs share the name.
import SchemaQuery.Proofs.Plan.Executable

/-!
# Reads by name

Steps read the columns of a table by name, and a table can be declared with a name
twice. A read is ambiguous in three situations only, which `NameClash` lists: two
needed columns of joined sources get one qualified name, a key of a group is
written like an accumulator, or the copied result of a set operator has the name
twice. The names in a declaration follow from the query, so each clash is one of
the query (`ofQuery_unambiguous_iff`).
-/

namespace SchemaQuery

/-- The names that the needed columns of a source get in the table of a pair. -/
def BoundSource.neededNames (src : BoundSource) (needs : Plan.ColumnNeeds) : List String :=
  src.leaves.flatMap fun l => (l.2.filter fun c => needs.needs l.1 c.name).map fun c =>
    Plan.qualifiedName l.1 c.name

/-- The table and the name of a column that is read by name. -/
def Term.tableColumn? : Term → Option (String × String)
  | .tableColumn table name _ => some (table, name)
  | _ => none

theorem Term.tableColumn?_eq_some {t : Term} {table name : String} :
    t.tableColumn? = some (table, name) ↔ ∃ type, t = .tableColumn table name type := by
  constructor
  · intro h
    cases t <;> cases h
    exact ⟨_, rfl⟩
  · rintro ⟨type, rfl⟩
    rfl

namespace Plan

/-- The accumulators that a grouped block reads. -/
def accumulatorNames (q : BoundQuery) (b : BoundSelect) : List String :=
  (distinctAggregates (groupOutputs b q.orderBy)).map (·.1.method.accumulator)

/-- At most one declared column of the table has the name. -/
def Unambiguous (plan : Plan) (table name : String) : Prop :=
  ∀ columns, plan.columnsOf? table = some columns → (columns.map (·.name)).count name ≤ 1

/-- The table is declared for a part of a query that has two columns for the name. -/
inductive NameClash (E : Setting) (ns : List Node) (table name : String) : Prop where
  /-- Two needed columns of a join or apply have one qualified name. -/
  | join {q : BoundQuery} {b : BoundSelect} {calls : List RefreshCall} {src : BoundSource}
      {outer : Option (BoundSource × ColumnNeeds)} {needs : ColumnNeeds}
      {sources : List (String × Column)} (hq : q ∈ E.queries) (hb : q.body = .select b)
      (hcalls : refreshCalls E.scopes b = .ok calls)
      (hpart : PartOf b.source (blockNeeds b q.orderBy calls) src outer needs)
      (htrimmed : trimmedColumns E.scopes b.scope src.leafAliases needs = .ok sources)
      (htable : .create table (joinColumns sources) false ∈ ns)
      (hrepeated : 1 < (src.neededNames needs).count name)
  /-- A key is written like an accumulator. -/
  | group {q : BoundQuery} {b : BoundSelect} (hq : q ∈ E.queries) (hb : q.body = .select b)
      (htable : .create table (groupTable q b) true ∈ ns) (hread : name ∈ accumulatorNames q b)
      (hkey : name ∈ (groupKeys b).map (·.render))
  /-- The result of a set operator has the name twice. -/
  | result {q left right : BoundQuery} {operator : SetOperator} {keys : List String}
      (hq : q ∈ E.queries) (hbody : q.body = .setOperation operator keys left right)
      (htable : .create table q.output false ∈ ns)
      (hrepeated : 1 < (q.output.map (·.name)).count name)

/-! ## Names of declared columns -/

theorem names_of_trimmed {s : Scopes} (hs : s.Ordered) {id : Nat} {src : BoundSource}
    (hsrc : SourceBound s id src) {needs : ColumnNeeds} {sources : List (String × Column)}
    (h : trimmedColumns s id src.leafAliases needs = .ok sources) :
    (joinColumns sources).map (·.name) = src.neededNames needs := by
  obtain ⟨tables, ht⟩ := hsrc.leafTables
  rw [trimmedColumns_of_leafTables hs ht needs] at h
  cases h
  rw [joinColumns_names, BoundSource.neededNames, ← ht.leaves]
  simp only [List.map_flatMap, List.flatMap_map, ColumnNeeds.columnsOf, TableSymbol.visibleColumns,
    TableSymbol.leaf, List.filter_map, List.map_map, Function.comp_def, TableSymbol.view_name]

theorem nodup_addAggregate {acc : List (Accumulator × DataType)}
    (h : (acc.map (·.1.method.accumulator)).Nodup) (t : Term) :
    ((addAggregate acc t).map (·.1.method.accumulator)).Nodup := by
  cases t with
  | aggregate method args type =>
    rw [addAggregate]
    split
    · exact h
    · rename_i hnew
      rw [List.map_append, List.nodup_append]
      refine ⟨h, List.nodup_singleton _, ?_⟩
      rintro a ha _ hb rfl
      obtain ⟨p, hp, rfl⟩ := List.mem_map.1 ha
      exact hnew (List.any_eq_true.2 ⟨p, hp, by simpa using hb⟩)
  | _ => exact h

/-- Every accumulator has one column. -/
theorem nodup_accumulatorNames (q : BoundQuery) (b : BoundSelect) :
    (accumulatorNames q b).Nodup := by
  have hfold (ts : List Term) (acc : List (Accumulator × DataType))
      (h : (acc.map (·.1.method.accumulator)).Nodup) :
      ((ts.foldl addAggregate acc).map (·.1.method.accumulator)).Nodup := by
    induction ts generalizing acc with
    | nil => exact h
    | cons t ts ih => exact ih _ (nodup_addAggregate h t)
  exact hfold _ [] List.nodup_nil

theorem groupTable_names (q : BoundQuery) (b : BoundSelect) :
    (groupTable q b).map (·.name) = (groupKeys b).map (·.render) ++ accumulatorNames q b := by
  rw [groupTable, groupColumns, number_names, List.map_append, List.map_map, List.map_map]
  rfl

/-- An accumulator that is read has two columns exactly if a key is written like it. -/
theorem repeated_groupTable {q : BoundQuery} {b : BoundSelect} {name : String}
    (hread : name ∈ accumulatorNames q b) :
    1 < ((groupTable q b).map (·.name)).count name ↔ name ∈ (groupKeys b).map (·.render) := by
  rw [groupTable_names, List.count_append,
    List.count_eq_one_of_mem (nodup_accumulatorNames q b) hread, ← List.count_pos_iff]
  omega

/-! ## Ambiguous names -/

section Ambiguous

variable {E : Setting} {plan : Plan} {table name : String}

theorem unambiguous_iff (hsound : Sound E plan.nodes) {columns : List Column}
    {forGrouping : Bool} (hmem : .create table columns forGrouping ∈ plan.nodes) :
    plan.Unambiguous table name ↔ (columns.map (·.name)).count name ≤ 1 := by
  unfold Unambiguous
  rw [columnsOf?_of_create hsound hmem]
  simp

/-- A clash in the query makes the name ambiguous. -/
theorem NameClash.not_unambiguous (hE : E.Resolved) (hsound : Sound E plan.nodes)
    (h : NameClash E plan.nodes table name) : ¬ plan.Unambiguous table name := by
  cases h with
  | @join q b calls src outer needs sources hq hb _ hpart htrimmed htable hrepeated =>
    have hbound := PartOf.bound (hE.block hq hb) hpart.mem_parts
    rw [unambiguous_iff hsound htable, names_of_trimmed hE.ordered hbound htrimmed]
    omega
  | group _ _ htable hread hkey =>
    rw [unambiguous_iff hsound htable]
    have := (repeated_groupTable hread).2 hkey
    omega
  | result _ _ htable hrepeated =>
    rw [unambiguous_iff hsound htable]
    omega

end Ambiguous

/-! ## Reads of joined sources -/

/-- Every ambiguous name in the table of the relation is a clash in the query. -/
def Relation.Explained (E : Setting) (plan : Plan) (r : Relation) : Prop :=
  ∀ table, r.table = some table → ∀ name, ¬ plan.Unambiguous table name →
    NameClash E plan.nodes table name

/-- Every ambiguous name that the term reads is a clash in the query. -/
def ReadsExplained (E : Setting) (plan : Plan) (t : Term) : Prop :=
  ∀ table name type, .tableColumn table name type ∈ t.subterms → ¬ plan.Unambiguous table name →
    NameClash E plan.nodes table name

section Reads

variable {E : Setting} {plan : Plan} {before : List Node} {q : BoundQuery} {b : BoundSelect}
  {calls : List RefreshCall} {src : BoundSource} {outer : Option (BoundSource × ColumnNeeds)}
  {needs : ColumnNeeds} {ro : Option Relation} {r : Relation}

theorem Planned.explained (hE : E.Resolved) (hsound : Sound E plan.nodes)
    (hle : before ⊆ plan.nodes) (hq : q ∈ E.queries) (hb : q.body = .select b)
    (hcalls : refreshCalls E.scopes b = .ok calls)
    (hpart : PartOf b.source (blockNeeds b q.orderBy calls) src outer needs)
    (h : Planned E b.scope before ro src needs r) : r.Explained E plan := by
  intro table htable name hambiguous
  have hleaves := h.leaves
  cases h with
  | @pair _ _ _ p l r _ sources hp _ _ hjoin =>
    cases htable
    have htrimmed : trimmedColumns E.scopes b.scope src.leafAliases needs = .ok sources :=
      hleaves ▸ hjoin.trimmed
    have hbound := PartOf.bound (hE.block hq hb) hpart.mem_parts
    rw [unambiguous_iff hsound (hle hjoin.declared), names_of_trimmed hE.ordered hbound htrimmed,
      not_le] at hambiguous
    exact .join hq hb hcalls hpart htrimmed (hle hjoin.declared) hambiguous
  | _ => cases htable

/-- What is around a part was planned for a part, too. -/
theorem Surrounds.explained (hE : E.Resolved) (hsound : Sound E plan.nodes)
    (hle : before ⊆ plan.nodes) (hq : q ∈ E.queries) (hb : q.body = .select b)
    (hcalls : refreshCalls E.scopes b = .ok calls)
    (hpart : PartOf b.source (blockNeeds b q.orderBy calls) src outer needs)
    (h : Surrounds E b.scope before outer ro) : ∀ r ∈ ro.toList, r.Explained E plan := by
  intro r hr
  cases h with
  | none => cases hr
  | some h =>
    obtain rfl := List.mem_singleton.1 hr
    obtain ⟨oo, houter⟩ := hpart.around rfl
    exact h.explained hE hsound hle hq hb hcalls houter

theorem readsExplained_relocated {relations : List Relation}
    (hrelations : ∀ r ∈ relations, r.Explained E plan) {t : Term}
    {leaves : List (String × List Column)} (hreads : ∀ u ∈ t.subterms, u.ReadsFrom leaves) :
    ReadsExplained E plan (t.mapUp (relocateNode relations)) := by
  intro table name type hu
  obtain ⟨v, hv, heq⟩ := mem_subterms_relocated hu
  obtain ⟨_, _, _, _, -, -, r, hr, htable⟩ := column_of_relocated (hreads v hv) heq
  exact hrelations r (List.mem_of_find?_eq_some hr) table htable name

theorem readsExplained_joinTerm {l r : Relation} (hl : l.Explained E plan)
    (hr : r.Explained E plan) (s : String × Column) :
    ReadsExplained E plan (joinTerm l r s) := by
  have hread {rel : Relation} (h : rel.Explained E plan) :
      ReadsExplained E plan (rel.read s.1 s.2) := by
    intro table name type hu
    unfold Relation.read at hu
    split at hu
    · rename_i htable
      cases List.mem_singleton.1 hu
      exact h _ htable _
    · cases List.mem_singleton.1 hu
  unfold joinTerm
  split
  · exact hread hl
  · exact hread hr

/-- The arguments in the scan of a part read what is around it. -/
theorem Planned.scan_explained (hroot : b.source.Reads [])
    (hpart : PartOf b.source (blockNeeds b q.orderBy calls) src outer needs)
    (hro : ∀ r ∈ ro.toList, r.Explained E plan)
    (h : Planned E b.scope before ro src needs r) :
    ∀ t ∈ r.scan.terms, ReadsExplained E plan t := by
  intro t ht
  obtain ⟨x, -, rfl, hreads⟩ := h.mem_scan_terms (hpart.reads hroot) ht
  exact readsExplained_relocated hro hreads

/-- The clauses and updates of a block read its source. -/
theorem BlockPlanned.explained (hE : E.Resolved) (hsound : Sound E plan.nodes)
    (hle : before ⊆ plan.nodes) (h : BlockPlanned E before q b calls r) :
    ∀ t ∈ r.scan.terms ++ readFrom r (sourceTerms b q.orderBy) ++
      readFrom r (calls.flatMap (·.args)), ReadsExplained E plan t := by
  have hblock := hE.block h.mem h.body
  have hrelation : ∀ rel ∈ [r], rel.Explained E plan := by
    intro rel hrel
    obtain rfl := List.mem_singleton.1 hrel
    exact h.planned.explained hE hsound hle h.mem h.body h.registered .root
  intro t ht
  simp only [List.mem_append] at ht
  rcases ht with (ht | ht) | ht
  · exact h.planned.scan_explained hblock.sourceReads .root (by simp) t ht
  · obtain ⟨x, hx, rfl⟩ := List.mem_map.1 ht
    obtain ⟨clause, hclause, hin⟩ := sourceTerms_occur hx
    exact readsExplained_relocated hrelation
      fun u hu => hblock.reads clause hclause u (Term.mem_subterms_trans hu hin)
  · obtain ⟨x, hx, rfl⟩ := List.mem_map.1 ht
    obtain ⟨c, hc, hx⟩ := List.mem_flatMap.1 hx
    obtain ⟨leaves, hreads⟩ := updates_read hE h.mem h.body h.registered hc
    exact readsExplained_relocated hrelation (hreads x hx)

end Reads

/-! ## Plans -/

/-- All ambiguous reads of a node are clashes in the query. -/
theorem Emitted.explained {E : Setting} {plan : Plan} {before : List Node} {n : Node}
    (hE : E.Resolved) (hsound : Sound E plan.nodes) (hle : before ⊆ plan.nodes)
    (h : Emitted E before n) : ∀ t ∈ n.terms ++ n.updateTerms, ReadsExplained E plan t := by
  cases h with
  | create | setMatch | rename =>
    intro t ht
    cases ht
  | @join q b calls src outer needs p ro l r table sources hq hb hpart hp houter hl hr _ hcalls =>
    have hblock := hE.block hq hb
    have hleft := hl.explained hE hsound hle hq hb hcalls (hpart.left hp)
    have hright := hr.explained hE hsound hle hq hb hcalls (hpart.right hp)
    have hro := houter.explained hE hsound hle hq hb hcalls hpart
    have haround := (houter.around hl).explained hE hsound hle hq hb hcalls (hpart.right hp)
    intro t ht
    rw [updateTerms_populate, List.append_nil, terms_join] at ht
    simp only [List.mem_append] at ht
    rcases ht with ((ht | ht) | ht) | ht
    · obtain ⟨x, hx, rfl⟩ := List.mem_map.1 ht
      refine readsExplained_relocated ?_
        ((reads_pair hp (hpart.reads hblock.sourceReads) needs).2.2 x hx)
      simpa [or_imp, forall_and] using ⟨hleft, hright, by simpa using hro⟩
    · exact hl.scan_explained hblock.sourceReads (hpart.left hp) hro t ht
    · exact hr.scan_explained hblock.sourceReads (hpart.right hp) haround t ht
    · obtain ⟨s, -, rfl⟩ := List.mem_map.1 (joinSelect_eq l r sources ▸ ht)
      exact readsExplained_joinTerm hleft hright s
  | project h hgrouped =>
    intro t ht
    rw [updateTerms_populate, List.append_nil, terms_project hgrouped] at ht
    exact h.explained hE hsound hle t (List.mem_append_left _ ht)
  | aggregate h hgrouped =>
    rw [terms_group hgrouped, updateTerms_group]
    exact h.explained hE hsound hle
  | @score q b _ _ table _ h hgrouped htable =>
    intro t ht table' name type hu hambiguous
    rw [updateTerms_populate, List.append_nil] at ht
    obtain ⟨x, hx, rfl⟩ := mem_terms_score ht
    obtain ⟨rfl, g, hg, hname⟩ :=
      accumulator_of_regrouped (outputs_read (hE.block h.mem h.body) x hx) hu
    have hread : name ∈ accumulatorNames q b :=
      mem_foldl_addAggregate_of (.inl ⟨g, List.mem_flatMap.2 ⟨x, hx, hg⟩, hname⟩)
    rw [unambiguous_iff hsound (hle htable), not_le, repeated_groupTable hread] at hambiguous
    exact .group h.mem h.body (hle htable) hread hambiguous
  | copy hq hbody htable =>
    intro t ht table' name type hu hambiguous
    rw [updateTerms_populate, List.append_nil] at ht
    obtain ⟨c, hc, rfl⟩ := mem_terms_copy (hE.formed _ hq) hbody ht
    cases List.mem_singleton.1 hu
    rw [unambiguous_iff hsound (hle htable.declared), not_le] at hambiguous
    exact .result hq hbody (hle htable.declared) hambiguous

/-- A column that a step reads by name has its name for itself in the table, except where the part
    of the query that the table is for has two columns of that name: needed columns of joined
    sources, a key written like an accumulator, or outputs of a set operator. -/
theorem ofQuery_unambiguous_iff {env : Resolve.Env} {query : Query} {analysis : Resolve.Analysis}
    {requests : List TableRequest} (ha : Resolve.analyze env query = (.ok analysis, requests))
    {config : PlanConfig} {plan : Plan} {scopes : Scopes}
    (h : ofQuery config analysis.scopes analysis.query = .ok (plan, scopes))
    {n : Node} (hn : n ∈ plan.nodes) {t : Term} (ht : t ∈ n.terms ++ n.updateTerms)
    {table name : String} {type : DataType} (hu : .tableColumn table name type ∈ t.subterms) :
    plan.Unambiguous table name ↔
      ¬ NameClash ⟨config, analysis.scopes, analysis.query.queries⟩ plan.nodes table name := by
  obtain ⟨hsound, -⟩ := ofQuery_sound ha h
  have hE := resolved_of_analyze ha config
  obtain ⟨before, after, hnodes⟩ := List.append_of_mem hn
  have hle : before ⊆ plan.nodes := hnodes ▸ List.subset_append_left _ _
  constructor
  · exact fun hunambiguous hclash => hclash.not_unambiguous hE hsound hunambiguous
  · intro hclash
    by_contra hambiguous
    exact hclash ((hsound _ _ _ hnodes).explained hE hsound hle t ht table name type hu hambiguous)

/-- Stands for `select s.x from (select a.Id as x, a.Name as x from #A.entities() a) s
    inner join #B.orders() b on s.x = b.PersonId` -/
def repeatedOutput : Query :=
  .ofSelect ((Select.empty.addExpr (.ofColumn "s" "x")).withSource
    (.join .inner
      ((Source.ofQuery (.ofSelect (((Select.empty.addAliased (.ofColumn "a" "Id") "x").addAliased
        (.ofColumn "a" "Name") "x").withSource (Sample.entitiesAs "a")))).withAlias "s")
      (Sample.ordersAs "b") (.equals (.ofColumn "s" "x") (.ofColumn "b" "PersonId"))))

/-- The subquery has two columns `x`. The one that nothing reads goes into the table of the join,
    too, so that the read of the other is ambiguous. -/
theorem ofQuery_unambiguous_iff_repeatedOutput :
    ∃ analysis requests plan scopes,
      Resolve.analyze ⟨Sample.catalog, default⟩ repeatedOutput = (.ok analysis, requests) ∧
      ofQuery default analysis.scopes analysis.query = .ok (plan, scopes) ∧
      (∃ n ∈ plan.nodes, ∃ t ∈ n.terms ++ n.updateTerms, ∃ type,
        .tableColumn "__t1_join" "s.x" type ∈ t.subterms) ∧
      ¬ plan.Unambiguous "__t1_join" "s.x" ∧
      NameClash ⟨default, analysis.scopes, analysis.query.queries⟩ plan.nodes "__t1_join"
        "s.x" := by
  obtain ⟨analysis, requests, plan, scopes, h, hplan, hcheck⟩ := exists_plan_of_check
    ⟨Sample.catalog, default⟩ default repeatedOutput (fun _ plan => decide
      ((∃ n ∈ plan.nodes, ∃ t ∈ n.terms ++ n.updateTerms, ∃ u ∈ t.subterms,
          u.tableColumn? = some ("__t1_join", "s.x")) ∧
        plan.columnsOf? "__t1_join" = some [⟨"s.x", 0, .int⟩, ⟨"s.x", 1, .string⟩]))
    (by decide +kernel)
  obtain ⟨⟨n, hn, t, ht, u, hu, hreads⟩, hcolumns⟩ := of_decide_eq_true hcheck
  obtain ⟨type, rfl⟩ := Term.tableColumn?_eq_some.1 hreads
  have hambiguous : ¬ plan.Unambiguous "__t1_join" "s.x" := by
    intro hunambiguous
    exact absurd (hunambiguous _ hcolumns) (by decide)
  refine ⟨analysis, requests, plan, scopes, h, hplan, ⟨n, hn, t, ht, type, hu⟩, hambiguous, ?_⟩
  by_contra hclash
  exact hambiguous ((ofQuery_unambiguous_iff h hplan hn ht hu).2 hclash)

end Plan

end SchemaQuery
