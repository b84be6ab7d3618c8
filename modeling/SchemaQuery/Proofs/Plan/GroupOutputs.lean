-- SUMMARY: What the step that reads the groups of a block still takes from the rows of the source.
import SchemaQuery.Proofs.Plan.Declared
import SchemaQuery.Proofs.Plan.GroupRows

/-!
# The outputs of a group

Groups are read by a second step, after the rows of the source are gone. Keys and
aggregates of an output become reads of the grouping table there, and resolution
has left no other column in it. A method that takes the current row of a source
is no column, though: outside keys and aggregates it stays as it is. So the
second step hands on the row of a source exactly when an output of the block
does so in such a place.
-/

namespace SchemaQuery.Plan

/-! ## Ungrouped parts -/

/-- The parts of a term that a group is read for one by one: not those in a key or an aggregate. -/
def ungroupedParts (keys : List Term) (t : Term) : List Term :=
  if Resolve.isKey keys t then []
  else if t.isAggregate then [t]
  else t :: t.children.attach.flatMap fun c => ungroupedParts keys c.1
termination_by sizeOf t
decreasing_by exact Term.sizeOf_lt_of_mem_children c.2

/-- Some output of a block hands the row of the alias to a method, in no key and no aggregate. -/
def HandsUngroupedRow (q : BoundQuery) (b : BoundSelect) (a : String) : Prop :=
  ∃ t ∈ groupOutputs b q.orderBy, ∃ u ∈ ungroupedParts (groupKeys b) t, rowAlias? u = some a

instance (q : BoundQuery) (b : BoundSelect) (a : String) : Decidable (HandsUngroupedRow q b a) :=
  inferInstanceAs (Decidable (∃ t ∈ groupOutputs b q.orderBy,
    ∃ u ∈ ungroupedParts (groupKeys b) t, rowAlias? u = some a))

section Parts

variable {keys : List Term} {t u : Term}

theorem ungroupedParts_key (h : Resolve.isKey keys t = true) : ungroupedParts keys t = [] := by
  rw [ungroupedParts, h, if_pos rfl]

theorem ungroupedParts_aggregate (h : Resolve.isKey keys t = false) (hagg : t.isAggregate = true) :
    ungroupedParts keys t = [t] := by
  rw [ungroupedParts, h, hagg, if_neg Bool.false_ne_true, if_pos rfl]

theorem mem_ungroupedParts (h : Resolve.isKey keys t = false) (hagg : t.isAggregate = false) :
    u ∈ ungroupedParts keys t ↔ u = t ∨ ∃ c ∈ t.children, u ∈ ungroupedParts keys c := by
  rw [ungroupedParts, h, hagg]
  simp

/-- A node and its label hand on the same row. -/
theorem rowAlias?_of_label {v : Term} (h : u.label = v.label) : rowAlias? u = rowAlias? v := by
  have hlabel (t : Term) : rowAlias? t = rowAlias? t.label := by cases t <;> rfl
  rw [hlabel u, hlabel v, h]

/-- Read from its group, a term hands on the rows that its ungrouped parts hand on. -/
theorem handsRow_regroupTerm (table a : String) (t : Term) :
    (∃ u ∈ (regroupTerm keys table t).subterms, rowAlias? u = some a) ↔
      ∃ u ∈ ungroupedParts keys t, rowAlias? u = some a := by
  induction t using Term.childInduction with
  | step t ih =>
    cases hkey : Resolve.isKey keys t with
    | true =>
      obtain ⟨i, -, -, -, hi⟩ : ∃ i k, _ ∧ _ ∧ regroupTerm keys table t = .groupField i t.type :=
        regroupTerm_key hkey
      simp [hi, ungroupedParts_key hkey, Term.subterms, rowAlias?]
    | false =>
      cases hagg : t.isAggregate with
      | true =>
        rw [ungroupedParts_aggregate hkey hagg]
        cases t with
        | aggregate m args type =>
          simp [regroupTerm_aggregate hkey, Term.subterms, rowAlias?]
        | _ => cases hagg
      | false =>
        have hself : rowAlias? (regroupTerm keys table t) = rowAlias? t :=
          rowAlias?_of_label (label_regroupTerm table hkey hagg)
        obtain ⟨-, hchildren⟩ : _ ∧ (regroupTerm keys table t).children = _ :=
          regroupTerm_children hkey hagg
        constructor
        · rintro ⟨u, hu, halias⟩
          rw [Term.mem_subterms, hchildren] at hu
          rcases hu with rfl | ⟨_, hc, hu⟩
          · exact ⟨t, (mem_ungroupedParts hkey hagg).2 (.inl rfl), hself ▸ halias⟩
          · obtain ⟨c, hmem, rfl⟩ := List.mem_map.1 hc
            obtain ⟨v, hv, halias⟩ := (ih c hmem).1 ⟨u, hu, halias⟩
            exact ⟨v, (mem_ungroupedParts hkey hagg).2 (.inr ⟨c, hmem, hv⟩), halias⟩
        · rintro ⟨v, hv, halias⟩
          rcases (mem_ungroupedParts hkey hagg).1 hv with rfl | ⟨c, hc, hv⟩
          · exact ⟨_, Term.self_mem_subterms _, hself.trans halias⟩
          · obtain ⟨u, hu, halias⟩ := (ih c hc).2 ⟨v, hv, halias⟩
            refine ⟨u, Term.mem_subterms.2 (.inr ⟨_, ?_, hu⟩), halias⟩
            exact hchildren ▸ List.mem_map_of_mem hc

end Parts

/-! ## The step that reads the groups -/

section Score

variable {E : Setting} {ns before : List Node} {q : BoundQuery} {b : BoundSelect}
  {table target : String}

theorem regrouped_mem_terms_score {x : Term} (h : x ∈ groupOutputs b q.orderBy) :
    regroupTerm (groupKeys b) table x ∈ (Node.populate (scoreStep q b table target)).terms := by
  simp only [groupOutputs, List.mem_append, List.mem_map, Option.mem_toList] at h
  simp only [Node.terms, Node.evaluates?, scoreStep, Option.elim_some, Scan.terms, List.nil_append,
    List.mem_append, List.mem_map, Option.mem_toList, Option.map_eq_some_iff]
  rcases h with (⟨f, hf, rfl⟩ | hx) | ⟨k, hk, rfl⟩
  · exact .inl (.inr ⟨f, hf, rfl⟩)
  · exact .inl (.inl ⟨x, hx, rfl⟩)
  · exact .inr ⟨_, ⟨k, hk, rfl⟩, rfl⟩

theorem handsRow_score (a : String) :
    HandsRow (Node.populate (scoreStep q b table target)).terms a ↔ HandsUngroupedRow q b a := by
  constructor
  · rintro ⟨t, ht, hu⟩
    obtain ⟨x, hx, rfl⟩ := mem_terms_score ht
    exact ⟨x, hx, (handsRow_regroupTerm table a x).1 hu⟩
  · rintro ⟨x, hx, hu⟩
    exact ⟨_, regrouped_mem_terms_score hx, (handsRow_regroupTerm table a x).2 hu⟩

/-- Resolution has accepted the outputs, so no column of a source is left in them. -/
theorem columnAlias?_score (hE : E.Resolved) (hq : q ∈ E.queries) (hb : q.body = .select b)
    (hgrouped : b.isGrouped = true) :
    ∀ t ∈ (Node.populate (scoreStep q b table target)).terms, ∀ u ∈ t.subterms,
      u.columnAlias? = none := by
  intro t ht u hu
  obtain ⟨x, hx, rfl⟩ := mem_terms_score ht
  exact regroupTerm_grouped x (outputs_checked (hE.block hq hb) hgrouped x hx) u hu

/-- A table is declared once, so none for groups is one for the rows of a query. -/
theorem not_create_of_grouping (hsound : Sound E ns) (hle : before ⊆ ns) {columns : List Column}
    (hcreate : .create table columns true ∈ ns) (columns' : List Column) :
    .create table columns' false ∉ before := by
  intro h
  cases List.inj_on_of_nodup_map hsound.nodup (mem_declared.2 hcreate) (mem_declared.2 (hle h)) rfl

/-- Apart from a common table expression of its name, no part of a source reads a grouping table. -/
theorem Planned.scan_grouping {scope : Nat} {ro : Option Relation} {src : BoundSource}
    {needs : ColumnNeeds} {r : Relation} (h : Planned E scope before ro src needs r)
    (hrows : ∀ columns, .create table columns false ∉ before) {al : String}
    (hscan : (al, table) ∈ r.scan.tables) : ∃ columns, src = .inMemory al table .cte columns := by
  rcases h.scanned hscan fun _ htable => hrows _ htable.declared with hcte | ⟨-, -, hpair⟩
  · exact hcte
  · obtain ⟨_, _, _, _, _, -, -, -, hdeclared, -⟩ := hpair
    exact absurd hdeclared (hrows _)

/-- A step over a grouping table reads it for the block that it was declared for, unless a common
    table expression has the name of the table. -/
theorem Emitted.reads_groups (hsound : Sound E ns) (hle : before ⊆ ns) {n : Node}
    (h : Emitted E before n) {columns : List Column} (hcreate : .create table columns true ∈ ns)
    {al : String} (hscan : (al, table) ∈ n.scans) :
    ScansCte E.queries n al table ∨
    ∃ q ∈ E.queries, ∃ b, q.body = .select b ∧ b.isGrouped = true ∧
      columns = groupTable q b ∧ b.source.aliasName = al ∧
      ∃ target, n = .populate (scoreStep q b table target) := by
  have hrows := not_create_of_grouping hsound hle hcreate
  cases h with
  | create | setMatch | rename => cases hscan
  | @join q b _ src _ _ p _ l r _ _ hq hb hpart hp _ hl hr =>
    refine .inl ⟨q, hq, b, hb, ?_⟩
    change _ ∈ l.scan.tables ++ r.scan.tables at hscan
    rcases List.mem_append.1 hscan with hscan | hscan
    · obtain ⟨cs, hsrc⟩ := hl.scan_grouping hrows hscan
      exact ⟨cs, hsrc ▸ .left hpart.mem_parts hp⟩
    · obtain ⟨cs, hsrc⟩ := hr.scan_grouping hrows hscan
      exact ⟨cs, hsrc ▸ .right hpart.mem_parts hp⟩
  | @project q b _ _ _ h =>
    obtain ⟨cs, hsrc⟩ := h.planned.scan_grouping hrows hscan
    exact .inl ⟨q, h.mem, b, h.body, cs, hsrc ▸ .project⟩
  | @aggregate q b _ _ _ h =>
    obtain ⟨cs, hsrc⟩ := h.planned.scan_grouping hrows hscan
    exact .inl ⟨q, h.mem, b, h.body, cs, hsrc ▸ .aggregate⟩
  | score h hgrouped htable =>
    cases List.mem_singleton.1 hscan
    have hsame := List.inj_on_of_nodup_map hsound.nodup (mem_declared.2 (hle htable))
      (mem_declared.2 hcreate) rfl
    cases hsame
    exact .inr ⟨_, h.mem, _, h.body, hgrouped, rfl, rfl, _, rfl⟩
  | copy _ _ htable =>
    cases List.mem_singleton.1 hscan
    exact absurd htable.declared (hrows _)

end Score

/-! ## Plans -/

/-- A step of the plan of a resolved query that scans a grouping table reads no column of a source,
    and it hands on the row of a source exactly when an output of its block does so outside keys and
    aggregates; unless a common table expression has the name of the table and the step reads the
    table for it. -/
theorem ofQuery_readsGroups {env : Resolve.Env} {q : Query} {a : Resolve.Analysis}
    {requests : List TableRequest} (ha : Resolve.analyze env q = (.ok a, requests))
    {config : PlanConfig} {plan : Plan} {scopes : Scopes}
    (h : ofQuery config a.scopes a.query = .ok (plan, scopes)) {n : Node} (hn : n ∈ plan.nodes)
    {table : String} {columns : List Column} (hcreate : .create table columns true ∈ plan.nodes)
    {al : String} (hscan : (al, table) ∈ n.scans) :
    ScansCte a.query.queries n al table ∨
    ∃ q ∈ a.query.queries, ∃ b, q.body = .select b ∧ b.isGrouped = true ∧
      columns = groupTable q b ∧ b.source.aliasName = al ∧
      (∀ t ∈ n.terms, ∀ u ∈ t.subterms, u.columnAlias? = none) ∧
      ∀ leaf, HandsRow n.terms leaf ↔ HandsUngroupedRow q b leaf := by
  obtain ⟨hsound, -⟩ := ofQuery_sound ha h
  obtain ⟨before, after, hnodes⟩ := List.append_of_mem hn
  have hle : before ⊆ plan.nodes := hnodes ▸ List.subset_append_left _ _
  refine ((hsound before n after hnodes).reads_groups hsound hle hcreate hscan).imp_right ?_
  rintro ⟨q, hq, b, hb, hgrouped, hcolumns, halias, target, rfl⟩
  exact ⟨q, hq, b, hb, hgrouped, hcolumns, halias,
    columnAlias?_score (resolved_of_analyze ha config) hq hb hgrouped, handsRow_score⟩

/-- Stands for `select a.Describe(), Count(a.Describe()) from #A.entities() a group by a.City` -/
def describedCities : Query :=
  .ofSelect ((((Select.empty.addExpr (.ofQualifiedCall "a" "Describe" [])).addExpr
    (.ofCall "Count" [.ofQualifiedCall "a" "Describe" []])).withSource
      (Sample.entitiesAs "a")).withGroupBy [.ofColumn "a" "City"])

/-- The description of a city is taken from the row of a person, which its group does not have. -/
theorem ofQuery_readsGroups_describedCities :
    ∃ analysis requests plan scopes,
      Resolve.analyze ⟨Sample.catalog, default⟩ describedCities = (.ok analysis, requests) ∧
      ofQuery default analysis.scopes analysis.query = .ok (plan, scopes) ∧
      (∃ n ∈ plan.nodes, ("a", "__t0_group") ∈ n.scans ∧ HandsRow n.terms "a") ∧
      ∃ q ∈ analysis.query.queries, ∃ b, q.body = .select b ∧ HandsUngroupedRow q b "a" := by
  obtain ⟨analysis, requests, plan, scopes, h, hplan, hcheck⟩ := exists_plan_of_check
    ⟨Sample.catalog, default⟩ default describedCities (fun a plan => decide
      ((∃ n ∈ plan.nodes, ("a", "__t0_group") ∈ n.scans ∧ HandsRow n.terms "a") ∧
        (∃ d ∈ plan.nodes.filterMap Node.declared?, d.1 = "__t0_group" ∧ d.2.2 = true) ∧
        ∀ b ∈ BoundQuery.blocksOf a.query.queries, ∀ src ∈ b.source.parts,
          (match src with | .inMemory .. => true | _ => false) = false))
    (by decide +kernel)
  obtain ⟨⟨n, hn, hscan, hhands⟩, ⟨⟨_, columns, _⟩, hcreate, rfl, rfl⟩, hparts⟩ :=
    of_decide_eq_true hcheck
  refine ⟨analysis, requests, plan, scopes, h, hplan, ⟨n, hn, hscan, hhands⟩, ?_⟩
  rcases ofQuery_readsGroups h hplan hn (mem_declared.1 hcreate) hscan with
    ⟨q, hq, b, hb, cs, hstep⟩ | ⟨q, hq, b, hb, -, -, -, -, hrows⟩
  · cases hparts _ (BoundQuery.mem_blocksOf hq hb) _ hstep.mem_parts
  · exact ⟨q, hq, b, hb, (hrows "a").1 hhands⟩

end SchemaQuery.Plan
