-- SUMMARY: Aggregates stand only where groups are seen, and each block registers the updates of its own, in order.
import SchemaQuery.Proofs.Resolve.Nullability
import SchemaQuery.Proofs.Resolve.Output
import SchemaQuery.Proofs.Resolve.UpdateText
import SchemaQuery.Sample.Catalog
import SchemaQuery.Sample.Query

/-!
# Strata of aggregates

Rows come before groups: conditions on rows, grouping keys, join conditions and
arguments of tables have no aggregates, and no aggregate is computed from another
one. The aggregates of a block are those of its fields, its condition on groups
and its order, and the updates registered in the scope of the block are theirs, in
the order of their first occurrence. Main statement: `analyze_stratified`.
-/

namespace SchemaQuery

/-! ## Registered accumulators -/

theorem eraseDups_append_cons_of_mem {α : Type} [BEq α] [LawfulBEq α] {as : List α} {a : α}
    (h : a ∈ as) (bs : List α) : (as ++ a :: bs).eraseDups = (as ++ bs).eraseDups := by
  rw [List.eraseDups_append, List.eraseDups_append, List.cons_removeAll,
    if_neg (by simpa using h)]

/-- Adding updates adds their accumulators: an update is left out only where one of the same
    accumulator is present. -/
theorem eraseDups_addRefreshes {calls cs : List RefreshCall}
    (h : ∀ c ∈ calls ++ cs, ∃ g, c.Updates g) :
    ((addRefreshes calls cs).map (·.accumulator)).eraseDups =
      (calls.map (·.accumulator) ++ cs.map (·.accumulator)).eraseDups := by
  induction cs generalizing calls with
  | nil => simp [addRefreshes]
  | cons c cs ih =>
    change ((addRefreshes (addRefresh calls c).1 cs).map _).eraseDups = _
    by_cases hpresent : ∃ d ∈ calls, d.render = c.render
    · obtain ⟨d, hd, hrender⟩ := hpresent
      obtain ⟨g, hg⟩ := h c (by simp)
      obtain ⟨g', hg'⟩ := h d (by simp [hd])
      have hsame : (addRefresh calls c).1 = calls :=
        @addRefreshes_of_present calls [c] (by simpa using ⟨d, hd, hrender⟩)
      have hmem : c.accumulator ∈ calls.map (·.accumulator) :=
        List.mem_map.2 ⟨d, hd, RefreshCall.accumulator_eq_of_render hg' hg hrender⟩
      rw [hsame, ih fun c' hc' => h c' (by simp at hc' ⊢; tauto), List.map_cons,
        eraseDups_append_cons_of_mem hmem]
    · have hnew : (addRefresh calls c).1 = calls ++ [c] := by
        unfold addRefresh
        rw [if_neg (by simpa using hpresent)]
      rw [hnew, ih fun c' hc' => h c' (by simpa using hc')]
      simp

theorem map_accumulator_of_updates {cs : List RefreshCall} {us : List Term}
    (h : List.Forall₂ RefreshCall.Updates cs us) :
    cs.map (·.accumulator) = us.filterMap Term.accumulator? := by
  induction h with
  | nil => rfl
  | cons hc _ ih => rw [List.map_cons, List.filterMap_cons, hc.accumulator?, ih]

/-! ## Stratified blocks -/

/-- Where the aggregates of a block stand, and what the scope of the block holds for them. -/
structure Block.Stratified (s : Scopes) (b : Block) : Prop where
  /-- What is evaluated over rows has no aggregates. -/
  rows : ∀ t ∈ b.source.clauses ++ b.filter.toList ++ b.groupBy, t.aggregates = []
  /-- Nor has an argument of an aggregate. -/
  arguments : ∀ t ∈ b.outputs, ∀ g ∈ t.aggregates, ∀ arg ∈ g.children, arg.aggregates = []
  grouping : b.aggregates ≠ [] → b.grouping = .explicit ∨ b.grouping = .implicit
  /-- The updates are those of the aggregates, each accumulator at its first occurrence. -/
  updates : b.aggregates ≠ [] → ∃ calls,
    s.findIn? (refreshKey b.source.aliasName) b.scope = some (.refresh calls) ∧
      (calls.map (·.accumulator)).eraseDups =
        (b.aggregates.filterMap Term.accumulator?).eraseDups

namespace Resolve

variable {env : Env} {s : Scopes} {b : Block}

theorem refresh_of_mem_refreshOf {id : Nat} {a : String} {c : RefreshCall}
    (h : c ∈ s.refreshOf id a) :
    s.findIn? (refreshKey a) id = some (.refresh (s.refreshOf id a)) := by
  unfold Scopes.refreshOf at h ⊢
  split at h
  · assumption
  · cases h

/-- In a scope that held tables only, the accumulators are those of the aggregates bound since. -/
theorem Registers.accumulators_of_onlyTables {id : Nat} {a : String} {us : List Term}
    {s s' : Scopes} (h : Registers ((Context.ofScope id).withAlias a) us s s')
    (ho : s.OnlyTables id) :
    ((s'.refreshOf id a).map (·.accumulator)).eraseDups =
      (us.filterMap Term.accumulator?).eraseDups := by
  obtain ⟨cs, hcs, hcalls⟩ := h.calls a rfl
  change s'.refreshOf id a = addRefreshes (s.refreshOf id a) cs at hcalls
  have hupdates : ∀ c ∈ [] ++ cs, ∃ g, c.Updates g := by
    intro c hc
    obtain ⟨g, -, hg⟩ := (exists_of_forall₂ hcs).1 c hc
    exact ⟨g, hg⟩
  rw [hcalls, refreshOf_eq_nil ho, eraseDups_addRefreshes hupdates,
    ← map_accumulator_of_updates hcs]
  rfl

theorem BlockRun.stratified (h : BlockRun env s b) : b.Stratified s := by
  have hseen := h.seen
  cases h with
  | @mk id usage source src sel orderBy b order s₀ s₁ s₂ hwork hctes hsource hblock hkept =>
    have ho := onlyTables_of_onlyCtes hctes
    obtain ⟨hb, -⟩ := @binds_source env source (.ofScope id) [] s₀ s₁ _ src hwork ho rfl rfl
      (fun _ _ => trivial) hsource
    obtain ⟨rfl, rfl, tables, -, hclauses⟩ :=
      bindBlock_clauses (hb.within.ordered hwork.ordered) hb.bound hblock
    have hregisters := hclauses.outputs.registers
    refine ⟨?_, ?_, ?_, ?_⟩
    · rw [List.append_assoc, List.forall_mem_append]
      exact ⟨hseen.sourcePlain, hclauses.plain⟩
    · intro t ht g hg
      have hself := hclauses.outputs.resolved t ht g hg g (Term.self_mem_subterms g)
      cases g with
      | aggregate m args type => exact hself
      | _ => cases (Term.mem_aggregates.1 hg).2
    · intro hne
      cases hgrouping : b.grouping with
      | explicit => exact .inl hgrouping
      | implicit => exact .inr hgrouping
      | _ =>
        exact absurd (List.flatMap_eq_nil_iff.2 (hclauses.ungrouped (by simp [hgrouping]))) hne
    · intro hne
      obtain ⟨u, hu⟩ := List.exists_mem_of_ne_nil _ hne
      obtain ⟨a, ha, c, hc, -⟩ := hregisters.complete u hu
      cases ha
      exact ⟨_, (hkept _).trans (refresh_of_mem_refreshOf hc),
        hregisters.accumulators_of_onlyTables (hb.onlyTables ho)⟩

/-- Aggregates of a resolved query are those of fields, conditions on groups and orders of grouped
    blocks, never nested, and the scope of each block registers the updates of its own. The order
    of a set operator has none. -/
theorem analyze_stratified {q : Query} {a : Analysis} {requests : List TableRequest}
    (h : analyze env q = (.ok a, requests)) :
    (∀ b ∈ BoundQuery.blocksOf a.query.queries, b.Stratified a.scopes) ∧
      ∀ q' ∈ a.query.queries, q'.body.block? q'.orderBy = none →
        ∀ k ∈ q'.orderBy, k.term.aggregates = [] := by
  refine ⟨fun b hb => (analyze_runs h b hb).stratified, fun q' hq' hbody k hk => ?_⟩
  have hgives := (analyze_formed h q' hq').gives
  cases hq : q'.body with
  | select sel => simp [hq, BoundBody.block?] at hbody
  | setOperation operator keys left right =>
    rw [hq] at hgives
    obtain ⟨c, -, hterm⟩ := hgives.order k hk
    rw [hterm]
    rfl

/-- Stands for `select City, Sum(Population), Count(Name) from #A.entities() a group by City
    having Sum(Population) > 100 order by Count(Name), Max(Money)` -/
def rankedCities : Query :=
  (Query.ofSelect ((((((Select.empty.addExpr (.identifier "City")).addExpr
    Sample.totalPopulation).addExpr (.ofCall "Count" [.identifier "Name"])).withSource
      (Sample.entitiesAs "a")).withGroupBy [.identifier "City"]).withHaving
        (.binary .gt Sample.totalPopulation (.ofInt 100)))).withOrder
          [⟨.ofCall "Count" [.identifier "Name"], .asc⟩, ⟨.ofCall "Max" [.identifier "Money"], .desc⟩]

/-- Repeated aggregates are registered once, and the one that only the order reads comes last. -/
theorem analyze_stratified_rankedCities :
    ∃ analysis requests, analyze ⟨Sample.catalog, default⟩ rankedCities =
        (.ok analysis, requests) ∧
      ∃ b ∈ BoundQuery.blocksOf analysis.query.queries, ∃ calls,
        analysis.scopes.findIn? (refreshKey b.source.aliasName) b.scope = some (.refresh calls) ∧
        (calls.map (·.accumulator)).eraseDups = ["Sum(Population)", "Count(Name)", "Max(Money)"] ∧
        b.grouping = .explicit := by
  obtain ⟨analysis, requests, h, hcheck⟩ := exists_ok_of_check
    (analyze ⟨Sample.catalog, default⟩ rankedCities)
    (fun analysis => (BoundQuery.blocksOf analysis.query.queries).any fun b =>
      decide (b.grouping = .explicit) && decide (b.aggregates.filterMap Term.accumulator? =
        ["Sum(Population)", "Count(Name)", "Sum(Population)", "Count(Name)", "Max(Money)"]))
    (by decide +kernel)
  obtain ⟨b, hb, hfacts⟩ := List.any_eq_true.1 hcheck
  simp only [Bool.and_eq_true, decide_eq_true_eq] at hfacts
  obtain ⟨hgrouping, haccumulators⟩ := hfacts
  have hne : b.aggregates ≠ [] := fun hnil => by simp [hnil] at haccumulators
  obtain ⟨calls, hcalls, hnames⟩ := ((analyze_stratified h).1 b hb).updates hne
  exact ⟨analysis, requests, h, b, hb, calls, hcalls, by rw [hnames, haccumulators]; decide,
    hgrouping⟩

end Resolve

end SchemaQuery
