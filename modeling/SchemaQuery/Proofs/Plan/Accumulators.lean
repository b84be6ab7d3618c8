-- SUMMARY: Which accumulators the grouping steps of a plan update.
import SchemaQuery.Compiler
import SchemaQuery.Proofs.Plan.Block
import SchemaQuery.Proofs.Plan.Moves
import SchemaQuery.Proofs.Plan.Updates
import SchemaQuery.Proofs.Resolve.Query
import SchemaQuery.Proofs.Resolve.UpdateText
import SchemaQuery.Sample.Catalog
import SchemaQuery.Sample.Query

/-!
# Accumulators and their updates

A grouping step fills the accumulators of the aggregates that its block outputs.
Its updates are looked up by the alias of the source, through the scopes around
the block. A block with aggregates finds its own updates, which are those of its
accumulators and no others. A grouped block without aggregates finds nothing in
its own scope, so it takes over the updates of a block around it whose source
has the same alias, and then it updates accumulators that it does not have.
-/

namespace SchemaQuery

/-! ## Blocks around a block -/

/-- The scope `i` is around the scope `j`. -/
def Scopes.Encloses (s : Scopes) (i j : Nat) : Prop := ∃ rest, s.chain j = .ok (j :: rest) ∧ i ∈ rest

/-- The block `e` is around `b`, over a source of the same alias, and has aggregates. -/
@[mk_iff]
structure Block.Lends (s : Scopes) (e b : Block) : Prop where
  encloses : s.Encloses e.scope b.scope
  aliasName : e.source.aliasName = b.source.aliasName
  aggregates : e.aggregates ≠ []

/-! ## Own updates -/

namespace BlockBound

variable {Named : String → Prop} {s : Scopes} {b : Block}

/-- The updates registered for a block are those of the accumulators that it reads. -/
theorem mem_updated_iff (h : BlockBound Named s b) (a : String) :
    a ∈ (s.refreshOf b.scope b.source.aliasName).map (·.accumulator) ↔
      ∃ g ∈ b.aggregates, g.accumulator? = some a := by
  constructor
  · intro ha
    obtain ⟨c, hc, rfl⟩ := List.mem_map.1 ha
    obtain ⟨t, ht, g, hg, hupdates⟩ := h.sound c hc
    exact ⟨g, List.mem_flatMap.2 ⟨t, ht, hg⟩, hupdates.accumulator?⟩
  · rintro ⟨g, hg, ha⟩
    obtain ⟨t, ht, hg⟩ := List.mem_flatMap.1 hg
    obtain ⟨c, hc, c', hc', hrender⟩ := h.complete t ht g hg
    obtain ⟨_, -, g', -, hc''⟩ := h.sound c hc
    refine List.mem_map.2 ⟨c, hc, ?_⟩
    rw [RefreshCall.accumulator_eq_of_render hc'' hc' hrender]
    exact Option.some.inj (hc'.accumulator?.symm.trans ha)

theorem refreshOf_eq_nil_iff (h : BlockBound Named s b) :
    s.refreshOf b.scope b.source.aliasName = [] ↔ b.aggregates = [] := by
  constructor
  · intro hnil
    refine List.eq_nil_iff_forall_not_mem.2 fun g hg => ?_
    obtain ⟨t, ht, hg⟩ := List.mem_flatMap.1 hg
    obtain ⟨c, hc, -⟩ := h.complete t ht g hg
    rw [hnil] at hc
    cases hc
  · intro hnil
    refine List.eq_nil_iff_forall_not_mem.2 fun c hc => ?_
    obtain ⟨t, ht, g, hg, -⟩ := h.sound c hc
    have hmem : g ∈ b.aggregates := List.mem_flatMap.2 ⟨t, ht, hg⟩
    rw [hnil] at hmem
    cases hmem

end BlockBound

theorem Scopes.findIn?_of_refreshOf {s : Scopes} {id : Nat} {a : String}
    (h : s.refreshOf id a ≠ []) :
    s.findIn? (refreshKey a) id = some (.refresh (s.refreshOf id a)) := by
  unfold refreshOf at h ⊢
  split at h
  · rename_i hfind
    simp only [hfind]
  · exact absurd rfl h

namespace Plan

/-! ## Accumulators of a step -/

def Aggregate.accumulators (step : Aggregate) : List String :=
  step.aggregates.map (·.method.accumulator)

/-- The accumulators that a grouping step updates. -/
def Aggregate.updated (step : Aggregate) : List String := step.refresh.map (·.accumulator)

theorem mem_addAggregate {acc : List (Accumulator × DataType)} {t : Term} {a : String}
    (h : t.accumulator? = some a ∨ a ∈ acc.map (·.1.method.accumulator)) :
    a ∈ (addAggregate acc t).map (·.1.method.accumulator) := by
  cases t with
  | aggregate m args type =>
    simp only [addAggregate]
    split
    · rename_i hany
      rcases h with h | h
      · obtain rfl := Option.some.inj h
        simpa using hany
      · exact h
    · rw [List.map_append, List.mem_append]
      rcases h with h | h
      · obtain rfl := Option.some.inj h
        exact .inr (List.mem_singleton_self _)
      · exact .inl h
  | _ => simpa [Term.accumulator?, addAggregate] using h

theorem mem_foldl_addAggregate_of {ts : List Term} {acc : List (Accumulator × DataType)}
    {a : String}
    (h : (∃ t ∈ ts, t.accumulator? = some a) ∨ a ∈ acc.map (·.1.method.accumulator)) :
    a ∈ (ts.foldl addAggregate acc).map (·.1.method.accumulator) := by
  induction ts generalizing acc with
  | nil => simpa using h
  | cons t ts ih =>
    refine ih ?_
    rcases h with ⟨u, hu, ha⟩ | h
    · rcases List.mem_cons.1 hu with rfl | hu
      · exact .inr (mem_addAggregate (.inl ha))
      · exact .inl ⟨u, hu, ha⟩
    · exact .inr (mem_addAggregate (.inr h))

/-- A grouping step has the accumulators that the outputs of its block read. -/
theorem mem_accumulators_iff {b : BoundSelect} {order : List SortKey} {relation : Relation}
    {calls : List RefreshCall} {table a : String} :
    a ∈ (groupStep b order relation calls table).accumulators ↔
      ∃ g ∈ (b.block order).aggregates, g.accumulator? = some a := by
  have hmap : (groupStep b order relation calls table).accumulators =
      (distinctAggregates (groupOutputs b order)).map (·.1.method.accumulator) := by
    simp [Aggregate.accumulators, groupStep]
  rw [hmap]
  constructor
  · intro ha
    obtain ⟨p, hp, rfl⟩ := List.mem_map.1 ha
    obtain ⟨t, ht, hg⟩ := mem_distinctAggregates hp
    exact ⟨_, List.mem_flatMap.2 ⟨t, ht, hg⟩, rfl⟩
  · rintro ⟨g, hg, ha⟩
    obtain ⟨t, ht, hg⟩ := List.mem_flatMap.1 hg
    exact mem_foldl_addAggregate_of (.inl ⟨g, List.mem_flatMap.2 ⟨t, ht,
      (Term.mem_aggregates.1 hg).1⟩, ha⟩)

theorem updated_groupStep (b : BoundSelect) (order : List SortKey) (relation : Relation)
    (calls : List RefreshCall) (table : String) :
    (groupStep b order relation calls table).updated = calls.map (·.accumulator) := by
  simp [Aggregate.updated, groupStep]

/-! ## Updates of a step -/

/-- A lookup of updates that ends well finds nothing, or updates. -/
theorem lookup_of_refreshCalls {s : Scopes} {b : BoundSelect} {calls : List RefreshCall}
    (h : refreshCalls s b = .ok calls) :
    s.lookup (refreshKey b.source.aliasName) b.scope = .ok none ∧ calls = [] ∨
      s.lookup (refreshKey b.source.aliasName) b.scope = .ok (some (.refresh calls)) := by
  rw [refreshCalls, Scopes.tryResolve] at h
  cases hlookup : s.lookup (refreshKey b.source.aliasName) b.scope with
  | error e =>
    rw [hlookup] at h
    cases h
  | ok r =>
    rw [hlookup] at h
    cases r with
    | none =>
      cases h
      exact .inl ⟨rfl, rfl⟩
    | some symbol =>
      cases symbol with
      | refresh cs =>
        cases h
        exact .inr rfl
      | table t => cases h

section Block

variable {Named : String → Prop} {s : Scopes} {qs : List BoundQuery} {b : BoundSelect}
variable {order : List SortKey} {calls : List RefreshCall}

/-- A block with aggregates finds its own updates. -/
theorem refreshCalls_own (hs : s.Ordered) (hbound : BlockBound Named s (b.block order))
    (haggregates : (b.block order).aggregates ≠ []) (hcalls : refreshCalls s b = .ok calls) :
    calls = s.refreshOf b.scope b.source.aliasName := by
  have hfind := Scopes.findIn?_of_refreshOf (mt hbound.refreshOf_eq_nil_iff.1 haggregates)
  have hlookup := Scopes.lookup_of_findIn? hs hfind
  rcases lookup_of_refreshCalls hcalls with ⟨hnone, -⟩ | hsome
  · cases hlookup.symm.trans hnone
  · cases hlookup.symm.trans hsome
    rfl

/-- Updates that a lookup finds belong to a block with aggregates, over a source of that alias. -/
theorem lender_of_findIn? (hsealed : Sealed Named s 0 s.all.length qs) {i : Nat} {a : String}
    (hfind : s.findIn? (refreshKey a) i = some (.refresh calls)) :
    calls ≠ [] ∧ ∃ e ∈ BoundQuery.blocksOf qs, e.scope = i ∧ e.source.aliasName = a ∧
      e.aggregates ≠ [] := by
  obtain ⟨e, he, hscope, halias, hcalls, hne⟩ :=
    hsealed.owner (Nat.zero_le i) (Scopes.lt_length_of_findIn? hfind) hfind
  obtain ⟨-, -, hbound⟩ := hsealed.blocks e he
  refine ⟨hne, e, he, hscope, halias, fun hnil => hne ?_⟩
  rw [← hcalls, hbound.refreshOf_eq_nil_iff.2 hnil]

/-- A block without aggregates finds updates exactly when a block around it lends them. -/
theorem refreshCalls_lent (hs : s.Ordered) (hsealed : Sealed Named s 0 s.all.length qs)
    (hb : b.block order ∈ BoundQuery.blocksOf qs) (haggregates : (b.block order).aggregates = [])
    (hcalls : refreshCalls s b = .ok calls) :
    calls ≠ [] ↔ ∃ e ∈ BoundQuery.blocksOf qs, e.Lends s (b.block order) := by
  obtain ⟨-, hid, hbound⟩ := hsealed.blocks _ hb
  obtain ⟨rest, hchain, hlookup⟩ := Scopes.lookup_eq_ok hs hid (refreshKey b.source.aliasName)
  have hfound := lookup_of_refreshCalls hcalls
  rw [show s.lookup _ b.scope = _ from hlookup] at hfound
  simp only [Except.ok.injEq] at hfound
  constructor
  · intro hne
    have hsome := hfound.resolve_left fun hnone => hne hnone.2
    rcases Option.or_eq_some_iff.1 hsome with hown | ⟨-, houter⟩
    · have hnil := hbound.refreshOf_eq_nil_iff.2 haggregates
      simp only [Scopes.refreshOf, show s.findIn? (refreshKey (b.block order).source.aliasName)
        (b.block order).scope = _ from hown] at hnil
      exact absurd hnil hne
    · obtain ⟨i, hi, hfind⟩ := List.exists_of_findSome?_eq_some houter
      obtain ⟨-, e, he, rfl, halias, hlender⟩ := lender_of_findIn? hsealed hfind
      exact ⟨e, he, ⟨rest, hchain, hi⟩, halias, hlender⟩
  · rintro ⟨e, he, ⟨rest', hchain', hi⟩, halias, hlender⟩
    obtain rfl : rest = rest' := by simpa [hchain] using hchain'
    obtain ⟨-, -, hebound⟩ := hsealed.blocks e he
    have hefind := Scopes.findIn?_of_refreshOf (mt hebound.refreshOf_eq_nil_iff.1 hlender)
    rw [halias] at hefind
    rcases hfound with ⟨hnone, -⟩ | hsome
    · have houter := List.findSome?_eq_none_iff.1 (Option.or_eq_none_iff.1 hnone).2 e.scope hi
      cases houter.symm.trans hefind
    · rcases Option.or_eq_some_iff.1 hsome with hown | ⟨-, houter⟩
      · exact (lender_of_findIn? hsealed hown).1
      · obtain ⟨i, -, hfind⟩ := List.exists_of_findSome?_eq_some houter
        exact (lender_of_findIn? hsealed hfind).1

/-- The step of a block updates all its accumulators. It updates no others exactly when the block
    has aggregates, or no block around it lends it updates. -/
theorem updated_of_sealed (hs : s.Ordered) (hsealed : Sealed Named s 0 s.all.length qs)
    (hb : b.block order ∈ BoundQuery.blocksOf qs) (hcalls : refreshCalls s b = .ok calls)
    {relation : Relation} {table : String} {step : Aggregate}
    (hstep : aggregateStep b order relation calls table = .ok step) :
    step.accumulators ⊆ step.updated ∧
      ((∀ a, a ∈ step.updated ↔ a ∈ step.accumulators) ↔
        (b.block order).aggregates ≠ [] ∨
        ¬∃ e ∈ BoundQuery.blocksOf qs, e.Lends s (b.block order)) := by
  obtain rfl := eq_of_aggregateStep hstep
  obtain ⟨-, -, hbound⟩ := hsealed.blocks _ hb
  by_cases haggregates : (b.block order).aggregates = []
  · have hnone : (groupStep b order relation calls table).accumulators = [] := by
      refine List.eq_nil_iff_forall_not_mem.2 fun a ha => ?_
      obtain ⟨g, hg, -⟩ := mem_accumulators_iff.1 ha
      rw [haggregates] at hg
      cases hg
    have hlent := refreshCalls_lent hs hsealed hb haggregates hcalls
    rw [updated_groupStep, hnone, ← hlent]
    refine ⟨List.nil_subset _, ?_⟩
    simp only [haggregates, List.not_mem_nil, iff_false, ne_eq, not_true_eq_false, false_or,
      not_not]
    rw [← List.eq_nil_iff_forall_not_mem, List.map_eq_nil_iff]
  · have hown : ∀ a, a ∈ (groupStep b order relation calls table).updated ↔
        a ∈ (groupStep b order relation calls table).accumulators := by
      intro a
      rw [updated_groupStep, refreshCalls_own hs hbound haggregates hcalls, mem_accumulators_iff]
      exact hbound.mem_updated_iff a
    exact ⟨fun a ha => (hown a).2 ha, iff_of_true hown (.inl haggregates)⟩

end Block

/-! ## Steps of a plan -/

def Node.groupStep? : Node → Option Aggregate
  | .aggregate step => some step
  | _ => none

theorem mem_nodes_of_groupStep? {ns : List Node} {step : Aggregate}
    (h : step ∈ ns.filterMap Node.groupStep?) : .aggregate step ∈ ns := by
  obtain ⟨n, hn, hstep⟩ := List.mem_filterMap.1 h
  cases n with
  | aggregate step' =>
    cases hstep
    exact hn
  | _ => cases hstep

/-- The step groups a block of one of the queries, with the updates that the block finds. -/
def Groups (qs : List BoundQuery) (s : Scopes) (step : Aggregate) : Prop :=
  ∃ q ∈ qs, ∃ b relation calls, q.body = .select b ∧ refreshCalls s b = .ok calls ∧
    aggregateStep b q.orderBy relation calls step.target = .ok step

theorem Move.groups {qs : List BoundQuery} {st st' : State} (h : Move qs st st')
    {step : Aggregate} (hstep : .aggregate step ∈ st'.draft.nodes) :
    .aggregate step ∈ st.draft.nodes ∨ Groups qs st.scopes step := by
  cases h with
  | depth | note => exact .inl hstep
  | declare role columns forGrouping =>
    exact .inl (by simpa [State.declared, Draft.emit, Draft.advance] using hstep)
  | plain h =>
    rcases List.mem_append.1 hstep with hstep | hstep
    · exact .inl hstep
    · obtain rfl := List.mem_singleton.1 hstep
      cases h
  | join kind predicate left right sources =>
    exact .inl (by simpa [State.joined, State.declared, Draft.emit, Draft.advance] using hstep)
  | group hq hb hcalls hrun =>
    rcases List.mem_append.1 hstep with hstep | hstep
    · exact .inl hstep
    · cases List.mem_singleton.1 hstep
      obtain rfl := eq_of_aggregateStep hrun
      exact .inr ⟨_, hq, _, _, _, hb, hcalls, hrun⟩

/-- Every grouping step that a run adds groups a block of the run. -/
theorem Moves.groups {qs : List BoundQuery} {st st' : State} (h : Moves qs st st')
    {step : Aggregate} (hstep : .aggregate step ∈ st'.draft.nodes) :
    .aggregate step ∈ st.draft.nodes ∨ Groups qs st.scopes step := by
  induction h with
  | refl => exact .inl hstep
  | tail hmoves hmove ih =>
    rcases hmove.groups hstep with hold | ⟨q, hq, b, relation, calls, hb, hcalls, hrun⟩
    · exact ih hold
    · exact .inr ⟨q, hq, b, relation, calls, hb,
        ((Moves.scopes hmoves).refreshCalls b).symm.trans hcalls, hrun⟩

theorem SameBindings.lends {s s' : Scopes} (h : SameBindings s s') {e b : Block} :
    e.Lends s' b ↔ e.Lends s b := by
  simp only [Block.lends_iff, Scopes.Encloses, h.chain]

end Plan

/-! ## Compiled queries -/

namespace Compiler

open Plan

theorem compile_ok {c : Compiler} {q : Query} {compiled : Compiled} {requests : List TableRequest}
    (h : c.compile q = (.ok compiled, requests)) :
    ∃ analysis, Resolve.analyze ⟨c.catalog, c.config.resolver⟩ q = (.ok analysis, requests) ∧
      Plan.ofQuery c.config.planner analysis.scopes analysis.query =
        .ok (compiled.plan, compiled.scopes) ∧ compiled.tree = analysis.query := by
  unfold compile at h
  split at h
  · cases h
  · rename_i analysis _ hanalysis
    split at h
    · cases h
    · rename_i plan scopes hplan
      cases h
      exact ⟨analysis, hanalysis, hplan, rfl⟩

/-- Every grouping step of a compiled query updates all its accumulators. It updates no others
    exactly when its block has aggregates, or no block around it lends it updates. -/
theorem compile_updates {c : Compiler} {q : Query} {compiled : Compiled}
    {requests : List TableRequest} (h : c.compile q = (.ok compiled, requests)) {step : Aggregate}
    (hstep : .aggregate step ∈ compiled.plan.nodes) :
    ∃ q' ∈ compiled.tree.queries, ∃ b relation calls, q'.body = .select b ∧
      refreshCalls compiled.scopes b = .ok calls ∧
      aggregateStep b q'.orderBy relation calls step.target = .ok step ∧
      step.accumulators ⊆ step.updated ∧
      ((∀ a, a ∈ step.updated ↔ a ∈ step.accumulators) ↔
        (b.block q'.orderBy).aggregates ≠ [] ∨
        ¬∃ e ∈ BoundQuery.blocksOf compiled.tree.queries,
          e.Lends compiled.scopes (b.block q'.orderBy)) := by
  obtain ⟨analysis, hanalysis, hplan, htree⟩ := compile_ok h
  obtain ⟨hs, hsealed, -⟩ : _ ∧ Sealed (fun _ => True) analysis.scopes 0 _ _ ∧ _ :=
    Resolve.analyze_sealed (fun _ => trivial) (fun _ _ => trivial) hanalysis
  obtain ⟨st, ⟨hmoves, -⟩, hnodes, hscopes⟩ := ofQuery_passes hplan
  rw [hnodes] at hstep
  obtain hempty | ⟨q', hq', b, relation, calls, hb, hcalls, hrun⟩ := Moves.groups hmoves hstep
  · cases hempty
  · have hblock : b.block q'.orderBy ∈ BoundQuery.blocksOf analysis.query.queries :=
      List.mem_filterMap.2 ⟨q', hq', by rw [hb]; rfl⟩
    rw [htree, hscopes]
    refine ⟨q', hq', b, relation, calls, hb,
      ((Moves.scopes hmoves).refreshCalls b).trans hcalls, hrun, ?_⟩
    simp only [(Moves.scopes hmoves).lends]
    exact updated_of_sealed hs hsealed hblock hcalls hrun

/-- Stands for `with c as (select City from #A.entities() a group by City)
    select City, Count(City) from #A.entities() a group by City` -/
def nestedGroups : Query :=
  Sample.groupByCity.withCtes [⟨"c", [], .ofSelect (((Select.empty.addExpr
    (.identifier "City")).withSource (Sample.entitiesAs "a")).withGroupBy [.identifier "City"])⟩]

/-- A grouped block without aggregates updates the accumulator of the block around it. -/
theorem compile_updates_nestedGroups :
    ∃ compiled requests step, compile ⟨Sample.catalog, default⟩ nestedGroups =
        (.ok compiled, requests) ∧
      .aggregate step ∈ compiled.plan.nodes ∧ step.accumulators = [] ∧
      step.updated = ["Count(City)"] ∧
      ∃ e ∈ BoundQuery.blocksOf compiled.tree.queries,
        ∃ b ∈ BoundQuery.blocksOf compiled.tree.queries, e.Lends compiled.scopes b := by
  obtain ⟨compiled, requests, h, hcheck⟩ := exists_ok_of_check
    (compile ⟨Sample.catalog, default⟩ nestedGroups) (fun compiled => (compiled.plan.nodes.filterMap Node.groupStep?).any fun step =>
      step.accumulators = [] && step.updated = ["Count(City)"])
    (by decide +kernel)
  obtain ⟨step, hstep, hempty⟩ := List.any_eq_true.1 hcheck
  simp only [Bool.and_eq_true, decide_eq_true_eq] at hempty
  obtain ⟨haccumulators, hupdated⟩ := hempty
  have hnode := mem_nodes_of_groupStep? hstep
  obtain ⟨q', hq', b, relation, calls, hb, -, -, -, hexact⟩ := compile_updates h hnode
  have hdiffer : ¬∀ a, a ∈ step.updated ↔ a ∈ step.accumulators := by
    simp [haccumulators, hupdated]
  have hlends := not_not.1 (not_or.1 (mt hexact.2 hdiffer)).2
  obtain ⟨e, he, hlends⟩ := hlends
  exact ⟨compiled, requests, step, h, hnode, haccumulators, hupdated, e, he, b.block q'.orderBy,
    List.mem_filterMap.2 ⟨q', hq', by rw [hb]; rfl⟩, hlends⟩

end Compiler

end SchemaQuery
