-- SUMMARY: A resolved block over a relation with its leaves is planned without an error.
import SchemaQuery.Proofs.Plan.Depth
import SchemaQuery.Proofs.Plan.Regroup
import SchemaQuery.Proofs.Resolve.Layout

/-!
# Planning blocks

A block was resolved against the leaves of its source. A relation that carries
these leaves gives the block all the columns it reads, and what resolution has
accepted as grouped can be read from groups.
-/

namespace SchemaQuery.Plan

/-! ## Accumulators -/

theorem mem_foldl_addAggregate {ts : List Term} {acc : List (Accumulator × DataType)}
    {a : Accumulator} {type : DataType} (h : (a, type) ∈ ts.foldl addAggregate acc) :
    (a, type) ∈ acc ∨ Term.aggregate a.method a.args type ∈ ts := by
  induction ts generalizing acc with
  | nil => exact .inl h
  | cons t ts ih =>
    rcases ih h with h | h
    · cases t with
      | aggregate m args type' =>
        simp only [addAggregate] at h
        split at h
        · exact .inl h
        · rcases List.mem_append.1 h with h | h
          · exact .inl h
          · obtain ⟨rfl, rfl⟩ := Prod.mk.inj (List.mem_singleton.1 h)
            exact .inr (List.mem_cons_self ..)
      | _ => exact .inl h
    · exact .inr (List.mem_cons_of_mem _ h)

/-- The accumulators of a block are those of aggregates in its outputs. -/
theorem mem_distinctAggregates {outputs : List Term} {a : Accumulator} {type : DataType}
    (h : (a, type) ∈ distinctAggregates outputs) :
    ∃ t ∈ outputs, Term.aggregate a.method a.args type ∈ t.aggregates := by
  rcases mem_foldl_addAggregate h with h | h
  · cases h
  · obtain ⟨t, ht, hmem⟩ := List.mem_flatMap.1 h
    exact ⟨t, ht, Term.mem_aggregates.2 ⟨hmem, rfl⟩⟩

/-! ## Blocks -/

theorem carried_of_leaves {r : Relation} {leaves : List (String × List Column)}
    (h : leaves.map (·.1) = r.leaves) : Carried [r] leaves := by
  intro l hl
  have hmem : l.1 ∈ r.leaves := h ▸ List.mem_map_of_mem hl
  simp [Relation.carries, hmem]

variable {Named : String → Prop} {s : Scopes} {b : BoundSelect} {order : List SortKey}
variable {relation : Relation} {refresh : List RefreshCall}

/-- The keys of a block are those it was checked against. -/
theorem groupKeys_eq (hb : BlockBound Named s (b.block order)) : groupKeys b = b.groupBy := by
  unfold groupKeys
  split
  · rename_i himplicit
    exact (hb.implicit himplicit).symm
  · rfl

theorem mem_fields {f : Field} (h : f ∈ b.fields) : f.term ∈ groupOutputs b order := by
  simp only [groupOutputs, List.mem_append]
  exact .inl (.inl (List.mem_map_of_mem h))

theorem mem_having {t : Term} (h : t ∈ b.having.toList) : t ∈ groupOutputs b order := by
  simp only [groupOutputs, List.mem_append]
  exact .inl (.inr h)

theorem mem_order {k : SortKey} (h : k ∈ order) : k.term ∈ groupOutputs b order := by
  simp only [groupOutputs, List.mem_append]
  exact .inr (List.mem_map_of_mem h)

theorem outputs_read (hb : BlockBound Named s (b.block order)) :
    ∀ t ∈ groupOutputs b order, ∀ u ∈ t.subterms, u.ReadsFrom b.source.leaves :=
  fun t ht => hb.reads t (List.mem_append_right _ ht)

theorem accumulator_read (hb : BlockBound Named s (b.block order)) {a : Accumulator}
    {type : DataType} (h : (a, type) ∈ distinctAggregates (groupOutputs b order)) :
    ∀ x ∈ a.args, ∀ u ∈ x.subterms, u.ReadsFrom b.source.leaves := by
  intro x hx u hu
  obtain ⟨t, ht, hagg⟩ := mem_distinctAggregates h
  have hin : u ∈ (Term.aggregate a.method a.args type).subterms :=
    Term.mem_subterms.2 (.inr ⟨x, hx, hu⟩)
  exact outputs_read hb t ht u (Term.mem_subterms_trans hin (Term.mem_aggregates.1 hagg).1)

/-- Terms with their columns read from a relation. -/
def readFrom (relation : Relation) (ts : List Term) : List Term :=
  ts.map (·.mapUp (relocateNode [relation]))

/-- The step that groups the rows of a block, all of whose terms read the relation. -/
def groupStep (b : BoundSelect) (order : List SortKey) (relation : Relation)
    (refresh : List RefreshCall) (table : String) : Aggregate where
  target := table
  source := relation.scan
  filter := b.filter.map (·.mapUp (relocateNode [relation]))
  keys := readFrom relation (groupKeys b)
  aggregates := (distinctAggregates (groupOutputs b order)).map fun p =>
    ⟨p.1.method, readFrom relation p.1.args⟩
  refresh := refresh.map fun c => { c with args := readFrom relation c.args }

theorem eq_of_aggregateStep {table : String} {step : Aggregate}
    (h : aggregateStep b order relation refresh table = .ok step) :
    step = groupStep b order relation refresh table := by
  unfold aggregateStep at h
  obtain ⟨aggregates, haggregates, h⟩ := except_bind_ok.1 h
  obtain ⟨calls, hcalls, h⟩ := except_bind_ok.1 h
  obtain ⟨filter, hfilter, h⟩ := except_bind_ok.1 h
  obtain ⟨keys, hkeys, h⟩ := except_bind_ok.1 h
  have haggregates' : aggregates = (distinctAggregates (groupOutputs b order)).map fun p =>
      ⟨p.1.method, readFrom relation p.1.args⟩ := by
    refine eq_map_of_except_mapM (fun p a ha => ?_) haggregates
    obtain ⟨args, hargs, hpure⟩ := except_bind_ok.1 ha
    rw [← except_pure_ok.1 hpure, eq_of_relocateAll hargs]
    rfl
  have hcalls' : calls = refresh.map fun c => { c with args := readFrom relation c.args } := by
    refine eq_map_of_except_mapM (fun c c' hc => ?_) hcalls
    obtain ⟨args, hargs, hpure⟩ := except_bind_ok.1 hc
    rw [← except_pure_ok.1 hpure, eq_of_relocateAll hargs]
    rfl
  rw [← except_pure_ok.1 h, haggregates', hcalls', eq_of_relocateOption hfilter,
    eq_of_relocateAll hkeys]
  rfl

/-- A grouping step finds the columns that its updates read. -/
theorem located_of_aggregateStep {table : String} {step : Aggregate}
    (h : aggregateStep b order relation refresh table = .ok step) :
    ∀ t ∈ refresh.flatMap (·.args), Located [relation] t := by
  unfold aggregateStep at h
  obtain ⟨_, -, h⟩ := except_bind_ok.1 h
  obtain ⟨calls, hcalls, -⟩ := except_bind_ok.1 h
  intro t ht
  obtain ⟨c, hc, ht⟩ := List.mem_flatMap.1 ht
  obtain ⟨_, hrefresh⟩ := exists_of_except_mapM hcalls hc
  obtain ⟨args, hargs, -⟩ := except_bind_ok.1 hrefresh
  obtain ⟨_, hrelocate⟩ := exists_of_except_mapM hargs ht
  exact located_of_relocate hrelocate

theorem aggregateStep_of_bound (hb : BlockBound Named s (b.block order))
    (hleaves : relation.leaves = b.source.leafAliases) {leaves : List (String × List Column)}
    (hnames : leaves.map (·.1) = b.source.leafAliases)
    (hrefresh : ∀ c ∈ refresh, ∀ t ∈ c.args, ∀ u ∈ t.subterms, u.ReadsFrom leaves)
    (table : String) :
    aggregateStep b order relation refresh table =
      .ok (groupStep b order relation refresh table) := by
  have hown : Carried [relation] b.source.leaves :=
    carried_of_leaves (b.source.map_leaves.trans hleaves.symm)
  have hseen : Carried [relation] leaves := carried_of_leaves (hnames.trans hleaves.symm)
  have haggregate : ∀ p ∈ distinctAggregates (groupOutputs b order),
      relocateAccumulator [relation] p.1 = .ok ⟨p.1.method, readFrom relation p.1.args⟩ := by
    intro p hp
    simp only [relocateAccumulator, relocateAll_of_reads (accumulator_read hb hp) hown]
    rfl
  have hcalls : refresh.mapM (relocateRefresh [relation]) =
      .ok (refresh.map fun c => { c with args := readFrom relation c.args }) := by
    refine except_mapM_eq_map fun c hc => ?_
    simp only [relocateRefresh, relocateAll_of_reads (hrefresh c hc) hseen]
    rfl
  have hfilter : b.filter.mapM (relocate [relation]) = .ok _ :=
    relocateOption_of_reads (fun x hx => hb.reads x (by simp [BoundSelect.block, hx])) hown
  have hkeys : relocateAll [relation] (groupKeys b) = .ok (readFrom relation (groupKeys b)) := by
    rw [groupKeys_eq hb]
    exact relocateAll_of_reads (fun t ht => hb.reads t (by simp [BoundSelect.block, ht])) hown
  unfold aggregateStep
  rw [except_mapM_eq_map haggregate, hcalls, hfilter, hkeys]
  rfl

/-- The outputs of a grouped block read its keys and aggregates only. -/
theorem outputs_checked (hb : BlockBound Named s (b.block order)) (hgrouped : b.isGrouped = true) :
    ∀ t ∈ groupOutputs b order, Resolve.checkGrouped (groupKeys b) t = .ok () := by
  have hgrouping : (b.block order).grouping ≠ .none := by
    simpa [BoundSelect.isGrouped, BoundSelect.block] using hgrouped
  rw [groupKeys_eq hb]
  exact Resolve.checkGroupedAll_ok.1 (hb.grouped hgrouping)

/-- A resolved block is planned at the level it stands on. -/
theorem planBlock_level {limit : Nat} {scopes : Scopes}
    (hb : BlockBound Named scopes (b.block order))
    (hleaves : relation.leaves = b.source.leafAliases) {leaves : List (String × List Column)}
    (hnames : leaves.map (·.1) = b.source.leafAliases)
    (hrefresh : ∀ c ∈ refresh, ∀ t ∈ c.args, ∀ u ∈ t.subterms, u.ReadsFrom leaves)
    (skip take : Option Nat) (output : List Column) (destination : Destination) :
    GoesDown s limit 0 (planBlock b order skip take output refresh relation destination)
      fun _ => True := by
  have hown : Carried [relation] b.source.leaves :=
    carried_of_leaves (b.source.map_leaves.trans hleaves.symm)
  have hin {t : Term} (ht : t ∈ groupOutputs b order) := outputs_read hb t ht
  unfold planBlock
  split
  · rename_i hgrouped
    have hchecked := outputs_checked hb hgrouped
    refine (declare_level _ _ _).after fun table _ => ?_
    refine (GoesDown.liftExcept (aggregateStep_of_bound hb hleaves hnames hrefresh table)).after
      fun step _ => ?_
    refine (emit_level _).after fun _ _ => ?_
    refine (GoesDown.liftExcept (except_mapM_eq_map fun f hf =>
      regroup_of_grouped (hchecked _ (mem_fields hf)))).after fun _ _ => ?_
    refine (GoesDown.liftExcept (regroupOption_of_grouped fun x hx =>
      hchecked x (mem_having hx))).after fun _ _ => ?_
    refine (GoesDown.liftExcept (regroupOrder_of_grouped fun k hk =>
      hchecked _ (mem_order hk))).after fun _ _ => ?_
    refine (destination_level _ _ _).after fun _ _ => ?_
    exact (emit_level _).after fun _ _ => .pure trivial
  · refine (GoesDown.liftExcept (relocateOption_of_reads (fun x hx =>
      hb.reads x (by simp [BoundSelect.block, hx])) hown)).after fun _ _ => ?_
    refine (GoesDown.liftExcept (relocateAll_of_reads (fun t ht => ?_) hown)).after fun _ _ => ?_
    · obtain ⟨f, hf, rfl⟩ := List.mem_map.1 ht
      exact hin (mem_fields hf)
    refine (GoesDown.liftExcept (relocateOrder_of_reads (fun k hk => hin (mem_order hk))
      hown)).after fun _ _ => ?_
    refine (destination_level _ _ _).after fun _ _ => ?_
    exact (emit_level _).after fun _ _ => .pure trivial

end SchemaQuery.Plan
