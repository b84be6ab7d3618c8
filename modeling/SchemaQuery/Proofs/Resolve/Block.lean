-- SUMMARY: The clauses of a select block are bound over the tables of its source.
import SchemaQuery.Proofs.Resolve.Source
import SchemaQuery.Resolve.Select

/-!
# Bound blocks

The clauses that see groups are fields, the condition on groups and the order.
Besides bound expressions they hold columns from a wildcard and copies of fields
that a sort key names by alias, so they are described by `Outputs`, a weaker form
of `BoundAll`. The main statement of this module is `bindBlock_bound`.
-/

namespace SchemaQuery.Resolve

/-! ## Outputs -/

/-- Every aggregate of the list has its update registered for the active source. -/
def Registered (ctx : Context) (us : List Term) (s : Scopes) : Prop :=
  ∀ u ∈ us, ∃ a, ctx.aliasName = some a ∧ ∃ c ∈ s.refreshOf ctx.scope a,
    ∃ c' : RefreshCall, c'.Updates u ∧ c.render = c'.render

theorem Registered.later {ctx : Context} {us us' : List Term} {s s' : Scopes}
    (h : Registered ctx us s) (hreg : Registers ctx us' s s') : Registered ctx us s' := by
  intro u hu
  obtain ⟨a, ha, c, hc, hupd⟩ := h u hu
  exact ⟨a, ha, c, hreg.old a ha hc, hupd⟩

/-- Members that are each related to something are related to a list. -/
theorem exists_forall₂ {α β : Type} {R : α → β → Prop} {bs : List β}
    (h : ∀ b ∈ bs, ∃ a, R a b) : ∃ as, List.Forall₂ R as bs := by
  induction bs with
  | nil => exact ⟨[], .nil⟩
  | cons b bs ih =>
    obtain ⟨a, ha⟩ := h b (List.mem_cons_self ..)
    obtain ⟨as, has⟩ := ih fun b hb => h b (List.mem_cons_of_mem _ hb)
    exact ⟨a :: as, .cons ha has⟩

/-- Aggregates that are registered already need no step. -/
theorem Registers.again {ctx : Context} {us : List Term} {s : Scopes} (h : Registered ctx us s) :
    Registers ctx us s s where
  within := .refl ctx.scope s
  length := rfl
  unchanged := fun _ => rfl
  other := fun _ _ => rfl
  tables := fun _ _ h => h
  present := fun _ _ _ h => .inl h
  active := by
    intro hne
    obtain ⟨u, hu⟩ := List.exists_mem_of_ne_nil us hne
    obtain ⟨a, ha, -⟩ := h u hu
    exact ⟨a, ha⟩
  calls := by
    intro a ha
    have hpresent : ∀ u ∈ us, ∃ c : RefreshCall, c.Updates u ∧
        ∃ d ∈ s.refreshOf ctx.scope a, d.render = c.render := by
      intro u hu
      obtain ⟨a', ha', d, hd, c, hupdates, hrender⟩ := h u hu
      obtain rfl : a = a' := by simpa [ha] using ha'
      exact ⟨c, hupdates, d, hd, hrender⟩
    obtain ⟨cs, hcs⟩ := exists_forall₂ hpresent
    refine ⟨cs, hcs.imp fun _ _ hc => hc.1, (addRefreshes_of_present fun c hc => ?_).symm⟩
    obtain ⟨u, -, -, hrender⟩ := (exists_of_forall₂ hcs).1 c hc
    exact hrender

/-- The terms `ts` are outputs of a block, found one after the other between two states. -/
structure Outputs (ctx : Context) (tables : List TableSymbol) (ts : List Term) (s s' : State) :
    Prop where
  sees : ∀ t ∈ ts, ∀ u ∈ t.subterms, u.SeesIn (tables.map (·.seen))
  resolved : ∀ t ∈ ts, ∀ g ∈ t.aggregates, ∀ u ∈ g.subterms, u.ResolvedIn tables
  registers : Registers ctx (ts.flatMap Term.aggregates) s.scopes s'.scopes

namespace Outputs

variable {ctx : Context} {tables : List TableSymbol} {ts ts' : List Term} {s s' s'' : State}

theorem nil (ctx : Context) (tables : List TableSymbol) (s : State) :
    Outputs ctx tables [] s s :=
  ⟨by simp, by simp, .refl ctx s.scopes⟩

theorem append (h : Outputs ctx tables ts s s') (h' : Outputs ctx tables ts' s' s'') :
    Outputs ctx tables (ts ++ ts') s s'' where
  sees := by
    intro t ht
    rcases List.mem_append.1 ht with ht | ht
    · exact h.sees t ht
    · exact h'.sees t ht
  resolved := by
    intro t ht
    rcases List.mem_append.1 ht with ht | ht
    · exact h.resolved t ht
    · exact h'.resolved t ht
  registers := by
    rw [List.flatMap_append]
    exact h.registers.trans h'.registers

theorem ordered (h : Outputs ctx tables ts s s') (hs : s.scopes.Ordered) : s'.scopes.Ordered :=
  h.registers.within.ordered hs

theorem active (h : Outputs ctx tables ts s s') (ha : ActiveTables s.scopes ctx tables) :
    ActiveTables s'.scopes ctx tables :=
  ha.registers h.registers

/-- The clause and the keys play no part in what an output is. -/
theorem inBlock {clause : Clause} {keys : List Term}
    (h : Outputs ((ctx.withGroupBy keys).withClause clause) tables ts s s') :
    Outputs ctx tables ts s s' :=
  ⟨h.sees, h.resolved, h.registers.inContext rfl rfl⟩

end Outputs

theorem BoundAll.outputs {ctx : Context} {tables : List TableSymbol} {ts : List Term}
    {s s' : State} (h : BoundAll ctx tables ts s s') : Outputs ctx tables ts s s' where
  sees := fun t ht u hu => (h.resolved t ht u hu).seesIn
  resolved := by
    intro t ht g hg u hu
    exact h.resolved t ht u (Term.mem_subterms_trans hu (Term.mem_aggregates.1 hg).1)
  registers := h.registers

/-! ## Fields -/

variable {env : Env} {ctx : Context} {tables : List TableSymbol} {s s' : State}

theorem tableFields_outputs {t : TableSymbol} (ht : t ∈ tables) (s : State) :
    Outputs ctx tables ((tableFields t).map (·.term)) s s := by
  have hcolumn : ∀ u ∈ (tableFields t).map (·.term), ∃ c ∈ t.columns,
      u = columnTerm t.aliasName (t.view c) t.hasExplicitAlias := by
    intro u hu
    simp only [tableFields, TableSymbol.visibleColumns, List.map_map, List.mem_map,
      Function.comp_apply] at hu
    obtain ⟨c, hc, rfl⟩ := hu
    exact ⟨c, hc, rfl⟩
  have hplain : ∀ u ∈ (tableFields t).map (·.term), u.aggregates = [] := by
    intro u hu
    obtain ⟨c, -, rfl⟩ := hcolumn u hu
    rfl
  have hnone : ((tableFields t).map (·.term)).flatMap Term.aggregates = [] :=
    List.flatMap_eq_nil_iff.2 hplain
  refine ⟨?_, ?_, hnone ▸ .refl ctx s.scopes⟩
  · intro u hu v hv
    obtain ⟨c, hc, rfl⟩ := hcolumn u hu
    obtain rfl := List.mem_singleton.1 hv
    exact ⟨t.visibleColumns, List.mem_map.2 ⟨t, ht, rfl⟩, List.mem_map_of_mem hc⟩
  · intro u hu g hg
    rw [hplain u hu] at hg
    cases hg

theorem wildcardFields_outputs {qualifier : Option String} {fields : List Field} (s : State)
    (h : wildcardFields env tables qualifier = .ok fields) :
    Outputs ctx tables (fields.map (·.term)) s s := by
  cases qualifier with
  | some q =>
    simp only [wildcardFields] at h
    split at h
    · rename_i t hfind
      simp only [Except.ok.injEq] at h
      exact h ▸ tableFields_outputs (List.mem_of_find?_eq_some hfind) s
    · cases h
  | none =>
    simp only [wildcardFields, Except.ok.injEq] at h
    subst h
    -- induction over the tables listed so far, all of which are active
    have hall : ∀ ts ⊆ tables, Outputs ctx tables ((ts.flatMap tableFields).map (·.term)) s s := by
      intro ts hts
      induction ts with
      | nil => exact .nil ctx tables s
      | cons t ts ih =>
        rw [List.flatMap_cons, List.map_append]
        exact (tableFields_outputs (hts (by simp)) s).append
          (ih fun u hu => hts (List.mem_cons_of_mem _ hu))
    exact hall tables (List.Subset.refl _)

theorem bindItem_outputs {item : SelectItem} {fields : List Field} (hs : s.scopes.Ordered)
    (hactive : ActiveTables s.scopes ctx tables) (hlinks : LinksBound ctx tables)
    (h : bindItem env ctx item s = .ok fields s') :
    Outputs ctx tables (fields.map (·.term)) s s' := by
  have hwild {q : Option String}
      (h : (readScopes fun scopes => do wildcardFields env (← sourceTables scopes ctx) q) s =
        .ok fields s') : Outputs ctx tables (fields.map (·.term)) s s' := by
    obtain ⟨hfields, rfl⟩ := run_readScopes_ok.1 h
    obtain ⟨tables', htables, hfields⟩ := except_bind_ok.1 hfields
    rw [hactive.sourceTables_eq hs] at htables
    cases htables
    exact wildcardFields_outputs s hfields
  cases item with
  | expr e =>
    simp only [bindItem, run_bind_ok, run_pure_ok] at h
    obtain ⟨t, u, ht, rfl, rfl⟩ := h
    exact (bindExpr_sound env e hs hactive hlinks ht).outputs
  | aliased e a =>
    simp only [bindItem, run_bind_ok, run_pure_ok] at h
    obtain ⟨t, u, ht, rfl, rfl⟩ := h
    exact (bindExpr_sound env e hs hactive hlinks ht).outputs
  | qualifiedWildcard q => exact hwild h
  | wildcard => exact hwild h

theorem bindFields_outputs {items : List SelectItem} {fields : List Field}
    (hs : s.scopes.Ordered) (hactive : ActiveTables s.scopes ctx tables)
    (hlinks : LinksBound ctx tables) (h : bindFields env ctx items s = .ok fields s') :
    Outputs ctx tables (fields.map (·.term)) s s' := by
  simp only [bindFields, run_bind_ok, run_pure_ok] at h
  obtain ⟨fs, u, hfs, rfl, rfl⟩ := h
  induction items generalizing s fs with
  | nil =>
    obtain ⟨rfl, rfl⟩ := run_mapM_nil_ok.1 hfs
    exact .nil ctx tables s
  | cons item items ih =>
    obtain ⟨f, v, fs', hf, hrest, rfl⟩ := run_mapM_cons_ok.1 hfs
    have hhead := bindItem_outputs hs hactive hlinks hf
    rw [List.flatten_cons, List.map_append]
    exact hhead.append (ih (hhead.ordered hs) (hhead.active hactive) fs' hrest)

/-! ## Order -/

theorem aliasedField?_mem {projection : List SelectItem} {fields : List Field} {name : String}
    {f : Field} (h : aliasedField? projection fields name = some f) : f ∈ fields := by
  unfold aliasedField? at h
  split at h
  · cases h
  · split at h
    · exact List.mem_of_find?_eq_some h
    · exact List.mem_of_getElem? h

/-- The outputs that an alias in the order can name: bound before, with their updates registered. -/
structure KnownFields (ctx : Context) (tables : List TableSymbol) (fields : List Field)
    (s : Scopes) : Prop where
  sees : ∀ f ∈ fields, ∀ u ∈ f.term.subterms, u.SeesIn (tables.map (·.seen))
  resolved : ∀ f ∈ fields, ∀ g ∈ f.term.aggregates, ∀ u ∈ g.subterms, u.ResolvedIn tables
  registered : ∀ f ∈ fields, Registered ctx f.term.aggregates s

theorem KnownFields.later {fields : List Field} {us : List Term} {s s' : Scopes}
    (h : KnownFields ctx tables fields s) (hreg : Registers ctx us s s') :
    KnownFields ctx tables fields s' :=
  ⟨h.sees, h.resolved, fun f hf => (h.registered f hf).later hreg⟩

theorem Outputs.known {fields : List Field}
    (h : Outputs ctx tables (fields.map (·.term)) s s') :
    KnownFields ctx tables fields s'.scopes where
  sees := fun f hf => h.sees f.term (List.mem_map_of_mem hf)
  resolved := fun f hf => h.resolved f.term (List.mem_map_of_mem hf)
  registered := fun f hf u hu => h.registers.complete u
    (List.mem_flatMap.2 ⟨f.term, List.mem_map_of_mem hf, hu⟩)

theorem bindSortKey_outputs {projection : List SelectItem} {fields : List Field}
    {item : OrderItem} {k : SortKey} (hs : s.scopes.Ordered)
    (hactive : ActiveTables s.scopes ctx tables) (hlinks : LinksBound ctx tables)
    (hknown : KnownFields ctx tables fields s.scopes)
    (h : bindSortKey env ctx projection fields item s = .ok k s') :
    Outputs ctx tables [k.term] s s' := by
  obtain ⟨e, direction⟩ := item
  have hexpr (h : (do return ⟨← bindExpr env e ctx, direction⟩ : Resolver SortKey) s = .ok k s') :
      Outputs ctx tables [k.term] s s' := by
    obtain ⟨t, u, ht, hpure⟩ := run_bind_ok.1 h
    obtain ⟨rfl, rfl⟩ := run_pure_ok.1 hpure
    exact (bindExpr_sound env e hs hactive hlinks ht).outputs
  cases e with
  | identifier name =>
    simp only [bindSortKey] at h
    cases hfield : aliasedField? projection fields name with
    | none =>
      rw [hfield] at h
      exact hexpr h
    | some f =>
      simp only [hfield, run_pure_ok] at h
      obtain ⟨rfl, rfl⟩ := h
      have hf := aliasedField?_mem hfield
      refine ⟨?_, ?_, ?_⟩
      · simpa using hknown.sees f hf
      · simpa using hknown.resolved f hf
      · rw [List.flatMap_singleton]
        exact .again (hknown.registered f hf)
  | _ => exact hexpr h

theorem bindOrder_outputs {projection : List SelectItem} {fields : List Field}
    {items : List OrderItem} {order : List SortKey} (hs : s.scopes.Ordered)
    (hactive : ActiveTables s.scopes ctx tables) (hlinks : LinksBound ctx tables)
    (hknown : KnownFields ctx tables fields s.scopes)
    (h : items.mapM (bindSortKey env ctx projection fields) s = .ok order s') :
    Outputs ctx tables (order.map (·.term)) s s' := by
  induction items generalizing s order with
  | nil =>
    obtain ⟨rfl, rfl⟩ := run_mapM_nil_ok.1 h
    exact .nil ctx tables s
  | cons item items ih =>
    obtain ⟨k, v, ks, hk, hrest, rfl⟩ := run_mapM_cons_ok.1 h
    have hhead := bindSortKey_outputs hs hactive hlinks hknown hk
    exact hhead.append (ih (hhead.ordered hs) (hhead.active hactive)
      (hknown.later hhead.registers) hrest)

/-! ## Blocks -/

/-- The ways in which a block can group. -/
theorem groupingOf_cases {distinct hasKeys hasAggregates hasHaving : Bool} {g : Grouping}
    (h : groupingOf distinct hasKeys hasAggregates hasHaving = .ok g) :
    (g = .distinct ∧ hasKeys = false ∧ hasAggregates = false) ∨ (g = .explicit ∧ hasKeys = true) ∨
      (g = .implicit ∧ hasKeys = false ∧ hasAggregates = true) ∨
      (g = .none ∧ hasKeys = false ∧ hasAggregates = false) := by
  unfold groupingOf at h
  cases distinct <;> cases hasKeys <;> cases hasAggregates <;> cases hasHaving <;>
    simp_all

/-- Distinct and ungrouped blocks read no aggregates, and a single group has no keys. -/
theorem groupingOf_facts {distinct hasHaving : Bool} {keys outputs : List Term} {g : Grouping}
    (h : groupingOf distinct (!keys.isEmpty) (outputs.any (·.containsAggregate)) hasHaving = .ok g) :
    (g = .distinct ∨ g = .none → ∀ t ∈ outputs, t.aggregates = []) ∧ (g = .implicit → keys = []) := by
  have hplain (hany : outputs.any (·.containsAggregate) = false) :
      ∀ t ∈ outputs, t.aggregates = [] := by
    intro t ht
    by_contra hne
    have htrue := List.any_eq_true.2 ⟨t, ht, Term.containsAggregate_iff.2 hne⟩
    rw [hany] at htrue
    cases htrue
  rcases groupingOf_cases h with ⟨rfl, -, hany⟩ | ⟨rfl, -⟩ | ⟨rfl, hkeys, -⟩ | ⟨rfl, -, hany⟩
  · exact ⟨fun _ => hplain hany, fun hg => by cases hg⟩
  · exact ⟨fun hg => by simp at hg, fun hg => by cases hg⟩
  · exact ⟨fun hg => by simp at hg, fun _ => by simpa using hkeys⟩
  · exact ⟨fun _ => hplain hany, fun hg => by cases hg⟩

/-- An optional condition of a block. -/
theorem bindCondition_bound {e : Option Expr} {t : Option Term} (hs : s.scopes.Ordered)
    (hactive : ActiveTables s.scopes ctx tables) (hlinks : LinksBound ctx tables)
    (h : e.mapM (fun e => bindPredicate env e ctx) s = .ok t s') :
    BoundAll ctx tables t.toList s s' := by
  cases e with
  | none =>
    obtain ⟨rfl, rfl⟩ := run_optionM_none_ok.1 h
    exact .nil ctx tables s
  | some e =>
    obtain ⟨c, hc, rfl⟩ := run_optionM_some_ok.1 h
    exact bindPredicate_sound env e hs hactive hlinks hc

/-- In a scope of tables no updates are registered. -/
theorem refreshOf_eq_nil {s : Scopes} {id : Nat} (h : s.OnlyTables id) (a : String) :
    s.refreshOf id a = [] := by
  unfold Scopes.refreshOf
  split
  · rename_i calls hfind
    obtain ⟨t, ht⟩ := h _ _ hfind
    cases ht
  · rfl

/-- The outputs of a block, given the keys that field links stand for. -/
theorem outputs_of_run {keys : List Term} {sel : Select} {orderBy : List OrderItem}
    {fields : List Field} {having : Option Term} {order : List SortKey} {s₁ s₂ : State}
    (hs : s.scopes.Ordered) (hactive : ActiveTables s.scopes ctx tables)
    (hlinks : LinksBound (ctx.withGroupBy keys) tables)
    (hfields : bindFields env ((ctx.withGroupBy keys).withClause .select) sel.projection s =
      .ok fields s₁)
    (hhaving : sel.having.mapM (fun e =>
      bindPredicate env e ((ctx.withGroupBy keys).withClause .having)) s₁ = .ok having s₂)
    (horder : orderBy.mapM (bindSortKey env ((ctx.withGroupBy keys).withClause .orderBy)
      sel.projection fields) s₂ = .ok order s') :
    Outputs ctx tables (fields.map (·.term) ++ having.toList ++ order.map (·.term)) s s' := by
  have hf : Outputs ((ctx.withGroupBy keys).withClause .select) tables _ s s₁ :=
    bindFields_outputs hs hactive hlinks hfields
  have hh : BoundAll ((ctx.withGroupBy keys).withClause .having) tables _ s₁ s₂ :=
    bindCondition_bound (hf.ordered hs) (hf.active hactive) hlinks hhaving
  have hfh := hf.inBlock.append hh.outputs.inBlock
  have hknown := hf.known.later (hh.registers.inContext rfl rfl)
  have ho : Outputs ((ctx.withGroupBy keys).withClause .orderBy) tables _ s₂ s' :=
    bindOrder_outputs (hfh.ordered hs) (hfh.active hactive) hlinks
      ⟨hknown.sees, hknown.resolved, hknown.registered⟩ horder
  exact hfh.append ho.inBlock

section Block

variable {scope : Nat} {sel : Select} {src : BoundSource} {orderBy : List OrderItem}
variable {b : BoundSelect} {order : List SortKey}

/-- The clauses of a block are bound one after the other, and what comes out is checked. -/
theorem run_bindBlock_ok (h : bindBlock env scope sel src orderBy s = .ok (b, order) s') :
    ∃ written s₁ s₂ s₃ s₄,
      sel.filter.mapM (fun e => bindPredicate env e
        (((Context.ofScope scope).withAlias src.aliasName).withClause .filter)) s =
          .ok b.filter s₁ ∧
      (bindAll env sel.groupBy).mapM (fun bind => bind
        (((Context.ofScope scope).withAlias src.aliasName).withClause .groupBy)) s₁ =
          .ok written s₂ ∧
      bindFields env ((((Context.ofScope scope).withAlias src.aliasName).withGroupBy
        written).withClause .select) sel.projection s₂ = .ok b.fields s₃ ∧
      sel.having.mapM (fun e => bindPredicate env e ((((Context.ofScope scope).withAlias
        src.aliasName).withGroupBy written).withClause .having)) s₃ = .ok b.having s₄ ∧
      orderBy.mapM (bindSortKey env ((((Context.ofScope scope).withAlias
        src.aliasName).withGroupBy written).withClause .orderBy) sel.projection b.fields) s₄ =
          .ok order s' ∧
      groupingOf sel.distinct (!written.isEmpty)
        ((b.block order).outputs.any (·.containsAggregate)) b.having.isSome = .ok b.grouping ∧
      b.scope = scope ∧ b.source = src ∧
      b.groupBy = (if b.grouping = .distinct then b.fields.map (·.term) else written) ∧
      (b.grouping ≠ .none → checkGroupedAll b.groupBy (b.block order).outputs = .ok ()) := by
  simp only [bindBlock, run_bind_ok] at h
  obtain ⟨filter, s₁, hfilter, written, s₂, hwritten, fields, s₃, hfields, having, s₄, hhaving,
    order', s₅, horder, grouping, s₆, hgroup, h⟩ := h
  obtain ⟨hgrouping, rfl⟩ := run_ofExcept_ok.1 hgroup
  refine ⟨written, s₁, s₂, s₃, s₄, ?_⟩
  by_cases hnone : grouping = .none
  · simp only [hnone, ne_eq, not_true_eq_false, if_false, run_pure_ok, Prod.mk.injEq] at h
    obtain ⟨⟨rfl, rfl⟩, rfl⟩ := h
    exact ⟨hfilter, hwritten, hfields, hhaving, horder, hnone ▸ hgrouping, rfl, rfl, rfl,
      fun hne => absurd rfl hne⟩
  · simp only [ne_eq, hnone, not_false_eq_true, if_true, run_bind_ok, run_ofExcept_ok, run_pure_ok,
      Prod.mk.injEq] at h
    obtain ⟨_, _, ⟨hcheck, rfl⟩, ⟨rfl, rfl⟩, rfl⟩ := h
    exact ⟨hfilter, hwritten, hfields, hhaving, horder, hgrouping, rfl, rfl, rfl, fun _ => hcheck⟩

/-- In a scope that held tables only, the updates are those of the aggregates bound since. -/
theorem Registers.updates_of_onlyTables {id : Nat} {a : String} {us : List Term} {s s' : Scopes}
    (h : Registers ((Context.ofScope id).withAlias a) us s s') (ho : s.OnlyTables id) :
    (∀ c ∈ s'.refreshOf id a, ∃ u ∈ us, c.Updates u) ∧
      ∀ u ∈ us, ∃ c ∈ s'.refreshOf id a, ∃ c' : RefreshCall,
        c'.Updates u ∧ c.render = c'.render := by
  constructor
  · intro c hc
    rcases h.sound a rfl c hc with hold | hnew
    · change c ∈ s.refreshOf id a at hold
      rw [refreshOf_eq_nil ho] at hold
      cases hold
    · exact hnew
  · intro u hu
    obtain ⟨_, ha, hc⟩ := h.complete u hu
    cases ha
    exact hc

/-- The clauses of a block, bound over the given tables between two states. -/
structure BindsClauses (tables : List TableSymbol) (b : BoundSelect) (order : List SortKey)
    (s s' : State) : Prop where
  /-- The condition on rows and the keys see the tables. -/
  rows : ∀ t ∈ b.filter.toList ++ b.groupBy, ∀ u ∈ t.subterms, u.SeesIn (tables.map (·.seen))
  plain : ∀ t ∈ b.filter.toList ++ b.groupBy, t.aggregates = []
  outputs : Outputs ((Context.ofScope b.scope).withAlias b.source.aliasName) tables
    (b.block order).outputs s s'
  grouped : b.grouping ≠ .none → checkGroupedAll b.groupBy (b.block order).outputs = .ok ()
  implicit : b.grouping = .implicit → b.groupBy = []
  ungrouped : b.grouping = .distinct ∨ b.grouping = .none →
    ∀ t ∈ (b.block order).outputs, t.aggregates = []

theorem bindBlock_clauses (hs : s.scopes.Ordered) (hsrc : SourceBound s.scopes scope src)
    (h : bindBlock env scope sel src orderBy s = .ok (b, order) s') :
    b.scope = scope ∧ b.source = src ∧ ∃ tables, LeafTables s.scopes scope src tables ∧
      BindsClauses tables b order s s' := by
  obtain ⟨written, s₁, s₂, s₃, s₄, hfilter, hwritten, hfields, hhaving, horder, hgrouping, rfl, rfl,
    hkeys, hcheck⟩ := run_bindBlock_ok h
  obtain ⟨tables, ht⟩ := hsrc.leafTables
  have hactive (clause : Clause) : ActiveTables s.scopes
      (((Context.ofScope b.scope).withAlias b.source.aliasName).withClause clause) tables :=
    ht.active hsrc rfl rfl
  have hnoLinks (clause : Clause) : LinksBound
      (((Context.ofScope b.scope).withAlias b.source.aliasName).withClause clause) tables := by
    simp [LinksBound, Context.withClause, Context.withAlias, Context.ofScope]
  -- the condition on rows and the keys have no aggregates and leave the scopes as they are
  have hf := bindCondition_bound hs (hactive .filter) (hnoLinks .filter) hfilter
  have hw := boundAll_of_mapM (bindAll_sound env sel.groupBy) (hf.ordered hs)
    (hf.scopes_eq rfl ▸ hactive .groupBy) (hnoLinks .groupBy) hwritten
  have hscopes : s₂.scopes = s.scopes := (hw.scopes_eq rfl).trans (hf.scopes_eq rfl)
  have hfplain := List.flatMap_eq_nil_iff.1 (hf.allowed rfl)
  have hwplain := List.flatMap_eq_nil_iff.1 (hw.allowed rfl)
  have houtputs : Outputs ((Context.ofScope b.scope).withAlias b.source.aliasName) tables
      (b.block order).outputs s₂ s' :=
    outputs_of_run (hscopes ▸ hs) (hscopes ▸ ht.active hsrc rfl rfl)
      (fun k hk => ⟨hw.resolved k hk, hwplain k hk⟩) hfields hhaving horder
  obtain ⟨hnoAggregates, himplicit⟩ := groupingOf_facts hgrouping
  -- the keys are those written, or all fields of a distinct block
  have hkey {t : Term} (hmem : t ∈ b.groupBy) :
      t ∈ written ∨ b.grouping = .distinct ∧ t ∈ (b.block order).outputs := by
    rw [hkeys] at hmem
    split at hmem
    · rename_i hdistinct
      exact .inr ⟨hdistinct, by simp [BoundSelect.block, hmem]⟩
    · exact .inl hmem
  refine ⟨rfl, rfl, tables, ht, ?_⟩
  refine {
    rows := fun t hmem u hu => ?_
    plain := fun t hmem => ?_
    outputs := ⟨houtputs.sees, houtputs.resolved, hscopes ▸ houtputs.registers⟩
    grouped := hcheck
    implicit := fun hg => ?_
    ungrouped := hnoAggregates }
  · rcases List.mem_append.1 hmem with hmem | hmem
    · exact (hf.resolved t hmem u hu).seesIn
    · rcases hkey hmem with hmem | ⟨-, hmem⟩
      · exact (hw.resolved t hmem u hu).seesIn
      · exact houtputs.sees t hmem u hu
  · rcases List.mem_append.1 hmem with hmem | hmem
    · exact hfplain t hmem
    · rcases hkey hmem with hmem | ⟨hdistinct, hmem⟩
      · exact hwplain t hmem
      · exact hnoAggregates (.inl hdistinct) t hmem
  · rw [hkeys, himplicit hg, if_neg (by rw [hg]; decide)]

/-- A block over its bound source: every clause reads the source, and the updates registered are
    those of the aggregates it reads. -/
theorem bindBlock_bound {Named : String → Prop} {s₀ : Scopes} (hs : s.scopes.Ordered)
    (ho : s.scopes.OnlyTables scope) (hsrc : BindsSource Named scope src s₀ s.scopes)
    (hreads : src.Reads []) (h : bindBlock env scope sel src orderBy s = .ok (b, order) s') :
    b.scope = scope ∧ b.source = src ∧
      (∃ us, Registers ((Context.ofScope scope).withAlias src.aliasName) us s.scopes s'.scopes) ∧
      BlockBound Named s'.scopes (b.block order) := by
  obtain ⟨rfl, rfl, tables, ht, hb⟩ := bindBlock_clauses hs hsrc.bound h
  have hregisters := hb.outputs.registers
  obtain ⟨hsound, hcomplete⟩ := hregisters.updates_of_onlyTables ho
  refine ⟨rfl, rfl, ⟨_, hregisters⟩, ?_⟩
  refine {
    source := hsrc.bound.within hregisters.within
    distinct := hsrc.distinct
    composed := hsrc.composed
    named := hsrc.named
    sourceReads := hreads
    reads := fun t hmem u hu => ?_
    resolved := ⟨tables, ⟨ht.leaves, fun t hmem => hregisters.tables _ _ (ht.bound t hmem)⟩,
      hb.outputs.resolved⟩
    plain := hb.plain
    grouped := hb.grouped
    implicit := hb.implicit
    ungrouped := fun hg => hb.ungrouped (.inr hg)
    sound := fun c hc => ?_
    complete := fun t hmem g hg => hcomplete g (List.mem_flatMap.2 ⟨t, hmem, hg⟩) }
  · change u.ReadsFrom b.source.leaves
    rw [← ht.leaves]
    rcases List.mem_append.1 hmem with hmem | hmem
    · exact (hb.rows t hmem u hu).readsFrom
    · exact (hb.outputs.sees t hmem u hu).readsFrom
  · obtain ⟨u, hu, hupdates⟩ := hsound c hc
    obtain ⟨t, hmem, hagg⟩ := List.mem_flatMap.1 hu
    exact ⟨t, hmem, u, hagg, hupdates⟩

end Block

end SchemaQuery.Resolve
