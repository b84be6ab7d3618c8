-- SUMMARY: Calls are bound to methods of the active tables, and aggregates register their updates.
import SchemaQuery.Proofs.Resolve.Binding

/-!
# Bound calls

A call of a method hands over the row of an active table, if it hands over one. A
call of an aggregate reads an accumulator, and its update is registered with the
setter that goes with the aggregate.
-/

namespace SchemaQuery

namespace Resolve

/-! ## Targets -/

theorem callSources_subset {env : Env} {tables sources : List TableSymbol} {q : Option String}
    (h : callSources env tables q = .ok sources) : sources ⊆ tables := by
  cases q with
  | none =>
    cases h
    exact List.Subset.refl _
  | some q =>
    simp only [callSources] at h
    cases hfind : tables.find? (·.aliasName = q) with
    | none => simp [hfind] at h
    | some t =>
      simp only [hfind, Except.ok.injEq] at h
      subst h
      intro u hu
      obtain rfl := List.mem_singleton.1 hu
      exact List.mem_of_find?_eq_some hfind

/-- Providers are schemas of the catalog, each with one of the sources. -/
theorem mem_of_mem_providers {catalog : Catalog} {sources : List TableSymbol}
    {p : TableSymbol × Schema} (h : p ∈ providers catalog sources) :
    p.1 ∈ sources ∧ ∃ name, catalog.schema? name = some p.2 := by
  refine List.foldlRecOn (motive := fun acc => ∀ q ∈ acc, q.1 ∈ sources ∧
    ∃ name, catalog.schema? name = some q.2) sources _ (by simp) ?_ p h
  intro acc hacc t ht
  split
  · split
    · rename_i schema hschema
      split
      · exact hacc
      · intro q hq
        rcases List.mem_append.1 hq with hq | hq
        · exact hacc q hq
        · obtain rfl := List.mem_singleton.1 hq
          exact ⟨ht, _, hschema⟩
    · exact hacc
  · exact hacc

/-- An aggregate for a call, chosen by a provider or among the builtins. -/
def OffersAggregate (env : Env) (provided : List (TableSymbol × Schema)) (name : String)
    (args : List DataType) (r : ResolvedAggregate) : Prop :=
  (∃ p ∈ provided, p.2.resolveAggregate name args env.catalog.types = some r) ∨
    env.catalog.builtins.resolveAggregate name args env.catalog.types = some r

/-- A method for a call, chosen by a provider or among the builtins, with the alias of the row at
    hand. -/
inductive OffersMethod (env : Env) (provided : List (TableSymbol × Schema))
    (sources : List TableSymbol) (name : String) (args : List DataType) (m : ResolvedMethod) :
    Option String → Prop where
  | provider {p : TableSymbol × Schema} (hp : p ∈ provided)
      (h : p.2.resolveMethod name args (some p.1.rowType) env.catalog.types = some m) :
      OffersMethod env provided sources name args m (some p.1.aliasName)
  | builtin (h : env.catalog.builtins.resolveMethod name args (sources.head?.map (·.rowType))
        env.catalog.types = some m) :
      OffersMethod env provided sources name args m (sources.head?.map (·.aliasName))
  | providerRaw {p : TableSymbol × Schema} (hp : p ∈ provided)
      (h : p.2.resolveRaw name args env.catalog.types = some m) :
      OffersMethod env provided sources name args m none
  | builtinRaw (h : env.catalog.builtins.resolveRaw name args env.catalog.types = some m) :
      OffersMethod env provided sources name args m none

theorem OffersAggregate.setter {env : Env} {provided : List (TableSymbol × Schema)} {name : String}
    {args : List DataType} {r : ResolvedAggregate} (h : OffersAggregate env provided name args r) :
    Text.eqIgnoreAsciiCase r.setter.name (setterName r.method.name) = true := by
  rcases h with ⟨p, -, h⟩ | h
  · exact p.2.setter_named _ _ _ _ h
  · exact MethodRegistry.resolveAggregate_setter h

/-- The row at hand is one of a source. -/
theorem OffersMethod.row {env : Env} {provided : List (TableSymbol × Schema)}
    {sources : List TableSymbol} {name : String} {args : List DataType} {m : ResolvedMethod}
    {a : String} (hprovided : ∀ p ∈ provided, p.1 ∈ sources)
    (h : OffersMethod env provided sources name args m (some a)) :
    ∃ t ∈ sources, t.aliasName = a := by
  generalize hsource : some a = source at h
  cases h with
  | provider hp _ =>
    cases hsource
    exact ⟨_, hprovided _ hp, rfl⟩
  | builtin _ =>
    obtain ⟨t, ht, rfl⟩ := Option.map_eq_some_iff.1 hsource.symm
    exact ⟨t, List.mem_of_mem_head? ht, rfl⟩
  | providerRaw _ _ | builtinRaw _ => cases hsource

/-- What a call can stand for: an aggregate with its setter, or a method on a row of the sources. -/
theorem target?_cases {env : Env} {provided : List (TableSymbol × Schema)}
    {sources : List TableSymbol} {name : String} {args : List DataType} {target : Target}
    (h : target? env provided sources name args = some target) :
    (∃ schema r, target = .aggregate schema r ∧ isAggregateName env provided name = true ∧
        OffersAggregate env provided name args r) ∨
      ∃ schema source m, target = .method schema source m ∧
        OffersMethod env provided sources name args m source := by
  simp only [target?, Option.orElse_eq_orElse, Option.orElse_eq_or, Option.or_eq_some_iff] at h
  rcases h with h | ⟨-, h | ⟨-, h | ⟨-, h | ⟨-, h⟩⟩⟩⟩
  · split at h
    · rename_i hname
      rw [Option.or_eq_some_iff] at h
      rcases h with h | ⟨-, h⟩
      · obtain ⟨p, hp, hmatch⟩ := List.exists_of_findSome?_eq_some h
        obtain ⟨r, hr, rfl⟩ := Option.map_eq_some_iff.1 hmatch
        exact .inl ⟨_, r, rfl, hname, .inl ⟨p, hp, hr⟩⟩
      · obtain ⟨r, hr, rfl⟩ := Option.map_eq_some_iff.1 h
        exact .inl ⟨_, r, rfl, hname, .inr hr⟩
    · cases h
  · obtain ⟨p, hp, hmatch⟩ := List.exists_of_findSome?_eq_some h
    obtain ⟨m, hm, rfl⟩ := Option.map_eq_some_iff.1 hmatch
    exact .inr ⟨_, _, m, rfl, .provider hp hm⟩
  · obtain ⟨m, hm, rfl⟩ := Option.map_eq_some_iff.1 h
    exact .inr ⟨_, _, m, rfl, .builtin hm⟩
  · obtain ⟨p, hp, hmatch⟩ := List.exists_of_findSome?_eq_some h
    obtain ⟨m, hm, rfl⟩ := Option.map_eq_some_iff.1 hmatch
    exact .inr ⟨_, _, m, rfl, .providerRaw hp hm⟩
  · obtain ⟨m, hm, rfl⟩ := Option.map_eq_some_iff.1 h
    exact .inr ⟨_, _, m, rfl, .builtinRaw hm⟩

/-! ## Registration -/

/-- What registering an update does to the bindings. -/
theorem registerRefresh_eq_ok {s s' : Scopes} (hs : s.Ordered) {id : Nat}
    (hid : id < s.all.length) {a : String} {c : RefreshCall}
    (h : registerRefresh s id (refreshKey a) c = .ok s') :
    (∃ f, s' = s.mapSymbols id f) ∧ (∀ t, s.findIn? (refreshKey a) id ≠ some (.table t)) ∧
      ∀ k i, s'.findIn? k i = if i = id ∧ k = refreshKey a then
        some (.refresh (addRefresh (s.refreshOf id a) c).1) else s.findIn? k i := by
  unfold registerRefresh at h
  cases hfind : s.findIn? (refreshKey a) id with
  | none =>
    simp only [hfind, Option.isSome_none, Bool.false_eq_true, if_false] at h
    obtain ⟨hfree, rfl⟩ := Scopes.add_eq_ok hs hid h
    refine ⟨⟨_, rfl⟩, by simp, ?_⟩
    intro k i
    rw [Scopes.append_findIn? hid hfree]
    simp [Scopes.refreshOf, hfree]
  | some symbol =>
    simp only [hfind, Option.isSome_some, if_true] at h
    obtain ⟨calls, hcalls, rfl⟩ := Scopes.modify_eq_ok hs hfind h
    cases symbol with
    | table t => cases hcalls
    | refresh calls' =>
      cases hcalls
      refine ⟨⟨_, rfl⟩, by simp, ?_⟩
      intro k i
      rw [Scopes.replace_findIn? _ hfind]
      simp [Scopes.refreshOf, hfind, SymbolView.refresh]

theorem registerRefresh_registers {s s' : Scopes} (hs : s.Ordered) {ctx : Context} {a : String}
    (ha : ctx.aliasName = some a) (hid : ctx.scope < s.all.length) {c : RefreshCall} {u : Term}
    (hupd : c.Updates u) (h : registerRefresh s ctx.scope (refreshKey a) c = .ok s') :
    Registers ctx [u] s s' := by
  obtain ⟨⟨f, rfl⟩, htable, hnew⟩ := registerRefresh_eq_ok hs hid h
  have hrefresh : (s.mapSymbols ctx.scope f).refreshOf ctx.scope a =
      (addRefresh (s.refreshOf ctx.scope a) c).1 := by
    simp [Scopes.refreshOf, hnew]
  have hkey : ∀ {k t}, s.findIn? k ctx.scope = some (.table t) → ¬k = refreshKey a := by
    rintro k t hk rfl
    exact htable t hk
  have htables : ∀ k t, s.findIn? k ctx.scope = some (.table t) →
      (s.mapSymbols ctx.scope f).findIn? k ctx.scope = some (.table t) := by
    intro k t hk
    simpa [hnew, hkey hk] using hk
  refine ⟨Scopes.mapSymbols_within f fun k t hk => ⟨t.nullable, htables k t hk⟩, by simp, by simp,
    ?_, htables, ?_, ?_, ?_⟩
  · intro k hk
    simp [hnew, hk a ha]
  · intro a' symbol ha' hsymbol
    obtain rfl : a = a' := by simpa [ha] using ha'
    have hsymbol' : symbol = .refresh (addRefresh (s.refreshOf ctx.scope a) c).1 := by
      simpa [hnew] using hsymbol.symm
    cases hlist : (addRefresh (s.refreshOf ctx.scope a) c).1 with
    | nil =>
      obtain ⟨d, hd, -⟩ := exists_mem_addRefresh (s.refreshOf ctx.scope a) c
      simp [hlist] at hd
    | cons d ds => exact .inr ⟨d, ds, by rw [hsymbol', hlist]⟩
  · exact fun _ => ⟨a, ha⟩
  · intro a' ha'
    obtain rfl : a = a' := by simpa [ha] using ha'
    exact ⟨[c], .cons hupd .nil, hrefresh⟩

/-! ## Calls -/

/-- Binding an aggregate over arguments without aggregates. -/
theorem bindAggregate_bound {ctx : Context} {tables : List TableSymbol} {schema : Option String}
    {r : ResolvedAggregate} {args : List Term} {s s' : State} {t : Term}
    (hs : s.scopes.Ordered) (hactive : ActiveTables s.scopes ctx tables)
    (hsetter : Text.eqIgnoreAsciiCase r.setter.name (setterName r.method.name) = true)
    (hresolved : ∀ a ∈ args, ∀ u ∈ a.subterms, u.ResolvedIn tables)
    (hplain : ∀ a ∈ args, a.aggregates = [])
    (h : bindAggregate ctx schema r args s = .ok t s') : BoundAll ctx tables [t] s s' := by
  unfold bindAggregate at h
  simp only at h
  cases hclause : ctx.clause.allowsAggregates with
  | false => simp [hclause, run_bind_ok] at h
  | true =>
    simp only [hclause, Bool.not_true, Bool.false_eq_true, if_false] at h
    cases ha : ctx.aliasName with
    | none => simp [ha] at h
    | some a =>
      simp only [ha, run_bind_ok, run_pure_ok, run_onScopes_ok] at h
      obtain ⟨_, _, ⟨scopes, hreg, rfl⟩, rfl, rfl⟩ := h
      have hid : ctx.scope < s.scopes.all.length := by
        unfold ActiveTables at hactive
        rw [ha] at hactive
        obtain ⟨source, hsource, -⟩ := hactive
        exact Scopes.lt_length_of_findIn? hsource
      refine ⟨?_, rfl, ?_, by simp [hclause]⟩
      · intro t ht
        obtain rfl := List.mem_singleton.1 ht
        exact Term.forall_subterms.2 ⟨hplain, hresolved⟩
      · change Registers ctx (List.flatMap _ [Term.aggregate ⟨r.method.name, schema,
          accumulatorName r.method.name args, r.method.signature⟩ args r.method.returnType]) _ _
        rw [List.flatMap_singleton, Term.aggregates_aggregate hplain]
        exact registerRefresh_registers hs ha hid ⟨rfl, rfl, rfl, rfl, hsetter⟩ hreg

theorem bindCall_sound {env : Env} {qualifier : Option String} {name : String}
    {args : List (Context → Resolver Term)} (hargs : ∀ b ∈ args, BindsSoundly b) :
    BindsSoundly (bindCall env qualifier name args) := by
  intro ctx tables s s' t hs hactive hlinks h
  simp only [bindCall, run_bind_ok, run_readScopes_ok, run_ofExcept_ok,
    hactive.sourceTables_eq hs, Except.ok.injEq] at h
  obtain ⟨_, _, ⟨rfl, rfl⟩, sources, _, ⟨hsources, rfl⟩, ts, u, hts, h⟩ := h
  have hsubset := callSources_subset hsources
  -- the arguments stand in the clause of the call, or in one of their own that has no aggregates
  have hbound : BoundAll ctx tables ts s u ∧
      (isAggregateName env (providers env.catalog sources) name = true →
        ctx.clause.allowsAggregates = true → ts.flatMap Term.aggregates = []) := by
    split at hts
    · have hb : BoundAll (ctx.withClause .aggregateArgument) tables ts s u :=
        boundAll_of_mapM hargs hs hactive hlinks hts
      refine ⟨⟨hb.resolved, hb.state, hb.registers.inContext rfl rfl, ?_⟩, fun _ _ => hb.allowed rfl⟩
      intro _
      exact hb.allowed rfl
    · rename_i hclause
      refine ⟨boundAll_of_mapM hargs hs hactive hlinks hts, fun hname hallows => ?_⟩
      simp [hname, hallows] at hclause
  obtain ⟨hb, hplain⟩ := hbound
  cases htarget : target? env (providers env.catalog sources) sources name (ts.map (·.type)) with
  | none => simp [htarget] at h
  | some target =>
    simp only [htarget] at h
    obtain ⟨schema, r, rfl, hname, hr⟩ | ⟨schema, source, m, rfl, hoffers⟩ :=
      target?_cases htarget
    · cases hclause : ctx.clause.allowsAggregates with
      | false => simp [bindAggregate, hclause, run_bind_ok] at h
      | true =>
        have hnil := hplain hname hclause
        have hu : u.scopes = s.scopes := hb.registers.unchanged hnil
        obtain rfl : u = s := by rw [hb.state, hu]
        exact bindAggregate_bound hs hactive hr.setter hb.resolved
          (List.flatMap_eq_nil_iff.1 hnil) h
    · obtain ⟨rfl, rfl⟩ := run_pure_ok.1 h
      refine BoundAll.node (t := methodTerm schema source m ts) hb rfl ?_
      intro a ha
      simp only at ha
      split at ha
      · subst ha
        obtain ⟨t, ht, rfl⟩ := hoffers.row fun p hp => (mem_of_mem_providers hp).1
        exact ⟨t, hsubset ht, rfl⟩
      · cases ha

end Resolve

end SchemaQuery
