-- SUMMARY: Binding a source binds its parts in the scope of the block.
import SchemaQuery.Proofs.Resolve.Expr
import SchemaQuery.Proofs.Resolve.Layout
import SchemaQuery.Resolve.Source

/-!
# Bound sources

Binding a source adds a table to the scope of its block for each part of the
source, under an alias that was free, and nothing else (`BindsSource`). There is
one lemma for a leaf and one for a pair of sources; the kinds of sources are
instances of the two.
-/

namespace SchemaQuery

namespace Scopes

variable {s s' : Scopes} {id : Nat}

theorem add_length (hs : s.Ordered) (hid : id < s.all.length) {a : String} {symbol : Symbol}
    (h : s.add id a symbol = .ok s') : s'.all.length = s.all.length := by
  obtain ⟨-, rfl⟩ := add_eq_ok hs hid h
  simp

theorem add_free (hs : s.Ordered) (hid : id < s.all.length) {a : String} {symbol : Symbol}
    (h : s.add id a symbol = .ok s') : s.findIn? a id = none :=
  (add_eq_ok hs hid h).1

/-- In a scope of tables what is free later was free before. -/
theorem OnlyTables.free_before (h : s.OnlyTables id) (hw : s.Within id s') {k : String}
    (hk : s'.findIn? k id = none) : s.findIn? k id = none := by
  cases hold : s.findIn? k id with
  | none => rfl
  | some symbol =>
    obtain ⟨t, rfl⟩ := h k symbol hold
    obtain ⟨b, hb⟩ := hw.tables k t hold
    rw [hk] at hb
    cases hb

end Scopes

namespace Resolve

/-! ## Marking tables as nullable -/

/-- The scopes `s'` are `s` with some tables of the scope `id` seen as nullable. -/
structure Marks (id : Nat) (s s' : Scopes) : Prop where
  within : s.Within id s'
  length : s'.all.length = s.all.length
  keys : ∀ k, s.findIn? k id = none → s'.findIn? k id = none
  onlyTables : s.OnlyTables id → s'.OnlyTables id

theorem Marks.refl (id : Nat) (s : Scopes) : Marks id s s :=
  ⟨.refl id s, rfl, fun _ h => h, fun h => h⟩

theorem Marks.trans {id : Nat} {s s' s'' : Scopes} (h : Marks id s s') (h' : Marks id s' s'') :
    Marks id s s'' :=
  ⟨h.within.trans h'.within, h'.length.trans h.length, fun k hk => h'.keys k (h.keys k hk),
    fun ho => h'.onlyTables (h.onlyTables ho)⟩

theorem marks_of_modify {id : Nat} {s s' : Scopes} (hs : s.Ordered) {a : String} {t : TableSymbol}
    (hfind : s.findIn? a id = some (.table t))
    (h : s.modify .table a id (fun t => { t with nullable := true }) = .ok s') :
    Marks id s s' := by
  obtain ⟨x, -, heq⟩ := Scopes.modify_eq_ok hs hfind h
  obtain ⟨hwithin, hnew⟩ := Scopes.markNullable_within hs hfind h
  refine ⟨hwithin, by rw [heq, Scopes.mapSymbols_length], ?_, ?_⟩
  · intro k hk
    have hka : ¬k = a := by
      rintro rfl
      rw [hfind] at hk
      cases hk
    rw [hnew, if_neg hka, hk]
  · intro ho k symbol hk
    rw [hnew] at hk
    split at hk
    · cases hk
      exact ⟨_, rfl⟩
    · exact ho k symbol hk

/-- Marks the tables of some aliases as nullable. -/
def markAll (id : Nat) (as : List String) (s : Scopes) : Except ResolveError Scopes :=
  as.foldlM (fun scopes a => scopes.modify .table a id fun t => { t with nullable := true }) s

theorem markAll_cons {id : Nat} {a : String} {as : List String} {s s' : Scopes} :
    markAll id (a :: as) s = .ok s' ↔ ∃ u,
      s.modify .table a id (fun t => { t with nullable := true }) = .ok u ∧
        markAll id as u = .ok s' := by
  rw [markAll, List.foldlM_cons, except_bind_ok]
  rfl

theorem markAll_marks {id : Nat} {as : List String} {s s' : Scopes} (hs : s.Ordered)
    (hbound : ∀ a ∈ as, ∃ t, s.findIn? a id = some (.table t)) (h : markAll id as s = .ok s') :
    Marks id s s' := by
  induction as generalizing s with
  | nil =>
    obtain rfl := except_pure_ok.1 h
    exact .refl id s
  | cons a as ih =>
    obtain ⟨u, hu, hrest⟩ := markAll_cons.1 h
    obtain ⟨t, ht⟩ := hbound a (by simp)
    have hmark := marks_of_modify hs ht hu
    refine hmark.trans (ih (hmark.within.ordered hs) ?_ hrest)
    intro b hb
    obtain ⟨t', ht'⟩ := hbound b (List.mem_cons_of_mem _ hb)
    obtain ⟨n, hn⟩ := hmark.within.tables b t' ht'
    exact ⟨_, hn⟩

/-- The scopes `s'` are `s` with a table bound in the scope `id`, after some of its tables were
    marked. -/
def Extends (id : Nat) (a : String) (s s' : Scopes) : Prop :=
  ∃ u t, Marks id s u ∧ u.add id a (.table t) = .ok s'

/-! ## Parts of a source -/

/-- Between `s` and `s'` the source `src` was bound in the scope `id`. -/
structure BindsSource (Named : String → Prop) (id : Nat) (src : BoundSource) (s s' : Scopes) :
    Prop where
  within : s.Within id s'
  bound : SourceBound s' id src
  free : ∀ p ∈ src.parts, s.findIn? p.aliasName id = none
  keys : ∀ k, s.findIn? k id = none → (∀ p ∈ src.parts, p.aliasName ≠ k) →
    s'.findIn? k id = none
  onlyTables : s.OnlyTables id → s'.OnlyTables id
  distinct : (src.parts.map (·.aliasName)).Nodup
  composed : ∀ p ∈ src.parts, p.aliasName = "+".intercalate p.leafAliases
  named : ∀ a ∈ src.leafAliases, Named a
  nested : Sealed Named s' s.all.length s'.all.length src.queries

variable {Named : String → Prop} {id : Nat} {src left right : BoundSource}
variable {s s₁ s₂ s₃ s' : Scopes}

theorem onlyTables_of_add (hs : s.Ordered) (hid : id < s.all.length) {a : String}
    {t : TableSymbol} (h : s.add id a (.table t) = .ok s') (ho : s.OnlyTables id) :
    s'.OnlyTables id := by
  intro k symbol hk
  rw [Scopes.add_findIn? hs hid h] at hk
  split at hk
  · cases hk
    exact ⟨t, rfl⟩
  · exact ho k symbol hk

/-- A source without parts is bound to a table. Before that a query nested in it may be bound. -/
theorem BindsSource.leaf {t : TableSymbol} (hs : s.Ordered) (hid : id < s.all.length)
    (hw : s.Within id s₁) (hsame : ∀ k, s₁.findIn? k id = s.findIn? k id)
    (hadd : s₁.add id src.aliasName (.table t) = .ok s') (hparts : src.parts = [src])
    (hleaf : src.leafAliases = [src.aliasName]) (halias : t.aliasName = src.aliasName)
    (hcompound : t.compoundTables = [src.aliasName]) (hcolumns : t.columns = src.columns)
    (hplain : t.isCompound = !src.isLeaf) (hnamed : Named src.aliasName)
    (hnested : Sealed Named s₁ s.all.length s₁.all.length src.queries) :
    BindsSource Named id src s s' := by
  have hs₁ := hw.ordered hs
  have hid₁ : id < s₁.all.length := Nat.lt_of_lt_of_le hid hw.length_le
  have hfind := Scopes.add_findIn? hs₁ hid₁ hadd
  have hadded := Scopes.add_within hs₁ hid₁ hadd
  refine ⟨hw.trans hadded, ?_, ?_, ?_, ?_, by simp [hparts], ?_, by simpa [hleaf] using hnamed, ?_⟩
  · intro p hp
    obtain rfl := List.mem_singleton.1 (hparts ▸ hp)
    exact ⟨t, by simp [hfind], halias, hcompound.trans hleaf.symm, hcolumns, hplain⟩
  · intro p hp
    obtain rfl := List.mem_singleton.1 (hparts ▸ hp)
    rw [← hsame]
    exact Scopes.add_free hs₁ hid₁ hadd
  · intro k hk hne
    rw [hfind, if_neg (Ne.symm (hne src (by simp [hparts]))), hsame, hk]
  · intro ho
    refine onlyTables_of_add hs₁ hid₁ hadd ?_
    intro k symbol hk
    exact ho k symbol (hsame k ▸ hk)
  · intro p hp
    obtain rfl := List.mem_singleton.1 (hparts ▸ hp)
    rw [hleaf]
    rfl
  · rw [Scopes.add_length hs₁ hid₁ hadd]
    exact hnested.within hadded hid (Nat.le_refl _)

/-- A source that is made of two sources and has no columns of its own. -/
structure IsPair (src left right : BoundSource) : Prop where
  aliasName : src.aliasName = left.aliasName ++ "+" ++ right.aliasName
  parts : src.parts = src :: (left.parts ++ right.parts)
  leafAliases : src.leafAliases = left.leafAliases ++ right.leafAliases
  columns : src.columns = []
  isLeaf : src.isLeaf = false
  queries : src.queries = left.queries ++ right.queries

/-- Two sources bound one after the other, and a table over both. -/
theorem BindsSource.pair (hs : s.Ordered) (hid : id < s.all.length) (ho : s.OnlyTables id)
    (hsrc : IsPair src left right) (hl : BindsSource Named id left s s₁)
    (hr : BindsSource Named id right s₁ s₂) (hm : Marks id s₂ s₃)
    (hadd : s₃.add id src.aliasName
      (.table (.compound src.aliasName (left.leafAliases ++ right.leafAliases))) = .ok s') :
    BindsSource Named id src s s' := by
  have hw₃ := (hl.within.trans hr.within).trans hm.within
  have hs₃ := hw₃.ordered hs
  have hid₃ : id < s₃.all.length := Nat.lt_of_lt_of_le hid hw₃.length_le
  have hfind := Scopes.add_findIn? hs₃ hid₃ hadd
  have hadded := Scopes.add_within hs₃ hid₃ hadd
  have hfree := Scopes.add_free hs₃ hid₃ hadd
  have hleft₃ := hl.bound.within (hr.within.trans hm.within)
  have hright₃ := hr.bound.within hm.within
  refine ⟨hw₃.trans hadded, ?_, ?_, ?_, ?_, ?_, ?_, ?_, ?_⟩
  · intro p hp
    rw [hsrc.parts, List.mem_cons, List.mem_append] at hp
    rcases hp with rfl | hp | hp
    · exact ⟨_, by rw [hfind, if_pos rfl], rfl, hsrc.leafAliases.symm, hsrc.columns.symm,
        by rw [hsrc.isLeaf]; rfl⟩
    · exact hleft₃.within hadded p hp
    · exact hright₃.within hadded p hp
  · intro p hp
    rw [hsrc.parts, List.mem_cons, List.mem_append] at hp
    rcases hp with rfl | hp | hp
    · exact ho.free_before hw₃ hfree
    · exact hl.free p hp
    · exact ho.free_before hl.within (hr.free p hp)
  · intro k hk hne
    have hk₁ := hl.keys k hk fun p hp => hne p (by simp [hsrc.parts, hp])
    have hk₂ := hr.keys k hk₁ fun p hp => hne p (by simp [hsrc.parts, hp])
    rw [hfind, if_neg (Ne.symm (hne src src.self_mem_parts)), hm.keys k hk₂]
  · intro ho
    exact onlyTables_of_add hs₃ hid₃ hadd (hm.onlyTables (hr.onlyTables (hl.onlyTables ho)))
  · rw [hsrc.parts, List.map_cons, List.map_append, List.nodup_cons, List.nodup_append]
    refine ⟨?_, hl.distinct, hr.distinct, ?_⟩
    · simp only [List.mem_append, not_or]
      exact ⟨hleft₃.notMem_of_free hfree, hright₃.notMem_of_free hfree⟩
    · intro a hal b hbr hab
      obtain ⟨q, hq, rfl⟩ := List.mem_map.1 hbr
      exact hl.bound.notMem_of_free (hr.free q hq) (hab ▸ hal)
  · intro p hp
    rw [hsrc.parts, List.mem_cons, List.mem_append] at hp
    rcases hp with rfl | hp | hp
    · rw [hsrc.aliasName, hsrc.leafAliases, hl.composed left left.self_mem_parts,
        hr.composed right right.self_mem_parts,
        String.intercalate_append_of_ne_nil left.leafAliases_ne_nil right.leafAliases_ne_nil]
    · exact hl.composed p hp
    · exact hr.composed p hp
  · intro a ha
    rw [hsrc.leafAliases, List.mem_append] at ha
    rcases ha with ha | ha
    · exact hl.named a ha
    · exact hr.named a ha
  · rw [hsrc.queries, Scopes.add_length hs₃ hid₃ hadd, hm.length]
    have hwl := (hr.within.trans hm.within).trans hadded
    refine Sealed.append (?_ : Sealed Named s' _ s₁.all.length _) ?_ hl.within.length_le
      hr.within.length_le
    · exact hl.nested.within hwl hid (Nat.le_refl _)
    · exact hr.nested.within (hm.within.trans hadded)
        (Nat.lt_of_lt_of_le hid hl.within.length_le) (Nat.le_refl _)

/-! ## Leaves -/

/-- The leaves that the terms of a source may read: those of the active source, if there is one. -/
def Around (s : Scopes) (ctx : Context) (outer : List (String × List Column)) : Prop :=
  match ctx.aliasName with
  | none => outer = []
  | some a => ∃ src : BoundSource, src.aliasName = a ∧ src.leaves = outer ∧
      SourceBound s ctx.scope src

theorem Around.within {ctx : Context} {outer : List (String × List Column)}
    (h : Around s ctx outer) (hw : s.Within ctx.scope s') : Around s' ctx outer := by
  unfold Around at h ⊢
  cases ha : ctx.aliasName with
  | none =>
    rw [ha] at h
    exact h
  | some a =>
    rw [ha] at h
    obtain ⟨src, halias, hleaves, hsrc⟩ := h
    exact ⟨src, halias, hleaves, hsrc.within hw⟩

theorem Around.active {ctx : Context} {outer : List (String × List Column)}
    (h : Around s ctx outer) :
    ∃ tables, ActiveTables s ctx tables ∧ tables.map (·.leaf) = outer := by
  unfold Around at h
  cases ha : ctx.aliasName with
  | none =>
    rw [ha] at h
    exact ⟨[], by simp [ActiveTables, ha], h.symm⟩
  | some a =>
    rw [ha] at h
    obtain ⟨src, rfl, rfl, hsrc⟩ := h
    obtain ⟨tables, ht⟩ := hsrc.leafTables
    exact ⟨tables, ht.active hsrc rfl ha, ht.leaves⟩

/-- The alias of a source is the written one or a new one. -/
theorem run_aliasOr_ok {env : Env} {a : Option String} {r : String × Bool} {s s' : State}
    (h : aliasOr env a s = .ok r s') :
    (∃ n, s' = { s with nextAlias := n }) ∧
      (a = some r.1 ∨ ∃ n : Nat, r.1 = env.config.autoAliasPrefix ++ toString n) := by
  cases a with
  | some n =>
    obtain ⟨rfl, rfl⟩ := run_pure_ok.1 h
    exact ⟨⟨_, rfl⟩, .inl rfl⟩
  | none =>
    obtain ⟨n, u, hfresh, hpure⟩ := run_bind_ok.1 h
    obtain ⟨rfl, rfl⟩ := run_pure_ok.1 hpure
    obtain ⟨rfl, rfl⟩ := run_freshAlias_ok.1 hfresh
    exact ⟨⟨_, rfl⟩, .inr ⟨_, rfl⟩⟩

theorem aliasOr_named {env : Env} {a : Option String} {r : String × Bool} {s s' : State}
    (hwritten : ∀ n ∈ a, Named n)
    (hauto : ∀ n : Nat, Named (env.config.autoAliasPrefix ++ toString n))
    (h : aliasOr env a s = .ok r s') : s'.scopes = s.scopes ∧ Named r.1 := by
  obtain ⟨⟨_, rfl⟩, ha | ⟨n, hn⟩⟩ := run_aliasOr_ok h
  · exact ⟨rfl, hwritten r.1 ha⟩
  · exact ⟨rfl, hn ▸ hauto n⟩

theorem run_requestColumns_ok {env : Env} {schema : Schema} {method : String}
    {context : TableContext} {args : List Term} {columns : List Column} {s s' : State}
    (h : requestColumns env schema method context args s = .ok columns s') :
    schema.columnsOf method context (args.map argumentOf) = .ok columns ∧
      s' = { s with requests := s.requests ++ [⟨Catalog.key schema.name, context⟩] } := by
  simp only [requestColumns, run_bind_ok, run_modify_ok] at h
  obtain ⟨_, _, rfl, h⟩ := h
  cases hcolumns : schema.columnsOf method context (args.map argumentOf) with
  | ok columns =>
    simp only [hcolumns, run_pure_ok] at h
    exact ⟨congrArg _ h.1, h.2.symm⟩
  | error e => simp [hcolumns] at h

/-- Terms in a clause without aggregates are bound without a change to the scopes. -/
theorem BoundAll.scopes_eq {ctx : Context} {tables : List TableSymbol} {ts : List Term}
    {s s' : State} (h : BoundAll ctx tables ts s s')
    (hclause : ctx.clause.allowsAggregates = false) : s'.scopes = s.scopes :=
  h.registers.unchanged (h.allowed hclause)

section Leaves

variable {env : Env} {ctx : Context} {outer : List (String × List Column)} {s s' : State}

theorem bindSchemaSource_shape {usage : ColumnUsage} {schema method : String} {args : List Expr}
    {a : Option String} (h : bindSchemaSource env usage schema method args a ctx s = .ok src s') :
    ∃ a' n m ts columns type, src = .schema a' n m ts columns type := by
  unfold bindSchemaSource at h
  cases hschema : env.catalog.schema? schema with
  | none => simp [hschema] at h
  | some provider =>
    simp only [hschema, run_bind_ok, run_pure_ok] at h
    obtain ⟨ts, _, -, r, _, -, columns, _, -, _, _, -, rfl, -⟩ := h
    exact ⟨_, _, _, _, _, _, rfl⟩

/-- The steps of a schema table: its arguments are bound over the active tables, then its symbol is
    bound. -/
theorem bindSchemaSource_run {usage : ColumnUsage} {schema method : String} {args : List Expr}
    {a : Option String} {tables : List TableSymbol} (hs : s.scopes.Ordered)
    (hactive : ActiveTables s.scopes ctx tables) (hlinks : ctx.groupBy = [])
    (hwritten : ∀ n ∈ a, Named n)
    (hauto : ∀ n : Nat, Named (env.config.autoAliasPrefix ++ toString n))
    (h : bindSchemaSource env usage schema method args a ctx s = .ok src s') :
    ∃ a' n m ts columns type explicit, src = .schema a' n m ts columns type ∧ Named a' ∧
      (∃ u, BoundAll (ctx.withClause .source) tables ts s u) ∧
      s.scopes.add ctx.scope a' (.table (.plain a' (.schema n m) columns explicit type)) =
        .ok s'.scopes := by
  unfold bindSchemaSource at h
  cases hschema : env.catalog.schema? schema with
  | none => simp [hschema] at h
  | some provider =>
    simp only [hschema, run_bind_ok, run_pure_ok] at h
    obtain ⟨ts, u, hargs, r, v, halias, columns, w, hrequest, _, x, hstep, rfl, rfl⟩ := h
    have hb : BoundAll (ctx.withClause .source) tables ts s u :=
      boundAll_of_mapM (bindAll_sound env args) hs hactive
        (by simp [LinksBound, Context.withClause, hlinks]) hargs
    obtain ⟨hv, hnamed⟩ := aliasOr_named hwritten hauto halias
    obtain ⟨scopes, hadd, rfl⟩ := run_onScopes_ok.1 hstep
    obtain ⟨-, rfl⟩ := run_requestColumns_ok hrequest
    rw [hv, hb.scopes_eq rfl] at hadd
    exact ⟨_, _, _, _, _, _, _, rfl, hnamed, ⟨u, hb⟩, hadd⟩

theorem bindSchemaSource_binds {usage : ColumnUsage} {schema method : String} {args : List Expr}
    {a : Option String} (hs : s.scopes.Ordered) (hid : ctx.scope < s.scopes.all.length)
    (haround : Around s.scopes ctx outer) (hlinks : ctx.groupBy = [])
    (hwritten : ∀ n ∈ a, Named n)
    (hauto : ∀ n : Nat, Named (env.config.autoAliasPrefix ++ toString n))
    (h : bindSchemaSource env usage schema method args a ctx s = .ok src s') :
    BindsSource Named ctx.scope src s.scopes s'.scopes ∧ src.Reads outer ∧ src.depth = 0 ∧
      Extends ctx.scope src.aliasName s.scopes s'.scopes := by
  obtain ⟨tables, hactive, hleaves⟩ := haround.active
  obtain ⟨_, _, _, ts, _, _, _, rfl, hnamed, ⟨u, hb⟩, hadd⟩ :=
    bindSchemaSource_run hs hactive hlinks hwritten hauto h
  refine ⟨?_, ?_, by simp [BoundSource.depth], _, _, .refl _ _, hadd⟩
  · refine BindsSource.leaf hs hid (.refl _ _) (fun _ => rfl) hadd rfl rfl rfl rfl rfl rfl hnamed ?_
    exact .nil Named s.scopes _
  · intro t ht u hu
    rw [← hleaves]
    exact (hb.resolved t ht u hu).readsFrom

/-- A table in memory is an expression in sight or a table of the host. -/
theorem memoryTable_cases {scopes : Scopes} {name : String} {scope : Nat} {origin : MemoryOrigin}
    {tableOrigin : TableOrigin} {columns : List Column}
    (h : memoryTable env scopes name scope = .ok (origin, tableOrigin, columns)) :
    (∃ t, scopes.tryResolve .table (cteKey name) scope = .ok (some t) ∧
      origin = .cte ∧ tableOrigin = .cte name ∧ columns = t.columns) ∨
    (env.catalog.memoryTable? name = some columns ∧ origin = .host ∧
      tableOrigin = .inMemory name) := by
  rw [memoryTable, except_bind_ok] at h
  obtain ⟨found, hfound, h⟩ := h
  cases found with
  | some t =>
    cases h
    exact .inl ⟨t, hfound, rfl, rfl, rfl⟩
  | none =>
    cases hhost : env.catalog.memoryTable? name with
    | some columns =>
      simp only [hhost] at h
      cases h
      exact .inr ⟨rfl, rfl, rfl⟩
    | none =>
      simp only [hhost, except_bind_ok] at h
      obtain ⟨_, -, h⟩ := h
      cases h

theorem bindMemorySource_run {name : String} {a : Option String}
    (h : bindMemorySource env name a ctx s = .ok src s') :
    ∃ origin tableOrigin columns, src = .inMemory (a.getD name) name origin columns ∧
      memoryTable env s.scopes name ctx.scope = .ok (origin, tableOrigin, columns) ∧
      s.scopes.add ctx.scope (a.getD name)
        (.table (.plain (a.getD name) tableOrigin columns a.isSome .object)) = .ok s'.scopes := by
  simp only [bindMemorySource, run_bind_ok, run_readScopes_ok, run_pure_ok] at h
  obtain ⟨r, u, ⟨hmemory, rfl⟩, _, x, hstep, rfl, rfl⟩ := h
  obtain ⟨scopes, hadd, rfl⟩ := run_onScopes_ok.1 hstep
  exact ⟨_, _, _, rfl, hmemory, hadd⟩

theorem bindMemorySource_binds {name : String} {a : Option String} (hs : s.scopes.Ordered)
    (hid : ctx.scope < s.scopes.all.length) (hnamed : Named (a.getD name))
    (h : bindMemorySource env name a ctx s = .ok src s') :
    BindsSource Named ctx.scope src s.scopes s'.scopes ∧ (∀ outer, src.Reads outer) ∧
      src.depth = 0 ∧ Extends ctx.scope src.aliasName s.scopes s'.scopes := by
  obtain ⟨origin, tableOrigin, columns, rfl, hmemory, hadd⟩ := bindMemorySource_run h
  have hplain : (TableSymbol.plain (a.getD name) tableOrigin columns a.isSome
      .object).isCompound = false := by
    obtain ⟨_, -, -, rfl, -⟩ | ⟨-, -, rfl⟩ := memoryTable_cases hmemory <;> rfl
  refine ⟨?_, fun _ => trivial, by simp [BoundSource.depth], _, _, .refl _ _, hadd⟩
  refine BindsSource.leaf hs hid (.refl _ _) (fun _ => rfl) hadd rfl rfl rfl rfl rfl hplain hnamed ?_
  exact .nil Named s.scopes _

theorem bindSubquerySource_run {query : BoundQuery} {a : Option String} {t : State}
    (hwritten : ∀ n ∈ a, Named n)
    (hauto : ∀ n : Nat, Named (env.config.autoAliasPrefix ++ toString n))
    (h : bindSubquerySource env query a ctx t = .ok src s') :
    ∃ a' explicit, src = .subquery a' query query.output ∧ Named a' ∧
      t.scopes.add ctx.scope a' (.table (.plain a' .subquery query.output explicit .object)) =
        .ok s'.scopes := by
  simp only [bindSubquerySource, run_bind_ok, run_pure_ok] at h
  obtain ⟨r, v, halias, _, x, hstep, rfl, rfl⟩ := h
  obtain ⟨hv, hnamed⟩ := aliasOr_named hwritten hauto halias
  obtain ⟨scopes, hadd, rfl⟩ := run_onScopes_ok.1 hstep
  rw [hv] at hadd
  exact ⟨_, _, rfl, hnamed, hadd⟩

/-- A nested query that is bound already becomes a leaf. -/
theorem bindSubquerySource_binds {query : BoundQuery} {a : Option String} {t : State}
    (hs : s.scopes.Ordered) (hid : ctx.scope < s.scopes.all.length)
    (hw : s.scopes.Within ctx.scope t.scopes)
    (hsame : ∀ k, t.scopes.findIn? k ctx.scope = s.scopes.findIn? k ctx.scope)
    (hnested : Sealed Named t.scopes s.scopes.all.length t.scopes.all.length query.queries)
    (hwritten : ∀ n ∈ a, Named n)
    (hauto : ∀ n : Nat, Named (env.config.autoAliasPrefix ++ toString n))
    (h : bindSubquerySource env query a ctx t = .ok src s') :
    BindsSource Named ctx.scope src s.scopes s'.scopes ∧ (∀ outer, src.Reads outer) ∧
      src.depth = query.depth ∧ Extends ctx.scope src.aliasName t.scopes s'.scopes := by
  obtain ⟨_, _, rfl, hnamed, hadd⟩ := bindSubquerySource_run hwritten hauto h
  refine ⟨?_, fun _ => trivial, by simp [BoundSource.depth], _, _, .refl _ _, hadd⟩
  refine BindsSource.leaf hs hid hw hsame hadd rfl rfl rfl rfl rfl rfl hnamed ?_
  simpa [BoundSource.queries] using hnested

end Leaves

/-! ## Pairs -/

end Resolve

/-- The leaves that a join of two sources pads with nulls. -/
def JoinKind.padded (left right : BoundSource) : JoinKind → List String
  | .inner => []
  | .leftOuter => right.leafAliases
  | .rightOuter => left.leafAliases

/-- The leaves that an apply pads with nulls. -/
def ApplyKind.padded (right : BoundSource) : ApplyKind → List String
  | .cross => []
  | .outer => right.leafAliases

theorem JoinKind.padded_subset (kind : JoinKind) (left right : BoundSource) :
    kind.padded left right ⊆ left.leafAliases ++ right.leafAliases := by
  cases kind <;> simp [padded]

theorem ApplyKind.padded_subset (kind : ApplyKind) (left right : BoundSource) :
    kind.padded right ⊆ left.leafAliases ++ right.leafAliases := by
  cases kind <;> simp [padded]

namespace Resolve

section Pairs

variable {left right src : BoundSource} {Named : String → Prop}
variable {env : Env} {ctx : Context} {outer : List (String × List Column)} {s s₁ s₂ s' : State}

theorem compose_run {scope : Nat} {a : String} {s s' : State}
    (h : compose left right scope s = .ok a s') :
    a = left.aliasName ++ "+" ++ right.aliasName ∧
      s.scopes.add scope (left.aliasName ++ "+" ++ right.aliasName)
        (.table (.compound (left.aliasName ++ "+" ++ right.aliasName)
          (left.leafAliases ++ right.leafAliases))) = .ok s'.scopes := by
  simp only [compose, run_bind_ok, run_pure_ok] at h
  obtain ⟨_, x, hstep, rfl, rfl⟩ := h
  obtain ⟨scopes, hadd, rfl⟩ := run_onScopes_ok.1 hstep
  exact ⟨rfl, hadd⟩

/-- The state after the tables of some aliases were marked. -/
structure MarkedAll (id : Nat) (as : List String) (s s' : State) : Prop where
  state : s' = { s with scopes := s'.scopes }
  marked : markAll id as s.scopes = .ok s'.scopes

theorem MarkedAll.nil (id : Nat) (s : State) : MarkedAll id [] s s := ⟨rfl, rfl⟩

theorem markNullable_run {id : Nat} {x : Unit} (h : markNullable src id s = .ok x s') :
    MarkedAll id src.leafAliases s s' := by
  obtain ⟨scopes, hfold, rfl⟩ := run_onScopes_ok.1 h
  exact ⟨rfl, hfold⟩

/-- The steps of a join: the padded side is marked, then the compound symbol is bound and the
    condition after it. -/
theorem run_bindJoin_ok {kind : JoinKind} {condition : Expr}
    (h : bindJoin env kind left right condition ctx s = .ok src s') :
    ∃ u, MarkedAll ctx.scope (kind.padded left right) s u ∧
      ∃ a v c, compose left right ctx.scope u = .ok a v ∧
        bindPredicate env condition ((ctx.withAlias a).withClause .joinCondition) v = .ok c s' ∧
        src = .join a kind left right c := by
  cases kind with
  | inner =>
    simp only [bindJoin, run_bind_ok, run_pure_ok] at h
    obtain ⟨a, v, ha, c, w, hc, rfl, rfl⟩ := h
    exact ⟨s, .nil _ s, a, v, c, ha, hc, rfl⟩
  | leftOuter =>
    simp only [bindJoin, run_bind_ok, run_pure_ok] at h
    obtain ⟨x, u, hu, a, v, ha, c, w, hc, rfl, rfl⟩ := h
    exact ⟨u, markNullable_run hu, a, v, c, ha, hc, rfl⟩
  | rightOuter =>
    simp only [bindJoin, run_bind_ok, run_pure_ok] at h
    obtain ⟨x, u, hu, a, v, ha, c, w, hc, rfl, rfl⟩ := h
    exact ⟨u, markNullable_run hu, a, v, c, ha, hc, rfl⟩

theorem run_bindApply_ok {kind : ApplyKind} (h : bindApply kind left right ctx s = .ok src s') :
    ∃ u, MarkedAll ctx.scope (kind.padded right) s u ∧
      ∃ a, compose left right ctx.scope u = .ok a s' ∧ src = .apply a kind left right := by
  cases kind with
  | cross =>
    simp only [bindApply, reduceCtorEq, if_false, run_bind_ok, run_pure_ok] at h
    obtain ⟨a, v, ha, rfl, rfl⟩ := h
    exact ⟨s, .nil _ s, a, ha, rfl⟩
  | outer =>
    simp only [bindApply, if_true, run_bind_ok, run_pure_ok] at h
    obtain ⟨x, u, hu, a, v, ha, rfl, rfl⟩ := h
    exact ⟨u, markNullable_run hu, a, ha, rfl⟩

/-- Both sides are bound, so marking leaves of theirs keeps all else. -/
theorem MarkedAll.marks {id : Nat} {as : List String} (h : MarkedAll id as s s')
    (hs : s.scopes.Ordered) (hl : SourceBound s.scopes id left)
    (hr : SourceBound s.scopes id right) (has : as ⊆ left.leafAliases ++ right.leafAliases) :
    Marks id s.scopes s'.scopes := by
  have hleaf {src : BoundSource} (hsrc : SourceBound s.scopes id src) {a : String}
      (ha : a ∈ src.leafAliases) : ∃ t, s.scopes.findIn? a id = some (.table t) := by
    obtain ⟨tables, ht⟩ := hsrc.leafTables
    rw [← src.map_leaves, ← ht.leaves, List.map_map] at ha
    obtain ⟨t, hmem, rfl⟩ := List.mem_map.1 ha
    exact ⟨t, ht.bound t hmem⟩
  refine markAll_marks hs (fun a ha => ?_) h.marked
  rcases List.mem_append.1 (has ha) with ha | ha
  · exact hleaf hl ha
  · exact hleaf hr ha

/-- A join binds its parts, and its condition over its leaves without a change to the scopes. -/
theorem bindJoin_steps {kind : JoinKind} {condition : Expr} (hs : s.scopes.Ordered)
    (hid : ctx.scope < s.scopes.all.length) (ho : s.scopes.OnlyTables ctx.scope)
    (hlinks : ctx.groupBy = []) (hl : BindsSource Named ctx.scope left s.scopes s₁.scopes)
    (hr : BindsSource Named ctx.scope right s₁.scopes s₂.scopes)
    (h : bindJoin env kind left right condition ctx s₂ = .ok src s') :
    ∃ u a t c tables, MarkedAll ctx.scope (kind.padded left right) s₂ u ∧
      u.scopes.add ctx.scope a (.table t) = .ok s'.scopes ∧ src = .join a kind left right c ∧
      BindsSource Named ctx.scope src s.scopes s'.scopes ∧
      LeafTables s'.scopes ctx.scope src tables ∧
      (∀ v ∈ c.subterms, v.ResolvedIn tables) ∧ c.aggregates = [] := by
  have hs₂ := (hl.within.trans hr.within).ordered hs
  obtain ⟨u, hmarked, a, v, c, hcompose, hcondition, rfl⟩ := run_bindJoin_ok h
  have hmarks := hmarked.marks hs₂ (hl.bound.within hr.within) hr.bound (kind.padded_subset _ _)
  obtain ⟨rfl, hadd⟩ := compose_run hcompose
  -- the scope knows nothing of the condition, so any will do until it is bound
  have hpair (c : Term) : BindsSource Named ctx.scope
      (.join (left.aliasName ++ "+" ++ right.aliasName) kind left right c) s.scopes v.scopes :=
    .pair hs hid ho ⟨rfl, rfl, rfl, rfl, rfl, by simp [BoundSource.queries]⟩ hl hr hmarks hadd
  obtain ⟨tables, htables⟩ := (hpair c).bound.leafTables
  have hactive : ActiveTables v.scopes
      ((ctx.withAlias (left.aliasName ++ "+" ++ right.aliasName)).withClause .joinCondition) tables :=
    htables.active (hpair c).bound rfl rfl
  have hb := bindPredicate_sound env condition ((hpair c).within.ordered hs) hactive
    (by simp [LinksBound, Context.withAlias, Context.withClause, hlinks]) hcondition
  have hplain := hb.allowed rfl
  rw [List.flatMap_singleton] at hplain
  rw [hb.scopes_eq rfl]
  exact ⟨u, _, _, c, tables, hmarked, hadd, rfl, hpair c, htables, hb.resolved c (by simp), hplain⟩

/-- A join reads its own leaves in the condition. -/
theorem bindJoin_binds {kind : JoinKind} {condition : Expr} (hs : s.scopes.Ordered)
    (hid : ctx.scope < s.scopes.all.length) (ho : s.scopes.OnlyTables ctx.scope)
    (hlinks : ctx.groupBy = []) (hl : BindsSource Named ctx.scope left s.scopes s₁.scopes)
    (hr : BindsSource Named ctx.scope right s₁.scopes s₂.scopes)
    (hlreads : left.Reads outer) (hrreads : right.Reads outer)
    (h : bindJoin env kind left right condition ctx s₂ = .ok src s') :
    BindsSource Named ctx.scope src s.scopes s'.scopes ∧ src.Reads outer ∧
      src.depth = max left.depth right.depth ∧
      Extends ctx.scope src.aliasName s₂.scopes s'.scopes := by
  have hs₂ := (hl.within.trans hr.within).ordered hs
  obtain ⟨u, a, t, c, tables, hmarked, hadd, rfl, hb, htables, hresolved, -⟩ :=
    bindJoin_steps hs hid ho hlinks hl hr h
  have hmarks := hmarked.marks hs₂ (hl.bound.within hr.within) hr.bound (kind.padded_subset _ _)
  refine ⟨hb, ⟨hlreads, hrreads, ?_⟩, by simp [BoundSource.depth], _, _, hmarks, hadd⟩
  intro v hv
  have hreads := (hresolved v hv).readsFrom
  rw [htables.leaves] at hreads
  exact hreads

theorem bindApply_binds {kind : ApplyKind} (hs : s.scopes.Ordered)
    (hid : ctx.scope < s.scopes.all.length) (ho : s.scopes.OnlyTables ctx.scope)
    (hl : BindsSource Named ctx.scope left s.scopes s₁.scopes)
    (hr : BindsSource Named ctx.scope right s₁.scopes s₂.scopes)
    (hlreads : left.Reads outer) (hrreads : right.Reads left.leaves)
    (h : bindApply kind left right ctx s₂ = .ok src s') :
    BindsSource Named ctx.scope src s.scopes s'.scopes ∧ src.Reads outer ∧
      src.depth = max left.depth right.depth ∧
      Extends ctx.scope src.aliasName s₂.scopes s'.scopes := by
  have hs₂ := (hl.within.trans hr.within).ordered hs
  obtain ⟨u, hmarked, a, hcompose, rfl⟩ := run_bindApply_ok h
  have hmarks := hmarked.marks hs₂ (hl.bound.within hr.within) hr.bound (kind.padded_subset _ _)
  obtain ⟨rfl, hadd⟩ := compose_run hcompose
  exact ⟨.pair hs hid ho ⟨rfl, rfl, rfl, rfl, rfl, by simp [BoundSource.queries]⟩ hl hr hmarks hadd,
    ⟨hlreads, hrreads⟩, by simp [BoundSource.depth], _, _, hmarks, hadd⟩

end Pairs

end Resolve

end SchemaQuery
