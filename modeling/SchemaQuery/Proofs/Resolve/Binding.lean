-- SUMMARY: What binding an expression gives: a term over the active tables, and the updates it registers.
import SchemaQuery.Proofs.Scope.Growth
import SchemaQuery.Proofs.Term.Subterms
import SchemaQuery.Resolve.Call
import SchemaQuery.Resolve.Name

/-!
# Bound terms

A bound expression reads only columns of the active tables, and it hands rows
only of those tables to methods (`Term.ResolvedIn`). Binding it changes the
scopes in one way: each aggregate in it registers the update of its accumulator,
under the key of the active source (`Registers`). `BoundAll` puts both together
for a list of terms bound one after the other.
-/

namespace SchemaQuery

/-! ## Reads -/

/-- A node that reads the given tables only: a qualified column is one of the first table with its
    alias, and a bare column has exactly one owner. No aggregate is an argument of another. -/
def Term.ResolvedIn (tables : List TableSymbol) : Term → Prop
  | .column a n o true type =>
    ∃ t, tables.find? (·.aliasName = a) = some t ∧ t.column? n = some ⟨n, o, type⟩
  | .column a n o false type =>
    ∃ t, Resolve.owners tables n = [(t, ⟨n, o, type⟩)] ∧ t.aliasName = a
  | .call m _ _ => ∀ a, m.sourceAlias = some a → ∃ t ∈ tables, t.aliasName = a
  | .aggregate _ args _ => ∀ a ∈ args, a.aggregates = []
  | .outputField .. | .tableColumn .. | .groupField .. => False
  | _ => True

/-- A table as a part of a source: its alias and its columns. -/
def TableSymbol.leaf (t : TableSymbol) : String × List Column := (t.aliasName, t.columns)

/-- A node that reads columns of the given leaves only, or hands their rows to a method. -/
def Term.ReadsFrom (leaves : List (String × List Column)) : Term → Prop
  | .column a n _ _ _ => ∃ cs, (a, cs) ∈ leaves ∧ ∃ c ∈ cs, c.name = n
  | .call m _ _ => ∀ a, m.sourceAlias = some a → ∃ cs, (a, cs) ∈ leaves
  | .outputField .. | .tableColumn .. | .groupField .. => False
  | _ => True

/-- A table as a query sees it: its alias and its columns, nullable ones if it is padded. -/
def TableSymbol.seen (t : TableSymbol) : String × List Column := (t.aliasName, t.visibleColumns)

/-- A node that reads columns of the given leaves at their positions and types, or hands the rows of
    a leaf to a method. -/
def Term.SeesIn (leaves : List (String × List Column)) : Term → Prop
  | .column a n o _ type => ∃ cs, (a, cs) ∈ leaves ∧ ⟨n, o, type⟩ ∈ cs
  | .call m _ _ => ∀ a, m.sourceAlias = some a → ∃ cs, (a, cs) ∈ leaves
  | .outputField .. | .tableColumn .. | .groupField .. => False
  | _ => True

theorem TableSymbol.column?_mem {t : TableSymbol} {n : String} {c : Column}
    (h : t.column? n = some c) : c ∈ t.visibleColumns := by
  obtain ⟨c', hfind, rfl⟩ := Option.map_eq_some_iff.1 h
  exact List.mem_map_of_mem (List.mem_of_find?_eq_some hfind)

/-- Padding a table leaves the names of its columns as they are. -/
theorem TableSymbol.view_name (t : TableSymbol) (c : Column) : (t.view c).name = c.name := by
  unfold view
  split <;> rfl

/-- A resolved name is a column of its table as the query sees it. -/
theorem Term.ResolvedIn.seesIn {tables : List TableSymbol} {t : Term}
    (h : t.ResolvedIn tables) : t.SeesIn (tables.map (·.seen)) := by
  cases t with
  | column a n o q type =>
    cases q with
    | true =>
      obtain ⟨t, hfind, hcolumn⟩ := h
      obtain rfl : t.aliasName = a := by simpa using List.find?_some hfind
      exact ⟨t.visibleColumns, List.mem_map.2 ⟨t, List.mem_of_find?_eq_some hfind, rfl⟩,
        TableSymbol.column?_mem hcolumn⟩
    | false =>
      obtain ⟨t, howners, rfl⟩ := h
      have hmem : (t, ⟨n, o, type⟩) ∈ Resolve.owners tables n := by simp [howners]
      simp only [Resolve.owners, List.mem_filterMap, Option.map_eq_some_iff] at hmem
      obtain ⟨t', ht', c, hc, heq⟩ := hmem
      cases heq
      exact ⟨t.visibleColumns, List.mem_map.2 ⟨t, ht', rfl⟩, TableSymbol.column?_mem hc⟩
  | call m args type =>
    intro a ha
    obtain ⟨t, ht, rfl⟩ := h a ha
    exact ⟨t.visibleColumns, List.mem_map.2 ⟨t, ht, rfl⟩⟩
  | aggregate => trivial
  | _ => exact h

/-- What is seen is read: only positions and types are forgotten. -/
theorem Term.SeesIn.readsFrom {tables : List TableSymbol} {t : Term}
    (h : t.SeesIn (tables.map (·.seen))) : t.ReadsFrom (tables.map (·.leaf)) := by
  have hleaf {a : String} {cs : List Column} (hmem : (a, cs) ∈ tables.map (·.seen)) :
      ∃ t ∈ tables, t.aliasName = a ∧ t.visibleColumns = cs := by
    obtain ⟨t, ht, heq⟩ := List.mem_map.1 hmem
    cases heq
    exact ⟨t, ht, rfl, rfl⟩
  cases t with
  | column a n o q type =>
    obtain ⟨cs, hcs, hc⟩ := h
    obtain ⟨t, ht, rfl, rfl⟩ := hleaf hcs
    obtain ⟨c, hc, hview⟩ := List.mem_map.1 hc
    exact ⟨t.columns, List.mem_map.2 ⟨t, ht, rfl⟩, c, hc, by rw [← t.view_name, hview]⟩
  | call m args type =>
    intro a ha
    obtain ⟨cs, hcs⟩ := h a ha
    obtain ⟨t, ht, rfl, -⟩ := hleaf hcs
    exact ⟨t.columns, List.mem_map.2 ⟨t, ht, rfl⟩⟩
  | _ => exact h

theorem Term.ResolvedIn.readsFrom {tables : List TableSymbol} {t : Term}
    (h : t.ResolvedIn tables) : t.ReadsFrom (tables.map (·.leaf)) :=
  h.seesIn.readsFrom

/-! ## Updates -/

/-- In related lists every member is related to a member of the other one. -/
theorem exists_of_forall₂ {α β : Type} {R : α → β → Prop} {as : List α} {bs : List β}
    (h : List.Forall₂ R as bs) :
    (∀ a ∈ as, ∃ b ∈ bs, R a b) ∧ ∀ b ∈ bs, ∃ a ∈ as, R a b := by
  induction h with
  | nil => simp
  | cons hab _ ih =>
    refine ⟨fun a ha => ?_, fun b hb => ?_⟩
    · rcases List.mem_cons.1 ha with rfl | ha
      · exact ⟨_, List.mem_cons_self .., hab⟩
      · obtain ⟨b, hb, hr⟩ := ih.1 a ha
        exact ⟨b, List.mem_cons_of_mem _ hb, hr⟩
    · rcases List.mem_cons.1 hb with rfl | hb
      · exact ⟨_, List.mem_cons_self .., hab⟩
      · obtain ⟨a, ha, hr⟩ := ih.2 b hb
        exact ⟨a, List.mem_cons_of_mem _ ha, hr⟩

/-- The name of the accumulator of an aggregate: the rendered call. -/
def accumulatorName (name : String) (args : List Term) : String :=
  name ++ "(" ++ ", ".intercalate (args.map (·.render)) ++ ")"

/-- An update of the accumulator that a term reads, by the setter of its aggregate. -/
def RefreshCall.Updates (c : RefreshCall) : Term → Prop
  | .aggregate m args _ =>
    c.accumulator = m.accumulator ∧ c.schema = m.schema ∧ c.args = args ∧
      m.accumulator = accumulatorName m.name args ∧
      Text.eqIgnoreAsciiCase c.setter (setterName m.name) = true
  | _ => False

theorem RefreshCall.Updates.accumulator? {c : RefreshCall} {g : Term} (h : c.Updates g) :
    g.accumulator? = some c.accumulator := by
  cases g with
  | aggregate m args type => exact congrArg some h.1.symm
  | _ => exact absurd h id

/-- The updates registered for an alias in a scope. -/
def Scopes.refreshOf (s : Scopes) (id : Nat) (a : String) : List RefreshCall :=
  match s.findIn? (refreshKey a) id with
  | some (.refresh calls) => calls
  | _ => []

/-- Adds updates one after the other. -/
def addRefreshes (calls cs : List RefreshCall) : List RefreshCall :=
  cs.foldl (fun calls c => (addRefresh calls c).1) calls

theorem subset_addRefresh (calls : List RefreshCall) (c : RefreshCall) :
    calls ⊆ (addRefresh calls c).1 := by
  unfold addRefresh
  split
  · exact List.Subset.refl _
  · exact List.subset_append_left _ _

theorem mem_addRefresh {calls : List RefreshCall} {c d : RefreshCall}
    (h : d ∈ (addRefresh calls c).1) : d ∈ calls ∨ d = c := by
  unfold addRefresh at h
  split at h
  · exact .inl h
  · simpa using h

theorem exists_mem_addRefresh (calls : List RefreshCall) (c : RefreshCall) :
    ∃ d ∈ (addRefresh calls c).1, d.render = c.render := by
  unfold addRefresh
  split
  · rename_i h
    simpa using h
  · exact ⟨c, by simp, rfl⟩

section Refreshes

variable {calls cs : List RefreshCall}

theorem addRefreshes_append (calls cs cs' : List RefreshCall) :
    addRefreshes calls (cs ++ cs') = addRefreshes (addRefreshes calls cs) cs' :=
  List.foldl_append

theorem subset_addRefreshes (calls cs : List RefreshCall) : calls ⊆ addRefreshes calls cs := by
  induction cs generalizing calls with
  | nil => exact List.Subset.refl _
  | cons c cs ih => exact List.Subset.trans (subset_addRefresh calls c) (ih _)

theorem mem_addRefreshes {d : RefreshCall} (h : d ∈ addRefreshes calls cs) :
    d ∈ calls ∨ d ∈ cs := by
  induction cs generalizing calls with
  | nil => exact .inl h
  | cons c cs ih =>
    rcases ih h with hd | hd
    · rcases mem_addRefresh hd with hd | rfl
      · exact .inl hd
      · exact .inr (List.mem_cons_self ..)
    · exact .inr (List.mem_cons_of_mem _ hd)

/-- Every update has one that renders alike after it was added. -/
theorem exists_mem_addRefreshes {c : RefreshCall} (h : c ∈ cs) :
    ∃ d ∈ addRefreshes calls cs, d.render = c.render := by
  induction cs generalizing calls with
  | nil => cases h
  | cons c' cs ih =>
    rcases List.mem_cons.1 h with rfl | h
    · obtain ⟨d, hd, hrender⟩ := exists_mem_addRefresh calls c
      exact ⟨d, subset_addRefreshes _ cs hd, hrender⟩
    · exact ih h

/-- Updates that are present already change nothing. -/
theorem addRefreshes_of_present (h : ∀ c ∈ cs, ∃ d ∈ calls, d.render = c.render) :
    addRefreshes calls cs = calls := by
  induction cs with
  | nil => rfl
  | cons c cs ih =>
    have hhead : (addRefresh calls c).1 = calls := by
      unfold addRefresh
      rw [if_pos (by simpa using h c (by simp))]
    change addRefreshes (addRefresh calls c).1 cs = calls
    rw [hhead]
    exact ih fun c' hc' => h c' (List.mem_cons_of_mem _ hc')

end Refreshes

namespace Resolve

/-- The scopes `s'` are `s` with the updates of the aggregates `us` registered for the active
    source, in their order. -/
structure Registers (ctx : Context) (us : List Term) (s s' : Scopes) : Prop where
  within : s.Within ctx.scope s'
  length : s'.all.length = s.all.length
  unchanged : us = [] → s' = s
  other : ∀ k, (∀ a, ctx.aliasName = some a → k ≠ refreshKey a) →
    s'.findIn? k ctx.scope = s.findIn? k ctx.scope
  tables : ∀ k t, s.findIn? k ctx.scope = some (.table t) →
    s'.findIn? k ctx.scope = some (.table t)
  present : ∀ a symbol, ctx.aliasName = some a → s'.findIn? (refreshKey a) ctx.scope = some symbol →
    s.findIn? (refreshKey a) ctx.scope = some symbol ∨ ∃ c cs, symbol = .refresh (c :: cs)
  active : us ≠ [] → ∃ a, ctx.aliasName = some a
  calls : ∀ a, ctx.aliasName = some a → ∃ cs, List.Forall₂ RefreshCall.Updates cs us ∧
    s'.refreshOf ctx.scope a = addRefreshes (s.refreshOf ctx.scope a) cs

namespace Registers

variable {ctx : Context} {us us' : List Term} {s s' s'' : Scopes}

theorem refl (ctx : Context) (s : Scopes) : Registers ctx [] s s where
  within := .refl ctx.scope s
  length := rfl
  unchanged := fun _ => rfl
  other := fun _ _ => rfl
  tables := fun _ _ h => h
  present := fun _ _ _ h => .inl h
  active := fun h => absurd rfl h
  calls := fun _ _ => ⟨[], .nil, rfl⟩

theorem trans (h : Registers ctx us s s') (h' : Registers ctx us' s' s'') :
    Registers ctx (us ++ us') s s'' where
  within := h.within.trans h'.within
  length := h'.length.trans h.length
  unchanged := by
    intro hnil
    obtain ⟨hus, hus'⟩ := List.append_eq_nil_iff.1 hnil
    exact (h'.unchanged hus').trans (h.unchanged hus)
  other := fun k hk => (h'.other k hk).trans (h.other k hk)
  tables := fun k t hk => h'.tables k t (h.tables k t hk)
  present := by
    intro a symbol ha hfind
    rcases h'.present a symbol ha hfind with hold | hnew
    · exact h.present a symbol ha hold
    · exact .inr hnew
  active := by
    intro hne
    by_cases hus : us = []
    · exact h'.active fun hus' => hne (by rw [hus, hus']; rfl)
    · exact h.active hus
  calls := by
    intro a ha
    obtain ⟨cs, hcs, hcalls⟩ := h.calls a ha
    obtain ⟨cs', hcs', hcalls'⟩ := h'.calls a ha
    exact ⟨cs ++ cs', List.rel_append hcs hcs', by rw [hcalls', hcalls, addRefreshes_append]⟩

theorem old (h : Registers ctx us s s') (a : String) (ha : ctx.aliasName = some a) :
    s.refreshOf ctx.scope a ⊆ s'.refreshOf ctx.scope a := by
  obtain ⟨cs, -, hcalls⟩ := h.calls a ha
  rw [hcalls]
  exact subset_addRefreshes _ cs

theorem sound (h : Registers ctx us s s') (a : String) (ha : ctx.aliasName = some a)
    (c : RefreshCall) (hc : c ∈ s'.refreshOf ctx.scope a) :
    c ∈ s.refreshOf ctx.scope a ∨ ∃ u ∈ us, c.Updates u := by
  obtain ⟨cs, hcs, hcalls⟩ := h.calls a ha
  rcases mem_addRefreshes (hcalls ▸ hc) with hold | hnew
  · exact .inl hold
  · exact .inr ((exists_of_forall₂ hcs).1 c hnew)

theorem complete (h : Registers ctx us s s') (u : Term) (hu : u ∈ us) :
    ∃ a, ctx.aliasName = some a ∧ ∃ c ∈ s'.refreshOf ctx.scope a,
      ∃ c' : RefreshCall, c'.Updates u ∧ c.render = c'.render := by
  obtain ⟨a, ha⟩ := h.active (List.ne_nil_of_mem hu)
  obtain ⟨cs, hcs, hcalls⟩ := h.calls a ha
  obtain ⟨c', hc', hupdates⟩ := (exists_of_forall₂ hcs).2 u hu
  obtain ⟨c, hc, hrender⟩ := exists_mem_addRefreshes hc'
  exact ⟨a, ha, c, hcalls ▸ hc, c', hupdates, hrender⟩

/-- Only the scope and the active source count for what is registered. -/
theorem inContext {ctx' : Context} (h : Registers ctx us s s') (hscope : ctx'.scope = ctx.scope)
    (halias : ctx'.aliasName = ctx.aliasName) : Registers ctx' us s s' := by
  obtain ⟨scope, a, clause, keys⟩ := ctx
  obtain ⟨scope', a', clause', keys'⟩ := ctx'
  obtain rfl : scope' = scope := hscope
  obtain rfl : a' = a := halias
  exact ⟨h.within, h.length, h.unchanged, h.other, h.tables, h.present, h.active, h.calls⟩

end Registers

/-! ## Active tables -/

/-- The tables of the active source, bound in the scope of the context itself. -/
def ActiveTables (s : Scopes) (ctx : Context) (tables : List TableSymbol) : Prop :=
  match ctx.aliasName with
  | none => tables = []
  | some a => ∃ source, s.findIn? a ctx.scope = some (.table source) ∧
      source.compoundTables = tables.map (·.aliasName) ∧
      ∀ t ∈ tables, s.findIn? t.aliasName ctx.scope = some (.table t)

theorem ActiveTables.sourceTables_eq {s : Scopes} {ctx : Context} {tables : List TableSymbol}
    (hs : s.Ordered) (h : ActiveTables s ctx tables) : sourceTables s ctx = .ok tables := by
  unfold ActiveTables at h
  unfold sourceTables
  cases ha : ctx.aliasName with
  | none =>
    rw [ha] at h
    subst h
    rfl
  | some a =>
    rw [ha] at h
    obtain ⟨source, hsource, hparts, htables⟩ := h
    refine except_bind_ok.2 ⟨source, Scopes.resolve_table_of_findIn? hs hsource, ?_⟩
    rw [hparts, except_mapM_ok, List.forall₂_map_left_iff, List.forall₂_same]
    intro t ht
    exact Scopes.resolve_table_of_findIn? hs (htables t ht)

theorem ActiveTables.registers {s s' : Scopes} {ctx : Context} {tables : List TableSymbol}
    {us : List Term} (h : ActiveTables s ctx tables) (hreg : Registers ctx us s s') :
    ActiveTables s' ctx tables := by
  unfold ActiveTables at h ⊢
  cases ha : ctx.aliasName with
  | none =>
    rw [ha] at h
    exact h
  | some a =>
    rw [ha] at h
    obtain ⟨source, hsource, hparts, htables⟩ := h
    exact ⟨source, hreg.tables _ _ hsource, hparts,
      fun t ht => hreg.tables _ _ (htables t ht)⟩

/-! ## Bound terms -/

/-- The terms `ts` were bound one after the other in a context, between two states. -/
structure BoundAll (ctx : Context) (tables : List TableSymbol) (ts : List Term) (s s' : State) :
    Prop where
  resolved : ∀ t ∈ ts, ∀ u ∈ t.subterms, u.ResolvedIn tables
  state : s' = { s with scopes := s'.scopes }
  registers : Registers ctx (ts.flatMap Term.aggregates) s.scopes s'.scopes
  allowed : ctx.clause.allowsAggregates = false → ts.flatMap Term.aggregates = []

/-- The grouping keys that field links stand for are bound and free of aggregates. -/
def LinksBound (ctx : Context) (tables : List TableSymbol) : Prop :=
  ∀ k ∈ ctx.groupBy, (∀ u ∈ k.subterms, u.ResolvedIn tables) ∧ k.aggregates = []

/-- The statement that a step binds one term. -/
def BindsSoundly (bind : Context → Resolver Term) : Prop :=
  ∀ {ctx : Context} {tables : List TableSymbol} {s s' : State} {t : Term},
    s.scopes.Ordered → ActiveTables s.scopes ctx tables → LinksBound ctx tables →
    bind ctx s = .ok t s' → BoundAll ctx tables [t] s s'

namespace BoundAll

variable {ctx : Context} {tables : List TableSymbol} {ts ts' : List Term} {s s' s'' : State}

theorem nil (ctx : Context) (tables : List TableSymbol) (s : State) :
    BoundAll ctx tables [] s s where
  resolved := by simp
  state := rfl
  registers := .refl ctx s.scopes
  allowed := fun _ => rfl

theorem append (h : BoundAll ctx tables ts s s') (h' : BoundAll ctx tables ts' s' s'') :
    BoundAll ctx tables (ts ++ ts') s s'' where
  resolved := by
    intro t ht
    rcases List.mem_append.1 ht with ht | ht
    · exact h.resolved t ht
    · exact h'.resolved t ht
  state := by
    rw [h'.state, h.state]
  registers := by
    rw [List.flatMap_append]
    exact h.registers.trans h'.registers
  allowed := by
    intro hclause
    rw [List.flatMap_append, h.allowed hclause, h'.allowed hclause]
    rfl

/-- Other terms with the same aggregates in the same order. -/
theorem replace (h : BoundAll ctx tables ts s s')
    (hresolved : ∀ t ∈ ts', ∀ u ∈ t.subterms, u.ResolvedIn tables)
    (haggregates : ts'.flatMap Term.aggregates = ts.flatMap Term.aggregates) :
    BoundAll ctx tables ts' s s' where
  resolved := hresolved
  state := h.state
  registers := haggregates ▸ h.registers
  allowed := fun hclause => haggregates.trans (h.allowed hclause)

/-- A term over bound parts is bound. -/
theorem node {t : Term} (h : BoundAll ctx tables t.children s s')
    (hagg : t.isAggregate = false) (hself : t.ResolvedIn tables) :
    BoundAll ctx tables [t] s s' := by
  refine h.replace ?_ ?_
  · intro u hu
    obtain rfl := List.mem_singleton.1 hu
    exact Term.forall_subterms.2 ⟨hself, h.resolved⟩
  · simp [Term.aggregates_of_children hagg]

/-- A term without parts is bound without any change. -/
theorem leaf {t : Term} (s : State) (hchildren : t.children = []) (hagg : t.isAggregate = false)
    (hself : t.ResolvedIn tables) : BoundAll ctx tables [t] s s :=
  node (hchildren ▸ nil ctx tables s) hagg hself

theorem ordered (h : BoundAll ctx tables ts s s') (hs : s.scopes.Ordered) : s'.scopes.Ordered :=
  h.registers.within.ordered hs

theorem active (h : BoundAll ctx tables ts s s') (ha : ActiveTables s.scopes ctx tables) :
    ActiveTables s'.scopes ctx tables :=
  ha.registers h.registers

end BoundAll

/-- Steps that bind one term each, run from left to right. -/
theorem boundAll_of_mapM {ctx : Context} {tables : List TableSymbol}
    {binds : List (Context → Resolver Term)} {s s' : State} {ts : List Term}
    (hbinds : ∀ b ∈ binds, BindsSoundly b) (hs : s.scopes.Ordered)
    (hactive : ActiveTables s.scopes ctx tables) (hlinks : LinksBound ctx tables)
    (h : (binds.mapM (fun b => b ctx) : Resolver (List Term)) s = .ok ts s') :
    BoundAll ctx tables ts s s' := by
  induction binds generalizing s ts with
  | nil =>
    obtain ⟨rfl, rfl⟩ := run_mapM_nil_ok.1 h
    exact .nil ctx tables s
  | cons b binds ih =>
    obtain ⟨t, u, ts', hb, hrest, rfl⟩ := run_mapM_cons_ok.1 h
    have hhead := hbinds b (by simp) hs hactive hlinks hb
    have htail := ih (fun b hb => hbinds b (List.mem_cons_of_mem _ hb)) (hhead.ordered hs)
      (hhead.active hactive) hrest
    exact hhead.append htail

end Resolve

end SchemaQuery
