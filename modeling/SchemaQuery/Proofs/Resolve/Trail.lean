-- SUMMARY: The tables that resolution binds and the common table expressions it reads, in order: each read was bound before.
import SchemaQuery.Proofs.Resolve.Query
import SchemaQuery.Proofs.Scope.Tables

/-!
# Trails of resolution

A source that reads a common table expression found its key bound in a scope. The
`trail` of a query lists the keys that are bound and read while it is resolved, in
the order in which that happens, and this is also the order of planning. In the
trail of a resolved query every key that is read was bound before
(`analyze_traced`): as an expression, or as the alias of a source.
-/

namespace SchemaQuery

/-! ## Trails -/

/-- What resolution does with the key of a table. -/
inductive TableEvent where
  | binds (key : String)
  | reads (key : String)

/-- The keys that are bound. -/
def boundKeys (es : List TableEvent) : List String :=
  es.filterMap fun
    | .binds key => some key
    | .reads _ => none

/-- Every key that is read is known, or bound before. -/
def Traced (known : String → Prop) : List TableEvent → Prop
  | [] => True
  | .binds key :: es => Traced (fun k => known k ∨ k = key) es
  | .reads key :: es => known key ∧ Traced known es

@[simp] theorem boundKeys_nil : boundKeys [] = [] := rfl

@[simp] theorem boundKeys_binds (key : String) (es : List TableEvent) :
    boundKeys (.binds key :: es) = key :: boundKeys es := rfl

@[simp] theorem boundKeys_reads (key : String) (es : List TableEvent) :
    boundKeys (.reads key :: es) = boundKeys es := rfl

@[simp] theorem boundKeys_append (es es' : List TableEvent) :
    boundKeys (es ++ es') = boundKeys es ++ boundKeys es' :=
  List.filterMap_append

theorem Traced.mono {known known' : String → Prop} {es : List TableEvent} (h : Traced known es)
    (hle : ∀ k, known k → known' k) : Traced known' es := by
  induction es generalizing known known' with
  | nil => trivial
  | cons e es ih =>
    cases e with
    | binds key => exact ih h fun k hk => hk.imp_left (hle k)
    | reads key => exact ⟨hle key h.1, ih h.2 hle⟩

theorem traced_append {known : String → Prop} {es es' : List TableEvent} :
    Traced known (es ++ es') ↔
      Traced known es ∧ Traced (fun k => known k ∨ k ∈ boundKeys es) es' := by
  induction es generalizing known with
  | nil => simp [Traced]
  | cons e es ih =>
    cases e with
    | binds key => simp only [List.cons_append, Traced, ih, boundKeys_binds, List.mem_cons, or_assoc]
    | reads key => simp only [List.cons_append, Traced, ih, boundKeys_reads, and_assoc]

mutual

/-- The trail of a query: its expressions in order, each bound after its own query, and then its
    body. -/
def BoundQuery.trail : BoundQuery → List TableEvent
  | ⟨_, ctes, body, _, _, _, _⟩ => BoundQuery.trailOfCtes ctes ++ body.trail

def BoundQuery.trailOfCtes : List BoundCte → List TableEvent
  | [] => []
  | ⟨name, query⟩ :: rest => query.trail ++ .binds (cteKey name) :: BoundQuery.trailOfCtes rest

def BoundBody.trail : BoundBody → List TableEvent
  | .select ⟨_, source, _, _, _, _, _⟩ => source.trail
  | .setOperation _ _ left right => left.trail ++ right.trail

/-- The trail of a source: its parts in order, each bound under its alias. -/
def BoundSource.trail : BoundSource → List TableEvent
  | .schema a _ _ _ _ _ => [.binds a]
  | .inMemory a table .cte _ => [.reads (cteKey table), .binds a]
  | .inMemory a _ .host _ => [.binds a]
  | .subquery a query _ => query.trail ++ [.binds a]
  | .join a _ left right _ | .apply a _ left right => left.trail ++ (right.trail ++ [.binds a])

end

theorem BoundBody.trail_select (s : BoundSelect) : (select s).trail = s.source.trail := by
  cases s
  simp [trail]

namespace BoundQuery

theorem trail_eq (q : BoundQuery) : q.trail = trailOfCtes q.ctes ++ q.body.trail := by
  cases q
  simp [trail]

theorem trail_renameOutput (names : List String) : ∀ q : BoundQuery,
    (q.renameOutput names).trail = q.trail
  | ⟨scope, ctes, .select s, orderBy, skip, take, output⟩ => by
    rw [renameOutput, BoundBody.renameOutput, trail_eq, trail_eq, BoundBody.trail_select,
      BoundBody.trail_select]
  | ⟨scope, ctes, .setOperation operator keys left right, orderBy, skip, take, output⟩ => by
    rw [renameOutput, BoundBody.renameOutput, trail_eq, trail_eq, BoundBody.trail, BoundBody.trail,
      trail_renameOutput names left, trail_renameOutput names right]

end BoundQuery

/-! ## Bound keys -/

/-- Some scope binds a table under the key. -/
def Scopes.Knows (s : Scopes) (k : String) : Prop := ∃ i t, s.findIn? k i = some (.table t)

theorem Scopes.knows_of_tryResolve {s : Scopes} {k : String} {id : Nat} {t : TableSymbol}
    (h : s.tryResolve .table k id = .ok (some t)) : s.Knows k := by
  obtain ⟨i, hi⟩ := exists_findIn?_of_tryResolve h
  exact ⟨i, t, hi⟩

namespace Resolve

/-- Between `s` and `s'` the keys of a trail were read and bound. -/
structure Traces (es : List TableEvent) (s s' : Scopes) : Prop where
  traced : Traced s.Knows es
  grown : ∀ k, s'.Knows k → s.Knows k ∨ k ∈ boundKeys es

namespace Traces

variable {es es' : List TableEvent} {s s' s'' : Scopes}

theorem of_same (h : ∀ k i, s'.findIn? k i = s.findIn? k i) : Traces [] s s' :=
  ⟨trivial, fun k ⟨i, t, hk⟩ => .inl ⟨i, t, by rw [← h, hk]⟩⟩

theorem append (h : Traces es s s') (h' : Traces es' s' s'') : Traces (es ++ es') s s'' where
  traced := traced_append.2 ⟨h.traced, h'.traced.mono h.grown⟩
  grown := by
    intro k hk
    rw [boundKeys_append, List.mem_append]
    rcases h'.grown k hk with hk | hk
    · exact (h.grown k hk).imp_right .inl
    · exact .inr (.inr hk)

theorem before (h : Traces es s' s'') (hpre : Traces [] s s') : Traces es s s'' := hpre.append h

theorem after (h : Traces es s s') (hpost : Traces [] s' s'') : Traces es s s'' := by
  simpa using h.append hpost

/-- Work in one scope that opens no other. -/
theorem of_within {id : Nat} (hw : s.Within id s') (hlength : s'.all.length = s.all.length)
    (htraced : Traced s.Knows es)
    (hid : ∀ k t, s'.findIn? k id = some (.table t) → s.Knows k ∨ k ∈ boundKeys es) :
    Traces es s s' := by
  refine ⟨htraced, fun k ⟨i, t, hk⟩ => ?_⟩
  by_cases hi : i = id
  · exact hid k t (hi ▸ hk)
  · have hlt : i < s.all.length := hlength ▸ Scopes.lt_length_of_findIn? hk
    exact .inl ⟨i, t, by rw [← hw.frame i hlt hi, hk]⟩

theorem of_marks {id : Nat} (ho : s.OnlyTables id) (h : Marks id s s') : Traces [] s s' := by
  refine .of_within h.within h.length trivial fun k t hk => ?_
  cases hold : s.findIn? k id with
  | none =>
    rw [h.keys k hold] at hk
    cases hk
  | some symbol =>
    obtain ⟨t', rfl⟩ := ho k symbol hold
    exact .inl ⟨id, t', hold⟩

theorem of_add {id : Nat} {a : String} {t : TableSymbol} (hs : s.Ordered) (hid : id < s.all.length)
    (h : s.add id a (.table t) = .ok s') : Traces [.binds a] s s' := by
  refine .of_within (Scopes.add_within hs hid h) (Scopes.add_length hs hid h) trivial
    fun k t' hk => ?_
  rw [Scopes.add_findIn? hs hid h] at hk
  split at hk
  · rename_i hkey
    exact .inr (by simp [hkey])
  · exact .inl ⟨id, t', hk⟩

theorem of_extends {id : Nat} {a : String} (hs : s.Ordered) (hid : id < s.all.length)
    (ho : s.OnlyTables id) (h : Extends id a s s') : Traces [.binds a] s s' := by
  obtain ⟨u, t, hmarks, hadd⟩ := h
  have hid' : id < u.all.length := hmarks.length ▸ hid
  exact (of_add (hmarks.within.ordered hs) hid' hadd).before (of_marks ho hmarks)

theorem of_registers {ctx : Context} {us : List Term} (h : Registers ctx us s s') :
    Traces [] s s' := by
  refine .of_within h.within h.length trivial fun k t hk => .inl ?_
  by_cases hkey : ∃ a, ctx.aliasName = some a ∧ k = refreshKey a
  · obtain ⟨a, ha, rfl⟩ := hkey
    rcases h.present a _ ha hk with hold | ⟨c, cs, hnew⟩
    · exact ⟨ctx.scope, t, hold⟩
    · cases hnew
  · refine ⟨ctx.scope, t, ?_⟩
    rw [← h.other k fun a ha hk => hkey ⟨a, ha, hk⟩, hk]

/-- Entering and leaving a scope binds nothing. -/
theorem nested {kind : ScopeKind} {name : String} {s s₁ s₂ s' : State} {x y : Unit}
    (h : Traces es s₁.scopes s₂.scopes) (henter : enterScope kind name s = .ok x s₁)
    (hexit : leaveScope s₂ = .ok y s') : Traces es s.scopes s'.scopes := by
  obtain rfl := run_enterScope_ok.1 henter
  obtain ⟨scopes, hleave, rfl⟩ := run_leaveScope_ok.1 hexit
  have hall : scopes.all = s₂.scopes.all := Scopes.leave_all hleave
  refine (h.before (of_same fun k i => ?_)).after (of_same fun k i => ?_)
  · exact Scopes.enter_findIn? kind name k i
  · simp only [Scopes.findIn?, hall]

end Traces

/-! ## The induction -/

section Cases

variable (env : Env)

-- The statements of the induction, one for each kind of node.

def TracesQuery (q : Query) : Prop :=
  ∀ {id : Nat} {s s' : State} {b : BoundQuery}, Working id s.scopes →
    s.scopes.all.length = id + 1 → (∀ k, s.scopes.findIn? k id = none) →
    bindQuery env q s = .ok b s' → Traces b.trail s.scopes s'.scopes

def TracesCtes (ctes : List Cte) : Prop :=
  ∀ {id : Nat} {s s' : State} {bs : List BoundCte}, Working id s.scopes →
    bindCtes env id ctes s = .ok bs s' →
    Traces (BoundQuery.trailOfCtes bs) s.scopes s'.scopes

def TracesBody (body : QueryBody) : Prop :=
  ∀ {id : Nat} {s s' : State} {orderBy : List OrderItem} {b : BoundBody} {order : List SortKey}
    {output : List Column}, Working id s.scopes → OnlyCtes s.scopes id →
    bindBody env id orderBy body s = .ok (b, order, output) s' → Traces b.trail s.scopes s'.scopes

def TracesSource (src : Source) : Prop :=
  ∀ {ctx : Context} {outer : List (String × List Column)} {s s' : State} {usage : ColumnUsage}
    {b : BoundSource}, Working ctx.scope s.scopes → s.scopes.OnlyTables ctx.scope →
    Around s.scopes ctx outer → ctx.groupBy = [] → bindSource env usage src ctx s = .ok b s' →
    Traces b.trail s.scopes s'.scopes

end Cases

variable {env : Env}

theorem tracesQuery_nested {q : Query} {id : Nat} {kind : ScopeKind} {name : String}
    {s s₁ s₂ s' : State} {b : BoundQuery} {x y : Unit} (hq : TracesQuery env q)
    (hwork : Working id s.scopes) (henter : enterScope kind name s = .ok x s₁)
    (hbind : bindQuery env q s₁ = .ok b s₂) (hexit : leaveScope s₂ = .ok y s') :
    Traces b.trail s.scopes s'.scopes := by
  refine Traces.nested ?_ henter hexit
  obtain rfl := run_enterScope_ok.1 henter
  exact hq (hwork.enter kind name) (Scopes.enter_length kind name) (findIn?_enter_self kind name)
    hbind

theorem tracesCtes_nil : TracesCtes env [] := by
  intro id s s' bs _ h
  simp only [bindCtes, run_pure_ok] at h
  obtain ⟨rfl, rfl⟩ := h
  rw [BoundQuery.trailOfCtes]
  exact .of_same fun _ _ => rfl

theorem trail_renameCte {name : String} {columns : List String} {q q' : BoundQuery}
    (h : renameCte name columns q = .ok q') : q'.trail = q.trail := by
  unfold renameCte at h
  split at h
  · cases h
    rfl
  · split at h
    · cases h
    · cases h
      exact q.trail_renameOutput columns

theorem tracesCtes_cons {name : String} {columns : List String} {q : Query} {rest : List Cte}
    (hq : TracesQuery env q) (hrest : TracesCtes env rest) :
    TracesCtes env (⟨name, columns, q⟩ :: rest) := by
  intro id s s' bs hwork h
  simp only [bindCtes, run_bind_ok, run_ofExcept_ok, run_pure_ok] at h
  obtain ⟨_, s₁, henter, b, s₂, hbind, _, s₃, hleave, b', _, ⟨hrename, rfl⟩, _, s₄, hadd, bs', s₅,
    hctes, rfl, rfl⟩ := h
  obtain ⟨hw₃, -⟩ := nested_query (binds_query q) hwork (fun _ _ => trivial) henter hbind hleave
  have hwork₃ := hwork.within hw₃
  obtain ⟨scopes, hadded, rfl⟩ := run_onScopes_ok.1 hadd
  have hw₄ := Scopes.add_within hwork₃.ordered hwork₃.lt hadded
  rw [BoundQuery.trailOfCtes, trail_renameCte hrename]
  have hname := Traces.of_add hwork₃.ordered hwork₃.lt hadded
  exact (tracesQuery_nested hq hwork henter hbind hleave).append
    (hname.append (hrest (hwork₃.within hw₄) hctes))

theorem tracesBody_nullSource {distinct : Bool} {projection : List SelectItem}
    {filter : Option Expr} {groupBy : List Expr} {having : Option Expr} :
    TracesBody env (.select ⟨distinct, projection, none, filter, groupBy, having⟩) := by
  intro id s s' orderBy b order output _ _ h
  simp [bindBody] at h

theorem tracesBody_select {distinct : Bool} {projection : List SelectItem} {source : Source}
    {filter : Option Expr} {groupBy : List Expr} {having : Option Expr}
    (hsource : TracesSource env source) :
    TracesBody env (.select ⟨distinct, projection, some source, filter, groupBy, having⟩) := by
  intro id s s' orderBy b order output hwork hctes h
  simp only [bindBody, run_bind_ok, run_pure_ok, Prod.mk.injEq] at h
  obtain ⟨src, s₁, hsrc, ⟨sel, order'⟩, s₂, hblock, ⟨rfl, rfl, -⟩, rfl⟩ := h
  have ho := onlyTables_of_onlyCtes hctes
  obtain ⟨hb, hreads, -⟩ := @binds_source env source (.ofScope id) [] s s₁ _ src hwork ho rfl rfl
    (fun _ _ => trivial) hsrc
  obtain ⟨-, hsame, ⟨us, hregisters⟩, -⟩ :=
    bindBlock_bound (hb.within.ordered hwork.ordered) (hb.onlyTables ho) hb hreads hblock
  rw [BoundBody.trail_select, hsame]
  exact (@hsource (.ofScope id) [] s s₁ _ src hwork ho rfl rfl hsrc).after (.of_registers hregisters)

theorem tracesBody_setOperation {operator : SetOperator} {keys : List String} {left right : Query}
    (hl : TracesQuery env left) (hr : TracesQuery env right) :
    TracesBody env (.setOperation operator left right keys) := by
  intro id s s' orderBy b order output hwork hctes h
  simp only [bindBody] at h
  cases hkeys : keys.isEmpty with
  | true => simp [hkeys, run_bind_ok] at h
  | false =>
    simp only [hkeys, Bool.false_eq_true, if_false, run_bind_ok, run_pure_ok, Prod.mk.injEq,
      run_ofExcept_ok] at h
    obtain ⟨_, s₁, henter, _, s₂, henterl, bl, s₃, hleft, _, s₄, hleavel, _, s₅, henterr, br, s₆,
      hright, _, s₇, hleaver, _, s₈, hleave, _, s₉, hcheck, order', _, ⟨-, rfl⟩, ⟨rfl, rfl, -⟩,
      rfl⟩ := h
    obtain ⟨rfl, -⟩ := checkOperands_run hcheck
    rw [BoundBody.trail]
    refine Traces.nested ?_ henter hleave
    obtain rfl := run_enterScope_ok.1 henter
    have hwork₁ := hwork.enter .setOperator operator.render
    obtain ⟨hwl, -⟩ :=
      nested_query (binds_query left) hwork₁ (fun _ _ => trivial) henterl hleft hleavel
    exact (tracesQuery_nested hl hwork₁ henterl hleft hleavel).append
      (tracesQuery_nested hr (hwork₁.within hwl) henterr hright hleaver)

theorem tracesSource_schema (schema method : String) (args : List Expr) (a : Option String) :
    TracesSource env (.schema schema method args a) := by
  intro ctx outer s s' usage b hwork ho haround hlinks h
  simp only [bindSource] at h
  obtain ⟨-, -, -, hextends⟩ : BindsSource (fun _ => True) _ b _ _ ∧ _ := bindSchemaSource_binds
    hwork.ordered hwork.lt haround hlinks (fun _ _ => trivial) (fun _ => trivial) h
  obtain ⟨_, _, _, _, _, _, rfl⟩ := bindSchemaSource_shape h
  rw [BoundSource.trail]
  exact .of_extends hwork.ordered hwork.lt ho hextends

/-- A table in memory that is an expression was found under its key. -/
theorem knows_of_memoryTable {s : Scopes} {name : String} {id : Nat} {origin : TableOrigin}
    {columns : List Column} (h : memoryTable env s name id = .ok (.cte, origin, columns)) :
    s.Knows (cteKey name) := by
  obtain ⟨t, hfound, -⟩ | ⟨-, horigin, -⟩ := memoryTable_cases h
  · exact Scopes.knows_of_tryResolve hfound
  · cases horigin

theorem tracesSource_inMemory (name : String) (a : Option String) :
    TracesSource env (.inMemory name a) := by
  intro ctx outer s s' usage b hwork ho _ _ h
  simp only [bindSource] at h
  obtain ⟨-, -, -, hextends⟩ : BindsSource (fun _ => True) _ b _ _ ∧ _ :=
    bindMemorySource_binds hwork.ordered hwork.lt trivial h
  simp only [bindMemorySource, run_bind_ok, run_readScopes_ok, run_pure_ok] at h
  obtain ⟨⟨origin, tableOrigin, columns⟩, _, ⟨hmemory, rfl⟩, _, _, -, rfl, rfl⟩ := h
  have hbinds := Traces.of_extends hwork.ordered hwork.lt ho hextends
  cases origin with
  | host => rwa [BoundSource.trail]
  | cte =>
    rw [BoundSource.trail]
    exact ⟨⟨knows_of_memoryTable hmemory, hbinds.traced⟩, hbinds.grown⟩

theorem tracesSource_subquery {q : Query} (a : Option String) (hq : TracesQuery env q) :
    TracesSource env (.subquery q a) := by
  intro ctx outer s s' usage b hwork ho _ _ h
  simp only [bindSource, run_bind_ok] at h
  obtain ⟨_, s₁, henter, bq, s₂, hbind, _, s₃, hleave, h⟩ := h
  obtain ⟨hw, hsame, hnested, -⟩ :=
    nested_query (binds_query q) hwork (fun _ _ => trivial) henter hbind hleave
  obtain ⟨-, -, -, hextends⟩ : BindsSource (fun _ => True) _ b _ _ ∧ _ := bindSubquerySource_binds
    hwork.ordered hwork.lt hw hsame hnested (fun _ _ => trivial) (fun _ => trivial) h
  simp only [bindSubquerySource, run_bind_ok, run_pure_ok] at h
  obtain ⟨r, _, -, _, _, -, rfl, rfl⟩ := h
  have hwork₃ := hwork.within hw
  have ho₃ : s₃.scopes.OnlyTables ctx.scope := fun k symbol hk => ho k symbol (hsame k ▸ hk)
  rw [BoundSource.trail]
  exact (tracesQuery_nested hq hwork henter hbind hleave).append
    (.of_extends hwork₃.ordered hwork₃.lt ho₃ hextends)

theorem tracesSource_join {kind : JoinKind} {left right : Source} {condition : Expr}
    (hl : TracesSource env left) (hr : TracesSource env right) :
    TracesSource env (.join kind left right condition) := by
  intro ctx outer s s' usage b hwork ho haround hlinks h
  simp only [bindSource, run_bind_ok] at h
  obtain ⟨bl, s₁, hleft, br, s₂, hright, h⟩ := h
  obtain ⟨hbl, hreadsl, -⟩ := binds_source left hwork ho haround hlinks (fun _ _ => trivial) hleft
  have hwork₁ := hwork.within hbl.within
  have ho₁ := hbl.onlyTables ho
  have haround₁ := haround.within hbl.within
  obtain ⟨hbr, hreadsr, -⟩ :=
    binds_source right hwork₁ ho₁ haround₁ hlinks (fun _ _ => trivial) hright
  obtain ⟨-, -, -, hextends⟩ :=
    bindJoin_binds hwork.ordered hwork.lt ho hlinks hbl hbr hreadsl hreadsr h
  obtain ⟨-, -, a, -, c, -, -, rfl⟩ := run_bindJoin_ok h
  have hwork₂ := hwork₁.within hbr.within
  rw [BoundSource.trail]
  exact (hl hwork ho haround hlinks hleft).append ((hr hwork₁ ho₁ haround₁ hlinks hright).append
    (.of_extends hwork₂.ordered hwork₂.lt (hbr.onlyTables ho₁) hextends))

theorem tracesSource_apply {kind : ApplyKind} {left right : Source}
    (hl : TracesSource env left) (hr : TracesSource env right) :
    TracesSource env (.apply kind left right) := by
  intro ctx outer s s' usage b hwork ho haround hlinks h
  simp only [bindSource, run_bind_ok] at h
  obtain ⟨bl, s₁, hleft, br, s₂, hright, h⟩ := h
  obtain ⟨hbl, hreadsl, -⟩ := binds_source left hwork ho haround hlinks (fun _ _ => trivial) hleft
  have hwork₁ := hwork.within hbl.within
  have ho₁ := hbl.onlyTables ho
  have haround₁ : Around s₁.scopes (ctx.withAlias bl.aliasName) bl.leaves :=
    ⟨bl, rfl, rfl, hbl.bound⟩
  obtain ⟨hbr, hreadsr, -⟩ := @binds_source env right (ctx.withAlias bl.aliasName) bl.leaves s₁ s₂
    usage br hwork₁ ho₁ haround₁ hlinks (fun _ _ => trivial) hright
  have htraced := @hr (ctx.withAlias bl.aliasName) bl.leaves s₁ s₂ usage br hwork₁ ho₁ haround₁
    hlinks hright
  obtain ⟨-, -, -, hextends⟩ :=
    bindApply_binds hwork.ordered hwork.lt ho hbl hbr hreadsl hreadsr h
  obtain ⟨-, -, a, -, rfl⟩ := run_bindApply_ok h
  have hwork₂ := hwork₁.within hbr.within
  rw [BoundSource.trail]
  exact (hl hwork ho haround hlinks hleft).append (htraced.append
    (.of_extends hwork₂.ordered hwork₂.lt (hbr.onlyTables ho₁) hextends))

theorem tracesQuery_mk {body : QueryBody} {orderBy : List OrderItem} {skip take : Option Nat}
    {ctes : List Cte} (hctes : TracesCtes env ctes) (hbody : TracesBody env body) :
    TracesQuery env ⟨body, orderBy, skip, take, ctes⟩ := by
  intro id s s' b hwork hlast hempty h
  simp only [bindQuery, run_bind_ok, run_readScopes_ok, run_pure_ok] at h
  obtain ⟨scope, _, ⟨hcurrent, rfl⟩, bctes, s₁, hbctes, ⟨bbody, order, output⟩, s₂, hbbody, rfl,
    rfl⟩ := h
  obtain rfl := hwork.requireCurrent hcurrent
  obtain ⟨hc, -⟩ := bindCtes_binds (fun _ => trivial) ctes hwork (fun _ _ => trivial) hbctes
  rw [BoundQuery.trail_eq]
  exact (hctes hwork hbctes).append
    (hbody (hwork.within hc.within) (hc.onlyCtes hempty) hbbody)

mutual

theorem bindQuery_traces : ∀ q : Query, TracesQuery env q
  | ⟨body, _, _, _, ctes⟩ => tracesQuery_mk (bindCtes_traces ctes) (bindBody_traces body)

theorem bindCtes_traces : ∀ ctes : List Cte, TracesCtes env ctes
  | [] => tracesCtes_nil
  | ⟨_, _, query⟩ :: rest => tracesCtes_cons (bindQuery_traces query) (bindCtes_traces rest)

theorem bindBody_traces : ∀ body : QueryBody, TracesBody env body
  | .select ⟨_, _, none, _, _, _⟩ => tracesBody_nullSource
  | .select ⟨_, _, some source, _, _, _⟩ => tracesBody_select (bindSource_traces source)
  | .setOperation _ left right _ =>
    tracesBody_setOperation (bindQuery_traces left) (bindQuery_traces right)

theorem bindSource_traces : ∀ source : Source, TracesSource env source
  | .schema schema method args a => tracesSource_schema schema method args a
  | .inMemory name a => tracesSource_inMemory name a
  | .subquery query a => tracesSource_subquery a (bindQuery_traces query)
  | .join _ left right _ => tracesSource_join (bindSource_traces left) (bindSource_traces right)
  | .apply _ left right => tracesSource_apply (bindSource_traces left) (bindSource_traces right)

end

/-- In the trail of a resolved query every key that is read was bound before. -/
theorem analyze_traced {q : Query} {a : Analysis} {requests : List TableRequest}
    (h : analyze env q = (.ok a, requests)) : Traced (fun _ => False) a.query.trail := by
  obtain ⟨s, hbind, -⟩ := run_analyze_ok h
  refine (bindQuery_traces q working_first rfl (findIn?_enter_self _ _) hbind).traced.mono ?_
  rintro k ⟨i, t, hk⟩
  rw [Scopes.enter_findIn?] at hk
  cases hk

end Resolve

end SchemaQuery
