-- SUMMARY: Every block of a resolved query comes from one run that binds its source and then its clauses, below the queries around it.
import SchemaQuery.Proofs.Resolve.Query

/-!
# Runs of blocks

The scope of a block is worked on in one stretch: first the common table
expressions of its query, then its source, then its clauses. What is nested in
the query is bound in scopes of its own below that of the query, so no later step
changes the scope of a block (`BlockRun`). A statement about all blocks of a
resolved query is one about `bindSource` and `bindBlock`, by `analyze_runs`.
-/

namespace SchemaQuery.Resolve

/-! ## Runs -/

/-- The block was bound in a scope that held common table expressions only, and the scope is as the
    last clause of the block left it. -/
inductive BlockRun (env : Env) (s : Scopes) : Block → Prop where
  | mk {id : Nat} {usage : ColumnUsage} {source : Source} {src : BoundSource} {sel : Select}
      {orderBy : List OrderItem} {b : BoundSelect} {order : List SortKey} {s₀ s₁ s₂ : State}
      (working : Working id s₀.scopes) (ctes : OnlyCtes s₀.scopes id)
      (bindsSource : bindSource env usage source (.ofScope id) s₀ = .ok src s₁)
      (bindsBlock : bindBlock env id sel src orderBy s₁ = .ok (b, order) s₂)
      (kept : ∀ k, s.findIn? k id = s₂.scopes.findIn? k id) : BlockRun env s (b.block order)

/-- Every block of the queries has a run, and what is nested in a query has scopes below that of
    the query. -/
structure Runs (env : Env) (s : Scopes) (qs : List BoundQuery) : Prop where
  blocks : ∀ b ∈ BoundQuery.blocksOf qs, BlockRun env s b
  below : ∀ q ∈ qs, ∀ q' ∈ q.nested, s.Below q'.scope q.scope

variable {env : Env} {s s' : Scopes} {qs qs' : List BoundQuery}

/-- A run is known by what the scope of its block holds. -/
theorem BlockRun.frame {b : Block} (h : BlockRun env s b)
    (hf : ∀ k, s'.findIn? k b.scope = s.findIn? k b.scope) : BlockRun env s' b := by
  cases h with
  | mk hwork hctes hsource hblock hkept =>
    obtain ⟨_, _, _, _, _, -, -, -, -, -, -, hscope, -⟩ := run_bindBlock_ok hblock
    refine .mk hwork hctes hsource hblock fun k => ?_
    rw [← hkept, ← hscope]
    exact hf k

namespace Runs

theorem nil (env : Env) (s : Scopes) : Runs env s [] := ⟨by simp, by simp⟩

theorem append (h : Runs env s qs) (h' : Runs env s qs') : Runs env s (qs ++ qs') where
  blocks := by
    rw [BoundQuery.blocksOf_append]
    exact List.forall_mem_append.2 ⟨h.blocks, h'.blocks⟩
  below := List.forall_mem_append.2 ⟨h.below, h'.below⟩

/-- Work in an older scope leaves the runs of newer ones as they are. -/
theorem within {Named : String → Prop} {id lo hi : Nat} (h : Runs env s qs)
    (hsealed : Sealed Named s lo hi qs) (hw : s.Within id s') (hid : id < lo)
    (hhi : hi ≤ s.all.length) : Runs env s' qs where
  blocks := by
    intro b hb
    obtain ⟨hlo, hlt, -⟩ := hsealed.blocks b hb
    exact (h.blocks b hb).frame (hw.frame b.scope (by omega) (by omega))
  below := fun q hq q' hq' => (h.below q hq q' hq').mono hw.parent

theorem of_all_eq (h : Runs env s qs) (hall : s'.all = s.all) : Runs env s' qs where
  blocks := by
    intro b hb
    refine (h.blocks b hb).frame fun k => ?_
    simp only [Scopes.findIn?, hall]
  below := fun q hq q' hq' => (h.below q hq q' hq').of_all_eq hall

/-- The declared columns of an expression change no block and no scope. -/
theorem renameCte {Named : String → Prop} {lo hi : Nat} {name : String} {columns : List String}
    {q q' : BoundQuery} (h : Runs env s q.queries) (hsealed : Sealed Named s lo hi q.queries)
    (hrename : renameCte name columns q = .ok q') : Runs env s q'.queries where
  blocks := blocksOf_renameCte hsealed hrename ▸ h.blocks
  below := by
    unfold Resolve.renameCte at hrename
    split at hrename
    · cases hrename
      exact h.below
    · split at hrename
      · cases hrename
      · cases hrename
        intro r hr r' hr'
        obtain ⟨p, hp, hscope, hnested⟩ := q.nested_renameOutput columns r hr
        have hmem : r'.scope ∈ p.nested.map (·.scope) := hnested ▸ List.mem_map_of_mem hr'
        obtain ⟨p', hp', hscope'⟩ := List.mem_map.1 hmem
        exact hscope' ▸ hscope ▸ h.below p hp p' hp'

end Runs

theorem Extends.within {id : Nat} {a : String} (h : Extends id a s s') (hs : s.Ordered)
    (hid : id < s.all.length) : s.Within id s' := by
  obtain ⟨u, t, hmarks, hadd⟩ := h
  exact hmarks.within.trans
    (Scopes.add_within (hmarks.within.ordered hs) (hmarks.length ▸ hid) hadd)

/-! ## The induction -/

section Cases

variable (env : Env)

-- The statements of the induction, one for each kind of node.

def RunsQuery (q : Query) : Prop :=
  ∀ {id : Nat} {s s' : State} {b : BoundQuery}, Working id s.scopes →
    s.scopes.all.length = id + 1 → (∀ k, s.scopes.findIn? k id = none) →
    bindQuery env q s = .ok b s' → Runs env s'.scopes b.queries

def RunsCtes (ctes : List Cte) : Prop :=
  ∀ {id : Nat} {s s' : State} {bs : List BoundCte}, Working id s.scopes →
    bindCtes env id ctes s = .ok bs s' → Runs env s'.scopes (BoundQuery.queriesOfCtes bs)

def RunsBody (body : QueryBody) : Prop :=
  ∀ {id : Nat} {s s' : State} {orderBy : List OrderItem} {b : BoundBody} {order : List SortKey}
    {output : List Column}, Working id s.scopes → OnlyCtes s.scopes id →
    bindBody env id orderBy body s = .ok (b, order, output) s' →
    (∀ block ∈ b.block? order, BlockRun env s'.scopes block) ∧ Runs env s'.scopes b.queries

def RunsSource (src : Source) : Prop :=
  ∀ {ctx : Context} {outer : List (String × List Column)} {s s' : State} {usage : ColumnUsage}
    {b : BoundSource}, Working ctx.scope s.scopes → s.scopes.OnlyTables ctx.scope →
    Around s.scopes ctx outer → ctx.groupBy = [] → bindSource env usage src ctx s = .ok b s' →
    Runs env s'.scopes b.queries

end Cases

theorem runsQuery_nested {q : Query} {id : Nat} {kind : ScopeKind} {name : String}
    {s s₁ s₂ s' : State} {b : BoundQuery} {x y : Unit} (hq : RunsQuery env q)
    (hwork : Working id s.scopes) (henter : enterScope kind name s = .ok x s₁)
    (hbind : bindQuery env q s₁ = .ok b s₂) (hexit : leaveScope s₂ = .ok y s') :
    Runs env s'.scopes b.queries := by
  obtain rfl := run_enterScope_ok.1 henter
  obtain ⟨scopes, hleave, rfl⟩ := run_leaveScope_ok.1 hexit
  obtain ⟨hb, -⟩ := binds_query q (hwork.enter kind name) (Scopes.enter_length kind name)
    (findIn?_enter_self kind name) (fun _ _ => trivial) hbind
  obtain ⟨-, hall, -, -⟩ := Scopes.nested_unchanged kind name hb.within hleave
  exact (hq (hwork.enter kind name) (Scopes.enter_length kind name)
    (findIn?_enter_self kind name) hbind).of_all_eq hall

theorem runsCtes_nil : RunsCtes env [] := by
  intro id s s' bs _ h
  simp only [bindCtes, run_pure_ok] at h
  obtain ⟨rfl, rfl⟩ := h
  simpa [BoundQuery.queriesOfCtes] using Runs.nil env s.scopes

theorem runsCtes_cons {name : String} {columns : List String} {q : Query} {rest : List Cte}
    (hq : RunsQuery env q) (hrest : RunsCtes env rest) :
    RunsCtes env (⟨name, columns, q⟩ :: rest) := by
  intro id s s' bs hwork h
  simp only [bindCtes, run_bind_ok, run_ofExcept_ok, run_pure_ok] at h
  obtain ⟨_, s₁, henter, b, s₂, hbind, _, s₃, hleave, b', _, ⟨hrename, rfl⟩, _, s₄, hadd, bs', s₅,
    hctes, rfl, rfl⟩ := h
  obtain ⟨hw₃, -, hnested, -⟩ :=
    nested_query (binds_query q) hwork (fun _ _ => trivial) henter hbind hleave
  have hwork₃ := hwork.within hw₃
  obtain ⟨scopes, hadded, rfl⟩ := run_onScopes_ok.1 hadd
  have hw₄ := Scopes.add_within hwork₃.ordered hwork₃.lt hadded
  obtain ⟨hb, -⟩ := bindCtes_binds (fun _ => trivial) rest (hwork₃.within hw₄)
    (fun _ _ => trivial) hctes
  have hruns := (runsQuery_nested hq hwork henter hbind hleave).renameCte hnested hrename
  obtain ⟨hsealed, -⟩ := renameCte_keeps hnested hrename
  rw [BoundQuery.queriesOfCtes]
  exact (hruns.within hsealed (hw₄.trans hb.within) hwork.lt (Nat.le_refl _)).append
    (hrest (hwork₃.within hw₄) hctes)

theorem runsBody_nullSource {distinct : Bool} {projection : List SelectItem}
    {filter : Option Expr} {groupBy : List Expr} {having : Option Expr} :
    RunsBody env (.select ⟨distinct, projection, none, filter, groupBy, having⟩) := by
  intro id s s' orderBy b order output _ _ h
  simp [bindBody] at h

theorem runsBody_select {distinct : Bool} {projection : List SelectItem} {source : Source}
    {filter : Option Expr} {groupBy : List Expr} {having : Option Expr}
    (hsource : RunsSource env source) :
    RunsBody env (.select ⟨distinct, projection, some source, filter, groupBy, having⟩) := by
  intro id s s' orderBy b order output hwork hctes h
  simp only [bindBody, run_bind_ok, run_pure_ok, Prod.mk.injEq] at h
  obtain ⟨src, s₁, hsrc, ⟨sel, order'⟩, s₂, hblock, ⟨rfl, rfl, -⟩, rfl⟩ := h
  have ho := onlyTables_of_onlyCtes hctes
  obtain ⟨hb, hreads, -⟩ := @binds_source env source (.ofScope id) [] s s₁ _ src hwork ho rfl rfl
    (fun _ _ => trivial) hsrc
  obtain ⟨-, hsame, ⟨us, hregisters⟩, -⟩ :=
    bindBlock_bound (hb.within.ordered hwork.ordered) (hb.onlyTables ho) hb hreads hblock
  refine ⟨?_, ?_⟩
  · intro block hmem
    cases hmem
    exact .mk hwork hctes hsrc hblock fun _ => rfl
  · rw [BoundBody.queries_select, hsame]
    exact (@hsource (.ofScope id) [] s s₁ _ src hwork ho rfl rfl hsrc).within hb.nested
      hregisters.within hwork.lt (Nat.le_refl _)

theorem runsBody_setOperation {operator : SetOperator} {keys : List String} {left right : Query}
    (hl : RunsQuery env left) (hr : RunsQuery env right) :
    RunsBody env (.setOperation operator left right keys) := by
  intro id s s' orderBy b order output hwork hctes h
  simp only [bindBody] at h
  cases hkeys : keys.isEmpty with
  | true => simp [hkeys, run_bind_ok] at h
  | false =>
    simp only [hkeys, Bool.false_eq_true, if_false, run_bind_ok, run_pure_ok, Prod.mk.injEq,
      run_ofExcept_ok] at h
    obtain ⟨_, s₁, henter, _, s₂, henterl, bl, s₃, hleft, _, s₄, hleavel, _, s₅, henterr, br, s₆,
      hright, _, s₇, hleaver, _, s₈, hleave, _, s₉, hcheck, order', _, ⟨-, rfl⟩, ⟨rfl, rfl, -⟩,
      rfl⟩ := h
    obtain ⟨rfl, -⟩ := checkOperands_run hcheck
    obtain rfl := run_enterScope_ok.1 henter
    have hwork₁ := hwork.enter .setOperator operator.render
    obtain ⟨hwl, -, hnestedl, -⟩ :=
      nested_query (binds_query left) hwork₁ (fun _ _ => trivial) henterl hleft hleavel
    obtain ⟨hwr, -⟩ := nested_query (binds_query right) (hwork₁.within hwl) (fun _ _ => trivial)
      henterr hright hleaver
    obtain ⟨scopes, hexit, rfl⟩ := run_leaveScope_ok.1 hleave
    obtain ⟨-, hall, -⟩ :=
      Scopes.nested_unchanged .setOperator operator.render (hwl.trans hwr) hexit
    refine ⟨by simp [BoundBody.block?], ?_⟩
    rw [BoundBody.queries_setOperation]
    have hruns := (runsQuery_nested hl hwork₁ henterl hleft hleavel).within hnestedl hwr hwork₁.lt
      (Nat.le_refl _)
    exact (hruns.append
      (runsQuery_nested hr (hwork₁.within hwl) henterr hright hleaver)).of_all_eq hall

theorem runsSource_schema (schema method : String) (args : List Expr) (a : Option String) :
    RunsSource env (.schema schema method args a) := by
  intro ctx outer s s' usage b hwork ho haround hlinks h
  simp only [bindSource] at h
  obtain ⟨_, _, _, _, _, _, rfl⟩ := bindSchemaSource_shape h
  simpa [BoundSource.queries] using Runs.nil env s'.scopes

theorem runsSource_inMemory (name : String) (a : Option String) :
    RunsSource env (.inMemory name a) := by
  intro ctx outer s s' usage b hwork ho _ _ h
  simp only [bindSource, bindMemorySource, run_bind_ok, run_readScopes_ok, run_pure_ok] at h
  obtain ⟨_, _, -, _, _, -, rfl, rfl⟩ := h
  simpa [BoundSource.queries] using Runs.nil env _

theorem runsSource_subquery {q : Query} (a : Option String) (hq : RunsQuery env q) :
    RunsSource env (.subquery q a) := by
  intro ctx outer s s' usage b hwork ho _ _ h
  simp only [bindSource, run_bind_ok] at h
  obtain ⟨_, s₁, henter, bq, s₂, hbind, _, s₃, hleave, h⟩ := h
  obtain ⟨hw, hsame, hnested, -⟩ :=
    nested_query (binds_query q) hwork (fun _ _ => trivial) henter hbind hleave
  obtain ⟨-, -, -, hextends⟩ : BindsSource (fun _ => True) _ b _ _ ∧ _ := bindSubquerySource_binds
    hwork.ordered hwork.lt hw hsame hnested (fun _ _ => trivial) (fun _ => trivial) h
  simp only [bindSubquerySource, run_bind_ok, run_pure_ok] at h
  obtain ⟨r, _, -, _, _, -, rfl, rfl⟩ := h
  have hwork₃ := hwork.within hw
  rw [BoundSource.queries]
  exact (runsQuery_nested hq hwork henter hbind hleave).within hnested
    (hextends.within hwork₃.ordered hwork₃.lt) hwork.lt (Nat.le_refl _)

/-- The queries of two sources, bound one after the other before the table over both. -/
theorem Runs.pair {Named : String → Prop} {id : Nat} {left right src : BoundSource}
    {s s₁ s₂ s' : Scopes} (hwork : Working id s) (hl : BindsSource Named id left s s₁)
    (hr : BindsSource Named id right s₁ s₂) (hextends : Extends id src.aliasName s₂ s')
    (hleft : Runs env s₁ left.queries) (hright : Runs env s₂ right.queries) :
    Runs env s' (left.queries ++ right.queries) := by
  have hwork₁ := hwork.within hl.within
  have hwork₂ := hwork₁.within hr.within
  have hw := hextends.within hwork₂.ordered hwork₂.lt
  exact (hleft.within hl.nested (hr.within.trans hw) hwork.lt (Nat.le_refl _)).append
    (hright.within hr.nested hw hwork₁.lt (Nat.le_refl _))

theorem runsSource_join {kind : JoinKind} {left right : Source} {condition : Expr}
    (hl : RunsSource env left) (hr : RunsSource env right) :
    RunsSource env (.join kind left right condition) := by
  intro ctx outer s s' usage b hwork ho haround hlinks h
  simp only [bindSource, run_bind_ok] at h
  obtain ⟨bl, s₁, hleft, br, s₂, hright, h⟩ := h
  obtain ⟨hbl, hreadsl, -⟩ := binds_source left hwork ho haround hlinks (fun _ _ => trivial) hleft
  have hwork₁ := hwork.within hbl.within
  have ho₁ := hbl.onlyTables ho
  have haround₁ := haround.within hbl.within
  obtain ⟨hbr, hreadsr, -⟩ :=
    binds_source right hwork₁ ho₁ haround₁ hlinks (fun _ _ => trivial) hright
  obtain ⟨-, -, -, hextends⟩ :=
    bindJoin_binds hwork.ordered hwork.lt ho hlinks hbl hbr hreadsl hreadsr h
  obtain ⟨-, -, a, -, c, -, -, rfl⟩ := run_bindJoin_ok h
  rw [BoundSource.queries]
  exact .pair hwork hbl hbr hextends (hl hwork ho haround hlinks hleft)
    (hr hwork₁ ho₁ haround₁ hlinks hright)

theorem runsSource_apply {kind : ApplyKind} {left right : Source} (hl : RunsSource env left)
    (hr : RunsSource env right) : RunsSource env (.apply kind left right) := by
  intro ctx outer s s' usage b hwork ho haround hlinks h
  simp only [bindSource, run_bind_ok] at h
  obtain ⟨bl, s₁, hleft, br, s₂, hright, h⟩ := h
  obtain ⟨hbl, hreadsl, -⟩ := binds_source left hwork ho haround hlinks (fun _ _ => trivial) hleft
  have hwork₁ := hwork.within hbl.within
  have ho₁ := hbl.onlyTables ho
  have haround₁ : Around s₁.scopes (ctx.withAlias bl.aliasName) bl.leaves :=
    ⟨bl, rfl, rfl, hbl.bound⟩
  obtain ⟨hbr, hreadsr, -⟩ := @binds_source env right (ctx.withAlias bl.aliasName) bl.leaves s₁ s₂
    usage br hwork₁ ho₁ haround₁ hlinks (fun _ _ => trivial) hright
  obtain ⟨-, -, -, hextends⟩ :=
    bindApply_binds hwork.ordered hwork.lt ho hbl hbr hreadsl hreadsr h
  obtain ⟨-, -, a, -, rfl⟩ := run_bindApply_ok h
  rw [BoundSource.queries]
  exact .pair hwork hbl hbr hextends (hl hwork ho haround hlinks hleft)
    (@hr (ctx.withAlias bl.aliasName) bl.leaves s₁ s₂ usage br hwork₁ ho₁ haround₁ hlinks hright)

theorem runsQuery_mk {body : QueryBody} {orderBy : List OrderItem} {skip take : Option Nat}
    {ctes : List Cte} (hctes : RunsCtes env ctes) (hbody : RunsBody env body) :
    RunsQuery env ⟨body, orderBy, skip, take, ctes⟩ := by
  intro id s s' b hwork hlast hempty h
  simp only [bindQuery, run_bind_ok, run_readScopes_ok, run_pure_ok] at h
  obtain ⟨scope, _, ⟨hcurrent, rfl⟩, bctes, s₁, hbctes, ⟨bbody, order, output⟩, s₂, hbbody, rfl,
    rfl⟩ := h
  obtain rfl := hwork.requireCurrent hcurrent
  obtain ⟨hc, -⟩ := bindCtes_binds (fun _ => trivial) ctes hwork (fun _ _ => trivial) hbctes
  have hwork₁ := hwork.within hc.within
  obtain ⟨hb, -⟩ := bindBody_binds (fun _ => trivial) body hwork₁ (hc.onlyCtes hempty)
    (fun _ _ => trivial) hbbody
  obtain ⟨hown, hnested⟩ := hbody hwork₁ (hc.onlyCtes hempty) hbbody
  have hruns := ((hctes hwork hbctes).within hc.nested hb.within hwork.lt
    (Nat.le_refl _)).append hnested
  constructor
  case blocks =>
    intro block hblock
    rw [BoundQuery.blocksOf_queries] at hblock
    rcases List.mem_append.1 hblock with hblock | hblock
    · exact hown block (by simpa using hblock)
    · exact hruns.blocks block (by simpa using hblock)
  case below =>
    -- what was opened since lies below the scope of the query
    have hw := hc.within.trans hb.within
    rw [BoundQuery.queries_eq, List.forall_mem_cons]
    refine ⟨fun q' hq' => ?_, hruns.below⟩
    rcases List.mem_append.1 hq' with hq' | hq'
    · obtain ⟨hlo, hhi⟩ := hc.nested.scopes q' hq'
      exact hw.opened _ hlo (Nat.lt_of_lt_of_le hhi hb.within.length_le)
    · obtain ⟨hlo, hhi⟩ := hb.nested.scopes q' hq'
      exact hw.opened _ (Nat.le_trans hc.within.length_le hlo) hhi

mutual

theorem bindQuery_runs : ∀ q : Query, RunsQuery env q
  | ⟨body, _, _, _, ctes⟩ => runsQuery_mk (bindCtes_runs ctes) (bindBody_runs body)

theorem bindCtes_runs : ∀ ctes : List Cte, RunsCtes env ctes
  | [] => runsCtes_nil
  | ⟨_, _, query⟩ :: rest => runsCtes_cons (bindQuery_runs query) (bindCtes_runs rest)

theorem bindBody_runs : ∀ body : QueryBody, RunsBody env body
  | .select ⟨_, _, none, _, _, _⟩ => runsBody_nullSource
  | .select ⟨_, _, some source, _, _, _⟩ => runsBody_select (bindSource_runs source)
  | .setOperation _ left right _ =>
    runsBody_setOperation (bindQuery_runs left) (bindQuery_runs right)

theorem bindSource_runs : ∀ source : Source, RunsSource env source
  | .schema schema method args a => runsSource_schema schema method args a
  | .inMemory name a => runsSource_inMemory name a
  | .subquery query a => runsSource_subquery a (bindQuery_runs query)
  | .join _ left right _ => runsSource_join (bindSource_runs left) (bindSource_runs right)
  | .apply _ left right => runsSource_apply (bindSource_runs left) (bindSource_runs right)

end

/-- The blocks of a resolved query have runs, below the queries around them. -/
theorem analyze_runsBelow {q : Query} {a : Analysis} {requests : List TableRequest}
    (h : analyze env q = (.ok a, requests)) : Runs env a.scopes a.query.queries := by
  obtain ⟨s, hbind, hleave⟩ := run_analyze_ok h
  obtain ⟨hb, -⟩ := binds_query q working_first rfl (findIn?_enter_self _ _) (fun _ _ => trivial) hbind
  have hwithin : Scopes.Within Scopes.empty.all.length (Scopes.empty.entered .query "Query")
    s.scopes := hb.within
  obtain ⟨-, hall, -, -⟩ := Scopes.nested_unchanged .query "Query" hwithin hleave
  exact (bindQuery_runs q working_first rfl (findIn?_enter_self _ _) hbind).of_all_eq hall

/-- Every block of a resolved query has a run. -/
theorem analyze_runs {q : Query} {a : Analysis} {requests : List TableRequest}
    (h : analyze env q = (.ok a, requests)) :
    ∀ b ∈ BoundQuery.blocksOf a.query.queries, BlockRun env a.scopes b :=
  (analyze_runsBelow h).blocks

end SchemaQuery.Resolve
