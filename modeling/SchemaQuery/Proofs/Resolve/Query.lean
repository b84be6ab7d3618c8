-- SUMMARY: Resolution of a query lays out its scopes block by block.
import SchemaQuery.Proofs.Query.Rename
import SchemaQuery.Proofs.Resolve.Block
import SchemaQuery.Resolve.Query

/-!
# Resolved queries

Every nested query is bound in a scope opened for it. By induction over the
query, the scopes opened while it is bound are those of its blocks: each block
knows its own scope, and no scope binds anything that no block accounts for. The
main statement of this module is `analyze_sealed`.
-/

namespace SchemaQuery.Resolve

/-! ## Scopes at work -/

/-- The scope being worked on. -/
structure Working (id : Nat) (s : Scopes) : Prop where
  current : s.current = some id
  lt : id < s.all.length
  ordered : s.Ordered

namespace Working

variable {id : Nat} {s s' : Scopes}

theorem requireCurrent (h : Working id s) {scope : Nat} (hscope : s.requireCurrent = .ok scope) :
    id = scope := by
  simpa [Scopes.requireCurrent, Scopes.currentOr, h.current] using hscope

theorem within (h : Working id s) {i : Nat} (hw : s.Within i s') : Working id s' :=
  ⟨hw.current.trans h.current, Nat.lt_of_lt_of_le h.lt hw.length_le, hw.ordered h.ordered⟩

theorem current_lt (h : Working id s) : ∀ c, s.current = some c → c < s.all.length := by
  intro c hc
  obtain rfl : id = c := by simpa [h.current] using hc
  exact h.lt

theorem enter (h : Working id s) (kind : ScopeKind) (name : String) :
    Working s.all.length (s.entered kind name) where
  current := rfl
  lt := by simp
  ordered := Scopes.enter_ordered kind name h.ordered h.current_lt

end Working

/-! ## What each stage does -/

variable (env : Env) (Named : String → Prop)

/-- Between `s` and `s'` the query `q` was bound in the scope `id`, which was new. -/
structure BindsQuery (id : Nat) (q : BoundQuery) (s s' : Scopes) : Prop where
  within : s.Within id s'
  sealed : Sealed Named s' id s'.all.length q.queries

/-- Between `s` and `s'` common table expressions were bound in the scope `id`. -/
structure BindsCtes (id : Nat) (ctes : List BoundCte) (s s' : Scopes) : Prop where
  within : s.Within id s'
  keys : ∀ k symbol, s'.findIn? k id = some symbol →
    s.findIn? k id = some symbol ∨ ∃ n t, k = cteKey n ∧ symbol = .table t
  nested : Sealed Named s' s.all.length s'.all.length (BoundQuery.queriesOfCtes ctes)

/-- Every binding of a scope is a common table expression. -/
def OnlyCtes (s : Scopes) (id : Nat) : Prop :=
  ∀ k symbol, s.findIn? k id = some symbol → ∃ n t, k = cteKey n ∧ symbol = .table t

/-- Between `s` and `s'` a body was bound in the scope `id`, which had no sources before. -/
structure BindsBody (id : Nat) (body : BoundBody) (order : List SortKey) (s s' : Scopes) :
    Prop where
  within : s.Within id s'
  own : ∀ q : BoundQuery, q.scope = id → q.body = body → q.orderBy = order →
    Sealed Named s' id (id + 1) [q]
  nested : Sealed Named s' s.all.length s'.all.length body.queries

-- The statements of the induction, one for each kind of node.

def QueryCase (q : Query) : Prop :=
  ∀ {id : Nat} {s s' : State} {b : BoundQuery}, Working id s.scopes →
    s.scopes.all.length = id + 1 → (∀ k, s.scopes.findIn? k id = none) →
    (∀ n ∈ q.sourceNames, Named n) → bindQuery env q s = .ok b s' →
    BindsQuery Named id b s.scopes s'.scopes ∧ b.depth = q.depth

def CtesCase (ctes : List Cte) : Prop :=
  ∀ {id : Nat} {s s' : State} {bs : List BoundCte}, Working id s.scopes →
    (∀ n ∈ Query.sourceNamesOfCtes ctes, Named n) → bindCtes env id ctes s = .ok bs s' →
    BindsCtes Named id bs s.scopes s'.scopes ∧
      BoundQuery.depthOfCtes bs = Query.depthOfCtes ctes

def BodyCase (body : QueryBody) : Prop :=
  ∀ {id : Nat} {s s' : State} {orderBy : List OrderItem} {b : BoundBody} {order : List SortKey}
    {output : List Column}, Working id s.scopes → OnlyCtes s.scopes id →
    (∀ n ∈ body.sourceNames, Named n) → bindBody env id orderBy body s = .ok (b, order, output) s' →
    BindsBody Named id b order s.scopes s'.scopes ∧ b.depth = body.depth

def SourceCase (src : Source) : Prop :=
  ∀ {ctx : Context} {outer : List (String × List Column)} {s s' : State} {usage : ColumnUsage}
    {b : BoundSource}, Working ctx.scope s.scopes → s.scopes.OnlyTables ctx.scope →
    Around s.scopes ctx outer → ctx.groupBy = [] → (∀ n ∈ src.sourceNames, Named n) →
    bindSource env usage src ctx s = .ok b s' →
    BindsSource Named ctx.scope b s.scopes s'.scopes ∧ b.Reads outer ∧ b.depth = src.depth

variable {env Named}

/-! ## Nested queries -/

theorem findIn?_enter_self {s : Scopes} (kind : ScopeKind) (name k : String) :
    (s.entered kind name).findIn? k s.all.length = none := by
  rw [Scopes.enter_findIn?]
  cases hfind : s.findIn? k s.all.length with
  | none => rfl
  | some symbol => exact absurd (Scopes.lt_length_of_findIn? hfind) (Nat.lt_irrefl _)

/-- A query bound in a new scope: the scope at work is as before, and the new scopes are sealed. -/
theorem nested_query {q : Query} {id : Nat} {kind : ScopeKind} {name : String}
    {s s₁ s₂ s' : State} {b : BoundQuery} {x y : Unit} (hq : QueryCase env Named q)
    (hwork : Working id s.scopes) (hnames : ∀ n ∈ q.sourceNames, Named n)
    (henter : enterScope kind name s = .ok x s₁) (hbind : bindQuery env q s₁ = .ok b s₂)
    (hexit : leaveScope s₂ = .ok y s') :
    s.scopes.Within id s'.scopes ∧ (∀ k, s'.scopes.findIn? k id = s.scopes.findIn? k id) ∧
      Sealed Named s'.scopes s.scopes.all.length s'.scopes.all.length b.queries ∧
      b.depth = q.depth := by
  obtain rfl := run_enterScope_ok.1 henter
  obtain ⟨scopes, hleave, rfl⟩ := run_leaveScope_ok.1 hexit
  obtain ⟨hb, hdepth⟩ := hq (hwork.enter kind name) (Scopes.enter_length kind name)
    (findIn?_enter_self kind name) hnames hbind
  obtain ⟨-, hall, hfind, -⟩ := Scopes.nested_unchanged kind name hb.within hleave
  change scopes.all = s₂.scopes.all at hall
  refine ⟨.nested kind name hwork.current hwork.lt hb.within hleave, hfind id hwork.lt, ?_, hdepth⟩
  change Sealed Named scopes s.scopes.all.length scopes.all.length _
  rw [hall]
  refine hb.sealed.frame fun i _ _ k => ?_
  simp only [Scopes.findIn?, hall]

/-! ## Common table expressions -/

/-- The declared columns of an expression change no block. -/
theorem blocksOf_renameCte {s : Scopes} {lo hi : Nat} {name : String} {columns : List String}
    {q q' : BoundQuery} (hq : Sealed Named s lo hi q.queries)
    (h : renameCte name columns q = .ok q') :
    BoundQuery.blocksOf q'.queries = BoundQuery.blocksOf q.queries := by
  unfold renameCte at h
  split at h
  · cases h
    rfl
  · split at h
    · cases h
    · cases h
      refine BoundQuery.blocksOf_renameOutput columns q ?_
      -- the outputs of a block read its source, never the output of a set operator
      rintro b hb t ht n i type rfl
      have hbound := (hq.blocks b hb).2.2
      exact hbound.reads _ (List.mem_append_right _ ht) _ (Term.self_mem_subterms _)

/-- They change neither scopes nor depth. -/
theorem renameCte_keeps {s : Scopes} {lo hi : Nat} {name : String} {columns : List String}
    {q q' : BoundQuery} (hq : Sealed Named s lo hi q.queries)
    (h : renameCte name columns q = .ok q') :
    Sealed Named s lo hi q'.queries ∧ q'.depth = q.depth := by
  have hblocks := blocksOf_renameCte hq h
  unfold renameCte at h
  split at h
  · cases h
    exact ⟨hq, rfl⟩
  · split at h
    · cases h
    · cases h
      exact ⟨hq.congr (BoundQuery.scopes_renameOutput columns q) hblocks,
        BoundQuery.depth_renameOutput columns q⟩

theorem ctes_nil : CtesCase env Named [] := by
  intro id s s' bs _ _ h
  simp only [bindCtes, run_pure_ok] at h
  obtain ⟨rfl, rfl⟩ := h
  refine ⟨⟨.refl id s.scopes, fun k symbol hk => .inl hk, ?_⟩, ?_⟩
  · simpa [BoundQuery.queriesOfCtes] using Sealed.nil Named s.scopes _
  · simp [BoundQuery.depthOfCtes, Query.depthOfCtes]

theorem ctes_cons {name : String} {columns : List String} {q : Query} {rest : List Cte}
    (hq : QueryCase env Named q) (hrest : CtesCase env Named rest) :
    CtesCase env Named (⟨name, columns, q⟩ :: rest) := by
  intro id s s' bs hwork hnames h
  simp only [Query.sourceNamesOfCtes, List.mem_append] at hnames
  simp only [bindCtes, run_bind_ok, run_ofExcept_ok, run_pure_ok] at h
  obtain ⟨_, s₁, henter, b, s₂, hbind, _, s₃, hleave, b', _, ⟨hrename, rfl⟩, _, s₄, hadd, bs', s₅,
    hctes, rfl, rfl⟩ := h
  obtain ⟨hw₃, hsame, hnested, hdepth⟩ :=
    nested_query hq hwork (fun n hn => hnames n (.inl hn)) henter hbind hleave
  obtain ⟨hsealed, hrenamed⟩ := renameCte_keeps hnested hrename
  obtain ⟨scopes, hadded, rfl⟩ := run_onScopes_ok.1 hadd
  have hwork₃ := hwork.within hw₃
  have hw₄ := Scopes.add_within hwork₃.ordered hwork₃.lt hadded
  have hlength := Scopes.add_length hwork₃.ordered hwork₃.lt hadded
  obtain ⟨hb, hdepths⟩ := hrest (hwork₃.within hw₄) (fun n hn => hnames n (.inr hn)) hctes
  refine ⟨⟨(hw₃.trans hw₄).trans hb.within, ?_, ?_⟩, ?_⟩
  · intro k symbol hk
    rcases hb.keys k symbol hk with hk | hk
    · change scopes.findIn? k id = some symbol at hk
      rw [Scopes.add_findIn? hwork₃.ordered hwork₃.lt hadded] at hk
      split at hk
      · rename_i hkey
        cases hk
        exact .inr ⟨name, _, hkey, rfl⟩
      · exact .inl (hsame k ▸ hk)
    · exact .inr hk
  · rw [BoundQuery.queriesOfCtes]
    refine Sealed.append (hsealed.within (hw₄.trans hb.within) hwork.lt (Nat.le_refl _)) ?_
      hw₃.length_le ((hw₄.trans hb.within).length_le)
    exact hlength ▸ hb.nested
  · rw [BoundQuery.depthOfCtes, Query.depthOfCtes, hrenamed, hdepth, hdepths]

/-! ## Bodies -/

theorem onlyTables_of_onlyCtes {s : Scopes} {id : Nat} (h : OnlyCtes s id) : s.OnlyTables id := by
  intro k symbol hk
  obtain ⟨n, t, -, rfl⟩ := h k symbol hk
  exact ⟨t, rfl⟩

theorem body_select {distinct : Bool} {projection : List SelectItem} {source : Source}
    {filter : Option Expr} {groupBy : List Expr} {having : Option Expr}
    (hsource : SourceCase env Named source) :
    BodyCase env Named (.select ⟨distinct, projection, some source, filter, groupBy, having⟩) := by
  intro id s s' orderBy b order output hwork hctes hnames h
  simp only [bindBody, run_bind_ok, run_pure_ok, Prod.mk.injEq] at h
  obtain ⟨src, s₁, hsrc, ⟨sel, order'⟩, s₂, hblock, ⟨rfl, rfl, -⟩, rfl⟩ := h
  have ho := onlyTables_of_onlyCtes hctes
  obtain ⟨hb, hreads, hdepth⟩ := @hsource (.ofScope id) [] s s₁ _ src hwork ho rfl rfl
    (by simpa [QueryBody.sourceNames] using hnames) hsrc
  change BindsSource Named id src s.scopes s₁.scopes at hb
  have hs₁ := hb.within.ordered hwork.ordered
  obtain ⟨hscope, hsame, ⟨us, hregisters⟩, hbound⟩ :=
    bindBlock_bound hs₁ (hb.onlyTables ho) hb hreads hblock
  have hregw : s₁.scopes.Within id s₂.scopes := hregisters.within
  -- the tables of the scope are common table expressions and parts of the source
  have htable {k : String} {symbol : Symbol} (hk : s₁.scopes.findIn? k id = some symbol) :
      Owned [sel.block order'] id k symbol := by
    obtain ⟨t, rfl⟩ := hb.onlyTables ho k symbol hk
    by_cases hpart : ∃ p ∈ src.parts, p.aliasName = k
    · obtain ⟨p, hp, rfl⟩ := hpart
      have hp' : p ∈ sel.source.parts := hsame ▸ hp
      exact .source (sel.block order') (by simp) hscope p hp' t
    · cases hold : s.scopes.findIn? k id with
      | none =>
        rw [hb.keys k hold fun p hp hpk => hpart ⟨p, hp, hpk⟩] at hk
        cases hk
      | some symbol =>
        obtain ⟨n, -, rfl, -⟩ := hctes k symbol hold
        exact .cte n t
  have hown (q : BoundQuery) (hid : q.scope = id) (hbody : q.body = .select sel)
      (horder : q.orderBy = order') : Sealed Named s₂.scopes id (id + 1) [q] := by
    have hblocks : BoundQuery.blocksOf [q] = [sel.block order'] := by
      simp [BoundQuery.blocksOf, hbody, horder, BoundBody.block?]
    refine ⟨?_, ?_, ?_⟩
    · intro q' hq'
      obtain rfl := List.mem_singleton.1 hq'
      omega
    · intro b hb
      rw [hblocks] at hb
      obtain rfl := List.mem_singleton.1 hb
      have hid' : (sel.block order').scope = id := hscope
      exact ⟨by omega, by omega, hbound⟩
    · intro i hlo hhi k symbol hk
      rw [hblocks]
      obtain rfl : i = id := by omega
      by_cases hkey : k = refreshKey src.aliasName
      · subst hkey
        rcases hregisters.present src.aliasName symbol rfl hk with hold | ⟨c, cs, rfl⟩
        · exact htable hold
        · exact hsame ▸ Owned.refresh (sel.block order') (by simp) hscope c cs
      · refine htable ((hregisters.other k ?_).symm.trans hk)
        rintro _ ⟨⟩
        exact hkey
  refine ⟨⟨hb.within.trans hregw, hown, ?_⟩, ?_⟩
  · rw [BoundBody.queries_select, hsame, hregisters.length]
    exact hb.nested.within hregw hwork.lt (Nat.le_refl _)
  · rw [BoundBody.depth_select, hsame, hdepth, QueryBody.depth]

theorem checkOperands_run {keys : List String} {left right : BoundQuery} {s s' : State} {x : Unit}
    (h : checkOperands env keys left right s = .ok x s') :
    s' = s ∧ operandError? env keys left.output right.output = none := by
  unfold checkOperands at h
  cases herror : operandError? env keys left.output right.output with
  | some e => simp [herror] at h
  | none =>
    simp only [herror, run_pure_ok] at h
    exact ⟨h.2.symm, rfl⟩

theorem body_setOperation {operator : SetOperator} {keys : List String} {left right : Query}
    (hl : QueryCase env Named left) (hr : QueryCase env Named right) :
    BodyCase env Named (.setOperation operator left right keys) := by
  intro id s s' orderBy b order output hwork hctes hnames h
  simp only [QueryBody.sourceNames, List.mem_append] at hnames
  simp only [bindBody] at h
  cases hkeys : keys.isEmpty with
  | true => simp [hkeys, run_bind_ok] at h
  | false =>
    simp only [hkeys, Bool.false_eq_true, if_false, run_bind_ok, run_pure_ok, Prod.mk.injEq,
      run_ofExcept_ok] at h
    obtain ⟨_, s₁, henter, _, s₂, henterl, bl, s₃, hleft, _, s₄, hleavel, _, s₅, henterr, br, s₆,
      hright, _, s₇, hleaver, _, s₈, hleave, _, s₉, hcheck, order', _, ⟨-, rfl⟩, ⟨rfl, rfl, -⟩,
      rfl⟩ := h
    obtain ⟨rfl, -⟩ := checkOperands_run hcheck
    obtain rfl := run_enterScope_ok.1 henter
    have hwork₁ := hwork.enter .setOperator operator.render
    obtain ⟨hwl, hsamel, hnestedl, hdepthl⟩ :=
      nested_query hl hwork₁ (fun n hn => hnames n (.inl hn)) henterl hleft hleavel
    obtain ⟨hwr, hsamer, hnestedr, hdepthr⟩ :=
      nested_query hr (hwork₁.within hwl) (fun n hn => hnames n (.inr hn)) henterr hright hleaver
    obtain ⟨scopes, hexit, rfl⟩ := run_leaveScope_ok.1 hleave
    have hw₇ := hwl.trans hwr
    obtain ⟨-, hall, hfind, -⟩ := Scopes.nested_unchanged .setOperator operator.render hw₇ hexit
    change scopes.all = s₇.scopes.all at hall
    -- the scope of the operator itself binds nothing
    have hempty : Sealed Named s₇.scopes s.scopes.all.length (s.scopes.all.length + 1) [] := by
      refine ⟨by simp, by simp, fun i hlo hhi k symbol hk => ?_⟩
      obtain rfl : i = s.scopes.all.length := by omega
      rw [hsamer, hsamel, findIn?_enter_self] at hk
      cases hk
    have hlength : (s.scopes.entered .setOperator operator.render).all.length =
      s.scopes.all.length + 1 := Scopes.enter_length _ _
    have hlel := hwl.length_le
    rw [hlength] at hlel hnestedl
    refine ⟨⟨.nested _ _ hwork.current hwork.lt hw₇ hexit, ?_, ?_⟩, ?_⟩
    · intro q hid hbody horder
      refine ⟨?_, by simp [BoundQuery.blocksOf, hbody, BoundBody.block?], ?_⟩
      · intro q' hq'
        obtain rfl := List.mem_singleton.1 hq'
        omega
      intro i hlo hhi k symbol hk
      obtain rfl : i = id := by omega
      obtain ⟨n, t, rfl, rfl⟩ := hctes k symbol ((hfind i hwork.lt k).symm.trans hk)
      exact .cte n t
    · have hoperands := (hnestedl.within hwr (by omega) (Nat.le_refl _)).append hnestedr hlel
        hwr.length_le
      have hsealed := hempty.append hoperands (by omega) (Nat.le_trans hlel hwr.length_le)
      rw [BoundBody.queries_setOperation]
      change Sealed Named scopes s.scopes.all.length scopes.all.length _
      rw [hall]
      refine hsealed.frame fun i _ _ k => ?_
      simp only [Scopes.findIn?, hall]
    · rw [BoundBody.depth_setOperation, QueryBody.depth, hdepthl, hdepthr]

/-! ## Sources -/

section Sources

variable (hauto : ∀ n : Nat, Named (env.config.autoAliasPrefix ++ toString n))

include hauto

theorem source_schema (schema method : String) (args : List Expr) (a : Option String) :
    SourceCase env Named (.schema schema method args a) := by
  intro ctx outer s s' usage b hwork _ haround hlinks hnames h
  simp only [bindSource] at h
  simp only [Source.sourceNames, Option.mem_toList] at hnames
  obtain ⟨hb, hreads, hdepth, -⟩ :=
    bindSchemaSource_binds hwork.ordered hwork.lt haround hlinks hnames hauto h
  exact ⟨hb, hreads, by rw [hdepth, Source.depth]⟩

theorem source_subquery {q : Query} (a : Option String) (hq : QueryCase env Named q) :
    SourceCase env Named (.subquery q a) := by
  intro ctx outer s s' usage b hwork _ _ _ hnames h
  simp only [Source.sourceNames, List.mem_append, Option.mem_toList] at hnames
  simp only [bindSource, run_bind_ok] at h
  obtain ⟨_, s₁, henter, bq, s₂, hbind, _, s₃, hleave, h⟩ := h
  obtain ⟨hw, hsame, hnested, hq⟩ :=
    nested_query hq hwork (fun n hn => hnames n (.inl hn)) henter hbind hleave
  obtain ⟨hb, hreads, hdepth, -⟩ := bindSubquerySource_binds hwork.ordered hwork.lt hw hsame hnested
    (fun n hn => hnames n (.inr hn)) hauto h
  exact ⟨hb, hreads outer, by rw [hdepth, hq, Source.depth]⟩

end Sources

theorem source_inMemory (name : String) (a : Option String) :
    SourceCase env Named (.inMemory name a) := by
  intro ctx outer s s' usage b hwork _ _ _ hnames h
  simp only [bindSource] at h
  obtain ⟨hb, hreads, hdepth, -⟩ := bindMemorySource_binds hwork.ordered hwork.lt
    (hnames _ (by simp [Source.sourceNames])) h
  exact ⟨hb, hreads outer, by rw [hdepth, Source.depth]⟩

theorem source_join {kind : JoinKind} {left right : Source} {condition : Expr}
    (hl : SourceCase env Named left) (hr : SourceCase env Named right) :
    SourceCase env Named (.join kind left right condition) := by
  intro ctx outer s s' usage b hwork ho haround hlinks hnames h
  simp only [Source.sourceNames, List.mem_append] at hnames
  simp only [bindSource, run_bind_ok] at h
  obtain ⟨bl, s₁, hleft, br, s₂, hright, h⟩ := h
  obtain ⟨hbl, hreadsl, hdepthl⟩ :=
    hl hwork ho haround hlinks (fun n hn => hnames n (.inl hn)) hleft
  obtain ⟨hbr, hreadsr, hdepthr⟩ := hr (hwork.within hbl.within) (hbl.onlyTables ho)
    (haround.within hbl.within) hlinks (fun n hn => hnames n (.inr hn)) hright
  obtain ⟨hb, hreads, hdepth, -⟩ :=
    bindJoin_binds hwork.ordered hwork.lt ho hlinks hbl hbr hreadsl hreadsr h
  exact ⟨hb, hreads, by rw [hdepth, hdepthl, hdepthr, Source.depth]⟩

theorem source_apply {kind : ApplyKind} {left right : Source} (hl : SourceCase env Named left)
    (hr : SourceCase env Named right) : SourceCase env Named (.apply kind left right) := by
  intro ctx outer s s' usage b hwork ho haround hlinks hnames h
  simp only [Source.sourceNames, List.mem_append] at hnames
  simp only [bindSource, run_bind_ok] at h
  obtain ⟨bl, s₁, hleft, br, s₂, hright, h⟩ := h
  obtain ⟨hbl, hreadsl, hdepthl⟩ :=
    hl hwork ho haround hlinks (fun n hn => hnames n (.inl hn)) hleft
  -- the applied source reads the left one, whose parts are bound by now
  obtain ⟨hbr, hreadsr, hdepthr⟩ := @hr (ctx.withAlias bl.aliasName) bl.leaves s₁ s₂ usage br
    (hwork.within hbl.within) (hbl.onlyTables ho) ⟨bl, rfl, rfl, hbl.bound⟩ hlinks
    (fun n hn => hnames n (.inr hn)) hright
  obtain ⟨hb, hreads, hdepth, -⟩ :=
    bindApply_binds hwork.ordered hwork.lt ho hbl hbr hreadsl hreadsr h
  exact ⟨hb, hreads, by rw [hdepth, hdepthl, hdepthr, Source.depth]⟩

/-! ## Queries -/

theorem BindsCtes.onlyCtes {id : Nat} {ctes : List BoundCte} {s s' : Scopes}
    (h : BindsCtes Named id ctes s s') (hempty : ∀ k, s.findIn? k id = none) : OnlyCtes s' id := by
  intro k symbol hk
  rcases h.keys k symbol hk with hk | hk
  · rw [hempty] at hk
    cases hk
  · exact hk

theorem query_mk {body : QueryBody} {orderBy : List OrderItem} {skip take : Option Nat}
    {ctes : List Cte} (hctes : CtesCase env Named ctes) (hbody : BodyCase env Named body) :
    QueryCase env Named ⟨body, orderBy, skip, take, ctes⟩ := by
  intro id s s' b hwork hlast hempty hnames h
  simp only [Query.sourceNames, List.mem_append] at hnames
  simp only [bindQuery, run_bind_ok, run_readScopes_ok, run_pure_ok] at h
  obtain ⟨scope, _, ⟨hcurrent, rfl⟩, bctes, s₁, hbctes, ⟨bbody, order, output⟩, s₂, hbbody, rfl,
    rfl⟩ := h
  obtain rfl := hwork.requireCurrent hcurrent
  obtain ⟨hc, hdepthc⟩ := hctes hwork (fun n hn => hnames n (.inl hn)) hbctes
  obtain ⟨hb, hdepthb⟩ := hbody (hwork.within hc.within) (hc.onlyCtes hempty) (fun n hn => hnames n (.inr hn)) hbbody
  refine ⟨⟨hc.within.trans hb.within, ?_⟩, ?_⟩
  · have hlen : id < s.scopes.all.length := hwork.lt
    have hnested := (hc.nested.within hb.within hlen (Nat.le_refl _)).append hb.nested
      hc.within.length_le hb.within.length_le
    rw [hlast] at hnested
    have hlast' := (hc.within.trans hb.within).length_le
    rw [BoundQuery.queries_eq]
    exact (hb.own _ rfl rfl rfl).append hnested (by omega) (by omega)
  · rw [BoundQuery.depth_eq, Query.depth, hdepthc, hdepthb]

theorem body_nullSource {distinct : Bool} {projection : List SelectItem} {filter : Option Expr}
    {groupBy : List Expr} {having : Option Expr} :
    BodyCase env Named (.select ⟨distinct, projection, none, filter, groupBy, having⟩) := by
  intro id s s' orderBy b order output _ _ _ h
  simp [bindBody] at h

mutual

theorem bindQuery_binds (hauto : ∀ n : Nat, Named (env.config.autoAliasPrefix ++ toString n)) :
    ∀ q : Query, QueryCase env Named q
  | ⟨body, _, _, _, ctes⟩ => query_mk (bindCtes_binds hauto ctes) (bindBody_binds hauto body)

theorem bindCtes_binds (hauto : ∀ n : Nat, Named (env.config.autoAliasPrefix ++ toString n)) :
    ∀ ctes : List Cte, CtesCase env Named ctes
  | [] => ctes_nil
  | ⟨_, _, query⟩ :: rest => ctes_cons (bindQuery_binds hauto query) (bindCtes_binds hauto rest)

theorem bindBody_binds (hauto : ∀ n : Nat, Named (env.config.autoAliasPrefix ++ toString n)) :
    ∀ body : QueryBody, BodyCase env Named body
  | .select ⟨_, _, none, _, _, _⟩ => body_nullSource
  | .select ⟨_, _, some source, _, _, _⟩ => body_select (bindSource_binds hauto source)
  | .setOperation _ left right _ =>
    body_setOperation (bindQuery_binds hauto left) (bindQuery_binds hauto right)

theorem bindSource_binds (hauto : ∀ n : Nat, Named (env.config.autoAliasPrefix ++ toString n)) :
    ∀ source : Source, SourceCase env Named source
  | .schema schema method args a => source_schema hauto schema method args a
  | .inMemory name a => source_inMemory name a
  | .subquery query a => source_subquery hauto a (bindQuery_binds hauto query)
  | .join _ left right _ => source_join (bindSource_binds hauto left) (bindSource_binds hauto right)
  | .apply _ left right => source_apply (bindSource_binds hauto left) (bindSource_binds hauto right)

end

/-- What resolution does to scopes, for all names. -/
theorem binds_query (q : Query) : QueryCase env (fun _ => True) q :=
  bindQuery_binds (fun _ => trivial) q

theorem binds_source (src : Source) : SourceCase env (fun _ => True) src :=
  bindSource_binds (fun _ => trivial) src

theorem working_first : Working 0 (Scopes.empty.entered .query "Query") := by
  refine ⟨rfl, by simp, Scopes.enter_ordered _ _ ?_ ?_⟩
  · intro i p hp
    simp [Scopes.parentOf, Scopes.empty] at hp
  · intro c hc
    cases hc

/-- A query is resolved by binding it in a first scope. -/
theorem run_analyze_ok {q : Query} {a : Analysis} {requests : List TableRequest}
    (h : analyze env q = (.ok a, requests)) :
    ∃ s, bindQuery env q
        { State.initial with scopes := (Scopes.empty.entered .query "Query") } = .ok a.query s ∧
      s.scopes.leave = .ok a.scopes := by
  unfold analyze at h
  cases hrun : (analyzeQuery env q).run .initial with
  | error e s => simp [hrun] at h
  | ok b s =>
    simp only [hrun, Prod.mk.injEq, Except.ok.injEq] at h
    obtain ⟨rfl, -⟩ := h
    simp only [analyzeQuery, EStateM.run, run_bind_ok, run_pure_ok] at hrun
    obtain ⟨_, s₁, henter, b', s₂, hbind, _, s₃, hexit, rfl, rfl⟩ := hrun
    obtain rfl := run_enterScope_ok.1 henter
    obtain ⟨scopes, hleave, rfl⟩ := run_leaveScope_ok.1 hexit
    exact ⟨s₂, hbind, hleave⟩

/-- The scopes of a resolved query are those of its blocks. -/
theorem analyze_sealed {q : Query} {a : Analysis} {requests : List TableRequest}
    (hauto : ∀ n : Nat, Named (env.config.autoAliasPrefix ++ toString n))
    (hnames : ∀ n ∈ q.sourceNames, Named n) (h : analyze env q = (.ok a, requests)) :
    a.scopes.Ordered ∧
      Sealed Named a.scopes 0 a.scopes.all.length a.query.queries ∧
      a.query.depth = q.depth := by
  obtain ⟨s₂, hbind, hleave⟩ := run_analyze_ok h
  obtain ⟨hb, hdepth⟩ :=
    bindQuery_binds hauto q working_first rfl (findIn?_enter_self _ _) hnames hbind
  have hwithin : Scopes.Within Scopes.empty.all.length (Scopes.empty.entered .query "Query")
    s₂.scopes := hb.within
  obtain ⟨-, hall, -, -⟩ := Scopes.nested_unchanged .query "Query" hwithin hleave
  have hordered := hb.within.ordered working_first.ordered
  refine ⟨?_, ?_, hdepth⟩
  · intro i p hp
    exact hordered i p (by simpa [Scopes.parentOf, hall] using hp)
  · rw [hall]
    refine hb.sealed.frame fun i _ _ k => ?_
    simp only [Scopes.findIn?, hall]

end SchemaQuery.Resolve
