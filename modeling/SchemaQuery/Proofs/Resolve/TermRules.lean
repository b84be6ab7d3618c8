-- SUMMARY: A property that every step of binding a term keeps holds of all terms of a select block.
import SchemaQuery.Proofs.Query.Usage
import SchemaQuery.Proofs.Resolve.Block

/-!
# Rules for bound terms

Terms are built by a few functions, one for each form of expression. To know a
property of all bound terms it is enough that these functions keep it; `TermRules`
lists what has to be shown, together with a property of the state that names and
calls may rely on. `bindExpr_keeps` follows by induction over expressions and
`bindBlock_keeps` for the clauses of a select block. What names become is asked
for apart from the other rules, since it can depend on the names that are written.
-/

namespace SchemaQuery

namespace Resolve

/-! ## Calls -/

/-- The term that a call with some arguments becomes. -/
def Target.term (args : List Term) : Target → Term
  | .aggregate schema r =>
    .aggregate ⟨r.method.name, schema, accumulatorName r.method.name args, r.method.signature⟩ args
      r.method.returnType
  | .method schema source m => methodTerm schema source m args

section Calls

variable {env : Env} {ctx : Context} {s s' : State} {t : Term}

/-- A step that at most registers an update. -/
def AtMostRegisters (s s' : State) : Prop :=
  s' = s ∨ ∃ scope key call scopes, registerRefresh s.scopes scope key call = .ok scopes ∧
    s' = { s with scopes }

theorem run_bindAggregate_ok {schema : Option String} {r : ResolvedAggregate} {args : List Term}
    (h : bindAggregate ctx schema r args s = .ok t s') :
    AtMostRegisters s s' ∧ t = Target.term args (.aggregate schema r) := by
  unfold bindAggregate at h
  simp only at h
  cases hclause : ctx.clause.allowsAggregates with
  | false => simp [hclause, run_bind_ok] at h
  | true =>
    simp only [hclause, Bool.not_true, Bool.false_eq_true, if_false] at h
    cases ha : ctx.aliasName with
    | none => simp [ha] at h
    | some a =>
      simp only [ha, run_bind_ok, run_pure_ok, run_onScopes_ok] at h
      obtain ⟨_, _, ⟨scopes, hregister, rfl⟩, rfl, rfl⟩ := h
      exact ⟨.inr ⟨_, _, _, scopes, hregister, rfl⟩, rfl⟩

/-- The steps of a call: its arguments are bound, and its target is found among the methods of the
    sources by the types of the arguments. -/
theorem run_bindCall_ok {qualifier : Option String} {name : String}
    {steps : List (Context → Resolver Term)}
    (h : bindCall env qualifier name steps ctx s = .ok t s') :
    ∃ tables sources argCtx args u target, sourceTables s.scopes ctx = .ok tables ∧
      sources ⊆ tables ∧ argCtx.groupBy = ctx.groupBy ∧
      steps.mapM (fun bind => bind argCtx) s = .ok args u ∧
      target? env (providers env.catalog sources) sources name (args.map (·.type)) = some target ∧
      AtMostRegisters u s' ∧ t = target.term args := by
  simp only [bindCall, run_bind_ok, run_readScopes_ok, run_ofExcept_ok] at h
  obtain ⟨tables, _, ⟨htables, rfl⟩, sources, _, ⟨hsources, rfl⟩, args, u, hargs, h⟩ := h
  cases htarget : target? env (providers env.catalog sources) sources name (args.map (·.type)) with
  | none => simp [htarget] at h
  | some target =>
    refine ⟨tables, sources, _, args, u, target, htables, callSources_subset hsources, ?_, hargs,
      htarget, ?_⟩
    · split <;> rfl
    · cases target with
      | method schema source m =>
        simp only [htarget, run_pure_ok] at h
        obtain ⟨rfl, rfl⟩ := h
        exact ⟨.inl rfl, rfl⟩
      | aggregate schema r =>
        simp only [htarget] at h
        exact run_bindAggregate_ok h

end Calls

/-! ## Rules -/

section Rules

/-- A step keeps a property of the state and gives terms with a property, if the grouping keys have
    it. -/
def Keeps (I : State → Prop) (Q : Term → Prop) (bind : Context → Resolver Term) : Prop :=
  ∀ ⦃ctx : Context⦄ ⦃s s' : State⦄ ⦃t : Term⦄, I s → (∀ k ∈ ctx.groupBy, Q k) →
    bind ctx s = .ok t s' → I s' ∧ Q t

variable (env : Env) (I : State → Prop) (Q D : Term → Prop)

/-- The steps that build terms keep the property `Q`, and conditions have the property `D`. -/
structure TermRules : Prop where
  registers {s : State} {scope : Nat} {key : String} {call : RefreshCall} {scopes : Scopes} :
    I s → registerRefresh s.scopes scope key call = .ok scopes → I { s with scopes }
  literal (v : Literal) : Q (.literal v v.type)
  property {base t : Term} {name : String} : Q base → bindProperty env base name = .ok t → Q t
  binary {op : BinaryOp} {left right t : Term} :
    Q left → Q right → binaryTerm env.catalog.types op left right = .ok t → Q t
  unary {op : UnaryOp} {operand t : Term} : Q operand → unaryTerm op operand = .ok t → Q t
  cast {operand t : Term} {typeName : String} :
    Q operand → castTerm operand typeName = .ok t → Q t
  predicate {clause : String} {t p : Term} : Q t → predicateTerm clause t = .ok p → D p
  case {branches : List (Term × Term)} {otherwise : Option Term} :
    (∀ b ∈ branches, D b.1 ∧ Q b.2) → (∀ e ∈ otherwise, Q e) →
    Q (.case branches otherwise (caseType env.catalog.types branches otherwise))
  list {items : List Term} : (∀ t ∈ items, Q t) → Q (.list items (listType env.catalog.types items))
  call {ctx : Context} {s : State} {tables sources : List TableSymbol} {name : String}
    {args : List Term} {target : Target} :
    I s → sourceTables s.scopes ctx = .ok tables → sources ⊆ tables → (∀ t ∈ args, Q t) →
    target? env (providers env.catalog sources) sources name (args.map (·.type)) = some target →
    Q (target.term args)

/-- The columns that some names can become have the property `Q`. -/
def NameRules (names : List (Option String × String)) : Prop :=
  ∀ table name, (table, name) ∈ names → ∀ ⦃ctx : Context⦄ ⦃s : State⦄ ⦃t : Term⦄, I s →
    bindColumn env s.scopes ctx table name = .ok t → Q t

/-- The columns that a wildcard stands for have the property `Q`. -/
def SpreadRules (item : SelectItem) : Prop :=
  ∀ ⦃ctx : Context⦄ ⦃s : State⦄ ⦃tables : List TableSymbol⦄, I s →
    sourceTables s.scopes ctx = .ok tables → ∀ t ∈ tables, item.spreads t.aliasName = true →
    ∀ c ∈ t.visibleColumns, Q (columnTerm t.aliasName c t.hasExplicitAlias)

variable {env I Q D}

theorem NameRules.mono {names names' : List (Option String × String)}
    (h : NameRules env I Q names') (hle : names ⊆ names') : NameRules env I Q names :=
  fun table name hmem => h table name (hle hmem)

theorem NameRules.left {names names' : List (Option String × String)}
    (h : NameRules env I Q (names ++ names')) : NameRules env I Q names :=
  h.mono (List.subset_append_left _ _)

theorem NameRules.right {names names' : List (Option String × String)}
    (h : NameRules env I Q (names ++ names')) : NameRules env I Q names' :=
  h.mono (List.subset_append_right _ _)

end Rules

/-! ## Expressions -/

section Expressions

variable {env : Env} {I : State → Prop} {Q D : Term → Prop} {ctx : Context} {s s' : State}

theorem bindList_keeps {steps : List (Context → Resolver Term)} {ts : List Term}
    (hsteps : ∀ b ∈ steps, Keeps I Q b) (hs : I s) (hlinks : ∀ k ∈ ctx.groupBy, Q k)
    (h : steps.mapM (fun bind => bind ctx) s = .ok ts s') : I s' ∧ ∀ t ∈ ts, Q t :=
  run_mapM_keeps (fun b hb _ _ _ hu hbind => hsteps b hb hu hlinks hbind) hs h

theorem bindBranch_keeps (hrules : TermRules env I Q D) {condition result : Context → Resolver Term}
    {b : Term × Term} (hc : Keeps I Q condition) (hr : Keeps I Q result) (hs : I s)
    (hlinks : ∀ k ∈ ctx.groupBy, Q k) (h : bindBranch ctx condition result s = .ok b s') :
    I s' ∧ D b.1 ∧ Q b.2 := by
  simp only [bindBranch, run_bind_ok, run_ofExcept_ok, run_pure_ok] at h
  obtain ⟨c, u, hcond, p, v, ⟨hp, rfl⟩, r, w, hres, rfl, rfl⟩ := h
  obtain ⟨hu, hQ⟩ := hc hs hlinks hcond
  obtain ⟨hv, hQ'⟩ := hr hu hlinks hres
  exact ⟨hv, hrules.predicate hQ hp, hQ'⟩

theorem bindCase_keeps (hrules : TermRules env I Q D)
    {steps : List ((Context → Resolver Term) × (Context → Resolver Term))}
    {otherwise : Option (Context → Resolver Term)}
    (hsteps : ∀ p ∈ steps, Keeps I Q p.1 ∧ Keeps I Q p.2)
    (hother : ∀ b ∈ otherwise, Keeps I Q b) : Keeps I Q (bindCase env steps otherwise) := by
  intro ctx s s' t hs hlinks h
  simp only [bindCase, run_bind_ok, run_pure_ok] at h
  obtain ⟨bs, u, hbs, o, v, ho, rfl, rfl⟩ := h
  obtain ⟨hu, hbranches⟩ := run_mapM_keeps (fun p hp _ _ _ hu hbind =>
    bindBranch_keeps hrules (hsteps p hp).1 (hsteps p hp).2 hu hlinks hbind) hs hbs
  obtain ⟨hv, hotherwise⟩ := run_optionM_keeps
    (fun b hb _ _ _ hu hbind => hother b hb hu hlinks hbind) hu ho
  exact ⟨hv, hrules.case hbranches hotherwise⟩

theorem bindCall_keeps (hrules : TermRules env I Q D) {qualifier : Option String} {name : String}
    {steps : List (Context → Resolver Term)} (hsteps : ∀ b ∈ steps, Keeps I Q b) :
    Keeps I Q (bindCall env qualifier name steps) := by
  intro ctx s s' t hs hlinks h
  obtain ⟨tables, sources, argCtx, args, u, target, htables, hsources, hgroupBy, hargs, htarget,
    hregisters, rfl⟩ := run_bindCall_ok h
  obtain ⟨hu, hQ⟩ := bindList_keeps hsteps hs (hgroupBy ▸ hlinks) hargs
  refine ⟨?_, hrules.call hs htables hsources hQ htarget⟩
  rcases hregisters with rfl | ⟨_, _, _, scopes, hregister, rfl⟩
  · exact hu
  · exact hrules.registers hu hregister

theorem zip_keeps {cs rs : List (Context → Resolver Term)} (hc : ∀ b ∈ cs, Keeps I Q b)
    (hr : ∀ b ∈ rs, Keeps I Q b) : ∀ p ∈ cs.zip rs, Keeps I Q p.1 ∧ Keeps I Q p.2 := by
  rintro ⟨c, r⟩ hp
  obtain ⟨hcmem, hrmem⟩ := List.of_mem_zip hp
  exact ⟨hc c hcmem, hr r hrmem⟩

/-- A step that is followed by a computation on its term. -/
theorem Keeps.followedBy {bind : Context → Resolver Term} (hbind : Keeps I Q bind)
    {f : Term → Except ResolveError Term} (hf : ∀ {u t}, Q u → f u = .ok t → Q t) :
    Keeps I Q (fun ctx => do ofExcept (f (← bind ctx))) := by
  intro ctx s s' t hs hlinks h
  simp only [run_bind_ok, run_ofExcept_ok] at h
  obtain ⟨u, v, hu, ht, rfl⟩ := h
  exact (hbind hs hlinks hu).imp_right fun hQ => hf hQ ht

mutual

/-- Binding an expression keeps what the rules keep. -/
theorem bindExpr_keeps (hrules : TermRules env I Q D) : ∀ e : Expr,
    NameRules env I Q e.references → Keeps I Q (bindExpr env e)
  | .literal v, _ => by
    intro ctx s s' t hs _ h
    obtain ⟨rfl, rfl⟩ := run_pure_ok.1 h
    exact ⟨hs, hrules.literal v⟩
  | .identifier name, hnames => by
    intro ctx s s' t hs _ h
    rw [bindExpr, run_readScopes_ok] at h
    obtain ⟨h, rfl⟩ := h
    exact ⟨hs, hnames none name (List.mem_singleton_self _) hs h⟩
  | .column table name, hnames => by
    intro ctx s s' t hs _ h
    rw [bindExpr, run_readScopes_ok] at h
    obtain ⟨h, rfl⟩ := h
    exact ⟨hs, hnames table name (List.mem_singleton_self _) hs h⟩
  | .property base name, hnames =>
    (bindExpr_keeps hrules base hnames).followedBy hrules.property
  | .binary op left right, hnames => by
    intro ctx s s' t hs hlinks h
    simp only [bindExpr, run_bind_ok, run_ofExcept_ok] at h
    obtain ⟨l, u, hleft, r, v, hright, hterm, rfl⟩ := h
    obtain ⟨hu, hl⟩ := bindExpr_keeps hrules left hnames.left hs hlinks hleft
    obtain ⟨hv, hr⟩ := bindExpr_keeps hrules right hnames.right hu hlinks hright
    exact ⟨hv, hrules.binary hl hr hterm⟩
  | .unary op operand, hnames => (bindExpr_keeps hrules operand hnames).followedBy hrules.unary
  | .call qualifier name args, hnames => by
    rw [bindExpr]
    exact bindCall_keeps hrules (bindAll_keeps hrules args hnames)
  | .case conditions results none, hnames => by
    rw [bindExpr]
    exact bindCase_keeps hrules (zip_keeps (bindAll_keeps hrules conditions hnames.left)
      (bindAll_keeps hrules results hnames.right)) (by simp)
  | .case conditions results (some e), hnames => by
    rw [bindExpr]
    refine bindCase_keeps hrules (zip_keeps (bindAll_keeps hrules conditions hnames.left.left)
      (bindAll_keeps hrules results hnames.left.right)) ?_
    rintro b ⟨⟩
    exact bindExpr_keeps hrules e hnames.right
  | .cast operand typeName, hnames =>
    (bindExpr_keeps hrules operand hnames).followedBy hrules.cast
  | .paren inner, hnames => by
    rw [bindExpr]
    exact bindExpr_keeps hrules inner hnames
  | .list items, hnames => by
    intro ctx s s' t hs hlinks h
    simp only [bindExpr, run_bind_ok, run_pure_ok] at h
    obtain ⟨ts, u, hts, rfl, rfl⟩ := h
    exact (bindList_keeps (bindAll_keeps hrules items hnames) hs hlinks hts).imp_right hrules.list
  | .fieldLink index, _ => by
    intro ctx s s' t hs hlinks h
    rw [bindExpr, run_ofExcept_ok] at h
    obtain ⟨hterm, rfl⟩ := h
    exact ⟨hs, hlinks t (fieldLinkTerm_mem hterm)⟩

theorem bindAll_keeps (hrules : TermRules env I Q D) : ∀ es : List Expr,
    NameRules env I Q (Expr.referencesAll es) → ∀ b ∈ bindAll env es, Keeps I Q b
  | [], _ => by simp [bindAll]
  | e :: es, hnames => by
    intro b hb
    rcases List.mem_cons.1 hb with rfl | hb
    · exact bindExpr_keeps hrules e hnames.left
    · exact bindAll_keeps hrules es hnames.right b hb

end

theorem bindPredicate_keeps (hrules : TermRules env I Q D) {e : Expr}
    (hnames : NameRules env I Q e.references) {p : Term} (hs : I s)
    (hlinks : ∀ k ∈ ctx.groupBy, Q k) (h : bindPredicate env e ctx s = .ok p s') :
    I s' ∧ D p := by
  simp only [bindPredicate, run_bind_ok, run_ofExcept_ok] at h
  obtain ⟨t, v, hbind, hp, rfl⟩ := h
  exact (bindExpr_keeps hrules e hnames hs hlinks hbind).imp_right fun hQ => hrules.predicate hQ hp

/-! ## Blocks -/

theorem bindItem_keeps (hrules : TermRules env I Q D) {item : SelectItem} {fields : List Field}
    (hnames : NameRules env I Q item.references) (hspreads : SpreadRules I Q item) (hs : I s)
    (hlinks : ∀ k ∈ ctx.groupBy, Q k) (h : bindItem env ctx item s = .ok fields s') :
    I s' ∧ ∀ f ∈ fields, Q f.term := by
  cases item with
  | expr e | aliased e a =>
    simp only [bindItem, run_bind_ok, run_pure_ok] at h
    obtain ⟨t, u, ht, rfl, rfl⟩ := h
    simpa using bindExpr_keeps hrules e hnames hs hlinks ht
  | qualifiedWildcard q =>
    simp only [bindItem, run_readScopes_ok] at h
    obtain ⟨hfields, rfl⟩ := h
    obtain ⟨tables, htables, hfields⟩ := except_bind_ok.1 hfields
    simp only [wildcardFields] at hfields
    split at hfields
    · rename_i t hfind
      cases hfields
      have halias : t.aliasName = q := by simpa using List.find?_some hfind
      have hcolumns := hspreads hs htables t (List.mem_of_find?_eq_some hfind)
        (by simp [SelectItem.spreads, halias])
      exact ⟨hs, List.forall_mem_map.2 hcolumns⟩
    · cases hfields
  | wildcard =>
    simp only [bindItem, run_readScopes_ok] at h
    obtain ⟨hfields, rfl⟩ := h
    obtain ⟨tables, htables, hfields⟩ := except_bind_ok.1 hfields
    simp only [wildcardFields, Except.ok.injEq] at hfields
    subst hfields
    refine ⟨hs, fun f hf => ?_⟩
    obtain ⟨t, ht, hf⟩ := List.mem_flatMap.1 hf
    obtain ⟨c, hc, rfl⟩ := List.mem_map.1 hf
    exact hspreads hs htables t ht rfl c hc

theorem bindSortKey_keeps (hrules : TermRules env I Q D) {projection : List SelectItem}
    {fields : List Field} {item : OrderItem} {k : SortKey}
    (hnames : NameRules env I Q item.expr.references) (hs : I s) (hlinks : ∀ k ∈ ctx.groupBy, Q k)
    (hfields : ∀ f ∈ fields, Q f.term)
    (h : bindSortKey env ctx projection fields item s = .ok k s') : I s' ∧ Q k.term := by
  obtain ⟨e, direction⟩ := item
  have hexpr (h : (do return ⟨← bindExpr env e ctx, direction⟩ : Resolver SortKey) s = .ok k s') :
      I s' ∧ Q k.term := by
    obtain ⟨t, u, ht, hpure⟩ := run_bind_ok.1 h
    obtain ⟨rfl, rfl⟩ := run_pure_ok.1 hpure
    exact bindExpr_keeps hrules e hnames hs hlinks ht
  cases e with
  | identifier name =>
    simp only [bindSortKey] at h
    cases hfield : aliasedField? projection fields name with
    | none =>
      rw [hfield] at h
      exact hexpr h
    | some f =>
      simp only [hfield, run_pure_ok] at h
      obtain ⟨rfl, rfl⟩ := h
      exact ⟨hs, hfields f (aliasedField?_mem hfield)⟩
  | _ => exact hexpr h

/-- The terms of a bound block but for those in its source: conditions have the property `D`, and
    the others the property `Q`. -/
structure BlockTerms (Q D : Term → Prop) (b : BoundSelect) (order : List SortKey) : Prop where
  filter : ∀ p ∈ b.filter, D p
  groupBy : ∀ t ∈ b.groupBy, Q t
  fields : ∀ f ∈ b.fields, Q f.term
  having : ∀ p ∈ b.having, D p
  order : ∀ k ∈ order, Q k.term

/-- Binding the clauses of a block keeps what the rules keep. -/
theorem bindBlock_keeps (hrules : TermRules env I Q D) (w : WrittenBlock) {scope : Nat}
    {src : BoundSource} {b : BoundSelect} {order : List SortKey}
    (hnames : NameRules env I Q w.references)
    (hspreads : ∀ item ∈ w.select.projection, SpreadRules I Q item) (hs : I s)
    (h : bindBlock env scope w.select src w.orderBy s = .ok (b, order) s') :
    I s' ∧ BlockTerms Q D b order := by
  obtain ⟨written, s₁, s₂, s₃, s₄, hfilter, hwritten, hfields, hhaving, horder, -, -, -, hkeys,
    -⟩ := run_bindBlock_ok h
  have hclause {e : Expr} (he : e ∈ w.clauses) : NameRules env I Q e.references :=
    hnames.mono (w.clause_references_subset he)
  have hnoLinks : ∀ k ∈ ([] : List Term), Q k := by simp
  obtain ⟨hs₁, hfilter⟩ := run_optionM_keeps (fun e he _ _ _ hu => bindPredicate_keeps hrules
    (hclause (by simp_all [WrittenBlock.clauses])) hu hnoLinks) hs hfilter
  have hkeyNames : NameRules env I Q (Expr.referencesAll w.select.groupBy) := by
    refine hnames.mono ?_
    rw [Expr.referencesAll_eq]
    intro r hr
    obtain ⟨e, he, hr⟩ := List.mem_flatMap.1 hr
    exact w.clause_references_subset (by simp [WrittenBlock.clauses, he]) hr
  obtain ⟨hs₂, hwritten⟩ := bindList_keeps (bindAll_keeps hrules w.select.groupBy hkeyNames) hs₁
    hnoLinks hwritten
  simp only [bindFields, run_bind_ok, run_pure_ok] at hfields
  obtain ⟨fs, u, hfs, hflat, rfl⟩ := hfields
  obtain ⟨hs₃, hfields⟩ := run_mapM_keeps (fun item hitem _ _ _ hu => bindItem_keeps hrules
    (hnames.mono (w.item_references_subset hitem)) (hspreads item hitem) hu hwritten) hs₂ hfs
  have hfields' : ∀ f ∈ b.fields, Q f.term := by
    intro f hf
    rw [← hflat] at hf
    obtain ⟨l, hl, hf⟩ := List.mem_flatten.1 hf
    exact hfields l hl f hf
  obtain ⟨hs₄, hhaving⟩ := run_optionM_keeps (fun e he _ _ _ hu => bindPredicate_keeps hrules
    (hclause (by simp_all [WrittenBlock.clauses])) hu hwritten) hs₃ hhaving
  obtain ⟨hs₅, horder⟩ := run_mapM_keeps (fun item hitem _ _ _ hu => bindSortKey_keeps hrules
    (hclause (by simp [WrittenBlock.clauses, List.mem_map_of_mem hitem])) hu hwritten hfields')
    hs₄ horder
  refine ⟨hs₅, hfilter, ?_, hfields', hhaving, horder⟩
  rw [hkeys]
  split
  · exact List.forall_mem_map.2 hfields'
  · exact hwritten

end Expressions

end Resolve

end SchemaQuery
