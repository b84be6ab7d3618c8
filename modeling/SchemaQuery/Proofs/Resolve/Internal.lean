-- SUMMARY: Resolution ends in no internal error and closes every scope that it opens.
import SchemaQuery.Proofs.Query.Usage
import SchemaQuery.Proofs.Resolve.Reports
import SchemaQuery.Resolve.Query
import SchemaQuery.Sample.Catalog
import SchemaQuery.Sample.Query

/-!
# Internal errors

Every step of resolution is `Steady`, by induction over the query: nested queries open
a scope and close it again, sources bind names under which no updates are kept, and
everything else fails with errors about the query. So no query ends in the error of a
missing scope. An unexpected kind of symbol is met only if the query uses the key of
updates as a name (`analyze_noInternalError`).
-/

namespace SchemaQuery

namespace Resolve

variable {env : Env}

/-! ## Errors about the query -/

section Benign

theorem bindName_benign {tables : List TableSymbol} {name : String} :
    Benign (bindName env tables name) := by
  unfold bindName
  split
  · exact rfl
  · exact trivial
  · exact rfl

theorem bindProperty_benign {base : Term} {name : String} :
    Benign (bindProperty env base name) := by
  unfold bindProperty
  dsimp only
  split
  · split
    · exact trivial
    · exact rfl
  · exact rfl

theorem binaryTerm_benign {types : TypeRegistry} {op : BinaryOp} {left right : Term} :
    Benign (binaryTerm types op left right) := by
  have htype {op : BinaryOp} {left right : Term} : Benign (binaryType types op left right) := by
    unfold binaryType
    dsimp only
    split
    · split
      · exact trivial
      · exact rfl
    · split
      · exact trivial
      · exact rfl
  exact Gives.bind htype fun _ _ => .pure trivial

theorem unaryTerm_benign {op : UnaryOp} {operand : Term} : Benign (unaryTerm op operand) := by
  unfold unaryTerm
  split
  · split
    · exact trivial
    · exact rfl
  · split
    · exact trivial
    · exact rfl

theorem predicateTerm_benign {clause : String} {t : Term} : Benign (predicateTerm clause t) := by
  unfold predicateTerm
  dsimp only
  split
  · exact trivial
  · exact rfl

theorem castTerm_benign {operand : Term} {typeName : String} :
    Benign (castTerm operand typeName) := by
  unfold castTerm
  split
  · exact trivial
  · exact rfl

theorem fieldLinkTerm_benign {keys : List Term} {index : Nat} :
    Benign (fieldLinkTerm keys index) := by
  unfold fieldLinkTerm
  dsimp only
  split
  · exact rfl
  · generalize (if index = 0 then none else keys[index - 1]?) = key
    cases key with
    | none => exact rfl
    | some t => exact trivial

theorem callSources_benign {tables : List TableSymbol} {qualifier : Option String} :
    Benign (callSources env tables qualifier) := by
  unfold callSources
  split
  · exact trivial
  · split
    · exact trivial
    · exact rfl

theorem wildcardFields_benign {tables : List TableSymbol} {qualifier : Option String} :
    Benign (wildcardFields env tables qualifier) := by
  unfold wildcardFields
  split
  · exact trivial
  · split
    · exact trivial
    · exact rfl

theorem groupingOf_benign {distinct hasKeys hasAggregates hasHaving : Bool} :
    Benign (groupingOf distinct hasKeys hasAggregates hasHaving) := by
  unfold groupingOf
  split
  · split
    · exact rfl
    · exact trivial
  · split
    · exact trivial
    · split
      · exact trivial
      · split
        · exact rfl
        · exact trivial

theorem Benign.unless {x : Except ResolveError Unit} {p : Prop} [Decidable p] (h : Benign x) :
    Benign (if p then .ok () else x) := by
  split
  · exact trivial
  · exact h

mutual

theorem checkGrouped_benign {keys : List Term} : ∀ t : Term, Benign (checkGrouped keys t)
  | .literal .. | .groupField .. | .aggregate .. | .outputField .. | .tableColumn .. => by
    rw [checkGrouped]
    exact .unless trivial
  | .column .. => by
    rw [checkGrouped]
    exact .unless rfl
  | .property e .. | .unary _ e _ | .cast e .. | .nullAsFalse e _ => by
    rw [checkGrouped]
    exact (checkGrouped_benign e).unless
  | .binary _ left right _ => by
    rw [checkGrouped]
    exact .unless ((checkGrouped_benign left).bind fun _ _ => checkGrouped_benign right)
  | .call _ args _ | .list args _ => by
    rw [checkGrouped]
    exact (checkGroupedAll_benign args).unless
  | .case branches none _ => by
    rw [checkGrouped]
    exact (checkGroupedBranches_benign branches).unless
  | .case branches (some e) _ => by
    rw [checkGrouped]
    exact .unless ((checkGroupedBranches_benign branches).bind fun _ _ => checkGrouped_benign e)

theorem checkGroupedAll_benign {keys : List Term} : ∀ ts : List Term,
    Benign (checkGroupedAll keys ts)
  | [] => by
    rw [checkGroupedAll]
    exact trivial
  | t :: ts => by
    rw [checkGroupedAll]
    exact (checkGrouped_benign t).bind fun _ _ => checkGroupedAll_benign ts

theorem checkGroupedBranches_benign {keys : List Term} : ∀ bs : List (Term × Term),
    Benign (checkGroupedBranches keys bs)
  | [] => by
    rw [checkGroupedBranches]
    exact trivial
  | (c, r) :: bs => by
    rw [checkGroupedBranches]
    refine (checkGrouped_benign c).bind fun _ _ => ?_
    exact (checkGrouped_benign r).bind fun _ _ => checkGroupedBranches_benign bs

end

theorem renameCte_benign {name : String} {columns : List String} {q : BoundQuery} :
    Benign (renameCte name columns q) := by
  unfold renameCte
  split
  · exact trivial
  · split
    · exact rfl
    · exact trivial

theorem typeMismatch?_benign {ls rs : List Column} {index : Nat} {e : ResolveError}
    (h : typeMismatch? index ls rs = some e) : e.isInternal = false := by
  fun_induction typeMismatch? index ls rs with
  | case1 index l ls r rs htype ih => exact ih h
  | case2 index l ls r rs htype =>
    cases h
    rfl
  | case3 => cases h

theorem operandError?_benign {keys : List String} {left right : List Column} {e : ResolveError}
    (h : operandError? env keys left right = some e) : e.isInternal = false := by
  unfold operandError? at h
  split at h
  · cases h
    rfl
  · cases hmismatch : typeMismatch? 0 left right with
    | some e' =>
      rw [hmismatch] at h
      cases h
      exact typeMismatch?_benign hmismatch
    | none =>
      rw [hmismatch] at h
      obtain ⟨key, -, rfl⟩ := Option.map_eq_some_iff.1 h
      rfl

theorem bindOutputKey_benign {output : List Column} {item : OrderItem} :
    Benign (bindOutputKey env output item) := by
  unfold bindOutputKey
  dsimp only
  split
  · rw [pure_bind]
    split
    · exact trivial
    · exact rfl
  · rw [pure_bind]
    split
    · exact trivial
    · exact rfl
  · exact rfl

end Benign

/-! ## Expressions -/

section Expressions

variable (Named : String → Prop)

/-- The qualifiers of some columns are among the given names. -/
def QualifiersNamed (refs : List (Option String × String)) : Prop :=
  ∀ r ∈ refs, ∀ q, r.1 = some q → Named q

/-- A context of the scope `c` whose active source is among the given names. -/
structure Usable (c : Nat) (ctx : Context) : Prop where
  scope : ctx.scope = c
  active : ∀ a, ctx.aliasName = some a → Named a

/-- A step in the innermost open scope. -/
def InScope {α : Type} (c : Nat) (ids : List Nat) (x : Resolver α) : Prop :=
  Steady Named (c :: ids) (c :: ids) x fun _ => True

variable {Named} {c : Nat} {ids : List Nat} {ctx : Context}

theorem QualifiersNamed.mono {refs refs' : List (Option String × String)}
    (h : QualifiersNamed Named refs') (hle : refs ⊆ refs') : QualifiersNamed Named refs :=
  fun r hr => h r (hle hr)

theorem QualifiersNamed.left {refs refs' : List (Option String × String)}
    (h : QualifiersNamed Named (refs ++ refs')) : QualifiersNamed Named refs :=
  h.mono (List.subset_append_left _ _)

theorem QualifiersNamed.right {refs refs' : List (Option String × String)}
    (h : QualifiersNamed Named (refs ++ refs')) : QualifiersNamed Named refs' :=
  h.mono (List.subset_append_right _ _)

theorem Usable.ofScope : Usable Named c (.ofScope c) := ⟨rfl, fun _ h => by cases h⟩

theorem Usable.withClause (h : Usable Named c ctx) (clause : Clause) :
    Usable Named c (ctx.withClause clause) := ⟨h.scope, h.active⟩

theorem Usable.withGroupBy (h : Usable Named c ctx) (keys : List Term) :
    Usable Named c (ctx.withGroupBy keys) := ⟨h.scope, h.active⟩

theorem Usable.withAlias (h : Usable Named c ctx) {a : String} (ha : Named a) :
    Usable Named c (ctx.withAlias a) :=
  ⟨h.scope, fun _ hb => Option.some.inj hb ▸ ha⟩

theorem InScope.ofBenign {α : Type} {x : Except ResolveError α} (h : Benign x) :
    InScope Named c ids (ofExcept x) :=
  .ofExcept h.gives

theorem InScope.mapM {α β : Type} {f : α → Resolver β} {as : List α}
    (h : ∀ a ∈ as, InScope Named c ids (f a)) : InScope Named c ids (as.mapM f) :=
  (Steady.mapM h).mono fun _ _ => trivial

theorem InScope.optionM {α β : Type} {f : α → Resolver β} {o : Option α}
    (h : ∀ a ∈ o, InScope Named c ids (f a)) : InScope Named c ids (o.mapM f) := Steady.optionM h

theorem sourceTables_gives {s : Scopes} (hs : Tidy Named (c :: ids) s) (hctx : Usable Named c ctx) :
    Gives (Reportable Named) (sourceTables s ctx) fun _ => True := by
  unfold sourceTables
  split
  · exact trivial
  · rename_i a ha
    rw [hctx.scope]
    refine (hs.resolve_table (.inl (hctx.active a ha))).bind fun t htables => ?_
    exact (Gives.mapM fun a ha => hs.resolve_table (.inl (htables a ha))).mono (fun _ he => he)
      fun _ _ => trivial

theorem bindQualified_gives {s : Scopes} (hs : Tidy Named (c :: ids) s)
    (hctx : Usable Named c ctx) {tables : List TableSymbol} {qualifier name : String}
    (hq : Named qualifier) :
    Gives (Reportable Named) (bindQualified env s ctx tables qualifier name) fun _ => True := by
  unfold bindQualified
  split
  · split
    · exact trivial
    · exact Reportable.of_not_internal rfl
  · split
    · exact bindName_benign.gives.bind fun _ _ => bindProperty_benign.gives
    · rw [hctx.scope]
      refine (hs.tryResolve_table (.inl hq)).bind fun found _ => ?_
      cases found with
      | some t => exact Reportable.of_not_internal rfl
      | none => exact Reportable.of_not_internal rfl

theorem bindColumn_gives {s : Scopes} (hs : Tidy Named (c :: ids) s) (hctx : Usable Named c ctx)
    {table : Option String} {name : String} (hq : ∀ q, table = some q → Named q) :
    Gives (Reportable Named) (bindColumn env s ctx table name) fun _ => True := by
  cases table with
  | none => exact (sourceTables_gives hs hctx).bind fun _ _ => bindName_benign.gives
  | some q =>
    exact (sourceTables_gives hs hctx).bind fun _ _ => bindQualified_gives hs hctx (hq q rfl)

theorem bindAggregate_inScope (hctx : Usable Named c ctx) {schema : Option String}
    {resolved : ResolvedAggregate} {args : List Term} :
    InScope Named c ids (bindAggregate ctx schema resolved args) := by
  unfold bindAggregate
  dsimp only
  split
  · exact .throw_bind (.of_not_internal rfl)
  · split
    · exact .throw (.of_not_internal rfl)
    · rename_i a ha
      refine Steady.bind (.onScopes fun s hs => ?_) fun _ _ => .pure trivial
      rw [hctx.scope]
      exact hs.register a _

theorem bindCall_inScope (hctx : Usable Named c ctx) {qualifier : Option String} {name : String}
    {steps : List (Context → Resolver Term)}
    (hsteps : ∀ b ∈ steps, ∀ ctx, Usable Named c ctx → InScope Named c ids (b ctx)) :
    InScope Named c ids (bindCall env qualifier name steps ctx) := by
  unfold bindCall
  refine Steady.bind (.readScopes fun s hs => sourceTables_gives hs hctx) fun tables _ => ?_
  refine Steady.bind (.ofExcept callSources_benign.gives) fun sources _ => ?_
  dsimp only
  refine Steady.bind (InScope.mapM fun b hb => hsteps b hb _ ?_) fun args _ => ?_
  · split
    · exact hctx.withClause _
    · exact hctx
  · split
    · exact bindAggregate_inScope hctx
    · exact .pure trivial
    · exact .throw (.of_not_internal rfl)

theorem bindBranch_inScope {condition result : Context → Resolver Term}
    (hc : InScope Named c ids (condition ctx)) (hr : InScope Named c ids (result ctx)) :
    InScope Named c ids (bindBranch ctx condition result) := by
  unfold bindBranch
  refine hc.bind fun t _ => ?_
  refine Steady.bind (.ofExcept predicateTerm_benign.gives) fun p _ => ?_
  exact hr.bind fun _ _ => .pure trivial

theorem bindCase_inScope
    {branches : List ((Context → Resolver Term) × (Context → Resolver Term))}
    {otherwise : Option (Context → Resolver Term)}
    (hbranches : ∀ p ∈ branches, InScope Named c ids (p.1 ctx) ∧ InScope Named c ids (p.2 ctx))
    (hotherwise : ∀ b ∈ otherwise, InScope Named c ids (b ctx)) :
    InScope Named c ids (bindCase env branches otherwise ctx) := by
  unfold bindCase
  refine Steady.bind (InScope.mapM fun p hp => ?_) fun _ _ => ?_
  · exact bindBranch_inScope (hbranches p hp).1 (hbranches p hp).2
  · exact Steady.bind (InScope.optionM hotherwise) fun _ _ => .pure trivial

/-- A step that is followed by a computation that fails with errors about the query. -/
theorem InScope.followedBy {α β : Type} {x : Resolver α} {f : α → Except ResolveError β}
    (h : InScope Named c ids x) (hf : ∀ a, Benign (f a)) :
    InScope Named c ids (do ofExcept (f (← x))) :=
  h.bind fun a _ => .ofExcept (hf a).gives

mutual

theorem bindExpr_inScope : ∀ e : Expr, QualifiersNamed Named e.references →
    ∀ ctx, Usable Named c ctx → InScope Named c ids (bindExpr env e ctx)
  | .literal v, _, ctx, _ => by
    rw [bindExpr]
    exact .pure trivial
  | .identifier name, _, ctx, hctx => by
    rw [bindExpr]
    refine .readScopes fun s hs => ?_
    exact (sourceTables_gives hs hctx).bind fun _ _ => bindName_benign.gives
  | .column table name, hnames, ctx, hctx => by
    rw [bindExpr]
    exact .readScopes fun s hs => bindColumn_gives hs hctx (hnames _ (List.mem_singleton_self _))
  | .property base name, hnames, ctx, hctx => by
    rw [bindExpr]
    exact (bindExpr_inScope base hnames ctx hctx).followedBy fun _ => bindProperty_benign
  | .binary op left right, hnames, ctx, hctx => by
    rw [bindExpr]
    refine (bindExpr_inScope left hnames.left ctx hctx).bind fun l _ => ?_
    exact (bindExpr_inScope right hnames.right ctx hctx).followedBy fun _ => binaryTerm_benign
  | .unary op operand, hnames, ctx, hctx => by
    rw [bindExpr]
    exact (bindExpr_inScope operand hnames ctx hctx).followedBy fun _ => unaryTerm_benign
  | .call qualifier name args, hnames, ctx, hctx => by
    rw [bindExpr]
    exact bindCall_inScope hctx (bindAll_inScope args hnames)
  | .case conditions results none, hnames, ctx, hctx => by
    rw [bindExpr]
    refine bindCase_inScope (fun p hp => ?_) (by simp)
    obtain ⟨hc, hr⟩ := List.of_mem_zip hp
    exact ⟨bindAll_inScope conditions hnames.left p.1 hc ctx hctx,
      bindAll_inScope results hnames.right p.2 hr ctx hctx⟩
  | .case conditions results (some e), hnames, ctx, hctx => by
    rw [bindExpr]
    refine bindCase_inScope (fun p hp => ?_) ?_
    · obtain ⟨hc, hr⟩ := List.of_mem_zip hp
      exact ⟨bindAll_inScope conditions hnames.left.left p.1 hc ctx hctx,
        bindAll_inScope results hnames.left.right p.2 hr ctx hctx⟩
    · rintro b ⟨⟩
      exact bindExpr_inScope e hnames.right ctx hctx
  | .cast operand typeName, hnames, ctx, hctx => by
    rw [bindExpr]
    exact (bindExpr_inScope operand hnames ctx hctx).followedBy fun _ => castTerm_benign
  | .paren inner, hnames, ctx, hctx => by
    rw [bindExpr]
    exact bindExpr_inScope inner hnames ctx hctx
  | .list items, hnames, ctx, hctx => by
    rw [bindExpr]
    refine Steady.bind (InScope.mapM fun b hb => ?_) fun _ _ => .pure trivial
    exact bindAll_inScope items hnames b hb ctx hctx
  | .fieldLink index, _, ctx, _ => by
    rw [bindExpr]
    exact .ofBenign fieldLinkTerm_benign

theorem bindAll_inScope : ∀ es : List Expr, QualifiersNamed Named (Expr.referencesAll es) →
    ∀ b ∈ bindAll env es, ∀ ctx, Usable Named c ctx → InScope Named c ids (b ctx)
  | [], _ => by simp [bindAll]
  | e :: es, hnames => by
    intro b hb
    rw [bindAll] at hb
    rcases List.mem_cons.1 hb with rfl | hb
    · exact bindExpr_inScope e hnames.left
    · exact bindAll_inScope es hnames.right b hb

end

theorem bindPredicate_inScope {e : Expr} (hnames : QualifiersNamed Named e.references)
    (hctx : Usable Named c ctx) : InScope Named c ids (bindPredicate env e ctx) :=
  (bindExpr_inScope e hnames ctx hctx).followedBy fun _ => predicateTerm_benign

/-! ## Select blocks -/

theorem bindItem_inScope (hctx : Usable Named c ctx) {item : SelectItem}
    (hnames : QualifiersNamed Named item.references) :
    InScope Named c ids (bindItem env ctx item) := by
  have hwildcard (q : Option String) : InScope Named c ids (readScopes fun scopes => do
      wildcardFields env (← sourceTables scopes ctx) q) := by
    refine .readScopes fun s hs => ?_
    exact (sourceTables_gives hs hctx).bind fun _ _ => wildcardFields_benign.gives
  cases item with
  | expr e => exact (bindExpr_inScope e hnames ctx hctx).bind fun _ _ => .pure trivial
  | aliased e a => exact (bindExpr_inScope e hnames ctx hctx).bind fun _ _ => .pure trivial
  | wildcard => exact hwildcard none
  | qualifiedWildcard q => exact hwildcard (some q)

theorem bindFields_inScope (hctx : Usable Named c ctx) {items : List SelectItem}
    (hnames : ∀ item ∈ items, QualifiersNamed Named item.references) :
    InScope Named c ids (bindFields env ctx items) := by
  refine Steady.bind (InScope.mapM fun item hitem => ?_) fun _ _ => .pure trivial
  exact bindItem_inScope hctx (hnames item hitem)

theorem bindSortKey_inScope (hctx : Usable Named c ctx) {projection : List SelectItem}
    {fields : List Field} {item : OrderItem} (hnames : QualifiersNamed Named item.expr.references) :
    InScope Named c ids (bindSortKey env ctx projection fields item) := by
  unfold bindSortKey
  dsimp only
  split
  · exact .pure trivial
  · exact (bindExpr_inScope item.expr hnames ctx hctx).bind fun _ _ => .pure trivial

theorem bindBlock_inScope (w : WrittenBlock) {source : BoundSource}
    (hnames : QualifiersNamed Named w.references) (hsource : Named source.aliasName) :
    InScope Named c ids (bindBlock env c w.select source w.orderBy) := by
  have hctx := (Usable.ofScope (c := c)).withAlias hsource
  have hclause {e : Expr} (he : e ∈ w.clauses) : QualifiersNamed Named e.references :=
    hnames.mono (w.clause_references_subset he)
  have hkeys : QualifiersNamed Named (Expr.referencesAll w.select.groupBy) := by
    rw [Expr.referencesAll_eq]
    intro r hr
    obtain ⟨e, he, hr⟩ := List.mem_flatMap.1 hr
    exact hclause (by simp [WrittenBlock.clauses, he]) r hr
  unfold bindBlock
  refine Steady.bind (InScope.optionM fun e he => ?filter) fun filter _ => ?_
  case filter =>
    exact bindPredicate_inScope (hclause (by simp_all [WrittenBlock.clauses])) (hctx.withClause _)
  refine Steady.bind (InScope.mapM fun b hb => bindAll_inScope _ hkeys b hb _ (hctx.withClause _))
    fun written _ => ?_
  have hgrouped := hctx.withGroupBy written
  refine Steady.bind (bindFields_inScope (hgrouped.withClause _) fun item hitem =>
    hnames.mono (w.item_references_subset hitem)) fun fields _ => ?_
  refine Steady.bind (InScope.optionM fun e he => ?having) fun having _ => ?_
  case having =>
    exact bindPredicate_inScope (hclause (by simp_all [WrittenBlock.clauses]))
      (hgrouped.withClause _)
  refine Steady.bind (InScope.mapM fun item hitem => ?order) fun order _ => ?_
  case order =>
    exact bindSortKey_inScope (hgrouped.withClause _)
      (hclause (by simp [WrittenBlock.clauses, List.mem_map_of_mem hitem]))
  refine Steady.bind (.ofExcept groupingOf_benign.gives) fun grouping _ => ?_
  dsimp only
  split
  · exact Steady.bind (.ofExcept (checkGroupedAll_benign _).gives) fun _ _ => .pure trivial
  · exact .pure trivial

end Expressions

/-! ## Sources -/

section Sources

variable (env) (Named : String → Prop)

/-- The names that resolution makes up are among the given ones. -/
structure MadeUp : Prop where
  fresh : ∀ n : Nat, Named (env.config.autoAliasPrefix ++ toString n)
  joined : ∀ left right, Named left → Named right → Named (left ++ "+" ++ right)

/-- The alias of a bound source and those of the tables in it are among the given names. -/
structure NamedSource (b : BoundSource) : Prop where
  aliasName : Named b.aliasName
  leaves : ∀ a ∈ b.leafAliases, Named a

variable {env Named} {c : Nat} {ids : List Nat} {ctx : Context}

theorem aliasOr_steady (hmade : MadeUp env Named) {aliasName : Option String}
    (ha : ∀ a ∈ aliasName, Named a) :
    Steady Named ids ids (aliasOr env aliasName) fun a => Named a.1 := by
  cases aliasName with
  | some a => exact .pure (ha a rfl)
  | none => exact fun s hs => ⟨hs, hmade.fresh s.nextAlias⟩

theorem addTable_inScope {t : TableSymbol} (ht : Named t.aliasName)
    (htables : ∀ a ∈ t.compoundTables, Named a) : InScope Named c ids (addTable c t) :=
  .onScopes fun _ hs => hs.add ⟨.inl ht, htables⟩

/-- A source that is no join or apply is bound as a plain table. -/
theorem addLeaf_steady (hctx : Usable Named c ctx) {a : String} (ha : Named a)
    {origin : TableOrigin} {columns : List Column} {explicit : Bool} {rowType : DataType}
    {b : BoundSource} (halias : b.aliasName = a) (hleaves : b.leafAliases = [a]) :
    Steady Named (c :: ids) (c :: ids) (do
      addTable ctx.scope (.plain a origin columns explicit rowType)
      return b) (NamedSource Named) := by
  have hself : ∀ n ∈ [a], Named n := List.forall_mem_singleton.2 ha
  rw [hctx.scope]
  exact Steady.bind (addTable_inScope ha hself) fun _ _ => .pure ⟨halias ▸ ha, hleaves ▸ hself⟩

theorem requestError_isInternal (s : Schema) (method : String) (e : CatalogError) :
    (requestError env s method e).isInternal = false := by
  cases e <;> rfl

theorem requestColumns_inScope {s : Schema} {method : String} {context : TableContext}
    {args : List Term} : InScope Named c ids (requestColumns env s method context args) := by
  unfold requestColumns
  refine Steady.bind (Q := fun _ => True) (fun _ hs => ⟨hs, trivial⟩) fun _ _ => ?_
  split
  · exact .pure trivial
  · exact .throw (.of_not_internal (requestError_isInternal s method _))

theorem bindSchemaSource_steady (hmade : MadeUp env Named) (hctx : Usable Named c ctx)
    {usage : ColumnUsage} {schema method : String} {args : List Expr} {aliasName : Option String}
    (ha : ∀ a ∈ aliasName, Named a) (hnames : QualifiersNamed Named (Expr.referencesAll args)) :
    Steady Named (c :: ids) (c :: ids) (bindSchemaSource env usage schema method args aliasName ctx)
      (NamedSource Named) := by
  unfold bindSchemaSource
  split
  · exact .throw (.of_not_internal rfl)
  · refine Steady.bind (InScope.mapM fun b hb => ?_) fun args _ => ?_
    · exact bindAll_inScope args hnames b hb _ (hctx.withClause _)
    · refine (aliasOr_steady hmade ha).bind fun a ha => ?_
      refine Steady.bind requestColumns_inScope fun columns _ => ?_
      exact addLeaf_steady hctx ha rfl rfl

theorem memoryTable_gives {s : Scopes} (hs : Tidy Named (c :: ids) s) {name : String} :
    Gives (Reportable Named) (memoryTable env s name c) fun _ => True := by
  refine (hs.tryResolve_table (.inr ⟨name, rfl⟩)).bind fun found _ => ?_
  cases found with
  | some cte => exact trivial
  | none =>
    dsimp only
    split
    · exact trivial
    · exact hs.visibleTables.gives.bind fun _ _ => Gives.throw (.of_not_internal rfl)

theorem bindMemorySource_steady (hctx : Usable Named c ctx) {name : String}
    {aliasName : Option String} (ha : Named (aliasName.getD name)) :
    Steady Named (c :: ids) (c :: ids) (bindMemorySource env name aliasName ctx)
      (NamedSource Named) := by
  unfold bindMemorySource
  refine Steady.bind (.readScopes (Q := fun _ => True) fun s hs => ?_) fun _ _ => ?_
  · rw [hctx.scope]
    exact memoryTable_gives hs
  · exact addLeaf_steady hctx ha rfl rfl

theorem bindSubquerySource_steady (hmade : MadeUp env Named) (hctx : Usable Named c ctx)
    {query : BoundQuery} {aliasName : Option String} (ha : ∀ a ∈ aliasName, Named a) :
    Steady Named (c :: ids) (c :: ids) (bindSubquerySource env query aliasName ctx)
      (NamedSource Named) := by
  unfold bindSubquerySource
  exact (aliasOr_steady hmade ha).bind fun a ha => addLeaf_steady hctx ha rfl rfl

theorem markNullable_inScope (hctx : Usable Named c ctx) {b : BoundSource}
    (hb : NamedSource Named b) : InScope Named c ids (markNullable b ctx.scope) := by
  rw [hctx.scope]
  exact .onScopes fun _ hs => .foldlM hs fun _ a ha hs => hs.markNullable (hb.leaves a ha)

theorem compose_steady (hmade : MadeUp env Named) {left right : BoundSource}
    (hleft : NamedSource Named left) (hright : NamedSource Named right) :
    Steady Named (c :: ids) (c :: ids) (compose left right c) fun a =>
      Named a ∧ ∀ b ∈ left.leafAliases ++ right.leafAliases, Named b := by
  have hleaves : ∀ b ∈ left.leafAliases ++ right.leafAliases, Named b :=
    List.forall_mem_append.2 ⟨hleft.leaves, hright.leaves⟩
  have hname := hmade.joined _ _ hleft.aliasName hright.aliasName
  exact Steady.bind (addTable_inScope hname hleaves) fun _ _ => .pure ⟨hname, hleaves⟩

theorem bindJoin_steady (hmade : MadeUp env Named) (hctx : Usable Named c ctx) {kind : JoinKind}
    {left right : BoundSource} (hleft : NamedSource Named left) (hright : NamedSource Named right)
    {condition : Expr} (hnames : QualifiersNamed Named condition.references) :
    Steady Named (c :: ids) (c :: ids) (bindJoin env kind left right condition ctx)
      (NamedSource Named) := by
  have hrest : Steady Named (c :: ids) (c :: ids) (do
      let aliasName ← compose left right ctx.scope
      let condition ←
        bindPredicate env condition ((ctx.withAlias aliasName).withClause .joinCondition)
      return BoundSource.join aliasName kind left right condition) (NamedSource Named) := by
    rw [hctx.scope]
    refine (compose_steady hmade hleft hright).bind fun a ha => ?_
    refine Steady.bind (bindPredicate_inScope hnames ((hctx.withAlias ha.1).withClause _)) ?_
    exact fun _ _ => .pure ⟨ha.1, ha.2⟩
  unfold bindJoin
  cases kind with
  | inner => exact hrest
  | leftOuter => exact Steady.bind (markNullable_inScope hctx hright) fun _ _ => hrest
  | rightOuter => exact Steady.bind (markNullable_inScope hctx hleft) fun _ _ => hrest

theorem bindApply_steady (hmade : MadeUp env Named) (hctx : Usable Named c ctx) {kind : ApplyKind}
    {left right : BoundSource} (hleft : NamedSource Named left) (hright : NamedSource Named right) :
    Steady Named (c :: ids) (c :: ids) (bindApply kind left right ctx) (NamedSource Named) := by
  have hrest : Steady Named (c :: ids) (c :: ids) (do
      let aliasName ← compose left right ctx.scope
      return BoundSource.apply aliasName kind left right) (NamedSource Named) := by
    rw [hctx.scope]
    exact (compose_steady hmade hleft hright).bind fun a ha => .pure ⟨ha.1, ha.2⟩
  unfold bindApply
  dsimp only
  split
  · exact Steady.bind (markNullable_inScope hctx hright) fun _ _ => hrest
  · exact hrest

theorem addCte_inScope {name : String} (hname : Named name) {columns : List Column} :
    InScope Named c ids (addCte c name columns) :=
  .onScopes fun _ hs => hs.add ⟨.inr ⟨name, rfl⟩, fun _ hb => List.mem_singleton.1 hb ▸ hname⟩

theorem checkOperands_inScope {keys : List String} {left right : BoundQuery} :
    InScope Named c ids (checkOperands env keys left right) := by
  unfold checkOperands
  split
  · rename_i e he
    exact .throw (.of_not_internal (operandError?_benign he))
  · exact .pure trivial

end Sources

/-! ## Queries -/

end Resolve

mutual

/-- The names that a query gives to tables or writes before a dot, in nested queries too. -/
def Query.names : Query → List String
  | ⟨body, orderBy, _, _, ctes⟩ => Query.namesOfCtes ctes ++ body.names orderBy

def Query.namesOfCtes : List Cte → List String
  | [] => []
  | ⟨name, _, query⟩ :: rest => name :: query.names ++ Query.namesOfCtes rest

def QueryBody.names (orderBy : List OrderItem) : QueryBody → List String
  | .select ⟨_, _, none, _, _, _⟩ => []
  | .select ⟨distinct, projection, some source, filter, groupBy, having⟩ =>
    let w : WrittenBlock := ⟨⟨distinct, projection, some source, filter, groupBy, having⟩, orderBy⟩
    w.references.filterMap (·.1) ++ source.names
  | .setOperation _ left right _ => left.names ++ right.names

def Source.names : Source → List String
  | .schema _ _ _ aliasName => aliasName.toList
  -- without an alias a table in memory is addressed by its own name
  | .inMemory name aliasName => [aliasName.getD name]
  | .subquery query aliasName => aliasName.toList ++ query.names
  | .join _ left right _ | .apply _ left right => left.names ++ right.names

end

namespace Resolve

section Queries

variable {Named : String → Prop} {c : Nat} {ids : List Nat}

mutual

theorem bindQuery_inScope (hmade : MadeUp env Named) : ∀ q : Query, (∀ n ∈ q.names, Named n) →
    ∀ c ids, InScope Named c ids (bindQuery env q)
  | ⟨body, orderBy, skip, take, ctes⟩, hnames, c, ids => by
    rw [Query.names, List.forall_mem_append] at hnames
    rw [bindQuery]
    refine Steady.bind (.readScopes (Q := fun scope => scope = c) fun s hs => ?_) ?_
    · rw [hs.requireCurrent]
      exact rfl
    · rintro _ rfl
      refine Steady.bind (bindCtes_inScope hmade ctes hnames.1 _ _) fun _ _ => ?_
      exact Steady.bind (bindBody_inScope hmade body orderBy hnames.2 _ _) fun _ _ => .pure trivial

theorem bindCtes_inScope (hmade : MadeUp env Named) : ∀ ctes : List Cte,
    (∀ n ∈ Query.namesOfCtes ctes, Named n) → ∀ c ids, InScope Named c ids (bindCtes env c ctes)
  | [], _, c, ids => by
    rw [bindCtes]
    exact .pure trivial
  | ⟨name, columns, query⟩ :: rest, hnames, c, ids => by
    rw [Query.namesOfCtes, List.forall_mem_append, List.forall_mem_cons] at hnames
    rw [bindCtes]
    refine .enterScope _ _ fun n => ?_
    refine Steady.bind (bindQuery_inScope hmade query hnames.1.2 _ _) fun _ _ => ?_
    refine Steady.bind .leaveScope fun _ _ => ?_
    refine Steady.bind (.ofExcept renameCte_benign.gives) fun _ _ => ?_
    refine Steady.bind (addCte_inScope hnames.1.1) fun _ _ => ?_
    exact Steady.bind (bindCtes_inScope hmade rest hnames.2 _ _) fun _ _ => .pure trivial

theorem bindBody_inScope (hmade : MadeUp env Named) : ∀ (body : QueryBody)
    (orderBy : List OrderItem), (∀ n ∈ body.names orderBy, Named n) →
    ∀ c ids, InScope Named c ids (bindBody env c orderBy body)
  | .select ⟨_, _, none, _, _, _⟩, orderBy, _, c, ids => by
    rw [bindBody]
    exact .throw (.of_not_internal rfl)
  | .select ⟨distinct, projection, some source, filter, groupBy, having⟩, orderBy, hnames, c,
      ids => by
    let w : WrittenBlock := ⟨⟨distinct, projection, some source, filter, groupBy, having⟩, orderBy⟩
    rw [QueryBody.names, List.forall_mem_append] at hnames
    have hrefs : QualifiersNamed Named w.references :=
      fun r hr q hq => hnames.1 q (List.mem_filterMap.2 ⟨r, hr, hq⟩)
    rw [bindBody]
    refine Steady.bind (bindSource_steady hmade source (hrefs.mono (w.source_references_subset rfl))
      hnames.2 _ _ _ _ .ofScope) fun b hb => ?_
    exact Steady.bind (bindBlock_inScope w hrefs hb.aliasName) fun _ _ => .pure trivial
  | .setOperation operator left right keys, orderBy, hnames, c, ids => by
    rw [QueryBody.names, List.forall_mem_append] at hnames
    rw [bindBody]
    dsimp only
    split
    · exact .throw_bind (.of_not_internal rfl)
    · refine .enterScope _ _ fun n => ?_
      refine .enterScope _ _ fun l => ?_
      refine Steady.bind (bindQuery_inScope hmade left hnames.1 _ _) fun _ _ => ?_
      refine Steady.bind .leaveScope fun _ _ => ?_
      refine .enterScope _ _ fun r => ?_
      refine Steady.bind (bindQuery_inScope hmade right hnames.2 _ _) fun _ _ => ?_
      refine Steady.bind .leaveScope fun _ _ => ?_
      refine Steady.bind .leaveScope fun _ _ => ?_
      refine Steady.bind checkOperands_inScope fun _ _ => ?_
      refine Steady.bind (.ofExcept (Benign.gives ?_)) fun _ _ => .pure trivial
      exact (Gives.mapM fun _ _ => bindOutputKey_benign).mono (fun _ he => he) fun _ _ => trivial

theorem bindSource_steady (hmade : MadeUp env Named) : ∀ src : Source,
    QualifiersNamed Named src.references → (∀ n ∈ src.names, Named n) →
    ∀ usage c ids ctx, Usable Named c ctx →
      Steady Named (c :: ids) (c :: ids) (bindSource env usage src ctx) (NamedSource Named)
  | .schema schema method args aliasName, hrefs, hnames, usage, c, ids, ctx, hctx => by
    rw [bindSource]
    exact bindSchemaSource_steady hmade hctx
      (fun a ha => hnames a (by simpa [Source.names] using ha)) hrefs
  | .inMemory name aliasName, _, hnames, usage, c, ids, ctx, hctx => by
    rw [bindSource]
    exact bindMemorySource_steady hctx (hnames _ (by simp [Source.names]))
  | .subquery query aliasName, _, hnames, usage, c, ids, ctx, hctx => by
    rw [Source.names, List.forall_mem_append] at hnames
    rw [bindSource]
    refine .enterScope _ _ fun n => ?_
    refine Steady.bind (bindQuery_inScope hmade query hnames.2 _ _) fun _ _ => ?_
    refine Steady.bind .leaveScope fun _ _ => ?_
    exact bindSubquerySource_steady hmade hctx fun a ha => hnames.1 a (by simpa using ha)
  | .join kind left right condition, hrefs, hnames, usage, c, ids, ctx, hctx => by
    rw [Source.names, List.forall_mem_append] at hnames
    rw [bindSource]
    refine (bindSource_steady hmade left hrefs.left.left hnames.1 _ _ _ _ hctx).bind fun l hl => ?_
    refine (bindSource_steady hmade right hrefs.left.right hnames.2 _ _ _ _ hctx).bind
      fun r hr => ?_
    exact bindJoin_steady hmade hctx hl hr hrefs.right
  | .apply kind left right, hrefs, hnames, usage, c, ids, ctx, hctx => by
    rw [Source.names, List.forall_mem_append] at hnames
    rw [bindSource]
    refine (bindSource_steady hmade left hrefs.left hnames.1 _ _ _ _ hctx).bind fun l hl => ?_
    refine (bindSource_steady hmade right hrefs.right hnames.2 _ _ _ _
      (hctx.withAlias hl.aliasName)).bind fun r hr => ?_
    exact bindApply_steady hmade hctx hl hr

end

/-- From no open scope a query is bound, and no scope is left open. -/
theorem analyzeQuery_steady (hmade : MadeUp env Named) {q : Query}
    (hnames : ∀ n ∈ q.names, Named n) :
    Steady Named [] [] (analyzeQuery env q) fun _ => True := by
  refine .enterScope _ _ fun n => ?_
  refine Steady.bind (bindQuery_inScope hmade q hnames n []) fun _ _ => ?_
  exact Steady.bind .leaveScope fun _ _ => .pure trivial

/-- Made-up names are no keys of updates. Here a name is any text but such a key, and the keys are
    names too if the query writes one. -/
theorem madeUp_of_names (env : Env) (q : Query) :
    MadeUp env fun k => (∃ n ∈ q.names, ∃ a, n = refreshKey a) ∨ ∀ a, k ≠ refreshKey a where
  fresh := fun n => .inr fun a => numbered_ne_refreshKey _ a n
  joined := by
    rintro left right - (hwritten | hright)
    · exact .inl hwritten
    · refine .inr fun a h => ?_
      obtain ⟨b, hb⟩ := eq_refreshKey_of_joined h
      exact hright b hb

/-- Resolution never misses a scope, and when it succeeds no scope is left open. It meets a symbol
    of an unexpected kind only if the query writes a key of updates for a name, which no name
    without a number sign is. -/
theorem analyze_noInternalError (env : Env) (q : Query) :
    (∀ what, (analyze env q).1 ≠ .error (.invalidScope what)) ∧
    (∀ a kind, (analyze env q).1 = .error (.unexpectedSymbolKind a kind) →
      ∃ n ∈ q.names, ∃ b, n = refreshKey b) ∧
    ∀ analysis, (analyze env q).1 = .ok analysis → analysis.scopes.current = none := by
  have hnames : ∀ n ∈ q.names,
      (∃ n ∈ q.names, ∃ a, n = refreshKey a) ∨ ∀ a, n ≠ refreshKey a := by
    intro n hn
    by_cases hkey : ∃ a, n = refreshKey a
    · exact .inl ⟨n, hn, hkey⟩
    · exact .inr fun a ha => hkey ⟨a, ha⟩
  have hrun := analyzeQuery_steady (madeUp_of_names env q) hnames .initial .empty
  unfold analyze EStateM.run
  cases hresult : analyzeQuery env q .initial with
  | ok bound s =>
    rw [hresult] at hrun
    refine ⟨by simp, by simp, ?_⟩
    rintro analysis ⟨⟩
    exact hrun.1.current
  | error e s =>
    rw [hresult] at hrun
    refine ⟨?_, ?_, by simp⟩
    · rintro what ⟨⟩
      exact hrun.scope what rfl
    · rintro a kind ⟨⟩
      obtain ⟨b, hwritten | hb⟩ := hrun.kind a kind rfl
      · exact hwritten
      · exact absurd rfl (hb b)

/-- Stands for ``select Sum(Population), `a#refresh`.Name from #A.entities() a`` -/
def readUpdates : Query :=
  .ofSelect (((Select.empty.addExpr Sample.totalPopulation).addExpr
    (.ofColumn "a#refresh" "Name")).withSource (Sample.entitiesAs "a"))

/-- A key of updates that is written as a qualifier does meet the updates. A set operator over two
    blocks, on the other hand, closes all of its scopes. -/
theorem analyze_noInternalError_readUpdates :
    (analyze ⟨Sample.catalog, default⟩ readUpdates).1 =
        .error (.unexpectedSymbolKind "a#refresh" "table") ∧
      (∃ n ∈ readUpdates.names, ∃ b, n = refreshKey b) ∧
      ∃ analysis, (analyze ⟨Sample.catalog, default⟩ (Sample.combined .union)).1 = .ok analysis ∧
        analysis.scopes.all.length = 4 ∧ analysis.scopes.current = none := by
  have hmet : (analyze ⟨Sample.catalog, default⟩ readUpdates).1 =
      .error (.unexpectedSymbolKind "a#refresh" "table") := by
    rfl
  obtain ⟨analysis, requests, h, hcheck⟩ := exists_ok_of_check
    (analyze ⟨Sample.catalog, default⟩ (Sample.combined .union))
    (fun a => decide (a.scopes.all.length = 4)) (by decide +kernel)
  have hok := congrArg Prod.fst h
  exact ⟨hmet, (analyze_noInternalError _ readUpdates).2.1 _ _ hmet, analysis, hok,
    of_decide_eq_true hcheck, (analyze_noInternalError _ _).2.2 analysis hok⟩

end Queries

end Resolve

end SchemaQuery
