-- SUMMARY: Binding an expression gives a term over the active tables.
import SchemaQuery.Proofs.Resolve.Call
import SchemaQuery.Resolve.Expr

/-!
# Bound expressions

One lemma for each form of expression says that binding it is sound when binding
its parts is; `bindExpr_sound` puts them together by induction over expressions.
-/

namespace SchemaQuery

theorem TableSymbol.column?_name {t : TableSymbol} {n : String} {c : Column}
    (h : t.column? n = some c) : c.name = n := by
  obtain ⟨c', hfind, rfl⟩ := Option.map_eq_some_iff.1 h
  have hname : c'.name = n := by simpa using List.find?_some hfind
  unfold TableSymbol.view
  split
  · exact hname
  · exact hname

namespace Term

theorem aggregates_asPredicate (t : Term) : t.asPredicate.aggregates = t.aggregates := by
  have hwrap (u : Term) (type : DataType) : (nullAsFalse u type).aggregates = u.aggregates := by
    rw [aggregates_of_children rfl]
    simp [children]
  unfold asPredicate
  split
  · rfl
  · split
    · exact hwrap t _
    · rfl

theorem resolvedIn_asPredicate {tables : List TableSymbol} {t : Term}
    (h : ∀ u ∈ t.subterms, u.ResolvedIn tables) :
    ∀ u ∈ t.asPredicate.subterms, u.ResolvedIn tables := by
  unfold asPredicate
  split
  · exact h
  · split
    · refine forall_subterms.2 ⟨trivial, ?_⟩
      intro c hc
      obtain rfl := List.mem_singleton.1 hc
      exact h
    · exact h

end Term

namespace Resolve

variable {env : Env} {ctx : Context} {tables : List TableSymbol} {s s' : State}

/-! ## Literals and names -/

theorem bindName_bound {name : String} {t : Term} (h : bindName env tables name = .ok t) :
    BoundAll ctx tables [t] s s := by
  unfold bindName at h
  split at h
  · cases h
  · rename_i owner c howners
    simp only [Except.ok.injEq] at h
    subst h
    have hmem : (owner, c) ∈ owners tables name := by simp [howners]
    obtain ⟨t', -, hc⟩ := List.mem_filterMap.1 hmem
    obtain ⟨c', hcolumn, hpair⟩ := Option.map_eq_some_iff.1 hc
    cases hpair
    obtain rfl := TableSymbol.column?_name hcolumn
    exact .leaf s rfl rfl ⟨owner, howners, rfl⟩
  · cases h

theorem bindProperty_eq_ok {base t : Term} {name : String} (h : bindProperty env base name = .ok t) :
    ∃ type, t = .property base name type := by
  unfold bindProperty at h
  simp only at h
  split at h
  · split at h
    · simp only [Except.ok.injEq] at h
      exact ⟨_, h.symm⟩
    · cases h
  · cases h

theorem bindProperty_bound {base t : Term} {name : String}
    (hbase : BoundAll ctx tables [base] s s') (h : bindProperty env base name = .ok t) :
    BoundAll ctx tables [t] s s' := by
  obtain ⟨type, rfl⟩ := bindProperty_eq_ok h
  exact .node hbase rfl trivial

theorem bindQualified_bound {scopes : Scopes} {qualifier name : String} {t : Term}
    (h : bindQualified env scopes ctx tables qualifier name = .ok t) :
    BoundAll ctx tables [t] s s := by
  unfold bindQualified at h
  split at h
  · rename_i owner howner
    split at h
    · rename_i c hcolumn
      simp only [Except.ok.injEq] at h
      subst h
      obtain rfl := TableSymbol.column?_name hcolumn
      refine .leaf s rfl rfl ⟨owner, ?_, hcolumn⟩
      have halias : owner.aliasName = qualifier := by simpa using List.find?_some howner
      rw [halias]
      exact howner
    · cases h
  · split at h
    · obtain ⟨base, hbase, hproperty⟩ := except_bind_ok.1 h
      exact bindProperty_bound (bindName_bound hbase) hproperty
    · obtain ⟨found, -, h⟩ := except_bind_ok.1 h
      split at h <;> cases h

-- Each form of expression below opens the binder: its equations are generated once, here.
attribute [local simp] bindExpr bindAll

theorem literal_sound (v : Literal) : BindsSoundly (bindExpr env (.literal v)) := by
  intro ctx tables s s' t _ _ _ h
  simp only [bindExpr, run_pure_ok] at h
  obtain ⟨rfl, rfl⟩ := h
  exact .leaf s rfl rfl trivial

theorem identifier_sound (name : String) : BindsSoundly (bindExpr env (.identifier name)) := by
  intro ctx tables s s' t hs hactive _ h
  simp only [bindExpr, run_readScopes_ok, bindIdentifier, hactive.sourceTables_eq hs] at h
  obtain ⟨h, rfl⟩ := h
  exact bindName_bound h

theorem column_sound (table : Option String) (name : String) :
    BindsSoundly (bindExpr env (.column table name)) := by
  intro ctx tables s s' t hs hactive _ h
  simp only [bindExpr, run_readScopes_ok] at h
  obtain ⟨h, rfl⟩ := h
  cases table with
  | none =>
    simp only [bindColumn, bindIdentifier, hactive.sourceTables_eq hs] at h
    exact bindName_bound h
  | some q =>
    simp only [bindColumn, hactive.sourceTables_eq hs] at h
    exact bindQualified_bound h

/-! ## Operators -/

theorem BoundAll.asPredicate {t : Term} (h : BoundAll ctx tables [t] s s') :
    BoundAll ctx tables [t.asPredicate] s s' := by
  refine h.replace ?_ ?_
  · intro u hu
    obtain rfl := List.mem_singleton.1 hu
    exact Term.resolvedIn_asPredicate (h.resolved t (by simp))
  · simp [Term.aggregates_asPredicate]

theorem predicateTerm_bound {clause : String} {t p : Term} (h : BoundAll ctx tables [t] s s')
    (hp : predicateTerm clause t = .ok p) : BoundAll ctx tables [p] s s' := by
  unfold predicateTerm at hp
  simp only at hp
  split at hp
  · simp only [Except.ok.injEq] at hp
    exact hp ▸ h.asPredicate
  · cases hp

theorem binary_sound (op : BinaryOp) {left right : Expr} (hl : BindsSoundly (bindExpr env left))
    (hr : BindsSoundly (bindExpr env right)) :
    BindsSoundly (bindExpr env (.binary op left right)) := by
  intro ctx tables s s' t hs hactive hlinks h
  simp only [bindExpr, run_bind_ok, run_ofExcept_ok] at h
  obtain ⟨l, u, hleft, r, v, hright, hterm, rfl⟩ := h
  have hbl := hl hs hactive hlinks hleft
  have hbr := hr (hbl.ordered hs) (hbl.active hactive) hlinks hright
  obtain ⟨type, -, hterm⟩ := except_bind_ok.1 hterm
  obtain rfl := except_pure_ok.1 hterm
  refine BoundAll.node ?_ rfl trivial
  -- each operand is as bound, or made definite
  change BoundAll ctx tables ([_] ++ [_]) s v
  refine BoundAll.append (?_ : BoundAll ctx tables _ s u) ?_
  · split
    · exact hbl.asPredicate
    · exact hbl
  · split
    · exact hbr.asPredicate
    · exact hbr

theorem unary_sound (op : UnaryOp) {operand : Expr} (ho : BindsSoundly (bindExpr env operand)) :
    BindsSoundly (bindExpr env (.unary op operand)) := by
  intro ctx tables s s' t hs hactive hlinks h
  simp only [bindExpr, run_bind_ok, run_ofExcept_ok] at h
  obtain ⟨o, u, hoperand, hterm, rfl⟩ := h
  have hb := ho hs hactive hlinks hoperand
  cases op with
  | not =>
    simp only [unaryTerm] at hterm
    split at hterm
    · simp only [Except.ok.injEq] at hterm
      subst hterm
      exact .node hb.asPredicate rfl trivial
    · cases hterm
  | neg =>
    simp only [unaryTerm] at hterm
    split at hterm
    · simp only [Except.ok.injEq] at hterm
      subst hterm
      exact .node hb rfl trivial
    · cases hterm

theorem cast_sound {operand : Expr} (typeName : String)
    (ho : BindsSoundly (bindExpr env operand)) :
    BindsSoundly (bindExpr env (.cast operand typeName)) := by
  intro ctx tables s s' t hs hactive hlinks h
  simp only [bindExpr, run_bind_ok, run_ofExcept_ok] at h
  obtain ⟨o, u, hoperand, hterm, rfl⟩ := h
  have hb := ho hs hactive hlinks hoperand
  unfold castTerm at hterm
  split at hterm
  · simp only [Except.ok.injEq] at hterm
    subst hterm
    exact .node hb rfl trivial
  · cases hterm

theorem property_sound {base : Expr} (name : String) (hb : BindsSoundly (bindExpr env base)) :
    BindsSoundly (bindExpr env (.property base name)) := by
  intro ctx tables s s' t hs hactive hlinks h
  simp only [bindExpr, run_bind_ok, run_ofExcept_ok] at h
  obtain ⟨b, u, hbase, hterm, rfl⟩ := h
  exact bindProperty_bound (hb hs hactive hlinks hbase) hterm

theorem fieldLinkTerm_mem {groupBy : List Term} {index : Nat} {t : Term}
    (h : fieldLinkTerm groupBy index = .ok t) : t ∈ groupBy := by
  unfold fieldLinkTerm at h
  simp only at h
  split at h
  · cases h
  · split at h
    · rename_i k hk
      cases h
      split at hk
      · cases hk
      · exact List.mem_of_getElem? hk
    · cases h

theorem fieldLink_sound (index : Nat) : BindsSoundly (bindExpr env (.fieldLink index)) := by
  intro ctx tables s s' t _ _ hlinks h
  simp only [bindExpr, run_ofExcept_ok] at h
  obtain ⟨h, rfl⟩ := h
  obtain ⟨hresolved, hplain⟩ := hlinks t (fieldLinkTerm_mem h)
  refine (BoundAll.nil ctx tables s).replace ?_ ?_
  · intro u hu
    obtain rfl := List.mem_singleton.1 hu
    exact hresolved
  · simp [hplain]

/-! ## Cases and lists -/

theorem bindBranch_bound {condition result : Context → Resolver Term} {b : Term × Term}
    (hc : BindsSoundly condition) (hr : BindsSoundly result) (hs : s.scopes.Ordered)
    (hactive : ActiveTables s.scopes ctx tables) (hlinks : LinksBound ctx tables)
    (h : bindBranch ctx condition result s = .ok b s') :
    BoundAll ctx tables [b.1, b.2] s s' := by
  simp only [bindBranch, run_bind_ok, run_ofExcept_ok, run_pure_ok] at h
  obtain ⟨c, u, hcond, p, v, ⟨hp, rfl⟩, r, w, hres, rfl, rfl⟩ := h
  have hbc := predicateTerm_bound (hc hs hactive hlinks hcond) hp
  exact hbc.append (hr (hbc.ordered hs) (hbc.active hactive) hlinks hres)

theorem branches_bound {steps : List ((Context → Resolver Term) × (Context → Resolver Term))}
    {bs : List (Term × Term)} (hsteps : ∀ p ∈ steps, BindsSoundly p.1 ∧ BindsSoundly p.2)
    (hs : s.scopes.Ordered) (hactive : ActiveTables s.scopes ctx tables)
    (hlinks : LinksBound ctx tables)
    (h : (steps.mapM (fun p => bindBranch ctx p.1 p.2) : Resolver (List (Term × Term))) s =
      .ok bs s') :
    BoundAll ctx tables (bs.flatMap fun (c, r) => [c, r]) s s' := by
  induction steps generalizing s bs with
  | nil =>
    obtain ⟨rfl, rfl⟩ := run_mapM_nil_ok.1 h
    exact .nil ctx tables s
  | cons p steps ih =>
    obtain ⟨b, u, bs', hb, hrest, rfl⟩ := run_mapM_cons_ok.1 h
    obtain ⟨hc, hr⟩ := hsteps p (by simp)
    have hhead := bindBranch_bound hc hr hs hactive hlinks hb
    have htail := ih (fun p hp => hsteps p (List.mem_cons_of_mem _ hp)) (hhead.ordered hs)
      (hhead.active hactive) hrest
    exact hhead.append htail

theorem bindCase_sound {steps : List ((Context → Resolver Term) × (Context → Resolver Term))}
    {otherwise : Option (Context → Resolver Term)}
    (hsteps : ∀ p ∈ steps, BindsSoundly p.1 ∧ BindsSoundly p.2)
    (hother : ∀ b ∈ otherwise, BindsSoundly b) : BindsSoundly (bindCase env steps otherwise) := by
  intro ctx tables s s' t hs hactive hlinks h
  simp only [bindCase, run_bind_ok, run_pure_ok] at h
  obtain ⟨bs, u, hbs, o, v, ho, rfl, rfl⟩ := h
  have hbranches := branches_bound hsteps hs hactive hlinks hbs
  refine BoundAll.node (hbranches.append ?_) rfl trivial
  cases otherwise with
  | none =>
    obtain ⟨rfl, rfl⟩ := run_optionM_none_ok.1 ho
    exact .nil ctx tables u
  | some b =>
    obtain ⟨e, he, rfl⟩ := run_optionM_some_ok.1 ho
    exact hother b rfl (hbranches.ordered hs) (hbranches.active hactive) hlinks he

theorem list_sound {items : List Expr} (hitems : ∀ b ∈ bindAll env items, BindsSoundly b) :
    BindsSoundly (bindExpr env (.list items)) := by
  intro ctx tables s s' t hs hactive hlinks h
  simp only [bindExpr, run_bind_ok, run_pure_ok] at h
  obtain ⟨ts, u, hts, rfl, rfl⟩ := h
  exact .node (boundAll_of_mapM hitems hs hactive hlinks hts) rfl trivial

/-! ## Expressions -/

theorem zip_sound {cs rs : List (Context → Resolver Term)} (hc : ∀ b ∈ cs, BindsSoundly b)
    (hr : ∀ b ∈ rs, BindsSoundly b) :
    ∀ p ∈ cs.zip rs, BindsSoundly p.1 ∧ BindsSoundly p.2 := by
  rintro ⟨c, r⟩ hp
  obtain ⟨hcmem, hrmem⟩ := List.of_mem_zip hp
  exact ⟨hc c hcmem, hr r hrmem⟩

mutual

/-- Binding any expression is sound. -/
theorem bindExpr_sound (env : Env) : ∀ e : Expr, BindsSoundly (bindExpr env e)
  | .literal v => literal_sound v
  | .identifier name => identifier_sound name
  | .column table name => column_sound table name
  | .property base name => property_sound name (bindExpr_sound env base)
  | .binary op left right =>
    binary_sound op (bindExpr_sound env left) (bindExpr_sound env right)
  | .unary op operand => unary_sound op (bindExpr_sound env operand)
  | .call qualifier name args => by
    rw [bindExpr]
    exact bindCall_sound (bindAll_sound env args)
  | .case conditions results none => by
    rw [bindExpr]
    exact bindCase_sound (zip_sound (bindAll_sound env conditions) (bindAll_sound env results))
      (by simp)
  | .case conditions results (some e) => by
    rw [bindExpr]
    refine bindCase_sound (zip_sound (bindAll_sound env conditions) (bindAll_sound env results)) ?_
    rintro b ⟨⟩
    exact bindExpr_sound env e
  | .cast operand typeName => cast_sound typeName (bindExpr_sound env operand)
  | .paren inner => by
    rw [bindExpr]
    exact bindExpr_sound env inner
  | .list items => list_sound (bindAll_sound env items)
  | .fieldLink index => fieldLink_sound index

theorem bindAll_sound (env : Env) : ∀ es : List Expr, ∀ b ∈ bindAll env es, BindsSoundly b
  | [] => by simp [bindAll]
  | e :: es => by
    intro b hb
    rcases List.mem_cons.1 hb with rfl | hb
    · exact bindExpr_sound env e
    · exact bindAll_sound env es b hb

end

theorem bindPredicate_sound (env : Env) (e : Expr) : BindsSoundly (bindPredicate env e) := by
  intro ctx tables s s' t hs hactive hlinks h
  simp only [bindPredicate, run_bind_ok, run_ofExcept_ok] at h
  obtain ⟨u, v, hbind, hp, rfl⟩ := h
  exact predicateTerm_bound (bindExpr_sound env e hs hactive hlinks hbind) hp

end Resolve

end SchemaQuery
