-- SUMMARY: A source that reads a common table expression reads the one of its name that was declared last.
import SchemaQuery.Proofs.Query.CteEvents
import SchemaQuery.Proofs.Resolve.Trail
import SchemaQuery.Proofs.Scope.Nearest

/-!
# Expressions in sight

Resolution looks a common table expression up in the scopes around a source.
Planning takes the expression of the name that was planned last. That is the same
one: an expression is declared only where none of its name is in sight, so while
one can be seen no other takes its name, and one that was declared in a scope that
is left is not seen any more. `analyze_follows` states this for a resolved query.

There is one exception. An alias written like the key of an expression is bound in
its place, and a source that sees the alias takes it for an expression.
-/

namespace SchemaQuery.Resolve

/-! ## The name at a scope -/

section

-- the scopes with a source that has the key of the name for its alias
variable (name : String) (Aliased : Nat → Prop)

/-- The expression that a scope sees under the name was declared last. -/
def Current (latest : Option CteDeclaration) (s : Scopes) (id : Nat) : Prop :=
  ∀ d, s.Nearest (cteKey name) id d → Aliased d ∨ ∃ c t, latest = some (d, c) ∧
    s.findIn? (cteKey name) d = some (.table t) ∧ t.columns = c.output

/-- The source sees the expression that was declared last, and has its columns. -/
def Found (s : Scopes) (latest : Option CteDeclaration) (u : CteUse) : Prop :=
  ∃ d, s.Nearest (cteKey name) u.scope d ∧
    (Aliased d ∨ ∃ c, latest = some (d, c) ∧ u.columns = c.output)

/-- Between `s` and `s'`, at work in the scope `id`, queries were bound in new scopes and the events
    of a name took place. -/
structure Tracks (id : Nat) (opened : List Nat) (es : List CteEvent) (s s' : Scopes) : Prop where
  length_le : s.all.length ≤ s'.all.length
  distinct : opened.Nodup
  between : ∀ i ∈ opened, s.all.length ≤ i ∧ i < s'.all.length
  kept : ∀ {i d : Nat}, s.Nearest (cteKey name) i d → s'.Nearest (cteKey name) i d
  quiet : s.Sees (cteKey name) id → Quiet es
  current : ∀ {latest : Option CteDeclaration}, Current name Aliased latest s id →
    Current name Aliased (latestAfter latest es) s' id
  followed : ∀ {latest : Option CteDeclaration}, Current name Aliased latest s id →
    Follows (Found name Aliased s') latest es

end

variable {name : String} {Aliased : Nat → Prop} {id : Nat} {latest : Option CteDeclaration}
  {u : CteUse} {opened opened' : List Nat} {es es' : List CteEvent} {s s₁ s' : Scopes}

theorem Found.mono (h : Found name Aliased s latest u)
    (hkept : ∀ {i d : Nat}, s.Nearest (cteKey name) i d → s'.Nearest (cteKey name) i d) :
    Found name Aliased s' latest u := by
  obtain ⟨d, hnearest, hfound⟩ := h
  exact ⟨d, hkept hnearest, hfound⟩

/-- What a source of the scope found stays the latest declaration while it waits to be read. -/
theorem Found.after (h : Found name Aliased s latest u) (hscope : u.scope = id)
    (ht : Tracks name Aliased id opened es s s') :
    Found name Aliased s' (latestAfter latest es) u := by
  obtain ⟨d, hnearest, hfound⟩ := h
  rw [(ht.quiet ⟨d, hscope ▸ hnearest⟩).latestAfter]
  exact ⟨d, ht.kept hnearest, hfound⟩

/-- What a scope sees is as before where the name is bound as before. -/
theorem Current.agrees (h : Current name Aliased latest s id)
    (hagrees : Scopes.Agrees (cteKey name) s s') (hs : s.Ordered) (hid : id < s.all.length) :
    Current name Aliased latest s' id := by
  intro d hd
  refine (h d ((hagrees.nearest_iff hs hid).1 hd)).imp_right ?_
  rintro ⟨c, t, hlatest, hfind, hcolumns⟩
  obtain ⟨t', hfind', hsame⟩ := hagrees.columns hfind
  exact ⟨c, t', hlatest, hfind', hsame.trans hcolumns⟩

namespace Tracks

theorem append (h : Tracks name Aliased id opened es s s₁)
    (h' : Tracks name Aliased id opened' es' s₁ s') :
    Tracks name Aliased id (opened ++ opened') (es ++ es') s s' where
  length_le := Nat.le_trans h.length_le h'.length_le
  distinct := by
    refine List.nodup_append.2 ⟨h.distinct, h'.distinct, fun i hi j hj hij => ?_⟩
    have := (h.between i hi).2
    have := (h'.between j hj).1
    omega
  between := by
    intro i hi
    have hl := h.length_le
    have hl' := h'.length_le
    rcases List.mem_append.1 hi with hi | hi
    · have := h.between i hi
      omega
    · have := h'.between i hi
      omega
  kept := fun hnearest => h'.kept (h.kept hnearest)
  quiet := fun ⟨d, hd⟩ => (h.quiet ⟨d, hd⟩).append (h'.quiet ⟨d, h.kept hd⟩)
  current := by
    intro latest hcurrent
    rw [latestAfter_append]
    exact h'.current (h.current hcurrent)
  followed := by
    intro latest hcurrent
    refine follows_append.2 ⟨?_, h'.followed (h.current hcurrent)⟩
    exact (h.followed hcurrent).mono fun latest u hu => hu.mono h'.kept

theorem before (h : Tracks name Aliased id opened es s₁ s')
    (hpre : Tracks name Aliased id [] [] s s₁) :
    Tracks name Aliased id opened es s s' := hpre.append h

theorem after (h : Tracks name Aliased id opened es s s₁)
    (hpost : Tracks name Aliased id [] [] s₁ s') :
    Tracks name Aliased id opened es s s' := by
  simpa using h.append hpost

/-- Sources of the scope are read. -/
theorem reads {us : List CteUse} (h : Tracks name Aliased id opened es s s')
    (hus : ∀ {latest : Option CteDeclaration}, Current name Aliased latest s id →
      ∀ u ∈ us, Found name Aliased s' (latestAfter latest es) u) :
    Tracks name Aliased id opened (es ++ us.map .reads) s s' where
  length_le := h.length_le
  distinct := h.distinct
  between := h.between
  kept := h.kept
  quiet := fun hsees => (h.quiet hsees).append (quiet_reads us)
  current := by
    intro latest hcurrent
    rw [latestAfter_append, (quiet_reads us).latestAfter]
    exact h.current hcurrent
  followed := fun hcurrent =>
    follows_append.2 ⟨h.followed hcurrent, (follows_reads us).2 (hus hcurrent)⟩

theorem of_agrees (hs : s.Ordered) (hid : id < s.all.length)
    (h : Scopes.Agrees (cteKey name) s s') : Tracks name Aliased id [] [] s s' where
  length_le := h.length_le
  distinct := List.nodup_nil
  between := by simp
  kept := fun hnearest => (h.nearest_iff hs hnearest.lt_length).2 hnearest
  quiet := by simp [Quiet]
  current := fun hcurrent => hcurrent.agrees h hs hid
  followed := fun _ => trivial

/-- The key of the name is bound, by a declaration or by an alias. -/
theorem bindKey {symbol : Symbol} (hs : s.Ordered) (hid : id < s.all.length)
    (h : s.add id (cteKey name) symbol = .ok s')
    (hfollows : ∀ latest, Follows (Found name Aliased s') latest es)
    (hbound : ∀ latest, Aliased id ∨ ∃ c t, latestAfter latest es = some (id, c) ∧
      symbol = .table t ∧ t.columns = c.output) :
    Tracks name Aliased id [] es s s' where
  length_le := (Scopes.add_within hs hid h).length_le
  distinct := List.nodup_nil
  between := by simp
  kept := fun hnearest => hnearest.add hs hid h
  quiet := fun hsees => absurd hsees (Scopes.add_unseen hs hid h)
  current := by
    intro latest _ d hd
    have hfind : s'.findIn? (cteKey name) id = some symbol := by
      rw [Scopes.add_findIn? hs hid h, if_pos rfl]
    obtain rfl := hd.unique (.here hfind)
    refine (hbound latest).imp_right ?_
    rintro ⟨c, t, hlatest, rfl, hcolumns⟩
    exact ⟨c, t, hlatest, hfind, hcolumns⟩
  followed := fun _ => hfollows _

theorem declare {c : BoundQuery} {t : TableSymbol} (hs : s.Ordered) (hid : id < s.all.length)
    (h : s.add id (cteKey name) (.table t) = .ok s') (hcolumns : t.columns = c.output) :
    Tracks name Aliased id [] [.declares id c] s s' :=
  bindKey hs hid h (fun _ => trivial) fun _ => .inr ⟨c, t, rfl, rfl, hcolumns⟩

theorem bindAlias {symbol : Symbol} (hs : s.Ordered) (hid : id < s.all.length) (halias : Aliased id)
    (h : s.add id (cteKey name) symbol = .ok s') : Tracks name Aliased id [] [] s s' :=
  bindKey hs hid h (fun _ => trivial) fun _ => .inl halias

/-- A scope was entered and left. It sees what the scope around it sees, and what is declared there
    is not seen from outside. -/
theorem nested {kind : ScopeKind} {label : String} {s₂ : Scopes} (hwork : Working id s)
    (hw : Scopes.Within s.all.length (s.entered kind label) s₂) (hleave : s₂.leave = .ok s')
    (h : Tracks name Aliased s.all.length opened es (s.entered kind label) s₂) :
    Tracks name Aliased id (s.all.length :: opened) es s s' := by
  obtain ⟨-, hall, hfind, hparent⟩ := Scopes.nested_unchanged kind label hw hleave
  have hentered := Scopes.enter_agrees (s := s) kind label (cteKey name)
  have hlength : s.all.length < s'.all.length := by
    have := hw.length_le
    rw [Scopes.enter_length] at this
    rw [hall]
    omega
  have hagrees : Scopes.Agrees (cteKey name) s s' :=
    ⟨Nat.le_of_lt hlength, hparent, fun i hi => .inl (hfind i hi _)⟩
  have hfree := findIn?_enter_self (s := s) kind label (cteKey name)
  have hinside : (s.entered kind label).parentOf s.all.length = some id := by
    rw [Scopes.enter_parentOf, if_pos rfl, hwork.current]
  have hsame (d : Nat) : (s.entered kind label).Nearest (cteKey name) s.all.length d ↔
      s.Nearest (cteKey name) id d :=
    ⟨fun hd => (hentered.nearest_iff hwork.ordered hwork.lt).1 (hd.of_child hfree hinside),
      fun hd => .outer hfree hinside ((hentered.nearest_iff hwork.ordered hwork.lt).2 hd)⟩
  refine ⟨hagrees.length_le, ?_, ?_, ?_, ?_, ?_, ?_⟩
  · refine List.nodup_cons.2 ⟨fun hmem => ?_, h.distinct⟩
    have := (h.between _ hmem).1
    rw [Scopes.enter_length] at this
    omega
  · intro i hi
    rcases List.mem_cons.1 hi with rfl | hi
    · exact ⟨Nat.le_refl _, hlength⟩
    · have := h.between i hi
      rw [Scopes.enter_length] at this
      rw [hall]
      omega
  · exact fun hnearest => (hagrees.nearest_iff hwork.ordered hnearest.lt_length).2 hnearest
  · exact fun ⟨d, hd⟩ => h.quiet ⟨d, (hsame d).2 hd⟩
  · intro latest hcurrent d hd
    have hseen := (hsame d).2 ((hagrees.nearest_iff hwork.ordered hwork.lt).1 hd)
    rw [(h.quiet ⟨d, hseen⟩).latestAfter]
    exact hcurrent.agrees hagrees hwork.ordered hwork.lt d hd
  · intro latest hcurrent
    have hcurrent' : Current name Aliased latest (s.entered kind label) s.all.length := by
      intro d hd
      rw [Scopes.enter_findIn?]
      exact hcurrent d ((hsame d).1 hd)
    exact (h.followed hcurrent').mono fun latest u hu => hu.mono (.congr hall)

theorem tail {i : Nat} (h : Tracks name Aliased id (i :: opened) es s s') :
    Tracks name Aliased id opened es s s' :=
  { h with
    distinct := (List.nodup_cons.1 h.distinct).2
    between := fun j hj => h.between j (List.mem_cons_of_mem _ hj) }

/-! ## Steps that declare nothing -/

theorem of_marks (hs : s.Ordered) (hid : id < s.all.length) (ho : s.OnlyTables id)
    (h : Marks id s s') : Tracks name Aliased id [] [] s s' := by
  refine .of_agrees hs hid (h.within.agrees ?_)
  cases hold : s.findIn? (cteKey name) id with
  | none => exact .inl (h.keys _ hold)
  | some symbol =>
    obtain ⟨t, rfl⟩ := ho _ symbol hold
    obtain ⟨b, hnew⟩ := h.within.tables _ t hold
    exact .inr ⟨t, b, rfl, hnew⟩

theorem of_add {a : String} {symbol : Symbol} (hs : s.Ordered) (hid : id < s.all.length)
    (hne : a ≠ cteKey name) (h : s.add id a symbol = .ok s') :
    Tracks name Aliased id [] [] s s' := by
  refine .of_agrees hs hid ((Scopes.add_within hs hid h).agrees (.inl ?_))
  rw [Scopes.add_findIn? hs hid h, if_neg hne.symm]

theorem of_extends {a : String} (hs : s.Ordered) (hid : id < s.all.length) (ho : s.OnlyTables id)
    (halias : a = cteKey name → Aliased id) (h : Extends id a s s') :
    Tracks name Aliased id [] [] s s' := by
  obtain ⟨u, t, hmarks, hadd⟩ := h
  have hs' := hmarks.within.ordered hs
  have hid' : id < u.all.length := hmarks.length ▸ hid
  refine before ?_ (of_marks hs hid ho hmarks)
  by_cases hkey : a = cteKey name
  · exact bindAlias hs' hid' (halias hkey) (hkey ▸ hadd)
  · exact of_add hs' hid' hkey hadd

theorem of_registers {ctx : Context} {us : List Term} (hs : s.Ordered)
    (hid : ctx.scope < s.all.length) (h : Registers ctx us s s') :
    Tracks name Aliased ctx.scope [] [] s s' :=
  .of_agrees hs hid
    (h.within.agrees (.inl (h.other _ fun a _ => cteKey_ne_refreshKey name a)))

end Tracks

/-! ## The induction -/

/-- The scopes of the sources of some queries that have the key of the name for their alias. -/
def AliasedIn (name : String) (Aliased : Nat → Prop) (qs : List BoundQuery) : Prop :=
  ∀ b ∈ BoundQuery.blocksOf qs, ∀ p ∈ b.source.parts, p.aliasName = cteKey name → Aliased b.scope

theorem aliasedIn_iff {qs : List BoundQuery} : AliasedIn name Aliased qs ↔
    ∀ x ∈ (BoundQuery.blocksOf qs).map (fun b => (b.scope, b.source)), ∀ p ∈ x.2.parts,
      p.aliasName = cteKey name → Aliased x.1 := by
  simp [AliasedIn]

theorem AliasedIn.left {qs qs' : List BoundQuery} (h : AliasedIn name Aliased (qs ++ qs')) :
    AliasedIn name Aliased qs :=
  fun b hb => h b (by rw [BoundQuery.blocksOf_append]; exact List.mem_append_left _ hb)

theorem AliasedIn.right {qs qs' : List BoundQuery} (h : AliasedIn name Aliased (qs ++ qs')) :
    AliasedIn name Aliased qs' :=
  fun b hb => h b (by rw [BoundQuery.blocksOf_append]; exact List.mem_append_right _ hb)

/-- Between `s` and `s'` a source was bound in the scope `id`. If it is an expression of the name
    then the one that was declared last was found. -/
structure TracksUse (name : String) (Aliased : Nat → Prop) (id : Nat) (b : BoundSource)
    (s s' : Scopes) : Prop where
  tracks : Tracks name Aliased id (b.queries.map (·.scope)) (b.cteEvents name id) s s'
  found : ∀ {latest : Option CteDeclaration}, Current name Aliased latest s id →
    ∀ u ∈ b.cteUses name id, Found name Aliased s' (latestAfter latest (b.cteEvents name id)) u

section Cases

variable (name Aliased) (env : Env)

-- The statements of the induction, one for each kind of node.

def TracksQuery (q : Query) : Prop :=
  ∀ {id : Nat} {s s' : State} {b : BoundQuery}, Working id s.scopes →
    s.scopes.all.length = id + 1 → (∀ k, s.scopes.findIn? k id = none) →
    bindQuery env q s = .ok b s' → AliasedIn name Aliased b.queries →
    b.scope = id ∧
    Tracks name Aliased id ((BoundQuery.queriesOfCtes b.ctes ++ b.body.queries).map (·.scope))
      (b.cteEvents name) s.scopes s'.scopes

def TracksCtes (ctes : List Cte) : Prop :=
  ∀ {id : Nat} {s s' : State} {bs : List BoundCte}, Working id s.scopes →
    bindCtes env id ctes s = .ok bs s' → AliasedIn name Aliased (BoundQuery.queriesOfCtes bs) →
    Tracks name Aliased id ((BoundQuery.queriesOfCtes bs).map (·.scope))
      (BoundQuery.eventsOfCtes name id bs) s.scopes s'.scopes

def TracksBody (body : QueryBody) : Prop :=
  ∀ {id : Nat} {s s' : State} {orderBy : List OrderItem} {b : BoundBody} {order : List SortKey}
    {output : List Column}, Working id s.scopes → OnlyCtes s.scopes id →
    bindBody env id orderBy body s = .ok (b, order, output) s' →
    (∀ block ∈ b.block? order, ∀ p ∈ block.source.parts, p.aliasName = cteKey name →
      Aliased block.scope) →
    AliasedIn name Aliased b.queries →
    Tracks name Aliased id (b.queries.map (·.scope)) (b.cteEvents name id) s.scopes s'.scopes

def TracksSource (src : Source) : Prop :=
  ∀ {ctx : Context} {outer : List (String × List Column)} {s s' : State} {usage : ColumnUsage}
    {b : BoundSource}, Working ctx.scope s.scopes → s.scopes.OnlyTables ctx.scope →
    Around s.scopes ctx outer → ctx.groupBy = [] → bindSource env usage src ctx s = .ok b s' →
    (∀ p ∈ b.parts, p.aliasName = cteKey name → Aliased ctx.scope) →
    AliasedIn name Aliased b.queries →
    TracksUse name Aliased ctx.scope b s.scopes s'.scopes

end Cases

variable {env : Env}

theorem tracksQuery_nested {q : Query} {kind : ScopeKind} {label : String}
    {s s₁ s₂ s' : State} {b : BoundQuery} {x y : Unit} (hq : TracksQuery name Aliased env q)
    (hwork : Working id s.scopes) (henter : enterScope kind label s = .ok x s₁)
    (hbind : bindQuery env q s₁ = .ok b s₂) (hexit : leaveScope s₂ = .ok y s')
    (haliases : AliasedIn name Aliased b.queries) :
    Tracks name Aliased id (b.queries.map (·.scope)) (b.cteEvents name) s.scopes s'.scopes := by
  obtain rfl := run_enterScope_ok.1 henter
  obtain ⟨scopes, hleave, rfl⟩ := run_leaveScope_ok.1 hexit
  have hinside := hwork.enter kind label
  obtain ⟨hb, -⟩ := binds_query q hinside (Scopes.enter_length kind label)
    (findIn?_enter_self kind label) (fun _ _ => trivial) hbind
  obtain ⟨hscope, htracks⟩ := hq hinside (Scopes.enter_length kind label)
    (findIn?_enter_self kind label) hbind haliases
  have hnested := Tracks.nested hwork hb.within hleave htracks
  rwa [← hscope, ← List.map_cons, ← BoundQuery.queries_eq] at hnested

theorem tracksCtes_nil : TracksCtes name Aliased env [] := by
  intro id s s' bs hwork h _
  simp only [bindCtes, run_pure_ok] at h
  obtain ⟨rfl, rfl⟩ := h
  rw [BoundQuery.eventsOfCtes, BoundQuery.queriesOfCtes]
  exact .of_agrees hwork.ordered hwork.lt ((Scopes.Within.refl id _).agrees (.inl rfl))

/-- The declared columns of an expression change neither its scopes, its events nor its sources. -/
theorem renameCte_tracked (name : String) (Aliased : Nat → Prop) {n : String}
    {columns : List String} {q q' : BoundQuery} (h : renameCte n columns q = .ok q') :
    q'.queries.map (·.scope) = q.queries.map (·.scope) ∧ q'.cteEvents name = q.cteEvents name ∧
      (AliasedIn name Aliased q'.queries → AliasedIn name Aliased q.queries) := by
  unfold renameCte at h
  split at h
  · cases h
    exact ⟨rfl, rfl, fun h => h⟩
  · split at h
    · cases h
    · cases h
      exact ⟨q.scopes_renameOutput columns, q.cteEvents_renameOutput columns,
        fun h => aliasedIn_iff.2 (q.sources_renameOutput columns ▸ aliasedIn_iff.1 h)⟩

theorem tracksCtes_cons {n : String} {columns : List String} {q : Query} {rest : List Cte}
    (hq : TracksQuery name Aliased env q) (hrest : TracksCtes name Aliased env rest) :
    TracksCtes name Aliased env (⟨n, columns, q⟩ :: rest) := by
  intro id s s' bs hwork h haliases
  simp only [bindCtes, run_bind_ok, run_ofExcept_ok, run_pure_ok] at h
  obtain ⟨_, s₁, henter, b, s₂, hbind, _, s₃, hleave, b', _, ⟨hrename, rfl⟩, _, s₄, hadd, bs', s₅,
    hctes, rfl, rfl⟩ := h
  obtain ⟨hw₃, -⟩ := nested_query (binds_query q) hwork (fun _ _ => trivial) henter hbind hleave
  have hwork₃ := hwork.within hw₃
  obtain ⟨scopes, hadded, rfl⟩ := run_onScopes_ok.1 hadd
  have hwork₄ := hwork₃.within (Scopes.add_within hwork₃.ordered hwork₃.lt hadded)
  rw [BoundQuery.queriesOfCtes] at haliases
  rw [BoundQuery.queriesOfCtes, BoundQuery.eventsOfCtes, List.map_append]
  obtain ⟨hscopes, hevents, hsources⟩ := renameCte_tracked name Aliased hrename
  rw [hscopes, hevents]
  have hdeclared : Tracks name Aliased id [] (if n = name then [.declares id b'] else [])
      s₃.scopes scopes := by
    split
    · rename_i hname
      subst hname
      exact .declare hwork₃.ordered hwork₃.lt hadded rfl
    · rename_i hname
      exact .of_add hwork₃.ordered hwork₃.lt (fun hkey => hname (cteKey_injective hkey)) hadded
  exact (tracksQuery_nested hq hwork henter hbind hleave (hsources haliases.left)).append
    (hdeclared.append (hrest hwork₄ hctes haliases.right))

theorem tracksBody_nullSource {distinct : Bool} {projection : List SelectItem}
    {filter : Option Expr} {groupBy : List Expr} {having : Option Expr} :
    TracksBody name Aliased env
      (.select ⟨distinct, projection, none, filter, groupBy, having⟩) := by
  intro id s s' orderBy b order output _ _ h
  simp [bindBody] at h

theorem tracksBody_select {distinct : Bool} {projection : List SelectItem} {source : Source}
    {filter : Option Expr} {groupBy : List Expr} {having : Option Expr}
    (hsource : TracksSource name Aliased env source) :
    TracksBody name Aliased env
      (.select ⟨distinct, projection, some source, filter, groupBy, having⟩) := by
  intro id s s' orderBy b order output hwork hctes h hparts haliases
  simp only [bindBody, run_bind_ok, run_pure_ok, Prod.mk.injEq] at h
  obtain ⟨src, s₁, hsrc, ⟨sel, order'⟩, s₂, hblock, ⟨rfl, rfl, -⟩, rfl⟩ := h
  have ho := onlyTables_of_onlyCtes hctes
  obtain ⟨hb, hreads, -⟩ := @binds_source env source (.ofScope id) [] s s₁ _ src hwork ho rfl rfl
    (fun _ _ => trivial) hsrc
  have hwork₁ := hwork.within hb.within
  obtain ⟨hscope, hsame, ⟨us, hregisters⟩, -⟩ :=
    bindBlock_bound hwork₁.ordered (hb.onlyTables ho) hb hreads hblock
  rw [BoundBody.queries_select, hsame] at haliases ⊢
  have hused : TracksUse name Aliased id src s.scopes s₁.scopes :=
    @hsource (.ofScope id) [] s s₁ _ src hwork ho rfl rfl hsrc
      (by simpa [BoundBody.block?, BoundSelect.block, hsame, hscope] using hparts) haliases
  rw [BoundBody.cteEvents_select, hsame]
  exact (hused.tracks.reads hused.found).after
    (Tracks.of_registers hwork₁.ordered hwork₁.lt hregisters)

theorem tracksBody_setOperation {operator : SetOperator} {keys : List String} {left right : Query}
    (hl : TracksQuery name Aliased env left) (hr : TracksQuery name Aliased env right) :
    TracksBody name Aliased env (.setOperation operator left right keys) := by
  intro id s s' orderBy b order output hwork hctes h _ haliases
  simp only [bindBody] at h
  cases hkeys : keys.isEmpty with
  | true => simp [hkeys, run_bind_ok] at h
  | false =>
    simp only [hkeys, Bool.false_eq_true, if_false, run_bind_ok, run_pure_ok, Prod.mk.injEq,
      run_ofExcept_ok] at h
    obtain ⟨_, s₁, henter, _, s₂, henterl, bl, s₃, hleft, _, s₄, hleavel, _, s₅, henterr, br, s₆,
      hright, _, s₇, hleaver, _, s₈, hleave, _, s₉, hcheck, order', _, ⟨-, rfl⟩, ⟨rfl, rfl, -⟩,
      rfl⟩ := h
    obtain ⟨rfl, -⟩ := checkOperands_run hcheck
    rw [BoundBody.queries_setOperation] at haliases
    rw [BoundBody.cteEvents, BoundBody.queries_setOperation, List.map_append]
    obtain rfl := run_enterScope_ok.1 henter
    obtain ⟨scopes, hleft', rfl⟩ := run_leaveScope_ok.1 hleave
    have hwork₁ := hwork.enter .setOperator operator.render
    obtain ⟨hwl, -⟩ :=
      nested_query (binds_query left) hwork₁ (fun _ _ => trivial) henterl hleft hleavel
    have hwork₄ := hwork₁.within hwl
    obtain ⟨hwr, -⟩ :=
      nested_query (binds_query right) hwork₄ (fun _ _ => trivial) henterr hright hleaver
    exact (Tracks.nested hwork (hwl.trans hwr) hleft'
      ((tracksQuery_nested hl hwork₁ henterl hleft hleavel haliases.left).append
        (tracksQuery_nested hr hwork₄ henterr hright hleaver haliases.right))).tail

theorem tracksSource_schema (schema method : String) (args : List Expr) (a : Option String) :
    TracksSource name Aliased env (.schema schema method args a) := by
  intro ctx outer s s' usage b hwork ho haround hlinks h hparts _
  simp only [bindSource] at h
  obtain ⟨-, -, -, hextends⟩ : BindsSource (fun _ => True) _ b _ _ ∧ _ := bindSchemaSource_binds
    hwork.ordered hwork.lt haround hlinks (fun _ _ => trivial) (fun _ => trivial) h
  have halias := hparts b b.self_mem_parts
  obtain ⟨_, _, _, _, _, _, rfl⟩ := bindSchemaSource_shape h
  refine ⟨?_, fun _ u hu => by cases hu⟩
  rw [BoundSource.queries, BoundSource.cteEvents]
  exact .of_extends hwork.ordered hwork.lt ho halias hextends

/-- A table in memory that is an expression was found in the nearest scope with its key. -/
theorem nearest_of_memoryTable {s : Scopes} {n : String} {id : Nat} {origin : TableOrigin}
    {columns : List Column} (hs : s.Ordered) (hid : id < s.all.length)
    (h : memoryTable env s n id = .ok (.cte, origin, columns)) :
    ∃ d t, s.Nearest (cteKey n) id d ∧ s.findIn? (cteKey n) d = some (.table t) ∧
      columns = t.columns := by
  obtain ⟨t, hfound, -, -, hcolumns⟩ | ⟨-, horigin, -⟩ := memoryTable_cases h
  · obtain ⟨d, hnearest, hfind⟩ := Scopes.nearest_of_tryResolve hs hid hfound
    exact ⟨d, t, hnearest, hfind, hcolumns⟩
  · cases horigin

theorem tracksSource_inMemory (n : String) (a : Option String) :
    TracksSource name Aliased env (.inMemory n a) := by
  intro ctx outer s s' usage b hwork ho _ _ h hparts _
  simp only [bindSource] at h
  obtain ⟨-, -, -, hextends⟩ : BindsSource (fun _ => True) _ b _ _ ∧ _ :=
    bindMemorySource_binds hwork.ordered hwork.lt trivial h
  have halias := hparts b b.self_mem_parts
  simp only [bindMemorySource, run_bind_ok, run_readScopes_ok, run_pure_ok] at h
  obtain ⟨⟨origin, tableOrigin, columns⟩, _, ⟨hmemory, rfl⟩, _, _, -, rfl, rfl⟩ := h
  have htracks : Tracks name Aliased ctx.scope [] [] _ _ :=
    .of_extends hwork.ordered hwork.lt ho halias hextends
  constructor
  · rw [BoundSource.queries, BoundSource.cteEvents]
    exact htracks
  · intro latest hcurrent u hu
    cases origin with
    | host => cases hu
    | cte =>
      rw [BoundSource.cteUses] at hu
      split at hu
      · rename_i hname
        subst hname
        obtain rfl := List.mem_singleton.1 hu
        obtain ⟨d, t, hnearest, hfind, hcolumns⟩ :=
          nearest_of_memoryTable hwork.ordered hwork.lt hmemory
        rw [BoundSource.cteEvents]
        refine ⟨d, htracks.kept hnearest, (hcurrent d hnearest).imp_right ?_⟩
        rintro ⟨c, t', hlatest, hfind', hsame⟩
        cases hfind.symm.trans hfind'
        exact ⟨c, hlatest, hcolumns.trans hsame⟩
      · cases hu

theorem tracksSource_subquery {q : Query} (a : Option String)
    (hq : TracksQuery name Aliased env q) :
    TracksSource name Aliased env (.subquery q a) := by
  intro ctx outer s s' usage b hwork ho _ _ h hparts haliases
  simp only [bindSource, run_bind_ok] at h
  obtain ⟨_, s₁, henter, bq, s₂, hbind, _, s₃, hleave, h⟩ := h
  obtain ⟨hw, hsame, hnested, -⟩ :=
    nested_query (binds_query q) hwork (fun _ _ => trivial) henter hbind hleave
  obtain ⟨-, -, -, hextends⟩ : BindsSource (fun _ => True) _ b _ _ ∧ _ := bindSubquerySource_binds
    hwork.ordered hwork.lt hw hsame hnested (fun _ _ => trivial) (fun _ => trivial) h
  have halias := hparts b b.self_mem_parts
  simp only [bindSubquerySource, run_bind_ok, run_pure_ok] at h
  obtain ⟨r, _, -, _, _, -, rfl, rfl⟩ := h
  have hwork₃ := hwork.within hw
  have ho₃ : s₃.scopes.OnlyTables ctx.scope := fun k symbol hk => ho k symbol (hsame k ▸ hk)
  rw [BoundSource.queries] at haliases
  refine ⟨?_, fun _ u hu => by cases hu⟩
  rw [BoundSource.queries, BoundSource.cteEvents]
  exact (tracksQuery_nested hq hwork henter hbind hleave haliases).after
    (.of_extends hwork₃.ordered hwork₃.lt ho₃ halias hextends)

/-- Both sides of a join or apply are read once both were bound. What the left side found is still
    the latest declaration then. -/
theorem TracksUse.pair {left right : BoundSource} {s₂ : Scopes}
    (hl : TracksUse name Aliased id left s s₁) (hr : TracksUse name Aliased id right s₁ s₂)
    (hpost : Tracks name Aliased id [] [] s₂ s') :
    Tracks name Aliased id ((left.queries ++ right.queries).map (·.scope))
      (left.cteEvents name id ++ (right.cteEvents name id ++
        (left.cteUses name id ++ right.cteUses name id).map .reads)) s s' := by
  rw [List.map_append, ← List.append_assoc]
  refine ((hl.tracks.append hr.tracks).reads fun hcurrent u hu => ?_).after hpost
  rw [latestAfter_append]
  rcases List.mem_append.1 hu with hu | hu
  · exact (hl.found hcurrent u hu).after (BoundSource.scope_of_mem_cteUses hu) hr.tracks
  · exact hr.found (hl.tracks.current hcurrent) u hu

theorem tracksSource_join {kind : JoinKind} {left right : Source} {condition : Expr}
    (hl : TracksSource name Aliased env left) (hr : TracksSource name Aliased env right) :
    TracksSource name Aliased env (.join kind left right condition) := by
  intro ctx outer s s' usage b hwork ho haround hlinks h hparts haliases
  simp only [bindSource, run_bind_ok] at h
  obtain ⟨bl, s₁, hleft, br, s₂, hright, h⟩ := h
  obtain ⟨hbl, hreadsl, -⟩ := binds_source left hwork ho haround hlinks (fun _ _ => trivial) hleft
  have hwork₁ := hwork.within hbl.within
  have ho₁ := hbl.onlyTables ho
  have haround₁ := haround.within hbl.within
  obtain ⟨hbr, hreadsr, -⟩ :=
    binds_source right hwork₁ ho₁ haround₁ hlinks (fun _ _ => trivial) hright
  obtain ⟨-, -, -, hextends⟩ :=
    bindJoin_binds hwork.ordered hwork.lt ho hlinks hbl hbr hreadsl hreadsr h
  have halias := hparts b b.self_mem_parts
  obtain ⟨-, -, a, -, c, -, -, rfl⟩ := run_bindJoin_ok h
  have hwork₂ := hwork₁.within hbr.within
  rw [BoundSource.queries] at haliases
  simp only [BoundSource.parts, List.forall_mem_cons, List.forall_mem_append] at hparts
  refine ⟨?_, fun _ u hu => by cases hu⟩
  rw [BoundSource.queries, BoundSource.cteEvents]
  exact (hl hwork ho haround hlinks hleft hparts.2.1 haliases.left).pair
    (hr hwork₁ ho₁ haround₁ hlinks hright hparts.2.2 haliases.right)
    (.of_extends hwork₂.ordered hwork₂.lt (hbr.onlyTables ho₁) halias hextends)

theorem tracksSource_apply {kind : ApplyKind} {left right : Source}
    (hl : TracksSource name Aliased env left) (hr : TracksSource name Aliased env right) :
    TracksSource name Aliased env (.apply kind left right) := by
  intro ctx outer s s' usage b hwork ho haround hlinks h hparts haliases
  simp only [bindSource, run_bind_ok] at h
  obtain ⟨bl, s₁, hleft, br, s₂, hright, h⟩ := h
  obtain ⟨hbl, hreadsl, -⟩ := binds_source left hwork ho haround hlinks (fun _ _ => trivial) hleft
  have hwork₁ := hwork.within hbl.within
  have ho₁ := hbl.onlyTables ho
  have haround₁ : Around s₁.scopes (ctx.withAlias bl.aliasName) bl.leaves :=
    ⟨bl, rfl, rfl, hbl.bound⟩
  obtain ⟨hbr, hreadsr, -⟩ := @binds_source env right (ctx.withAlias bl.aliasName) bl.leaves s₁ s₂
    usage br hwork₁ ho₁ haround₁ hlinks (fun _ _ => trivial) hright
  have htracked := @hr (ctx.withAlias bl.aliasName) bl.leaves s₁ s₂ usage br hwork₁ ho₁ haround₁
    hlinks hright
  obtain ⟨-, -, -, hextends⟩ :=
    bindApply_binds hwork.ordered hwork.lt ho hbl hbr hreadsl hreadsr h
  have halias := hparts b b.self_mem_parts
  obtain ⟨-, -, a, -, rfl⟩ := run_bindApply_ok h
  have hwork₂ := hwork₁.within hbr.within
  rw [BoundSource.queries] at haliases
  simp only [BoundSource.parts, List.forall_mem_cons, List.forall_mem_append] at hparts
  refine ⟨?_, fun _ u hu => by cases hu⟩
  rw [BoundSource.queries, BoundSource.cteEvents]
  exact (hl hwork ho haround hlinks hleft hparts.2.1 haliases.left).pair
    (htracked hparts.2.2 haliases.right)
    (.of_extends hwork₂.ordered hwork₂.lt (hbr.onlyTables ho₁) halias hextends)

theorem tracksQuery_mk {body : QueryBody} {orderBy : List OrderItem} {skip take : Option Nat}
    {ctes : List Cte} (hctes : TracksCtes name Aliased env ctes)
    (hbody : TracksBody name Aliased env body) :
    TracksQuery name Aliased env ⟨body, orderBy, skip, take, ctes⟩ := by
  intro id s s' b hwork hlast hempty h haliases
  simp only [bindQuery, run_bind_ok, run_readScopes_ok, run_pure_ok] at h
  obtain ⟨scope, _, ⟨hcurrent, rfl⟩, bctes, s₁, hbctes, ⟨bbody, order, output⟩, s₂, hbbody, rfl,
    rfl⟩ := h
  obtain rfl := hwork.requireCurrent hcurrent
  obtain ⟨hc, -⟩ := bindCtes_binds (fun _ => trivial) ctes hwork (fun _ _ => trivial) hbctes
  simp only [AliasedIn, BoundQuery.blocksOf_queries, List.forall_mem_append] at haliases
  obtain ⟨hblock, haliasesCtes, haliasesBody⟩ := haliases
  rw [BoundQuery.cteEvents_eq, List.map_append]
  exact ⟨rfl, (hctes hwork hbctes haliasesCtes).append (hbody (hwork.within hc.within)
    (hc.onlyCtes hempty) hbbody (by simpa using hblock) haliasesBody)⟩

mutual

theorem bindQuery_tracks : ∀ q : Query, TracksQuery name Aliased env q
  | ⟨body, _, _, _, ctes⟩ => tracksQuery_mk (bindCtes_tracks ctes) (bindBody_tracks body)

theorem bindCtes_tracks : ∀ ctes : List Cte, TracksCtes name Aliased env ctes
  | [] => tracksCtes_nil
  | ⟨_, _, query⟩ :: rest => tracksCtes_cons (bindQuery_tracks query) (bindCtes_tracks rest)

theorem bindBody_tracks : ∀ body : QueryBody, TracksBody name Aliased env body
  | .select ⟨_, _, none, _, _, _⟩ => tracksBody_nullSource
  | .select ⟨_, _, some source, _, _, _⟩ => tracksBody_select (bindSource_tracks source)
  | .setOperation _ left right _ =>
    tracksBody_setOperation (bindQuery_tracks left) (bindQuery_tracks right)

theorem bindSource_tracks : ∀ source : Source, TracksSource name Aliased env source
  | .schema schema method args a => tracksSource_schema schema method args a
  | .inMemory n a => tracksSource_inMemory n a
  | .subquery query a => tracksSource_subquery a (bindQuery_tracks query)
  | .join _ left right _ => tracksSource_join (bindSource_tracks left) (bindSource_tracks right)
  | .apply _ left right => tracksSource_apply (bindSource_tracks left) (bindSource_tracks right)

end

/-! ## Resolved queries -/

/-- A source in the scope has the key of the name for its alias. -/
def KeyAliased (name : String) (qs : List BoundQuery) (scope : Nat) : Prop :=
  ∃ b ∈ BoundQuery.blocksOf qs, b.scope = scope ∧ ∃ p ∈ b.source.parts, p.aliasName = cteKey name

/-- In a resolved query every source that is an expression of the name sees the declaration that is
    the latest one when it is read, unless it sees an alias. Every query has a scope of its own. -/
theorem analyze_follows {q : Query} {a : Analysis} {requests : List TableRequest}
    (h : analyze env q = (.ok a, requests)) (name : String) :
    Follows (Found name (KeyAliased name a.query.queries) a.scopes) none (a.query.cteEvents name) ∧
      (a.query.queries.map (·.scope)).Nodup := by
  obtain ⟨s, hbind, hleave⟩ := run_analyze_ok h
  have haliases : AliasedIn name (KeyAliased name a.query.queries) a.query.queries :=
    fun b hb p hp hkey => ⟨b, hb, rfl, p, hp, hkey⟩
  obtain ⟨hscope, htracks⟩ :=
    bindQuery_tracks q working_first rfl (findIn?_enter_self _ _) hbind haliases
  have hunknown : Current name (KeyAliased name a.query.queries) none
      (Scopes.empty.entered .query "Query") 0 := by
    intro d hd
    obtain ⟨symbol, hfind⟩ := hd.bound
    rw [Scopes.enter_findIn?] at hfind
    cases hfind
  constructor
  · exact (htracks.followed hunknown).mono fun latest u hu =>
      hu.mono (.congr (Scopes.leave_all hleave))
  · rw [BoundQuery.queries_eq, List.map_cons, List.nodup_cons, hscope]
    refine ⟨fun hmem => ?_, htracks.distinct⟩
    have hpositive := (htracks.between 0 hmem).1
    simp at hpositive

end SchemaQuery.Resolve
