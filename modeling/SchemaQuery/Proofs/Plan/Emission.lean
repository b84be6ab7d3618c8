-- SUMMARY: Planning a resolved query emits sound nodes only and notes a table for every query.
import SchemaQuery.Proofs.Plan.Nodes
import SchemaQuery.Proofs.Plan.Reading
import SchemaQuery.Proofs.Resolve.CteScopes

/-!
# Emission

By induction over the bound query, every run of planning that ends well emits
nodes that follow from the ones before them. The induction carries the trail of
resolution along: the common table expressions that a query may read are those
exposed so far. It also carries the notes: the scope of a query that was planned
names a table for the rows of the query, and no later note is about that scope.
The main statements of this module are `ofQuery_sound` and `ofQuery_noted`.
-/

namespace SchemaQuery.Plan

/-! ## States -/

/-- The queries are well formed, and each has a scope of its own. -/
structure Setting.Plannable (E : Setting) : Prop where
  formed : ∀ q ∈ E.queries, q.Formed
  distinct : (E.queries.map (·.scope)).Nodup

/-- A state of planning whose nodes are sound. -/
structure Drafted (E : Setting) (st : State) : Prop where
  config : st.draft.config = E.config
  scopes : SameBindings E.scopes st.scopes
  next : st.draft.next = tableCount st.draft.nodes
  sound : Sound E st.draft.nodes

/-- The key of an exposed name, or an alias of a source. -/
def Setting.Finds (E : Setting) (ns : List Node) (k : String) : Prop :=
  (∃ name, k = cteKey name ∧ Exposed ns name) ∨ E.HasAlias k

/-- The scope of a query names a table that can take the rows of the query. -/
def Noted (E : Setting) (st : State) (q : BoundQuery) : Prop :=
  ∃ table, st.scopes.attribute? q.scope tableAttribute = some table ∧
    Accepts E st.draft.nodes q table

/-- From one state to the next sound nodes were emitted, the keys of a trail can be found, and what
    was noted is still noted. -/
structure Emission (E : Setting) (es : List TableEvent) (st st' : State) : Prop where
  drafted : Drafted E st'
  kept : st.draft.nodes <+: st'.draft.nodes
  found : ∀ k ∈ boundKeys es, E.Finds st'.draft.nodes k
  noted : ∀ q ∈ E.queries, Noted E st q → Noted E st' q

variable {E : Setting} {st st₁ st' : State}

theorem Setting.Finds.mono {ns ns' : List Node} (hle : ns ⊆ ns') {k : String}
    (h : E.Finds ns k) : E.Finds ns' k :=
  h.imp_left fun ⟨name, hk, hexposed⟩ => ⟨name, hk, hexposed.mono hle⟩

/-- Noting an attribute changes it in one scope. -/
theorem attribute?_setAttribute {s s' : Scopes} {id : Nat} {key value : String}
    (h : s.setAttribute id key value = .ok s') (i : Nat) :
    s'.attribute? i key = if i = id then some value else s.attribute? i key := by
  rw [Scopes.setAttribute_eq, except_bind_ok] at h
  obtain ⟨sc, hscope, h⟩ := h
  obtain rfl := except_pure_ok.1 h
  have hsc : s.all[id]? = some sc := by
    unfold Scopes.scope at hscope
    split at hscope
    · rename_i hget
      cases hscope
      exact hget
    · cases hscope
  simp only [Scopes.attribute?, List.getElem?_modify]
  by_cases hi : i = id
  · subst hi
    simp [hsc, NameMap.get?_insert]
  · have hne : ¬ id = i := fun he => hi he.symm
    simp [hi, hne]

/-- A note stands while the attributes stay and nodes are added. -/
theorem Noted.mono {q : BoundQuery} (h : Noted E st q)
    (hnotes : st'.scopes.attribute? q.scope tableAttribute =
      st.scopes.attribute? q.scope tableAttribute)
    (hle : st.draft.nodes ⊆ st'.draft.nodes) : Noted E st' q := by
  obtain ⟨table, htable, haccepts⟩ := h
  exact ⟨table, hnotes.trans htable, haccepts.mono hle⟩

namespace Emission

variable {es es' : List TableEvent}

theorem nodes_subset (h : Emission E es st st') : st.draft.nodes ⊆ st'.draft.nodes :=
  h.kept.subset

theorem refl (h : Drafted E st) : Emission E [] st st :=
  ⟨h, List.prefix_refl _, by simp, fun _ _ hq => hq⟩

theorem append (h : Emission E es st st₁) (h' : Emission E es' st₁ st') :
    Emission E (es ++ es') st st' := by
  refine ⟨h'.drafted, h.kept.trans h'.kept, fun k hk => ?_,
    fun q hq hnoted => h'.noted q hq (h.noted q hq hnoted)⟩
  rw [boundKeys_append, List.mem_append] at hk
  rcases hk with hk | hk
  · exact (h.found k hk).mono h'.nodes_subset
  · exact h'.found k hk

theorem before (h' : Emission E es st₁ st') (h : Emission E [] st st₁) : Emission E es st st' :=
  h.append h'

theorem after (h : Emission E es st st₁) (h' : Emission E [] st₁ st') : Emission E es st st' := by
  simpa using h.append h'

/-- The rest of a trail can be traced after its first part was planned. -/
theorem traced_rest (h : Emission E es st st₁)
    (htraced : Traced (E.Finds st.draft.nodes) (es ++ es')) :
    Traced (E.Finds st₁.draft.nodes) es' := by
  refine (traced_append.1 htraced).2.mono fun k hk => ?_
  rcases hk with hk | hk
  · exact hk.mono h.nodes_subset
  · exact h.found k hk

theorem binds {k : String} (h : Drafted E st) (hfinds : E.Finds st.draft.nodes k) :
    Emission E [.binds k] st st :=
  ⟨h, List.prefix_refl _, by simpa using hfinds, fun _ _ hq => hq⟩

/-- Only the depth changes. -/
theorem of_depth (h : Drafted E st) (n : Nat) :
    Emission E [] st { st with draft := { st.draft with depth := n } } :=
  ⟨⟨h.config, h.scopes, h.next, h.sound⟩, List.prefix_refl _, by simp, fun _ _ hq => hq⟩

theorem emit {n : Node} (h : Drafted E st) (hn : Emitted E st.draft.nodes n)
    (hcreate : n.isCreate = false) (hrun : Plan.emit n st = .ok () st') :
    Emission E [] st st' ∧ n ∈ st'.draft.nodes := by
  obtain rfl := run_emit_ok.1 hrun
  refine ⟨⟨⟨h.config, h.scopes, ?_, h.sound.concat hn⟩, List.prefix_append _ _, by simp,
    fun q _ hq => hq.mono rfl (List.prefix_append _ _).subset⟩,
    List.mem_append_right _ (List.mem_singleton.2 rfl)⟩
  change st.draft.next = tableCount (st.draft.nodes ++ [n])
  simp [tableCount, hcreate, h.next]

theorem declare {role : String} {columns : List Column} {forGrouping : Bool} {table : String}
    (h : Drafted E st) (hrun : Plan.declare role columns forGrouping st = .ok table st') :
    Emission E [] st st' ∧ .create table columns forGrouping ∈ st'.draft.nodes ∧
      ∃ k, table = numberedTable E.config k role := by
  obtain ⟨rfl, rfl⟩ := run_declare_ok.1 hrun
  have hname : st.draft.tableName role =
      numberedTable E.config (tableCount st.draft.nodes) role := by
    rw [← h.next, ← h.config]
    rfl
  refine ⟨⟨⟨h.config, h.scopes, ?_, ?_⟩, List.prefix_append _ _, by simp,
    fun q _ hq => hq.mono rfl (List.prefix_append _ _).subset⟩,
    List.mem_append_right _ (List.mem_singleton.2 rfl), _, hname⟩
  · change st.draft.next + 1 = tableCount (st.draft.nodes ++ [_])
    simp [tableCount, Node.isCreate, h.next]
  · change Sound E (st.draft.nodes ++ [.create (st.draft.tableName role) columns forGrouping])
    rw [hname]
    exact h.sound.concat (.create role columns forGrouping)

theorem declareRows {role : String} {columns : List Column} {table : String} (h : Drafted E st)
    (hrole : role ≠ "join") (hrun : Plan.declare role columns false st = .ok table st') :
    Emission E [] st st' ∧ RowTable E st'.draft.nodes columns table := by
  obtain ⟨hemission, hcreate, k, hname⟩ := declare h hrun
  exact ⟨hemission, hcreate, k, role, hrole, hname⟩

theorem enterQuery {context : String} {x : Unit} (h : Drafted E st)
    (hrun : Plan.enterQuery context st = .ok x st') : Emission E [] st st' := by
  rw [enterQuery_run] at hrun
  split at hrun
  · cases hrun
  · cases hrun
    exact .of_depth h _

theorem exitQuery {x : Unit} (h : Drafted E st) (hrun : Plan.exitQuery st = .ok x st') :
    Emission E [] st st' := by
  obtain rfl := run_modify_ok.1 hrun
  exact .of_depth h _

/-- Queries have scopes of their own, so a note is about one query only. -/
theorem setTableAttribute {q : BoundQuery} {table : String} {x : Unit}
    (hdistinct : (E.queries.map (·.scope)).Nodup) (h : Drafted E st) (hq : q ∈ E.queries)
    (haccepts : Accepts E st.draft.nodes q table)
    (hrun : Plan.setTableAttribute q.scope table st = .ok x st') :
    Emission E [] st st' ∧ Noted E st' q := by
  obtain ⟨scopes, hattribute, rfl⟩ := run_setTableAttribute_ok hrun
  have hnotes := attribute?_setAttribute hattribute
  have hnoted : Noted E ⟨scopes, st.draft⟩ q := ⟨table, by rw [hnotes, if_pos rfl], haccepts⟩
  refine ⟨⟨⟨h.config, h.scopes.trans (setAttribute_sameBindings hattribute), h.next, h.sound⟩,
    List.prefix_refl _, by simp, fun q' hq' hold => ?_⟩, hnoted⟩
  by_cases hsame : q'.scope = q.scope
  · exact List.inj_on_of_nodup_map hdistinct hq' hq hsame ▸ hnoted
  · exact hold.mono (by rw [hnotes, if_neg hsame]) (List.Subset.refl _)

end Emission

/-! ## Destinations -/

/-- A destination can take the rows of a query. -/
def Destination.Ready (E : Setting) (ns : List Node) (q : BoundQuery) : Destination → Prop
  | .fresh => True
  | .existing table => Accepts E ns q table

/-- The table that a query was planned into. -/
def Destination.Holds (E : Setting) (ns : List Node) (q : BoundQuery) (table : String) :
    Destination → Prop
  | .fresh => RowTable E ns q.output table
  | .existing t => table = t

theorem Destination.Ready.mono {ns ns' : List Node} (hle : ns ⊆ ns') {q : BoundQuery}
    {destination : Destination} (h : destination.Ready E ns q) : destination.Ready E ns' q := by
  cases destination with
  | fresh => trivial
  | existing t => exact Accepts.mono hle h

theorem Destination.Holds.mono {ns ns' : List Node} (hle : ns ⊆ ns') {q : BoundQuery}
    {table : String} {destination : Destination} (h : destination.Holds E ns q table) :
    destination.Holds E ns' q table := by
  cases destination with
  | fresh => exact RowTable.mono hle h
  | existing t => exact h

/-- Either way the table can take the rows of the query. -/
theorem Destination.Holds.accepts {ns : List Node} {q : BoundQuery} {table : String}
    {destination : Destination} (h : destination.Holds E ns q table)
    (hready : destination.Ready E ns q) : Accepts E ns q table := by
  cases destination with
  | fresh => exact ⟨_, h, rfl⟩
  | existing t =>
    obtain rfl : table = t := h
    exact hready

theorem Emission.destination {q : BoundQuery} {role table : String} {destination : Destination}
    (h : Drafted E st) (hrole : role ≠ "join") (hready : destination.Ready E st.draft.nodes q)
    (hrun : destination.table role q.output st = .ok table st') :
    Emission E [] st st' ∧ Accepts E st'.draft.nodes q table ∧
      destination.Holds E st'.draft.nodes q table := by
  cases destination with
  | fresh =>
    obtain ⟨hemission, htable⟩ := Emission.declareRows h hrole hrun
    exact ⟨hemission, ⟨_, htable, rfl⟩, htable⟩
  | existing t =>
    obtain ⟨rfl, rfl⟩ := run_pure_ok.1 hrun
    exact ⟨.refl h, hready, rfl⟩

/-! ## Lookups -/

theorem SameBindings.lookup {s s' : Scopes} (h : SameBindings s s') (k : String) (id : Nat) :
    s'.lookup k id = s.lookup k id := by
  have hfind : s'.findIn? k = s.findIn? k := funext fun i => h.find k i
  simp only [Scopes.lookup, h.chain, hfind]

theorem SameBindings.trimmedColumns {s s' : Scopes} (h : SameBindings s s') (scope : Nat)
    (leaves : List String) (needs : ColumnNeeds) :
    trimmedColumns s' scope leaves needs = trimmedColumns s scope leaves needs := by
  simp only [Plan.trimmedColumns, Scopes.resolve, h.lookup]

/-! ## Sources -/

section Induction

variable (E : Setting)

-- The statements of the induction, one for each kind of node.

def EmitsQuery (q : BoundQuery) : Prop :=
  ∀ {destination : Destination} {st st' : State} {table : String}, Drafted E st →
    q.queries ⊆ E.queries → Traced (E.Finds st.draft.nodes) q.trail →
    destination.Ready E st.draft.nodes q → planQuery q destination st = .ok table st' →
    Emission E q.trail st st' ∧ destination.Holds E st'.draft.nodes q table ∧
      ∀ q' ∈ q.queries, Noted E st' q'

def EmitsCtes (ctes : List BoundCte) : Prop :=
  ∀ {st st' : State} {x : Unit}, Drafted E st → BoundQuery.queriesOfCtes ctes ⊆ E.queries →
    Traced (E.Finds st.draft.nodes) (BoundQuery.trailOfCtes ctes) → planCtes ctes st = .ok x st' →
    Emission E (BoundQuery.trailOfCtes ctes) st st' ∧
      ∀ q' ∈ BoundQuery.queriesOfCtes ctes, Noted E st' q'

def EmitsBody (body : BoundBody) : Prop :=
  ∀ {q : BoundQuery} {destination : Destination} {st st' : State} {table : String}, Drafted E st →
    q ∈ E.queries → q.body = body → body.queries ⊆ E.queries →
    Traced (E.Finds st.draft.nodes) body.trail → destination.Ready E st.draft.nodes q →
    planBody q.orderBy q.skip q.take q.output body destination st = .ok table st' →
    Emission E body.trail st st' ∧ destination.Holds E st'.draft.nodes q table ∧
      ∀ q' ∈ body.queries, Noted E st' q'

def EmitsSource (src : BoundSource) : Prop :=
  ∀ {q : BoundQuery} {b : BoundSelect} {calls : List RefreshCall}
    {outer : Option (BoundSource × ColumnNeeds)} {ro : Option Relation} {needs : ColumnNeeds}
    {st st' : State} {r : Relation}, Drafted E st → q ∈ E.queries → q.body = .select b →
    refreshCalls E.scopes b = .ok calls →
    PartOf b.source (blockNeeds b q.orderBy calls) src outer needs → src.queries ⊆ E.queries →
    Traced (E.Finds st.draft.nodes) src.trail → Surrounds E b.scope st.draft.nodes outer ro →
    planSource b.scope src needs ro st = .ok r st' →
    Emission E src.trail st st' ∧ Planned E b.scope st'.draft.nodes ro src needs r ∧
      ∀ q' ∈ src.queries, Noted E st' q'

end Induction

/-- Notes stand while more is planned. -/
theorem Emission.notedAll {es : List TableEvent} {qs : List BoundQuery}
    (h : Emission E es st st') (hqs : qs ⊆ E.queries) (hnoted : ∀ q ∈ qs, Noted E st q) :
    ∀ q ∈ qs, Noted E st' q :=
  fun q hq => h.noted q (hqs hq) (hnoted q hq)

/-- The alias of a part of a source can be found. -/
theorem PartOf.finds {q : BoundQuery} {b : BoundSelect} {src : BoundSource}
    {needs n : ColumnNeeds} {outer : Option (BoundSource × ColumnNeeds)} (hq : q ∈ E.queries)
    (hb : q.body = .select b) (h : PartOf b.source needs src outer n) (ns : List Node) :
    E.Finds ns src.aliasName := by
  refine .inr ⟨b.block q.orderBy, ?_, src, h.mem_parts, rfl⟩
  rw [BoundQuery.blocksOf, List.mem_filterMap]
  exact ⟨q, hq, by rw [hb]; rfl⟩

theorem eq_of_scanArguments {outer : Option Relation} {args args' : List Term}
    (h : scanArguments outer args = .ok args') :
    args' = args.map (·.mapUp (relocateNode outer.toList)) := by
  cases outer with
  | none =>
    cases h
    simp [relocate_nil]
  | some r => exact eq_of_relocateAll h

theorem emitsSource_schema (a schema method : String) (args : List Term) (columns : List Column)
    (type : DataType) : EmitsSource E (.schema a schema method args columns type) := by
  intro q b calls outer ro needs st st' r h hq hb _ hpart _ _ _ hrun
  obtain ⟨_, ⟨hargs⟩, rfl⟩ := exists_leafRun rfl hrun
  obtain rfl := eq_of_scanArguments hargs
  rw [BoundSource.trail]
  exact ⟨.binds h (hpart.finds hq hb _), .schema .., by simp [BoundSource.queries]⟩

theorem emitsSource_inMemory (a table : String) (origin : MemoryOrigin) (columns : List Column) :
    EmitsSource E (.inMemory a table origin columns) := by
  intro q b calls outer ro needs st st' r h hq hb _ hpart _ htraced _ hrun
  obtain ⟨_, ⟨⟩, rfl⟩ := exists_leafRun rfl hrun
  have hbinds : Emission E [.binds a] st st := .binds h (hpart.finds hq hb _)
  cases origin with
  | host =>
    rw [BoundSource.trail]
    exact ⟨hbinds, .host .., by simp [BoundSource.queries]⟩
  | cte =>
    rw [BoundSource.trail] at htraced ⊢
    refine ⟨⟨h, List.prefix_refl _, hbinds.found, hbinds.noted⟩, .cte _ _ _ _ ?_,
      by simp [BoundSource.queries]⟩
    refine htraced.1.imp_left ?_
    rintro ⟨name, hname, hexposed⟩
    exact cteKey_injective hname ▸ hexposed

theorem emitsSource_subquery {a : String} {nested : BoundQuery} {columns : List Column}
    (hn : EmitsQuery E nested) : EmitsSource E (.subquery a nested columns) := by
  intro q b calls outer ro needs st st' r h hq hb _ hpart hqs htraced _ hrun
  obtain ⟨_, _ | _ | hquery, rfl⟩ := exists_leafRun rfl hrun
  rw [BoundSource.trail] at htraced ⊢
  rw [BoundSource.queries] at hqs
  obtain ⟨hemission, hcreate, hnoted⟩ :=
    @hn .fresh _ _ _ h hqs (traced_append.1 htraced).1 trivial hquery
  have hself : nested ∈ E.queries := hqs nested.self_mem_queries
  refine ⟨hemission.append (.binds hemission.drafted (hpart.finds hq hb _)),
    .subquery ro a columns needs hself hcreate, ?_⟩
  rw [BoundSource.queries]
  exact hnoted

/-- A pair is planned side by side. -/
theorem planSource_pair {scope : Nat} {src : BoundSource} {p : Pair} (hp : src.pair? = some p)
    (needs : ColumnNeeds) (outer : Option Relation) :
    planSource scope src needs outer = (do
      let l ← planSource scope p.left (p.inputs needs) outer
      let r ← planSource scope p.right (p.inputs needs) (p.around l outer)
      joinRelations scope src.aliasName p.kind p.condition needs outer l r) := by
  cases src with
  | join a kind left right condition =>
    cases hp
    cases kind <;> simp only [planSource] <;> rfl
  | apply a kind left right =>
    cases hp
    cases kind <;> simp only [planSource] <;> rfl
  | _ => cases hp

/-- A pair was planned: the left side, the right side, and the step that joins them. -/
structure PairRun (scope : Nat) (p : Pair) (needs : ColumnNeeds) (outer : Option Relation)
    (st st₁ st₂ st' : State) (l r : Relation) (sources : List (String × Column)) : Prop where
  left : planSource scope p.left (p.inputs needs) outer st = .ok l st₁
  right : planSource scope p.right (p.inputs needs) (p.around l outer) st₁ = .ok r st₂
  trimmed : trimmedColumns st₂.scopes scope (l.leaves ++ r.leaves) needs = .ok sources
  joined : st' = st₂.joined p.kind
    (p.condition.map (·.mapUp (relocateNode ([l, r] ++ outer.toList)))) l r sources

theorem exists_pairRun {scope : Nat} {src : BoundSource} {p : Pair} {needs : ColumnNeeds}
    {outer : Option Relation} {st st' : State} {r : Relation} (hp : src.pair? = some p)
    (hrun : planSource scope src needs outer st = .ok r st') :
    ∃ st₁ st₂ l r' sources, PairRun scope p needs outer st st₁ st₂ st' l r' sources ∧
      r = .transition src.aliasName (st₂.draft.tableName "join") (l.leaves ++ r'.leaves) := by
  rw [planSource_pair hp] at hrun
  obtain ⟨l, st₁, hleft, hrun⟩ := run_bind_ok.1 hrun
  obtain ⟨r', st₂, hright, hjoin⟩ := run_bind_ok.1 hrun
  obtain ⟨sources, predicate, hsources, hpredicate, rfl, rfl⟩ := run_joinRelations_ok.1 hjoin
  obtain rfl := eq_of_relocateOption hpredicate
  exact ⟨st₁, st₂, l, r', sources, ⟨hleft, hright, hsources, rfl⟩, rfl⟩

theorem trail_pair {src : BoundSource} {p : Pair} (hp : src.pair? = some p) :
    src.trail = p.left.trail ++ (p.right.trail ++ [.binds src.aliasName]) := by
  cases src with
  | join | apply =>
    cases hp
    rw [BoundSource.trail]
    rfl
  | _ => cases hp

theorem queries_pair {src : BoundSource} {p : Pair} (hp : src.pair? = some p) :
    src.queries = p.left.queries ++ p.right.queries := by
  cases src with
  | join | apply =>
    cases hp
    rw [BoundSource.queries]
  | _ => cases hp

theorem Surrounds.around {scope : Nat} {before : List Node} {p : Pair}
    {outer : Option (BoundSource × ColumnNeeds)} {ro : Option Relation} {needs : ColumnNeeds}
    {l : Relation} (h : Surrounds E scope before outer ro)
    (hl : Planned E scope before ro p.left needs l) :
    Surrounds E scope before (p.around (p.left, needs) outer) (p.around l ro) := by
  unfold Pair.around
  split
  · exact .some hl
  · exact h

theorem emitsSource_pair {src : BoundSource} {p : Pair} (hp : src.pair? = some p)
    (hl : EmitsSource E p.left) (hr : EmitsSource E p.right) : EmitsSource E src := by
  intro q b calls outer ro needs st st' r h hq hb hcalls hpart hqs htraced houter hrun
  rw [queries_pair hp, List.append_subset] at hqs
  rw [trail_pair hp] at htraced ⊢
  obtain ⟨st₁, st₂, lr, rr, sources, ⟨hleft, hright, hsources, rfl⟩, rfl⟩ := exists_pairRun hp hrun
  obtain ⟨hel, hpl, hnotedl⟩ := hl h hq hb hcalls (hpart.left hp) hqs.1
    (traced_append.1 htraced).1 houter hleft
  have htraced₁ := hel.traced_rest htraced
  obtain ⟨her, hpr, hnotedr⟩ := hr hel.drafted hq hb hcalls (hpart.right hp) hqs.2
    (traced_append.1 htraced₁).1 ((houter.mono hel.nodes_subset).around hpl) hright
  -- the pair declares its table and then fills it
  obtain ⟨hdeclare, hcreate, hname⟩ :
      Emission E [] st₂ (st₂.declared "join" (joinColumns sources) false) ∧
      Node.create (st₂.draft.tableName "join") (joinColumns sources) false ∈ _ ∧ _ :=
    Emission.declare her.drafted (run_declare_ok.2 ⟨rfl, rfl⟩)
  have hdeclared := her.after hdeclare
  have hpl' := hpl.mono hdeclared.nodes_subset
  have hpr' := hpr.mono hdeclare.nodes_subset
  have htable : JoinTable E b.scope _ needs lr rr (st₂.draft.tableName "join") sources :=
    ⟨(her.drafted.scopes.trimmedColumns ..).symm.trans hsources, hcreate, hname⟩
  obtain ⟨hfill, hmem⟩ := Emission.emit hdeclare.drafted
    (.join hq hb hpart hp (houter.mono (hel.append hdeclared).nodes_subset) hpl' hpr' htable hcalls)
    rfl (run_emit_ok.2 rfl)
  have hjoined := hdeclare.append hfill
  refine ⟨hel.append (her.append (hjoined.append (.binds hfill.drafted (hpart.finds hq hb _)))),
    .pair hp (hpl'.mono hfill.nodes_subset) (hpr'.mono hfill.nodes_subset)
      (htable.mono hfill.nodes_subset) hmem, ?_⟩
  rw [queries_pair hp]
  exact List.forall_mem_append.2 ⟨(her.after hjoined).notedAll hqs.1 hnotedl,
    hjoined.notedAll hqs.2 hnotedr⟩

/-! ## Blocks -/

theorem eq_of_regroup {keys : List Term} {table : String} {t t' : Term}
    (h : regroup keys table t = .ok t') : t' = regroupTerm keys table t := by
  simp only [regroup] at h
  split at h
  · cases h
  · cases h
    rfl

theorem eq_of_regroupOrder {keys : List Term} {table : String} {ks ks' : List SortKey}
    (h : regroupOrder keys table ks = .ok ks') :
    ks' = ks.map fun k => { k with term := regroupTerm keys table k.term } := by
  refine eq_map_of_except_mapM (fun k k' hk => ?_) h
  obtain ⟨t, ht, hpure⟩ := except_bind_ok.1 hk
  rw [← except_pure_ok.1 hpure, eq_of_regroup ht]

section Block

variable {q : BoundQuery} {b : BoundSelect} {calls : List RefreshCall} {r : Relation}
  {destination : Destination} {table : String}

theorem BlockPlanned.mono {before before' : List Node} (hle : before ⊆ before')
    (h : BlockPlanned E before q b calls r) : BlockPlanned E before' q b calls r :=
  ⟨h.mem, h.body, h.registered, h.planned.mono hle⟩

theorem Emission.planProjection (h : Drafted E st)
    (hblock : BlockPlanned E st.draft.nodes q b calls r) (hgrouped : b.isGrouped = false)
    (hready : destination.Ready E st.draft.nodes q)
    (hrun : Plan.planProjection b q.orderBy q.skip q.take q.output r destination st =
      .ok table st') :
    Emission E [] st st' ∧ destination.Holds E st'.draft.nodes q table := by
  obtain ⟨filter, select, order, st₁, hfilter, hselect, horder, htable, rfl⟩ :=
    run_planProjection_ok hrun
  obtain ⟨htarget, haccepts, hholds⟩ := Emission.destination h (by decide) hready htable
  rw [eq_of_relocateOption hfilter, eq_of_relocateAll hselect, eq_of_relocateOrder horder]
  obtain ⟨hfill, -⟩ := Emission.emit htarget.drafted
    (.project (hblock.mono htarget.nodes_subset) hgrouped haccepts) rfl (run_emit_ok.2 rfl)
  exact ⟨htarget.append hfill, hholds.mono hfill.nodes_subset⟩

theorem Emission.planGrouped (h : Drafted E st)
    (hblock : BlockPlanned E st.draft.nodes q b calls r) (hgrouped : b.isGrouped = true)
    (hready : destination.Ready E st.draft.nodes q)
    (hrun : Plan.planGrouped b q.orderBy q.skip q.take q.output r calls destination st =
      .ok table st') :
    Emission E [] st st' ∧ destination.Holds E st'.draft.nodes q table := by
  obtain ⟨step, select, having, order, st₁, hstep, hselect, hhaving, horder, htable, rfl⟩ :=
    run_planGrouped_ok hrun
  have hupdates := located_of_aggregateStep hstep
  obtain rfl := eq_of_aggregateStep hstep
  obtain ⟨hdeclare, hcreate, -⟩ : Emission E [] st (st.declared "group" (groupTable q b) true) ∧
      Node.create (st.draft.tableName "group") (groupTable q b) true ∈ _ ∧ _ :=
    Emission.declare h (run_declare_ok.2 ⟨rfl, rfl⟩)
  obtain ⟨hgroup, hmem⟩ := Emission.emit hdeclare.drafted
    (.aggregate (hblock.mono hdeclare.nodes_subset) hgrouped ⟨_, rfl⟩ hupdates) rfl
    (run_emit_ok.2 rfl)
  have hfirst := hdeclare.append hgroup
  obtain ⟨htarget, haccepts, hholds⟩ :=
    Emission.destination hgroup.drafted (by decide) (hready.mono hfirst.nodes_subset) htable
  have hle := (hgroup.append htarget).nodes_subset
  rw [eq_map_of_except_optionM (fun _ _ => eq_of_regroup) hhaving, eq_of_regroupOrder horder,
    eq_map_of_except_mapM (fun _ _ => eq_of_regroup) hselect]
  obtain ⟨hfill, -⟩ := Emission.emit htarget.drafted
    (.score (hblock.mono (hfirst.append htarget).nodes_subset) hgrouped (hle hcreate)
      (htarget.nodes_subset hmem) haccepts) rfl (run_emit_ok.2 rfl)
  exact ⟨(hfirst.append htarget).append hfill, hholds.mono hfill.nodes_subset⟩

end Block

theorem emitsBody_select {b : BoundSelect} (hsource : EmitsSource E b.source) :
    EmitsBody E (.select b) := by
  intro q destination st st' table h hq hb hqs htraced hready hrun
  rw [BoundBody.queries_select] at hqs ⊢
  rw [BoundBody.trail_select] at htraced ⊢
  rw [planBody_select] at hrun
  obtain ⟨_, _, hget, hrun⟩ := run_bind_ok.1 hrun
  obtain ⟨rfl, rfl⟩ := run_get_ok.1 hget
  obtain ⟨calls, _, hlift, hrun⟩ := run_bind_ok.1 hrun
  obtain ⟨hcalls, rfl⟩ := run_liftExcept_ok.1 hlift
  obtain ⟨r, st₁, hplan, hrun⟩ := run_bind_ok.1 hrun
  have hregistered := (h.scopes.refreshCalls b).symm.trans hcalls
  obtain ⟨hsrc, hplanned, hnoted⟩ := hsource h hq hb hregistered .root hqs htraced .none hplan
  have hblock : BlockPlanned E st₁.draft.nodes q b calls r := ⟨hq, hb, hregistered, hplanned⟩
  have hready₁ := hready.mono hsrc.nodes_subset
  unfold planBlock at hrun
  split at hrun
  · rename_i hgrouped
    obtain ⟨hsteps, hholds⟩ := Emission.planGrouped hsrc.drafted hblock hgrouped hready₁ hrun
    exact ⟨hsrc.after hsteps, hholds, hsteps.notedAll hqs hnoted⟩
  · rename_i hgrouped
    obtain ⟨hsteps, hholds⟩ := Emission.planProjection hsrc.drafted hblock
      (Bool.eq_false_iff.2 hgrouped) hready₁ hrun
    exact ⟨hsrc.after hsteps, hholds, hsteps.notedAll hqs hnoted⟩

/-! ## Set operators -/

section SetOperator

variable {q left right : BoundQuery} {operator : SetOperator} {keys : List String}
  {lt rt table : String} {destination : Destination}

theorem Emission.rightTable (h : Drafted E st)
    (hleft : RowTable E st.draft.nodes left.output lt)
    (hrun : Plan.rightTable operator lt left.output st = .ok table st') :
    Emission E [] st st' ∧ RowTable E st'.draft.nodes left.output table := by
  cases operator with
  | unionAll =>
    obtain ⟨rfl, rfl⟩ := run_pure_ok.1 hrun
    exact ⟨.refl h, hleft⟩
  | union | intersect | except => exact Emission.declareRows h (by decide) hrun

theorem Emission.combineTables (h : Drafted E st) (hq : q ∈ E.queries)
    (hbody : q.body = .setOperation operator keys left right)
    (hleft : RowTable E st.draft.nodes left.output lt)
    (hright : RowTable E st.draft.nodes left.output rt)
    (hrun : Plan.combineTables operator keys left.output lt rt st =
      .ok table st') :
    Emission E [] st st' ∧ RowTable E st'.draft.nodes left.output table := by
  cases operator with
  | unionAll =>
    obtain ⟨rfl, rfl⟩ := run_pure_ok.1 hrun
    exact ⟨.refl h, hleft⟩
  | union =>
    obtain ⟨_, _, hmatch, hpure⟩ := run_bind_ok.1 hrun
    obtain ⟨rfl, rfl⟩ := run_pure_ok.1 hpure
    obtain ⟨hemit, -⟩ := Emission.emit h (.setMatch .absent hq hbody hleft hright hleft) rfl hmatch
    exact ⟨hemit, hleft.mono hemit.nodes_subset⟩
  | intersect =>
    obtain ⟨target, _, hdeclare, hrest⟩ := run_bind_ok.1 hrun
    obtain ⟨_, _, hmatch, hpure⟩ := run_bind_ok.1 hrest
    obtain ⟨rfl, rfl⟩ := run_pure_ok.1 hpure
    obtain ⟨hd, hcreate⟩ := Emission.declareRows h (by decide) hdeclare
    obtain ⟨hemit, -⟩ := Emission.emit hd.drafted (.setMatch .present hq hbody hcreate
      (hright.mono hd.nodes_subset) (hleft.mono hd.nodes_subset)) rfl hmatch
    exact ⟨hd.append hemit, hcreate.mono hemit.nodes_subset⟩
  | except =>
    obtain ⟨target, _, hdeclare, hrest⟩ := run_bind_ok.1 hrun
    obtain ⟨_, _, hmatch, hpure⟩ := run_bind_ok.1 hrest
    obtain ⟨rfl, rfl⟩ := run_pure_ok.1 hpure
    obtain ⟨hd, hcreate⟩ := Emission.declareRows h (by decide) hdeclare
    obtain ⟨hemit, -⟩ := Emission.emit hd.drafted (.setMatch .absent hq hbody hcreate
      (hleft.mono hd.nodes_subset) (hright.mono hd.nodes_subset)) rfl hmatch
    exact ⟨hd.append hemit, hcreate.mono hemit.nodes_subset⟩

/-- The table of a set operator is the one of its query if nothing is left to be done. -/
theorem not_needsCopy {orderBy : List SortKey} {skip take : Option Nat}
    (h : ¬ needsCopy orderBy skip take destination) :
    orderBy = [] ∧ skip = none ∧ take = none ∧ destination = .fresh := by
  simpa [needsCopy, and_assoc] using h

theorem Emission.finishSetQuery (h : Drafted E st) (hq : q ∈ E.queries)
    (hbody : q.body = .setOperation operator keys left right)
    (hresult : RowTable E st.draft.nodes q.output lt)
    (hready : destination.Ready E st.draft.nodes q)
    (hrun : Plan.finishSetQuery q.orderBy q.skip q.take q.output lt destination st =
      .ok table st') :
    Emission E [] st st' ∧ destination.Holds E st'.draft.nodes q table := by
  unfold Plan.finishSetQuery at hrun
  split at hrun
  · obtain ⟨_, _, htable, hrest⟩ := run_bind_ok.1 hrun
    obtain ⟨_, _, hemit, hpure⟩ := run_bind_ok.1 hrest
    obtain ⟨rfl, rfl⟩ := run_pure_ok.1 hpure
    obtain ⟨htarget, haccepts, hholds⟩ := Emission.destination h (by decide) hready htable
    obtain ⟨hfill, -⟩ := Emission.emit htarget.drafted
      (.copy hq hbody (hresult.mono htarget.nodes_subset) haccepts) rfl hemit
    exact ⟨htarget.append hfill, hholds.mono hfill.nodes_subset⟩
  · rename_i hcopy
    obtain ⟨rfl, rfl⟩ := run_pure_ok.1 hrun
    obtain ⟨-, -, -, rfl⟩ := not_needsCopy hcopy
    exact ⟨.refl h, hresult⟩

end SetOperator

theorem emitsBody_setOperation {operator : SetOperator} {keys : List String}
    {left right : BoundQuery} (hformed : ∀ q ∈ E.queries, q.Formed) (hl : EmitsQuery E left)
    (hr : EmitsQuery E right) : EmitsBody E (.setOperation operator keys left right) := by
  intro q destination st st' table h hq hbody hqs htraced hready hrun
  have hcombines : Combines keys left right q.orderBy q.output := by
    have hgives := (hformed q hq).gives
    rwa [hbody] at hgives
  rw [BoundBody.queries_setOperation] at hqs ⊢
  rw [List.append_subset] at hqs
  rw [BoundBody.trail] at htraced ⊢
  simp only [planBody] at hrun
  obtain ⟨leftTable, st₁, hleft, hrun⟩ := run_bind_ok.1 hrun
  obtain ⟨rightTable, st₂, htable, hrun⟩ := run_bind_ok.1 hrun
  obtain ⟨_, st₃, hright, hrun⟩ := run_bind_ok.1 hrun
  obtain ⟨result, st₄, hcombine, hfinish⟩ := run_bind_ok.1 hrun
  obtain ⟨hel, hcreatel, hnotedl⟩ : _ ∧ RowTable E _ left.output leftTable ∧ _ :=
    @hl .fresh _ _ _ h hqs.1 (traced_append.1 htraced).1 trivial hleft
  obtain ⟨het, hcreater⟩ := Emission.rightTable hel.drafted hcreatel htable
  have htracedr : Traced (E.Finds st₂.draft.nodes) right.trail :=
    (hel.traced_rest htraced).mono fun k hk => hk.mono het.nodes_subset
  obtain ⟨her, rfl, hnotedr⟩ : _ ∧ _ = rightTable ∧ _ := @hr (.existing rightTable) _ _ _
    het.drafted hqs.2 htracedr ⟨_, hcreater, hcombines.types.symm⟩ hright
  obtain ⟨hec, hresult⟩ := Emission.combineTables her.drafted hq hbody
    (hcreatel.mono (her.before het).nodes_subset) (hcreater.mono her.nodes_subset)
    hcombine
  rw [← hcombines.columns] at hresult
  have hall := ((hel.append (her.before het)).after hec)
  obtain ⟨hef, hholds⟩ := Emission.finishSetQuery hec.drafted hq hbody hresult
    (hready.mono hall.nodes_subset) hfinish
  refine ⟨hall.after hef, hholds, List.forall_mem_append.2 ⟨?_, ?_⟩⟩
  · exact ((her.before het).after (hec.append hef)).notedAll hqs.1 hnotedl
  · exact (hec.append hef).notedAll hqs.2 hnotedr

/-! ## Queries -/

theorem emitsQuery_mk {scope : Nat} {ctes : List BoundCte} {body : BoundBody}
    {orderBy : List SortKey} {skip take : Option Nat} {output : List Column}
    (hdistinct : (E.queries.map (·.scope)).Nodup) (hctes : EmitsCtes E ctes)
    (hbody : EmitsBody E body) :
    EmitsQuery E ⟨scope, ctes, body, orderBy, skip, take, output⟩ := by
  intro destination st st' table h hqs htraced hready hrun
  rw [BoundQuery.queries_eq] at hqs ⊢
  rw [List.cons_subset, List.append_subset] at hqs
  obtain ⟨hself, hqsc, hqsb⟩ := hqs
  rw [BoundQuery.trail_eq] at htraced ⊢
  simp only [planQuery] at hrun
  obtain ⟨_, st₁, henter, hrun⟩ := run_bind_ok.1 hrun
  obtain ⟨_, st₂, hplanCtes, hrun⟩ := run_bind_ok.1 hrun
  obtain ⟨_, st₃, hplanBody, hrun⟩ := run_bind_ok.1 hrun
  obtain ⟨_, st₄, hexit, hrun⟩ := run_bind_ok.1 hrun
  obtain ⟨_, st₅, hset, hpure⟩ := run_bind_ok.1 hrun
  obtain ⟨rfl, rfl⟩ := run_pure_ok.1 hpure
  have hein := Emission.enterQuery h henter
  have htraced₁ : Traced (E.Finds st₁.draft.nodes) _ :=
    htraced.mono fun k hk => hk.mono hein.nodes_subset
  obtain ⟨hec, hnotedc⟩ := hctes hein.drafted hqsc (traced_append.1 htraced₁).1 hplanCtes
  have hpre := hec.before hein
  obtain ⟨heb, hholds, hnotedb⟩ := hbody hec.drafted hself rfl hqsb (hec.traced_rest htraced₁)
    (hready.mono hpre.nodes_subset) hplanBody
  have heout := Emission.exitQuery heb.drafted hexit
  have hlast := (hpre.append heb).after heout
  obtain ⟨heset, hnoted⟩ := Emission.setTableAttribute hdistinct heout.drafted hself
    ((hholds.mono heout.nodes_subset).accepts (hready.mono hlast.nodes_subset)) hset
  have hpost := heout.append heset
  refine ⟨(hpre.append heb).after hpost, hholds.mono hpost.nodes_subset,
    List.forall_mem_cons.2 ⟨hnoted, List.forall_mem_append.2 ⟨?_, hpost.notedAll hqsb hnotedb⟩⟩⟩
  exact (heb.after hpost).notedAll hqsc hnotedc

theorem emitsCtes_nil : EmitsCtes E [] := by
  intro st st' x h _ _ hrun
  simp only [planCtes] at hrun
  obtain ⟨-, rfl⟩ := run_pure_ok.1 hrun
  rw [BoundQuery.trailOfCtes]
  exact ⟨.refl h, by simp [BoundQuery.queriesOfCtes]⟩

theorem emitsCtes_cons {name : String} {q : BoundQuery} {rest : List BoundCte}
    (hq : EmitsQuery E q) (hrest : EmitsCtes E rest) : EmitsCtes E (⟨name, q⟩ :: rest) := by
  intro st st' x h hqs htraced hrun
  rw [BoundQuery.queriesOfCtes] at hqs ⊢
  rw [List.append_subset] at hqs
  rw [BoundQuery.trailOfCtes] at htraced ⊢
  simp only [planCtes] at hrun
  obtain ⟨table, st₁, hquery, hrun⟩ := run_bind_ok.1 hrun
  obtain ⟨_, st₂, hemit, hrun⟩ := run_bind_ok.1 hrun
  obtain ⟨heq, htable, hnoted⟩ : _ ∧ RowTable E _ q.output table ∧ _ :=
    @hq .fresh _ _ _ h hqs.1 (traced_append.1 htraced).1 trivial hquery
  have hself : q ∈ E.queries := hqs.1 q.self_mem_queries
  obtain ⟨her, hmem⟩ := Emission.emit heq.drafted (.rename name hself htable) rfl hemit
  -- from here on the name is exposed, so the rest may read it
  have hname : Emission E [.binds (cteKey name)] st₁ st₂ :=
    ⟨her.drafted, her.kept, by simpa using .inl ⟨name, rfl, table, hmem⟩, her.noted⟩
  have htraced₁ := heq.traced_rest htraced
  obtain ⟨hlater, hnotedr⟩ := hrest her.drafted hqs.2 (hname.traced_rest htraced₁) hrun
  exact ⟨heq.append (hname.append hlater),
    List.forall_mem_append.2 ⟨(hname.append hlater).notedAll hqs.1 hnoted, hnotedr⟩⟩

mutual

theorem planQuery_emits (hE : E.Plannable) : ∀ q : BoundQuery, EmitsQuery E q
  | ⟨_, ctes, body, _, _, _, _⟩ =>
    emitsQuery_mk hE.distinct (planCtes_emits hE ctes) (planBody_emits hE body)

theorem planCtes_emits (hE : E.Plannable) : ∀ ctes : List BoundCte, EmitsCtes E ctes
  | [] => emitsCtes_nil
  | ⟨_, query⟩ :: rest => emitsCtes_cons (planQuery_emits hE query) (planCtes_emits hE rest)

theorem planBody_emits (hE : E.Plannable) : ∀ body : BoundBody, EmitsBody E body
  | .select ⟨_, source, _, _, _, _, _⟩ => emitsBody_select (planSource_emits hE source)
  | .setOperation _ _ left right =>
    emitsBody_setOperation hE.formed (planQuery_emits hE left) (planQuery_emits hE right)

theorem planSource_emits (hE : E.Plannable) : ∀ src : BoundSource, EmitsSource E src
  | .schema a schema method args columns type =>
    emitsSource_schema a schema method args columns type
  | .inMemory a table origin columns => emitsSource_inMemory a table origin columns
  | .subquery _ query _ => emitsSource_subquery (planQuery_emits hE query)
  | .join _ _ left right _ =>
    emitsSource_pair rfl (planSource_emits hE left) (planSource_emits hE right)
  | .apply _ _ left right =>
    emitsSource_pair rfl (planSource_emits hE left) (planSource_emits hE right)

end

section Resolved

variable {env : Resolve.Env} {q : Query} {a : Resolve.Analysis} {requests : List TableRequest}
  {config : PlanConfig} {plan : Plan} {scopes : Scopes}

/-- The run of planning behind the plan of a resolved query. -/
theorem ofQuery_emits (ha : Resolve.analyze env q = (.ok a, requests))
    (h : ofQuery config a.scopes a.query = .ok (plan, scopes)) :
    ∃ st : State, st.scopes = scopes ∧ st.draft.nodes = plan.nodes ∧ plan.output = a.query.output ∧
      Sound ⟨config, a.scopes, a.query.queries⟩ st.draft.nodes ∧
      RowTable ⟨config, a.scopes, a.query.queries⟩ st.draft.nodes a.query.output plan.result ∧
      ∀ q' ∈ a.query.queries, Noted ⟨config, a.scopes, a.query.queries⟩ st q' := by
  unfold ofQuery at h
  cases hrun : (planQuery a.query .fresh).run ⟨a.scopes, .empty config⟩ with
  | error e st => rw [hrun] at h; cases h
  | ok table st =>
    rw [hrun] at h
    cases h
    have hempty : Drafted ⟨config, a.scopes, a.query.queries⟩ ⟨a.scopes, .empty config⟩ :=
      ⟨rfl, .refl _, rfl, .nil⟩
    obtain ⟨hemission, hcreate, hnoted⟩ : _ ∧ RowTable _ _ a.query.output table ∧ _ :=
      @planQuery_emits _ ⟨Resolve.analyze_formed ha, (Resolve.analyze_follows ha "").2⟩ a.query
        .fresh _ _ _ hempty (List.Subset.refl _)
        ((Resolve.analyze_traced ha).mono fun _ hk => hk.elim) trivial hrun
    exact ⟨st, rfl, rfl, rfl, hemission.drafted.sound, hcreate, hnoted⟩

/-- The plan of a resolved query consists of sound nodes, and the table of its result has the
    columns of its output. -/
theorem ofQuery_sound (ha : Resolve.analyze env q = (.ok a, requests))
    (h : ofQuery config a.scopes a.query = .ok (plan, scopes)) :
    Sound ⟨config, a.scopes, a.query.queries⟩ plan.nodes ∧
      .create plan.result plan.output false ∈ plan.nodes := by
  obtain ⟨st, -, hnodes, houtput, hsound, hresult, -⟩ := ofQuery_emits ha h
  rw [← hnodes, houtput]
  exact ⟨hsound, hresult.declared⟩

/-- The scope of every query names a declared table with the types of the output. -/
theorem ofQuery_noted (ha : Resolve.analyze env q = (.ok a, requests))
    (h : ofQuery config a.scopes a.query = .ok (plan, scopes)) {q' : BoundQuery}
    (hq' : q' ∈ a.query.queries) : ∃ table columns,
      scopes.attribute? q'.scope tableAttribute = some table ∧
      .create table columns false ∈ plan.nodes ∧
      columns.map (·.type) = q'.output.map (·.type) := by
  obtain ⟨st, rfl, hnodes, -, -, -, hnoted⟩ := ofQuery_emits ha h
  obtain ⟨table, hattribute, columns, htable, htypes⟩ := hnoted q' hq'
  exact ⟨table, columns, hattribute, hnodes ▸ htable.declared, htypes⟩

end Resolved

end SchemaQuery.Plan
