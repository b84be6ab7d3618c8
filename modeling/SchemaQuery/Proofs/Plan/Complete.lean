-- SUMMARY: A table that is read has all its rows: no later node of the plan fills it.
import SchemaQuery.Proofs.Plan.Executable
import SchemaQuery.Proofs.Plan.Filled

/-!
# Complete tables

A union appends to the table of its left operand, and right operands are written
into tables that belong to an operator around them. Still no table is filled after
it was read. While a query is planned, the nodes emitted for it read tables that
are new to it, and neither its own table nor the one it was told to fill is among
them (`planQuery_consumes`).

The names of common table expressions are the exception: a source that reads one
scans whatever table has that name. With names unlike those of numbered tables it
can meet a table that is still to be filled only where an alias was written like
the key of an expression (`ofQuery_complete`).
-/

namespace SchemaQuery

/-! ## Names in trails -/

/-- A key that belongs to some queries: of an expression, or an alias of a source. -/
def BoundQuery.HasKey (qs : List BoundQuery) (key : String) : Prop :=
  (∃ q ∈ qs, ∃ c ∈ q.ctes, key = cteKey c.name) ∨ key ∈ BoundQuery.sourceAliases qs

theorem Traced.bound_of_reads {known : String → Prop} {es : List TableEvent} {key : String}
    (h : Traced known es) (hmem : .reads key ∈ es) : known key ∨ key ∈ boundKeys es := by
  induction es generalizing known with
  | nil => cases hmem
  | cons e es ih =>
    cases e with
    | binds k =>
      have hrest := ih h ((List.mem_cons.1 hmem).resolve_left nofun)
      simpa [or_assoc] using hrest
    | reads k =>
      rcases List.mem_cons.1 hmem with heq | hmem
      · cases heq
        exact .inl h.1
      · exact ih h.2 hmem

section Keys

variable {qs : List BoundQuery}

theorem hasKey_part {b : Block} {src : BoundSource} (hb : b ∈ BoundQuery.blocksOf qs)
    (hsrc : src ∈ b.source.parts) : BoundQuery.HasKey qs src.aliasName :=
  .inr (List.mem_flatMap.2 ⟨b, hb, List.mem_map_of_mem hsrc⟩)

mutual

theorem BoundQuery.trail_hasKey : ∀ q : BoundQuery, q.queries ⊆ qs →
    ∀ key ∈ boundKeys q.trail, BoundQuery.HasKey qs key
  | ⟨scope, ctes, body, orderBy, skip, take, output⟩, hq => by
    intro key hkey
    have hself := hq (BoundQuery.self_mem_queries _)
    rw [BoundQuery.queries, List.cons_subset, List.append_subset] at hq
    rw [BoundQuery.trail, boundKeys_append, List.mem_append] at hkey
    rcases hkey with hkey | hkey
    · exact BoundQuery.trailOfCtes_hasKey ctes (fun c hc => ⟨_, hself, hc⟩) hq.2.1 key hkey
    · refine body.trail_hasKey (fun b hb => ?_) hq.2.2 key hkey
      exact ⟨_, List.mem_filterMap.2 ⟨_, hself, congrArg (BoundBody.block? orderBy) hb⟩, rfl⟩

theorem BoundQuery.trailOfCtes_hasKey : ∀ ctes : List BoundCte,
    (∀ c ∈ ctes, ∃ q ∈ qs, c ∈ q.ctes) → BoundQuery.queriesOfCtes ctes ⊆ qs →
    ∀ key ∈ boundKeys (BoundQuery.trailOfCtes ctes), BoundQuery.HasKey qs key
  | [], _, _ => by simp [BoundQuery.trailOfCtes]
  | ⟨name, query⟩ :: rest, hctes, hq => by
    intro key hkey
    rw [BoundQuery.queriesOfCtes, List.append_subset] at hq
    rw [BoundQuery.trailOfCtes, boundKeys_append, boundKeys_binds, List.mem_append,
      List.mem_cons] at hkey
    rcases hkey with hkey | rfl | hkey
    · exact query.trail_hasKey hq.1 key hkey
    · obtain ⟨q, hq', hc⟩ := hctes _ List.mem_cons_self
      exact .inl ⟨q, hq', _, hc, rfl⟩
    · exact BoundQuery.trailOfCtes_hasKey rest (fun c hc => hctes c (List.mem_cons_of_mem _ hc))
        hq.2 key hkey

theorem BoundBody.trail_hasKey : ∀ body : BoundBody,
    (∀ s, body = .select s → ∃ b ∈ BoundQuery.blocksOf qs, b.source = s.source) →
    body.queries ⊆ qs → ∀ key ∈ boundKeys body.trail, BoundQuery.HasKey qs key
  | .select ⟨_, source, _, _, _, _, _⟩, hblock, hq => by
    intro key hkey
    rw [BoundBody.queries] at hq
    rw [BoundBody.trail] at hkey
    obtain ⟨b, hb, hsource⟩ := hblock _ rfl
    exact source.trail_hasKey b hb (hsource ▸ source.self_mem_parts) hq key hkey
  | .setOperation _ _ left right, _, hq => by
    intro key hkey
    rw [BoundBody.queries, List.append_subset] at hq
    rw [BoundBody.trail, boundKeys_append, List.mem_append] at hkey
    exact hkey.elim (left.trail_hasKey hq.1 key) (right.trail_hasKey hq.2 key)

theorem BoundSource.trail_hasKey : ∀ (src : BoundSource) (b : Block),
    b ∈ BoundQuery.blocksOf qs → src ∈ b.source.parts → src.queries ⊆ qs →
    ∀ key ∈ boundKeys src.trail, BoundQuery.HasKey qs key
  | .schema a _ _ _ _ _, b, hb, hsrc, _ | .inMemory a _ .host _, b, hb, hsrc, _
  | .inMemory a _ .cte _, b, hb, hsrc, _ => by
    intro key hkey
    rw [BoundSource.trail] at hkey
    obtain rfl : key = a := by simpa using hkey
    exact hasKey_part hb hsrc
  | .subquery a query _, b, hb, hsrc, hq => by
    intro key hkey
    rw [BoundSource.queries] at hq
    rw [BoundSource.trail, boundKeys_append, List.mem_append] at hkey
    rcases hkey with hkey | hkey
    · exact query.trail_hasKey hq key hkey
    · obtain rfl : key = a := by simpa using hkey
      exact hasKey_part hb hsrc
  | .join a _ left right _, b, hb, hsrc, hq | .apply a _ left right, b, hb, hsrc, hq => by
    intro key hkey
    have hparts := BoundSource.parts_subset hsrc
    rw [BoundSource.queries, List.append_subset] at hq
    rw [BoundSource.trail, boundKeys_append, boundKeys_append, List.mem_append,
      List.mem_append] at hkey
    rw [BoundSource.parts, List.cons_subset, List.append_subset] at hparts
    rcases hkey with hkey | hkey | hkey
    · exact left.trail_hasKey b hb (hparts.2.1 left.self_mem_parts) hq.1 key hkey
    · exact right.trail_hasKey b hb (hparts.2.2 right.self_mem_parts) hq.2 key hkey
    · obtain rfl : key = a := by simpa using hkey
      exact hasKey_part hb hsrc

end

end Keys

namespace Plan

/-! ## Reading nodes -/

/-- The table that a node adds rows to. -/
def Node.target? : Node → Option String
  | .populate step => some step.target
  | .aggregate step => some step.target
  | .setMatch step => some step.target
  | .create .. | .rename .. => none

/-- The tables whose rows a node takes. A match may probe the table that it fills. -/
def Node.consumed : Node → List String
  | .setMatch step => step.source :: if step.probe = step.target then [] else [step.probe]
  | .rename source _ => [source]
  | n => n.scans.map (·.2)

section Consumption

-- the names of tables that may be scanned at any time
variable (Named : String → Prop)

/-- A node scans a table under one of the names. -/
def Node.ScansNamed (n : Node) (table : String) : Prop :=
  table ∈ n.scans.map (·.2) ∧ Named table

/-- No node reads the table so far. -/
def Unread (st : State) (table : String) : Prop :=
  ∀ n ∈ st.draft.nodes, table ∈ n.consumed → n.ScansNamed Named table

/-- The nodes so far read numbered tables, and none of them is filled later on. -/
structure Settled (st : State) : Prop where
  old : ∀ n ∈ st.draft.nodes, ∀ t ∈ n.consumed, n.ScansNamed Named t ∨ st.IsOld t
  complete : st.draft.nodes.Pairwise fun n m =>
    ∀ t ∈ n.consumed, m.target? = some t → n.ScansNamed Named t

/-- The nodes emitted between two states read tables that are new to an earlier state. -/
structure Consumes (base st st' : State) : Prop where
  settled : Settled Named st'
  nodes : ∃ ns, st'.draft.nodes = st.draft.nodes ++ ns ∧
    ∀ n ∈ ns, ∀ t ∈ n.consumed, n.ScansNamed Named t ∨ base.IsNew t

variable {Named} {base base' st st₁ st' : State} {ts : List String} {t table : String}

namespace Consumes

theorem trans (h : Consumes Named base st st₁) (h' : Consumes Named base st₁ st') :
    Consumes Named base st st' where
  settled := h'.settled
  nodes := by
    obtain ⟨ns, hns, hreads⟩ := h.nodes
    obtain ⟨ns', hns', hreads'⟩ := h'.nodes
    refine ⟨ns ++ ns', by rw [hns', hns, List.append_assoc], fun n hn => ?_⟩
    exact (List.mem_append.1 hn).elim (hreads n) (hreads' n)

theorem rebase (h : Consumes Named base' st st') (hf : Fills ts base base') :
    Consumes Named base st st' where
  settled := h.settled
  nodes := by
    obtain ⟨ns, hns, hreads⟩ := h.nodes
    exact ⟨ns, hns, fun n hn t ht => (hreads n hn t ht).imp_right hf.isNew⟩

theorem of_nodes (hs : Settled Named st) (hf : Fills ts st st')
    (hnodes : st'.draft.nodes = st.draft.nodes) : Consumes Named base st st' where
  settled := by
    refine ⟨?_, hnodes ▸ hs.complete⟩
    rw [hnodes]
    exact fun n hn t ht => (hs.old n hn t ht).imp_right hf.isOld
  nodes := ⟨[], by rw [hnodes, List.append_nil], by simp⟩

theorem emit {n : Node} (hs : Settled Named st)
    (hreads : ∀ t ∈ n.consumed, n.ScansNamed Named t ∨ Created base st t)
    (htarget : ∀ t, n.target? = some t → Unread Named st t)
    (hrun : Plan.emit n st = .ok () st') : Consumes Named base st st' := by
  obtain rfl := run_emit_ok.1 hrun
  refine ⟨⟨fun n' hn' t ht => ?_, ?_⟩, [n], rfl, fun n' hn' t ht => ?_⟩
  · rcases List.mem_append.1 hn' with hn' | hn'
    · exact hs.old n' hn' t ht
    · obtain rfl := List.mem_singleton.1 hn'
      exact (hreads t ht).imp_right (·.2)
  · refine List.pairwise_append.2 ⟨hs.complete, List.pairwise_singleton _ _, ?_⟩
    intro n' hn' m hm t ht htarget'
    obtain rfl := List.mem_singleton.1 hm
    exact htarget t htarget' n' hn' ht
  · obtain rfl := List.mem_singleton.1 hn'
    exact (hreads t ht).imp_right (·.1)

theorem declared (hs : Settled Named st) (role : String) (columns : List Column)
    (forGrouping : Bool) : Consumes Named base st (st.declared role columns forGrouping) := by
  obtain ⟨hfills, -⟩ := Fills.declared st role columns forGrouping
  refine ⟨⟨fun n hn t ht => ?_, ?_⟩, [_], rfl, ?_⟩
  · rcases List.mem_append.1 hn with hn | hn
    · exact (hs.old n hn t ht).imp_right hfills.isOld
    · obtain rfl := List.mem_singleton.1 hn
      cases ht
  · refine List.pairwise_append.2 ⟨hs.complete, List.pairwise_singleton _ _, ?_⟩
    intro n hn m hm t ht htarget
    obtain rfl := List.mem_singleton.1 hm
    cases htarget
  · intro n hn t ht
    obtain rfl := List.mem_singleton.1 hn
    cases ht

end Consumes

namespace Unread

/-- A new table was read by no node. -/
theorem of_isNew (hs : Settled Named st) (hnew : st.IsNew t) : Unread Named st t :=
  fun n hn ht => (hs.old n hn t ht).resolve_right fun hold => hold.not_isNew hnew

theorem declared (hs : Settled Named st) (role : String) (columns : List Column)
    (forGrouping : Bool) :
    Unread Named (st.declared role columns forGrouping) (st.draft.tableName role) := by
  intro n hn ht
  rcases List.mem_append.1 hn with hn | hn
  · exact of_isNew hs ⟨_, role, Nat.le_refl _, rfl⟩ n hn ht
  · obtain rfl := List.mem_singleton.1 hn
    cases ht

/-- Reading new tables leaves an old one unread. -/
theorem after (h : Unread Named st t) (hc : Consumes Named base st st') (hold : base.IsOld t) :
    Unread Named st' t := by
  obtain ⟨ns, hns, hreads⟩ := hc.nodes
  intro n hn ht
  rw [hns] at hn
  rcases List.mem_append.1 hn with hn | hn
  · exact h n hn ht
  · exact (hreads n hn t ht).resolve_right hold.not_isNew

theorem emit {n : Node} (h : Unread Named st t) (hn : t ∈ n.consumed → n.ScansNamed Named t)
    (hrun : Plan.emit n st = .ok () st') : Unread Named st' t := by
  obtain rfl := run_emit_ok.1 hrun
  intro n' hn' ht
  rcases List.mem_append.1 hn' with hn' | hn'
  · exact h n' hn' ht
  · obtain rfl := List.mem_singleton.1 hn'
    exact hn ht

end Unread

/-- Declares a table and fills it from tables that were created since the base. -/
theorem Consumes.declareAndFill {role : String} {columns : List Column} {forGrouping : Bool}
    {n : Node} (hs : Settled Named st) (hn : n.target? = some (st.draft.tableName role))
    (hreads : ∀ t ∈ n.consumed, n.ScansNamed Named t ∨ Created base st t) :
    Consumes Named base st ⟨st.scopes, (st.declared role columns forGrouping).draft.emit n⟩ := by
  have hdeclared : Consumes Named base st _ := .declared hs role columns forGrouping
  obtain ⟨hfills, -⟩ := Fills.declared st role columns forGrouping
  refine hdeclared.trans (.emit hdeclared.settled (fun t ht => ?_) (fun t ht => ?_)
    (run_emit_ok.2 rfl))
  · exact (hreads t ht).imp_right fun h => ⟨h.1, hfills.isOld h.2⟩
  · cases hn.symm.trans ht
    exact .declared hs role columns forGrouping

/-! ## Destinations -/

/-- The table to be filled, if it exists, is old and was not read. -/
def Destination.Waits (Named : String → Prop) (st : State) (destination : Destination) : Prop :=
  ∀ t ∈ destination.tables, st.IsOld t ∧ Unread Named st t

theorem Destination.waits_fresh : Destination.fresh.Waits Named st := by
  simp [Destination.Waits, Destination.tables]

theorem Destination.Waits.after {destination : Destination} (h : destination.Waits Named st)
    (hf : Fills ts st st') (hc : Consumes Named st st st') : destination.Waits Named st' :=
  fun t ht => ⟨hf.isOld (h t ht).1, (h t ht).2.after hc (h t ht).1⟩

/-- Fills the table of a destination from tables that were created since the base. -/
theorem Destination.consumes {destination : Destination} {role : String} {columns : List Column}
    {n : Node} (hs : Settled Named st) (hwaits : destination.Waits Named st)
    (hbase : ∀ t ∈ destination.tables, base.IsOld t)
    (htable : destination.table role columns st = .ok table st₁) (hn : n.target? = some table)
    (hreads : ∀ t ∈ n.consumed, n.ScansNamed Named t ∨ Created base st t)
    (hemit : Plan.emit n st₁ = .ok () st') :
    Consumes Named base st st' ∧ Unread Named st' table := by
  obtain ⟨hfills, hplaced⟩ := Destination.fills htable
  have hnext : Consumes Named base st st₁ ∧ Unread Named st₁ table := by
    cases destination with
    | fresh =>
      obtain ⟨rfl, rfl⟩ := run_declare_ok.1 htable
      exact ⟨.declared hs _ _ _, .declared hs _ _ _⟩
    | existing t =>
      obtain ⟨rfl, rfl⟩ := run_pure_ok.1 htable
      exact ⟨.of_nodes hs hfills rfl, (hwaits _ (List.mem_singleton_self _)).2⟩
  -- the filled table is older than what is read, or newer
  have hother : table ∈ n.consumed → n.ScansNamed Named table := by
    refine fun ht => (hreads table ht).resolve_right fun hcreated => ?_
    cases destination with
    | fresh => exact hcreated.2.not_isNew hplaced.1
    | existing t =>
      obtain rfl : table = t := hplaced
      exact (hbase _ (List.mem_singleton_self _)).not_isNew hcreated.1
  refine ⟨hnext.1.trans (.emit hnext.1.settled (fun t ht => (hreads t ht).imp_right fun h =>
    ⟨h.1, hfills.isOld h.2⟩) (fun t ht => ?_) hemit), hnext.2.emit hother hemit⟩
  cases hn.symm.trans ht
  exact hnext.2

/-! ## The induction -/

-- The statements of the induction, one for each kind of node.

section Induction

variable (Named)

/-- The expressions that a trail reads have names of the list. -/
def ReadsNamed (es : List TableEvent) : Prop := ∀ name, .reads (cteKey name) ∈ es → Named name

def ConsumesQuery (q : BoundQuery) : Prop :=
  ∀ {destination : Destination} {st st' : State} {table : String}, ReadsNamed Named q.trail →
    Settled Named st → destination.Waits Named st → planQuery q destination st = .ok table st' →
    Consumes Named st st st' ∧ Unread Named st' table

def ConsumesCtes (ctes : List BoundCte) : Prop :=
  ∀ {st st' : State} {x : Unit}, ReadsNamed Named (BoundQuery.trailOfCtes ctes) →
    Settled Named st → planCtes ctes st = .ok x st' → Consumes Named st st st'

def ConsumesBody (body : BoundBody) : Prop :=
  ∀ {orderBy : List SortKey} {skip take : Option Nat} {output : List Column}
    {destination : Destination} {st st' : State} {table : String}, ReadsNamed Named body.trail →
    Settled Named st → destination.Waits Named st →
    planBody orderBy skip take output body destination st = .ok table st' →
    Consumes Named st st st' ∧ Unread Named st' table

/-- The relation of a source reads tables that were created for it. -/
def ConsumesSource (src : BoundSource) : Prop :=
  ∀ {scope : Nat} {needs : ColumnNeeds} {outer : Option Relation} {st st' : State} {r : Relation},
    ReadsNamed Named src.trail → Settled Named st →
    planSource scope src needs outer st = .ok r st' →
    Consumes Named st st st' ∧ ∀ x ∈ r.scan.tables, Named x.2 ∨ Created st st' x.2

end Induction

section Trails

variable {es es' : List TableEvent}

theorem ReadsNamed.left (h : ReadsNamed Named (es ++ es')) : ReadsNamed Named es :=
  fun name hname => h name (List.mem_append_left _ hname)

theorem ReadsNamed.right (h : ReadsNamed Named (es ++ es')) : ReadsNamed Named es' :=
  fun name hname => h name (List.mem_append_right _ hname)

end Trails

/-! ## Sources -/

theorem consumesSource_schema (a schema method : String) (args : List Term)
    (columns : List Column) (type : DataType) :
    ConsumesSource Named (.schema a schema method args columns type) := by
  intro scope needs outer st st' r _ hs hrun
  have hfills := planSource_fills _ hrun
  obtain ⟨_, ⟨⟩, rfl⟩ := exists_leafRun rfl hrun
  exact ⟨.of_nodes hs hfills rfl, fun x hx => by cases hx⟩

theorem consumesSource_inMemory (a name : String) (origin : MemoryOrigin) (columns : List Column) :
    ConsumesSource Named (.inMemory a name origin columns) := by
  intro scope needs outer st st' r hnames hs hrun
  have hfills := planSource_fills _ hrun
  obtain ⟨_, ⟨⟩, rfl⟩ := exists_leafRun rfl hrun
  refine ⟨.of_nodes hs hfills rfl, fun x hx => ?_⟩
  cases origin with
  | host => cases hx
  | cte =>
    cases List.mem_singleton.1 hx
    exact .inl (hnames name (by simp [BoundSource.trail]))

theorem consumesSource_subquery {a : String} {q : BoundQuery} {columns : List Column}
    (hq : ConsumesQuery Named q) : ConsumesSource Named (.subquery a q columns) := by
  intro scope needs outer st st' r hnames hs hrun
  rw [BoundSource.trail] at hnames
  obtain ⟨_, _ | _ | hquery, rfl⟩ := exists_leafRun rfl hrun
  obtain ⟨hconsumes, -⟩ := hq hnames.left hs Destination.waits_fresh hquery
  refine ⟨hconsumes, fun x hx => ?_⟩
  cases List.mem_singleton.1 hx
  exact .inr (planQuery_fills q hquery).2

theorem consumesSource_pair {src : BoundSource} {p : Pair} (hp : src.pair? = some p)
    (hl : ConsumesSource Named p.left) (hr : ConsumesSource Named p.right) :
    ConsumesSource Named src := by
  intro scope needs outer st st' r hnames hs hrun
  rw [trail_pair hp] at hnames
  obtain ⟨st₁, st₂, lr, rr, sources, ⟨hleft, hright, -, rfl⟩, rfl⟩ := exists_pairRun hp hrun
  have hfl := planSource_fills _ hleft
  have hfr := planSource_fills _ hright
  obtain ⟨hcl, hscansl⟩ := hl hnames.left hs hleft
  obtain ⟨hcr, hscansr⟩ := hr hnames.right.left hcl.settled hright
  obtain ⟨-, hcreated⟩ := Fills.declared st₂ "join" (joinColumns sources) false
  refine ⟨(hcl.trans (hcr.rebase hfl)).trans (.declareAndFill hcr.settled rfl fun t ht => ?_),
    fun x hx => ?_⟩
  · obtain ⟨x, hx, rfl⟩ := List.mem_map.1 ht
    change x ∈ lr.scan.tables ++ rr.scan.tables at hx
    rcases List.mem_append.1 hx with hx | hx
    · exact (hscansl x hx).imp (⟨ht, ·⟩) fun h => ⟨h.1, hfr.isOld h.2⟩
    · exact (hscansr x hx).imp (⟨ht, ·⟩) fun h => ⟨hfl.isNew h.1, h.2⟩
  · cases List.mem_singleton.1 hx
    exact .inr ⟨(hfl.append hfr).isNew hcreated.1, hcreated.2⟩

/-! ## Blocks -/

section Block

variable {b : BoundSelect} {calls : List RefreshCall} {r : Relation} {destination : Destination}
  {orderBy : List SortKey} {skip take : Option Nat} {output : List Column}

theorem Consumes.planProjection (hs : Settled Named st) (hwaits : destination.Waits Named st)
    (hbase : ∀ t ∈ destination.tables, base.IsOld t)
    (hscans : ∀ x ∈ r.scan.tables, Named x.2 ∨ Created base st x.2)
    (hrun : Plan.planProjection b orderBy skip take output r destination st = .ok table st') :
    Consumes Named base st st' ∧ Unread Named st' table := by
  obtain ⟨filter, select, order, st₁, -, -, -, htable, rfl⟩ := run_planProjection_ok hrun
  refine Destination.consumes hs hwaits hbase htable rfl (fun t ht => ?_) (run_emit_ok.2 rfl)
  obtain ⟨x, hx, rfl⟩ := List.mem_map.1 ht
  exact (hscans x hx).imp_left (⟨ht, ·⟩)

theorem Consumes.planGrouped (hs : Settled Named st) (hwaits : destination.Waits Named st)
    (hold : ∀ t ∈ destination.tables, base.IsOld t) (hbase : Fills ts base st)
    (hscans : ∀ x ∈ r.scan.tables, Named x.2 ∨ Created base st x.2)
    (hrun : Plan.planGrouped b orderBy skip take output r calls destination st = .ok table st') :
    Consumes Named base st st' ∧ Unread Named st' table := by
  obtain ⟨step, select, having, order, st₁, hstep, -, -, -, htable, rfl⟩ := run_planGrouped_ok hrun
  obtain rfl := eq_of_aggregateStep hstep
  obtain ⟨hfills, hcreated⟩ := Fills.declared st "group" (groupColumns (groupKeys b)
    (distinctAggregates (groupOutputs b orderBy))) true
  have hgroup := @Consumes.declareAndFill Named base st "group" (groupColumns (groupKeys b)
    (distinctAggregates (groupOutputs b orderBy))) true
    (.aggregate (groupStep b orderBy r calls (st.draft.tableName "group"))) hs rfl fun t ht => by
      obtain ⟨x, hx, rfl⟩ := List.mem_map.1 ht
      exact (hscans x hx).imp_left (⟨ht, ·⟩)
  refine (Destination.consumes hgroup.settled (fun t ht => ?_) hold htable rfl (fun t ht => ?_)
    (run_emit_ok.2 rfl)).imp_left hgroup.trans
  · exact ⟨hfills.isOld (hwaits t ht).1, (hwaits t ht).2.after hgroup (hold t ht)⟩
  · cases List.mem_singleton.1 ht
    exact .inr ⟨hbase.isNew hcreated.1, hcreated.2⟩

end Block

theorem consumesBody_select {b : BoundSelect} (hsource : ConsumesSource Named b.source) :
    ConsumesBody Named (.select b) := by
  intro orderBy skip take output destination st st' table hnames hs hwaits hrun
  rw [BoundBody.trail_select] at hnames
  rw [planBody_select] at hrun
  obtain ⟨_, _, hget, hrun⟩ := run_bind_ok.1 hrun
  obtain ⟨rfl, rfl⟩ := run_get_ok.1 hget
  obtain ⟨calls, _, hlift, hrun⟩ := run_bind_ok.1 hrun
  obtain ⟨-, rfl⟩ := run_liftExcept_ok.1 hlift
  obtain ⟨r, st₁, hplan, hrun⟩ := run_bind_ok.1 hrun
  have hfills := planSource_fills _ hplan
  obtain ⟨hconsumes, hscans⟩ := hsource hnames hs hplan
  have hwaits₁ := hwaits.after hfills hconsumes
  have hold : ∀ t ∈ destination.tables, _ := fun t ht => (hwaits t ht).1
  unfold planBlock at hrun
  split at hrun
  · exact (Consumes.planGrouped hconsumes.settled hwaits₁ hold hfills hscans hrun).imp_left
      hconsumes.trans
  · exact (Consumes.planProjection hconsumes.settled hwaits₁ hold hscans hrun).imp_left
      hconsumes.trans

/-! ## Set operators -/

section SetOperator

variable {operator : SetOperator} {keys : List String} {columns output : List Column}
  {lt rt : String} {destination : Destination} {orderBy : List SortKey} {skip take : Option Nat}

/-- The right operand fills a table that was not read: that of the left operand or a new one. -/
theorem Consumes.rightTable (hs : Settled Named st) (hlt : Unread Named st lt)
    (hrun : Plan.rightTable operator lt columns st = .ok rt st') :
    Consumes Named base st st' ∧ Unread Named st' rt ∧ (operator ≠ .unionAll → st.IsNew rt) := by
  cases operator with
  | unionAll =>
    obtain ⟨rfl, rfl⟩ := run_pure_ok.1 hrun
    exact ⟨.of_nodes hs (@Fills.refl [] _) rfl, hlt, fun h => absurd rfl h⟩
  | union | intersect | except =>
    obtain ⟨-, hnew, -⟩ := Fills.declare hrun
    obtain ⟨rfl, rfl⟩ := run_declare_ok.1 hrun
    exact ⟨.declared hs _ _ _, .declared hs _ _ _, fun _ => hnew⟩

/-- Two tables that were created since the base are combined. -/
theorem Consumes.combineTables (hs : Settled Named st) (hlt : Unread Named st lt)
    (hleft : Created base st lt) (hright : Created base st rt)
    (hne : operator ≠ .unionAll → rt ≠ lt)
    (hrun : Plan.combineTables operator keys columns lt rt st = .ok table st') :
    Consumes Named base st st' ∧ Unread Named st' table := by
  have hboth {t : String} (ht : t = lt ∨ t = rt) : Created base st t := by
    rcases ht with rfl | rfl
    · exact hleft
    · exact hright
  cases operator with
  | unionAll =>
    obtain ⟨rfl, rfl⟩ := run_pure_ok.1 hrun
    exact ⟨.of_nodes hs (@Fills.refl [] _) rfl, hlt⟩
  | union =>
    obtain ⟨_, _, hmatch, hpure⟩ := run_bind_ok.1 hrun
    obtain ⟨rfl, rfl⟩ := run_pure_ok.1 hpure
    have hconsumed {t : String} (ht : t ∈ Node.consumed (.setMatch ⟨lt, rt, lt, keys, .absent⟩)) :
        t = rt := by simpa [Node.consumed] using ht
    refine ⟨.emit hs (fun t ht => .inr (hboth (.inr (hconsumed ht)))) (fun t ht => ?_) hmatch,
      hlt.emit (fun ht => absurd (hconsumed ht).symm (hne nofun)) hmatch⟩
    cases ht
    exact hlt
  | intersect | except =>
    obtain ⟨target, _, hdeclare, hrest⟩ := run_bind_ok.1 hrun
    obtain ⟨_, _, hmatch, hpure⟩ := run_bind_ok.1 hrest
    obtain ⟨rfl, rfl⟩ := run_pure_ok.1 hpure
    refine @Destination.consumes Named base st _ _ target .fresh _ _ _ hs Destination.waits_fresh
      (by simp [Destination.tables]) hdeclare rfl (fun t ht => .inr (hboth ?_)) hmatch
    simp only [Node.consumed, List.mem_cons] at ht
    rcases ht with ht | ht
    · simp [ht]
    · split at ht <;> simp_all

theorem Consumes.finishSetQuery (hs : Settled Named st) (hwaits : destination.Waits Named st)
    (hbase : ∀ t ∈ destination.tables, base.IsOld t) (hresult : Unread Named st lt)
    (hcreated : Created base st lt)
    (hrun : Plan.finishSetQuery orderBy skip take output lt destination st = .ok table st') :
    Consumes Named base st st' ∧ Unread Named st' table := by
  unfold Plan.finishSetQuery at hrun
  split at hrun
  · obtain ⟨_, _, htable, hrest⟩ := run_bind_ok.1 hrun
    obtain ⟨_, _, hemit, hpure⟩ := run_bind_ok.1 hrest
    obtain ⟨rfl, rfl⟩ := run_pure_ok.1 hpure
    refine Destination.consumes hs hwaits hbase htable rfl (fun t ht => ?_) hemit
    cases List.mem_singleton.1 ht
    exact .inr hcreated
  · obtain ⟨rfl, rfl⟩ := run_pure_ok.1 hrun
    exact ⟨.of_nodes hs (@Fills.refl [] _) rfl, hresult⟩

end SetOperator

theorem consumesBody_setOperation {operator : SetOperator} {keys : List String}
    {left right : BoundQuery} (hl : ConsumesQuery Named left) (hr : ConsumesQuery Named right) :
    ConsumesBody Named (.setOperation operator keys left right) := by
  intro orderBy skip take output destination st st' table hnames hs hwaits hrun
  rw [BoundBody.trail] at hnames
  simp only [planBody] at hrun
  obtain ⟨lt, st₁, hleft, hrun⟩ := run_bind_ok.1 hrun
  obtain ⟨rt, st₂, htable, hrun⟩ := run_bind_ok.1 hrun
  obtain ⟨rt', st₃, hright, hrun⟩ := run_bind_ok.1 hrun
  obtain ⟨result, st₄, hcombine, hfinish⟩ := run_bind_ok.1 hrun
  have htables := operandTables (planQuery_fills left) (planQuery_fills right) hleft htable hright
    hcombine
  obtain ⟨hfl, hlt⟩ : Fills [] st st₁ ∧ Created st st₁ lt := planQuery_fills left hleft
  obtain ⟨hft, hrt⟩ := Fills.rightTable htable
  obtain ⟨-, rfl⟩ : _ ∧ rt' = rt := planQuery_fills right hright
  obtain ⟨hcl, hunread⟩ := hl hnames.left hs Destination.waits_fresh hleft
  obtain ⟨hct, hunread', hnew⟩ := Consumes.rightTable hcl.settled hunread htable
  have hwaits' : (Destination.existing rt').Waits Named st₂ := by
    intro t ht
    cases List.mem_singleton.1 ht
    exact ⟨htables.right, hunread'⟩
  obtain ⟨hcr, -⟩ := hr hnames.right hct.settled hwaits' hright
  have hbefore := hfl.append hft
  have hold := hft.isOld hlt.2
  -- the table of the left operand is old where the right operand starts, so that this leaves it
  have hunread₂ : Unread Named st₂ lt := hunread.after hct hlt.2
  have hleftCreated : Created st st₃ lt := ⟨hlt.1, htables.leftKept⟩
  have hrightCreated : Created st st₃ rt' := by
    refine ⟨?_, htables.fillsRight.isOld htables.right⟩
    rcases hrt with rfl | hrt
    · exact hlt.1
    · exact hfl.isNew hrt.1
  obtain ⟨hcc, hunread₄⟩ := Consumes.combineTables hcr.settled (hunread₂.after hcr hold)
    hleftCreated hrightCreated (fun hop heq => hlt.2.not_isNew (heq ▸ hnew hop)) hcombine
  have hconsumes := (hcl.trans (hct.rebase hfl)).trans ((hcr.rebase hbefore).trans hcc)
  refine (Consumes.finishSetQuery hcc.settled (hwaits.after htables.fills hconsumes)
    (fun t ht => (hwaits t ht).1) hunread₄ htables.result hfinish).imp_left hconsumes.trans

/-! ## Queries -/

theorem consumesQuery_mk {scope : Nat} {ctes : List BoundCte} {body : BoundBody}
    {orderBy : List SortKey} {skip take : Option Nat} {output : List Column}
    (hctes : ConsumesCtes Named ctes) (hbody : ConsumesBody Named body) :
    ConsumesQuery Named ⟨scope, ctes, body, orderBy, skip, take, output⟩ := by
  intro destination st st' table hnames hs hwaits hrun
  rw [BoundQuery.trail] at hnames
  simp only [planQuery] at hrun
  obtain ⟨_, st₁, henter, hrun⟩ := run_bind_ok.1 hrun
  obtain ⟨_, st₂, hplanCtes, hrun⟩ := run_bind_ok.1 hrun
  obtain ⟨_, st₃, hplanBody, hrun⟩ := run_bind_ok.1 hrun
  obtain ⟨_, st₄, hexit, hrun⟩ := run_bind_ok.1 hrun
  obtain ⟨_, st₅, hset, hpure⟩ := run_bind_ok.1 hrun
  obtain ⟨rfl, rfl⟩ := run_pure_ok.1 hpure
  have hfe : Fills [] st st₁ := .enterQuery henter
  have hfc := planCtes_fills ctes hplanCtes
  have hfa : Fills [] st₃ st₅ := (Fills.exitQuery hexit).append (.setTableAttribute hset)
  have hentered : st₁.draft.nodes = st.draft.nodes := by
    rw [enterQuery_run] at henter
    split at henter <;> cases henter
    rfl
  have hleft : st₅.draft.nodes = st₃.draft.nodes := by
    obtain rfl := run_modify_ok.1 hexit
    obtain ⟨scopes, -, rfl⟩ := run_setTableAttribute_ok hset
    rfl
  have hce : Consumes Named st st st₁ := .of_nodes hs hfe hentered
  have hcc := (hctes hnames.left hce.settled hplanCtes).rebase hfe
  have hbefore := hce.trans hcc
  obtain ⟨hcb, hunread⟩ := hbody hnames.right hcc.settled
    (hwaits.after (hfe.append hfc) hbefore) hplanBody
  have hca : Consumes Named st st₃ st₅ := .of_nodes hcb.settled hfa hleft
  refine ⟨(hbefore.trans (hcb.rebase (hfe.append hfc))).trans hca, ?_⟩
  unfold Unread
  rw [hleft]
  exact hunread

theorem consumesCtes_nil : ConsumesCtes Named [] := by
  intro st st' x _ hs hrun
  simp only [planCtes] at hrun
  obtain ⟨-, rfl⟩ := run_pure_ok.1 hrun
  exact .of_nodes hs (@Fills.refl [] _) rfl

theorem consumesCtes_cons {name : String} {q : BoundQuery} {rest : List BoundCte}
    (hq : ConsumesQuery Named q) (hrest : ConsumesCtes Named rest) :
    ConsumesCtes Named (⟨name, q⟩ :: rest) := by
  intro st st' x hnames hs hrun
  rw [BoundQuery.trailOfCtes] at hnames
  simp only [planCtes] at hrun
  obtain ⟨table, st₁, hquery, hrun⟩ := run_bind_ok.1 hrun
  obtain ⟨_, st₂, hemit, hrun⟩ := run_bind_ok.1 hrun
  obtain ⟨hfq, hcreated⟩ : Fills [] st st₁ ∧ Created st st₁ table := planQuery_fills q hquery
  have hfr : Fills [] st₁ st₂ := .emit (by simp [Node.filled?]) hemit
  obtain ⟨hcq, -⟩ := hq hnames.left hs Destination.waits_fresh hquery
  have hcr : Consumes Named st st₁ st₂ := by
    refine .emit hcq.settled (fun t ht => ?_) (fun t ht => ?_) hemit
    · cases List.mem_singleton.1 ht
      exact .inr hcreated
    · cases ht
  have hnames' : ReadsNamed Named (BoundQuery.trailOfCtes rest) :=
    fun n hn => hnames n (List.mem_append_right _ (List.mem_cons_of_mem _ hn))
  exact (hcq.trans hcr).trans ((hrest hnames' hcr.settled hrun).rebase (hfq.append hfr))

mutual

theorem planQuery_consumes : ∀ q : BoundQuery, ConsumesQuery Named q
  | ⟨_, ctes, body, _, _, _, _⟩ =>
    consumesQuery_mk (planCtes_consumes ctes) (planBody_consumes body)

theorem planCtes_consumes : ∀ ctes : List BoundCte, ConsumesCtes Named ctes
  | [] => consumesCtes_nil
  | ⟨_, query⟩ :: rest => consumesCtes_cons (planQuery_consumes query) (planCtes_consumes rest)

theorem planBody_consumes : ∀ body : BoundBody, ConsumesBody Named body
  | .select ⟨_, source, _, _, _, _, _⟩ => consumesBody_select (planSource_consumes source)
  | .setOperation _ _ left right =>
    consumesBody_setOperation (planQuery_consumes left) (planQuery_consumes right)

theorem planSource_consumes : ∀ src : BoundSource, ConsumesSource Named src
  | .schema a schema method args columns type =>
    consumesSource_schema a schema method args columns type
  | .inMemory a table origin columns => consumesSource_inMemory a table origin columns
  | .subquery _ query _ => consumesSource_subquery (planQuery_consumes query)
  | .join _ _ left right _ =>
    consumesSource_pair rfl (planSource_consumes left) (planSource_consumes right)
  | .apply _ _ left right =>
    consumesSource_pair rfl (planSource_consumes left) (planSource_consumes right)

end

end Consumption

/-! ## Plans -/

/-- The name starts like those of the tables of a plan. -/
def IsReserved (config : PlanConfig) (name : String) : Prop :=
  config.transitionTablePrefix.toList <+: name.toList

instance (config : PlanConfig) (name : String) : Decidable (IsReserved config name) :=
  inferInstanceAs (Decidable (_ <+: _))

theorem isReserved_numberedTable (config : PlanConfig) (k : Nat) (role : String) :
    IsReserved config (numberedTable config k role) := by
  simp only [IsReserved, numberedTable, String.toList_append, List.append_assoc]
  exact List.prefix_append _ _

theorem Node.target?_mem_operands {n : Node} {table : String} (h : n.target? = some table) :
    table ∈ n.operands := by
  cases n <;> cases h <;> simp [Node.operands]

/-- The tables that nodes fill are numbered. -/
theorem Sound.isReserved_target {E : Setting} {ns : List Node} (hsound : Sound E ns) {n : Node}
    (hn : n ∈ ns) {table : String} (htarget : n.target? = some table) :
    IsReserved E.config table := by
  obtain ⟨before, after, hns⟩ := List.append_of_mem hn
  have hcreated := (hsound before n after hns).operands_created table
    (Node.target?_mem_operands htarget)
  obtain ⟨⟨_, columns, forGrouping⟩, hmem, rfl⟩ := List.mem_map.1 hcreated
  have hle : before ⊆ ns := hns ▸ List.subset_append_left _ _
  obtain ⟨k, role, -, hname⟩ := hsound.numbered (hle (mem_declared.1 hmem))
  rw [hname]
  exact isReserved_numberedTable _ _ _

/-- What the resolved query reads as a common table expression is one of its expressions, or has an
    alias for its key. -/
theorem hasKey_of_reads {env : Resolve.Env} {q : Query} {a : Resolve.Analysis}
    {requests : List TableRequest} (ha : Resolve.analyze env q = (.ok a, requests)) {name : String}
    (h : .reads (cteKey name) ∈ a.query.trail) :
    BoundQuery.HasKey a.query.queries (cteKey name) := by
  have hbound := (Resolve.analyze_traced ha).bound_of_reads h
  exact a.query.trail_hasKey (List.Subset.refl _) _ (hbound.resolve_left id)

/-- In the plan of a resolved query no table is filled after it was scanned, matched or renamed, if
    no common table expression is named like the tables of the plan. The exception are scans of
    tables whose key is the alias of a source. -/
theorem ofQuery_complete {env : Resolve.Env} {q : Query} {a : Resolve.Analysis}
    {requests : List TableRequest} (ha : Resolve.analyze env q = (.ok a, requests))
    {config : PlanConfig} {plan : Plan} {scopes : Scopes}
    (h : ofQuery config a.scopes a.query = .ok (plan, scopes))
    (hnames : ∀ q ∈ a.query.queries, ∀ c ∈ q.ctes, ¬ IsReserved config c.name) :
    plan.nodes.Pairwise fun n m => ∀ table ∈ n.consumed, m.target? = some table →
      table ∈ n.scans.map (·.2) ∧ cteKey table ∈ BoundQuery.sourceAliases a.query.queries := by
  obtain ⟨hsound, -⟩ := ofQuery_sound ha h
  unfold ofQuery at h
  cases hrun : (planQuery a.query .fresh).run ⟨a.scopes, .empty config⟩ with
  | error e st =>
    rw [hrun] at h
    cases h
  | ok table st =>
    rw [hrun] at h
    cases h
    have hempty : Settled (fun name => .reads (cteKey name) ∈ a.query.trail)
        ⟨a.scopes, .empty config⟩ := ⟨by simp [Draft.empty], List.Pairwise.nil⟩
    obtain ⟨hconsumes, -⟩ := planQuery_consumes a.query (fun _ => id) hempty
      Destination.waits_fresh hrun
    refine hconsumes.settled.complete.imp_of_mem fun _ hm hread t ht htarget => ?_
    obtain ⟨hscan, hnamed⟩ := hread t ht htarget
    rcases hasKey_of_reads ha hnamed with ⟨q', hq', c, hc, hkey⟩ | halias
    · obtain rfl := cteKey_injective hkey
      exact absurd (hsound.isReserved_target hm htarget) (hnames q' hq' c hc)
    · exact ⟨hscan, halias⟩

/-- Stands for `with recent as (select a.Name from #A.entities() a)
    select "__t2_select#cte".City, __t2_select.Name from #A.entities() "__t2_select#cte"
    inner join __t2_select on "__t2_select#cte".Name = __t2_select.Name` -/
def keyedResult : Query :=
  (Query.ofSelect (((Select.empty.addExpr (.ofColumn "__t2_select#cte" "City")).addExpr
    (.ofColumn "__t2_select" "Name")).withSource
      (.join .inner (Sample.entitiesAs "__t2_select#cte") (.ofMemory "__t2_select")
        (.equals (.ofColumn "__t2_select#cte" "Name") (.ofColumn "__t2_select" "Name"))))).withCtes
    [⟨"recent", [], .ofSelect ((Select.empty.addExpr (.ofColumn "a" "Name")).withSource
      (Sample.entitiesAs "a"))⟩]

/-- The join scans the table of the result, which is filled after it: an alias is its key. -/
theorem ofQuery_complete_keyedResult :
    ∃ analysis requests plan scopes,
      Resolve.analyze ⟨Sample.catalog, default⟩ keyedResult = (.ok analysis, requests) ∧
      ofQuery default analysis.scopes analysis.query = .ok (plan, scopes) ∧
      (∀ q ∈ analysis.query.queries, ∀ c ∈ q.ctes, ¬ IsReserved default c.name) ∧
      ¬ plan.nodes.Pairwise (fun n m => "__t2_select" ∈ n.consumed →
        m.target? ≠ some "__t2_select") ∧
      cteKey "__t2_select" ∈ BoundQuery.sourceAliases analysis.query.queries := by
  obtain ⟨analysis, requests, plan, scopes, h, hplan, hcheck⟩ := exists_plan_of_check
    ⟨Sample.catalog, default⟩ default keyedResult (fun a plan => decide
      ((¬ plan.nodes.Pairwise fun (n m : Node) => "__t2_select" ∈ n.consumed →
          m.target? ≠ some "__t2_select") ∧
        ∀ q ∈ a.query.queries, ∀ c ∈ q.ctes, ¬ IsReserved default c.name))
    (by decide +kernel)
  obtain ⟨hlate, hnames⟩ := of_decide_eq_true hcheck
  refine ⟨analysis, requests, plan, scopes, h, hplan, hnames, hlate, ?_⟩
  by_contra hkey
  exact hlate ((ofQuery_complete h hplan hnames).imp fun hread hn hm => hkey (hread _ hn hm).2)

end Plan

end SchemaQuery
