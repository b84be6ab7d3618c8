-- SUMMARY: Planning fills tables that it creates itself, and the table that it was told to fill.
import SchemaQuery.Proofs.Plan.Emission

/-!
# Filled tables

The tables of a plan are numbered in the order of their creation. The nodes that
are emitted for a query fill tables with numbers to come, or the table that the
query is to be written into. All older tables stay as they are when these nodes
are carried out.
-/

namespace SchemaQuery.Plan

/-- The table that a node creates or fills. -/
def Node.filled? : Node → Option String
  | .create table _ _ => some table
  | .populate step => some step.target
  | .aggregate step => some step.target
  | .setMatch step => some step.target
  | .rename .. => none

/-- A node fills the table that it writes, or gives its name to another one. -/
theorem Node.written_cases (n : Node) :
    n.filled? = some n.written ∨ ∃ source, n = .rename source n.written := by
  cases n with
  | rename source name => exact .inr ⟨source, rfl⟩
  | _ => exact .inl rfl

namespace State

/-- A table with a number that is still to come. -/
def IsNew (st : State) (table : String) : Prop :=
  ∃ k role, st.draft.next ≤ k ∧ table = numberedTable st.draft.config k role

/-- A table with a number that was used. -/
def IsOld (st : State) (table : String) : Prop :=
  ∃ k role, k < st.draft.next ∧ table = numberedTable st.draft.config k role

theorem IsOld.not_isNew {st : State} {table : String} (h : st.IsOld table) : ¬ st.IsNew table := by
  obtain ⟨k, role, hk, rfl⟩ := h
  rintro ⟨k', role', hk', hname⟩
  have := numberedTable_injective hname
  omega

end State

/-- From one state to the next, only new tables and those of a list were filled. -/
structure Fills (ts : List String) (st st' : State) : Prop where
  config : st'.draft.config = st.draft.config
  next : st.draft.next ≤ st'.draft.next
  nodes : ∃ ns, st'.draft.nodes = st.draft.nodes ++ ns ∧
    ∀ n ∈ ns, ∀ t, n.filled? = some t → t ∈ ts ∨ st.IsNew t

variable {ts ts' : List String} {st st₁ st' : State}

/-- A table that was declared between two states. -/
def Created (st st' : State) (table : String) : Prop := st.IsNew table ∧ st'.IsOld table

namespace Fills

theorem isNew (h : Fills ts st st₁) {t : String} (ht : st₁.IsNew t) : st.IsNew t := by
  obtain ⟨k, role, hk, rfl⟩ := ht
  exact ⟨k, role, Nat.le_trans h.next hk, by rw [h.config]⟩

theorem isOld (h : Fills ts st st₁) {t : String} (ht : st.IsOld t) : st₁.IsOld t := by
  obtain ⟨k, role, hk, rfl⟩ := ht
  exact ⟨k, role, Nat.lt_of_lt_of_le hk h.next, by rw [h.config]⟩

/-- What the second part fills is new to it, or was created in the first. -/
theorem trans (h : Fills ts st st₁) (h' : Fills ts' st₁ st')
    (hts : ∀ t ∈ ts', t ∈ ts ∨ st.IsNew t) : Fills ts st st' where
  config := h'.config.trans h.config
  next := Nat.le_trans h.next h'.next
  nodes := by
    obtain ⟨ns, hns, hfilled⟩ := h.nodes
    obtain ⟨ns', hns', hfilled'⟩ := h'.nodes
    refine ⟨ns ++ ns', by rw [hns', hns, List.append_assoc], ?_⟩
    intro n hn t ht
    rcases List.mem_append.1 hn with hn | hn
    · exact hfilled n hn t ht
    · rcases hfilled' n hn t ht with hmem | hnew
      · exact hts t hmem
      · exact .inr (h.isNew hnew)

theorem append (h : Fills ts st st₁) (h' : Fills ts st₁ st') : Fills ts st st' :=
  h.trans h' fun _ ht => .inl ht

theorem after (h : Fills ts st st₁) (h' : Fills [] st₁ st') : Fills ts st st' :=
  h.trans h' fun _ ht => absurd ht List.not_mem_nil

theorem mono (h : Fills [] st st') : Fills ts st st' where
  config := h.config
  next := h.next
  nodes := by
    obtain ⟨ns, hns, hfilled⟩ := h.nodes
    exact ⟨ns, hns, fun n hn t ht => .inr ((hfilled n hn t ht).resolve_left List.not_mem_nil)⟩

theorem of_nodes (hconfig : st'.draft.config = st.draft.config)
    (hnext : st'.draft.next = st.draft.next) (hnodes : st'.draft.nodes = st.draft.nodes) :
    Fills ts st st' :=
  ⟨hconfig, Nat.le_of_eq hnext.symm, [], by rw [List.append_nil, hnodes], by simp⟩

theorem refl (st : State) : Fills ts st st := of_nodes rfl rfl rfl

theorem filled_eq {n : Node} {table : String} (hn : n.filled? = some table) (t : String)
    (ht : n.filled? = some t) : t ∈ [table] := by
  rw [hn] at ht
  cases ht
  exact List.mem_singleton_self _

theorem emit {n : Node} (hn : ∀ t, n.filled? = some t → t ∈ ts)
    (hrun : Plan.emit n st = .ok () st') : Fills ts st st' := by
  obtain rfl := run_emit_ok.1 hrun
  refine ⟨rfl, Nat.le_refl _, [n], rfl, fun n' hn' t ht => .inl ?_⟩
  obtain rfl := List.mem_singleton.1 hn'
  exact hn t ht

/-- A table that was declared from one state to the next. -/
theorem declared (st : State) (role : String) (columns : List Column) (forGrouping : Bool) :
    Fills [] st (st.declared role columns forGrouping) ∧
      Created st (st.declared role columns forGrouping) (st.draft.tableName role) := by
  have hnew : st.IsNew (st.draft.tableName role) := ⟨_, role, Nat.le_refl _, rfl⟩
  refine ⟨⟨rfl, Nat.le_succ _, [_], rfl, fun n hn t ht => .inr ?_⟩, hnew,
    ⟨_, role, Nat.lt_succ_self _, rfl⟩⟩
  obtain rfl := List.mem_singleton.1 hn
  cases ht
  exact hnew

theorem declare {role table : String} {columns : List Column} {forGrouping : Bool}
    (hrun : Plan.declare role columns forGrouping st = .ok table st') :
    Fills [] st st' ∧ Created st st' table := by
  obtain ⟨rfl, rfl⟩ := run_declare_ok.1 hrun
  exact declared st role columns forGrouping

/-- Declares a table and fills it. -/
theorem declareAndFill {role : String} {columns : List Column} {forGrouping : Bool} {n : Node}
    (hn : n.filled? = some (st.draft.tableName role)) :
    Fills [] st ⟨st.scopes, (st.declared role columns forGrouping).draft.emit n⟩ := by
  obtain ⟨hdeclare, hnew, -⟩ := declared st role columns forGrouping
  refine hdeclare.trans (emit (filled_eq hn) (run_emit_ok.2 rfl)) fun t ht => .inr ?_
  obtain rfl := List.mem_singleton.1 ht
  exact hnew

theorem enterQuery {context : String} {x : Unit} (hrun : Plan.enterQuery context st = .ok x st') :
    Fills ts st st' := by
  rw [enterQuery_run] at hrun
  split at hrun <;> cases hrun
  exact .of_nodes rfl rfl rfl

theorem exitQuery {x : Unit} (hrun : Plan.exitQuery st = .ok x st') : Fills ts st st' := by
  obtain rfl := run_modify_ok.1 hrun
  exact .of_nodes rfl rfl rfl

theorem setTableAttribute {scope : Nat} {table : String} {x : Unit}
    (hrun : Plan.setTableAttribute scope table st = .ok x st') : Fills ts st st' := by
  obtain ⟨scopes, -, rfl⟩ := run_setTableAttribute_ok hrun
  exact .of_nodes rfl rfl rfl

end Fills

/-- Older tables are not written while a query is planned, unless a common table expression takes
    the name of one. -/
theorem Fills.unwritten {ns : List Node} {t : String} (h : Fills ts st st')
    (hns : st'.draft.nodes = st.draft.nodes ++ ns) (hold : st.IsOld t) (ht : t ∉ ts)
    (hexposed : ¬ Exposed ns t) : ∀ n ∈ ns, n.written ≠ t := by
  obtain ⟨ns', hns', hfilled⟩ := h.nodes
  obtain rfl : ns = ns' := List.append_cancel_left (hns.symm.trans hns')
  rintro n hn rfl
  rcases n.written_cases with hfills | ⟨source, hrename⟩
  · exact (hfilled n hn _ hfills).elim ht hold.not_isNew
  · exact hexposed ⟨source, hrename ▸ hn⟩

theorem Created.extend {st₂ : State} {table : String} (h : Created st₁ st₂ table)
    (hbefore : Fills ts st st₁) (hafter : Fills ts' st₂ st') : Created st st' table :=
  ⟨hbefore.isNew h.1, hafter.isOld h.2⟩

/-! ## Destinations -/

namespace Destination

/-- The tables that exist already. -/
def tables : Destination → List String
  | .fresh => []
  | .existing table => [table]

/-- The table that was filled: a new one or the one that exists. -/
def Placed (st st' : State) (table : String) : Destination → Prop
  | .fresh => Created st st' table
  | .existing t => table = t

theorem Placed.mem_tables {destination : Destination} {table : String}
    (h : destination.Placed st st' table) : table ∈ destination.tables ∨ st.IsNew table := by
  cases destination with
  | fresh => exact .inr h.1
  | existing t =>
    obtain rfl : table = t := h
    exact .inl (List.mem_singleton_self _)

theorem Placed.extend {destination : Destination} {table : String} {st₂ : State}
    (h : destination.Placed st₁ st₂ table) (hbefore : Fills ts st st₁)
    (hafter : Fills ts' st₂ st') : destination.Placed st st' table := by
  cases destination with
  | fresh => exact Created.extend h hbefore hafter
  | existing t => exact h

theorem fills {destination : Destination} {role table : String} {columns : List Column}
    (hrun : destination.table role columns st = .ok table st') :
    Fills [] st st' ∧ destination.Placed st st' table := by
  cases destination with
  | fresh => exact Fills.declare hrun
  | existing t =>
    obtain ⟨rfl, rfl⟩ := run_pure_ok.1 hrun
    exact ⟨.refl st, rfl⟩

/-- Fills the table of a destination. -/
theorem fills_table {destination : Destination} {role table : String} {columns : List Column}
    {n : Node} (hrun : destination.table role columns st = .ok table st₁)
    (hn : n.filled? = some table) (hemit : Plan.emit n st₁ = .ok () st') :
    Fills destination.tables st st' ∧ destination.Placed st st' table := by
  obtain ⟨hfills, hplaced⟩ := fills hrun
  have hfill : Fills [table] st₁ st' := Fills.emit (Fills.filled_eq hn) hemit
  refine ⟨hfills.mono.trans hfill fun t ht => ?_, hplaced.extend (@Fills.refl [] st) hfill⟩
  obtain rfl := List.mem_singleton.1 ht
  exact hplaced.mem_tables

theorem fills_after {destination : Destination} {table : String} (hbefore : Fills [] st st₁)
    (h : Fills destination.tables st₁ st' ∧ destination.Placed st₁ st' table) :
    Fills destination.tables st st' ∧ destination.Placed st st' table :=
  ⟨hbefore.mono.append h.1, h.2.extend hbefore (@Fills.refl [] _)⟩

end Destination

/-! ## The induction -/

-- The statements of the induction, one for each kind of node.

def FillsQuery (q : BoundQuery) : Prop :=
  ∀ {destination : Destination} {st st' : State} {table : String},
    planQuery q destination st = .ok table st' →
    Fills destination.tables st st' ∧ destination.Placed st st' table

def FillsCtes (ctes : List BoundCte) : Prop :=
  ∀ {st st' : State} {x : Unit}, planCtes ctes st = .ok x st' → Fills [] st st'

def FillsBody (body : BoundBody) : Prop :=
  ∀ {orderBy : List SortKey} {skip take : Option Nat} {output : List Column}
    {destination : Destination} {st st' : State} {table : String},
    planBody orderBy skip take output body destination st = .ok table st' →
    Fills destination.tables st st' ∧ destination.Placed st st' table

def FillsSource (src : BoundSource) : Prop :=
  ∀ {scope : Nat} {needs : ColumnNeeds} {outer : Option Relation} {st st' : State} {r : Relation},
    planSource scope src needs outer st = .ok r st' → Fills [] st st'

theorem fillsSource_schema (a schema method : String) (args : List Term) (columns : List Column)
    (type : DataType) : FillsSource (.schema a schema method args columns type) := by
  intro scope needs outer st st' r hrun
  obtain ⟨_, ⟨⟩, rfl⟩ := exists_leafRun rfl hrun
  exact .refl _

theorem fillsSource_inMemory (a table : String) (origin : MemoryOrigin) (columns : List Column) :
    FillsSource (.inMemory a table origin columns) := by
  intro scope needs outer st st' r hrun
  obtain ⟨_, ⟨⟩, rfl⟩ := exists_leafRun rfl hrun
  exact .refl _

theorem fillsSource_subquery {a : String} {q : BoundQuery} {columns : List Column}
    (hq : FillsQuery q) : FillsSource (.subquery a q columns) := by
  intro scope needs outer st st' r hrun
  obtain ⟨_, _ | _ | hquery, rfl⟩ := exists_leafRun rfl hrun
  exact (hq hquery).1

theorem fillsSource_pair {src : BoundSource} {p : Pair} (hp : src.pair? = some p)
    (hl : FillsSource p.left) (hr : FillsSource p.right) : FillsSource src := by
  intro scope needs outer st st' r hrun
  obtain ⟨_, _, _, _, _, hpair, -⟩ := exists_pairRun hp hrun
  rw [hpair.joined]
  exact ((hl hpair.left).append (hr hpair.right)).append (.declareAndFill rfl)

/-! ## Blocks -/

section Block

variable {b : BoundSelect} {calls : List RefreshCall} {r : Relation} {destination : Destination}
  {table : String} {orderBy : List SortKey} {skip take : Option Nat} {output : List Column}

theorem Fills.planProjection
    (hrun : Plan.planProjection b orderBy skip take output r destination st = .ok table st') :
    Fills destination.tables st st' ∧ destination.Placed st st' table := by
  obtain ⟨filter, select, order, st₁, -, -, -, htable, rfl⟩ := run_planProjection_ok hrun
  exact Destination.fills_table htable rfl (run_emit_ok.2 rfl)

theorem Fills.planGrouped
    (hrun : Plan.planGrouped b orderBy skip take output r calls destination st = .ok table st') :
    Fills destination.tables st st' ∧ destination.Placed st st' table := by
  obtain ⟨step, select, having, order, st₁, hstep, -, -, -, htable, rfl⟩ := run_planGrouped_ok hrun
  obtain rfl := eq_of_aggregateStep hstep
  have hgroup := @Fills.declareAndFill st "group" (groupColumns (groupKeys b)
    (distinctAggregates (groupOutputs b orderBy))) true
    (.aggregate (groupStep b orderBy r calls (st.draft.tableName "group"))) rfl
  exact Destination.fills_after hgroup (Destination.fills_table htable rfl (run_emit_ok.2 rfl))

end Block

theorem fillsBody_select {b : BoundSelect} (hsource : FillsSource b.source) :
    FillsBody (.select b) := by
  intro orderBy skip take output destination st st' table hrun
  rw [planBody_select] at hrun
  obtain ⟨_, _, hget, hrun⟩ := run_bind_ok.1 hrun
  obtain ⟨rfl, rfl⟩ := run_get_ok.1 hget
  obtain ⟨calls, _, hlift, hrun⟩ := run_bind_ok.1 hrun
  obtain ⟨-, rfl⟩ := run_liftExcept_ok.1 hlift
  obtain ⟨r, st₁, hplan, hrun⟩ := run_bind_ok.1 hrun
  refine Destination.fills_after (hsource hplan) ?_
  unfold planBlock at hrun
  split at hrun
  · exact Fills.planGrouped hrun
  · exact Fills.planProjection hrun

/-! ## Set operators -/

section SetOperator

variable {operator : SetOperator} {keys : List String} {columns output : List Column}
  {lt rt table : String} {destination : Destination} {orderBy : List SortKey}
  {skip take : Option Nat}

/-- The right operand shares the table of the left one, or has one of its own. -/
theorem Fills.rightTable (hrun : Plan.rightTable operator lt columns st = .ok table st') :
    Fills [] st st' ∧ (table = lt ∨ Created st st' table) := by
  cases operator with
  | unionAll =>
    obtain ⟨rfl, rfl⟩ := run_pure_ok.1 hrun
    exact ⟨.refl _, .inl rfl⟩
  | union | intersect | except => exact (Fills.declare hrun).imp_right .inr

theorem Fills.combineTables
    (hrun : Plan.combineTables operator keys columns lt rt st = .ok table st') :
    Fills [lt] st st' ∧ (table = lt ∨ Created st st' table) := by
  cases operator with
  | unionAll =>
    obtain ⟨rfl, rfl⟩ := run_pure_ok.1 hrun
    exact ⟨.refl _, .inl rfl⟩
  | union =>
    obtain ⟨_, _, hmatch, hpure⟩ := run_bind_ok.1 hrun
    obtain ⟨rfl, rfl⟩ := run_pure_ok.1 hpure
    exact ⟨.emit (filled_eq rfl) hmatch, .inl rfl⟩
  | intersect | except =>
    obtain ⟨target, _, hdeclare, hrest⟩ := run_bind_ok.1 hrun
    obtain ⟨_, _, hmatch, hpure⟩ := run_bind_ok.1 hrest
    obtain ⟨rfl, rfl⟩ := run_pure_ok.1 hpure
    obtain ⟨hfills, hplaced⟩ := @Destination.fills_table _ _ _ .fresh _ _ _ _ hdeclare rfl hmatch
    exact ⟨hfills.mono, .inr hplaced⟩

theorem Fills.finishSetQuery (hcreated : Created st st₁ lt)
    (hrun : Plan.finishSetQuery orderBy skip take output lt destination st₁ = .ok table st')
    (hbefore : Fills [] st st₁) :
    Fills destination.tables st st' ∧ destination.Placed st st' table := by
  unfold Plan.finishSetQuery at hrun
  split at hrun
  · obtain ⟨_, _, htable, hrest⟩ := run_bind_ok.1 hrun
    obtain ⟨_, _, hemit, hpure⟩ := run_bind_ok.1 hrest
    obtain ⟨rfl, rfl⟩ := run_pure_ok.1 hpure
    exact Destination.fills_after hbefore (Destination.fills_table htable rfl hemit)
  · rename_i hcopy
    obtain ⟨rfl, rfl⟩ := run_pure_ok.1 hrun
    obtain ⟨-, -, -, rfl⟩ := not_needsCopy hcopy
    exact ⟨hbefore, hcreated⟩

end SetOperator

/-- The tables of two operands and of their result: the states are those before and after the left
    operand, the table of the right operand, the right operand, and the operator. -/
structure OperandTables (st st₁ st₂ st₃ st₄ : State) (lt rt result : String) : Prop where
  left : st₁.IsOld lt
  leftKept : st₃.IsOld lt
  right : st₂.IsOld rt
  fillsRight : Fills [rt] st₂ st₃
  fills : Fills [] st st₄
  result : Created st st₄ result

theorem operandTables {operator : SetOperator} {keys : List String} {left right : BoundQuery}
    {st₂ st₃ st₄ : State} {columns : List Column} {lt rt rt' result : String}
    (hl : FillsQuery left) (hr : FillsQuery right)
    (hleft : planQuery left .fresh st = .ok lt st₁)
    (htable : rightTable operator lt columns st₁ = .ok rt st₂)
    (hright : planQuery right (.existing rt) st₂ = .ok rt' st₃)
    (hcombine : combineTables operator keys columns lt rt' st₃ = .ok result st₄) :
    OperandTables st st₁ st₂ st₃ st₄ lt rt result := by
  obtain ⟨hfl, hlt⟩ : Fills [] st st₁ ∧ Created st st₁ lt := hl hleft
  obtain ⟨hft, hrt⟩ := Fills.rightTable htable
  obtain ⟨hfr, -⟩ : Fills [rt] st₂ st₃ ∧ rt' = rt := hr hright
  obtain ⟨hfc, hresult⟩ := Fills.combineTables hcombine
  have hrt' : Created st st₂ rt := by
    rcases hrt with rfl | hrt
    · exact ⟨hlt.1, hft.isOld hlt.2⟩
    · exact ⟨hfl.isNew hrt.1, hrt.2⟩
  -- the tables of the operands are new, so that filling them again fills nothing old
  have hnew {t : String} (ht : st.IsNew t) : ∀ t' ∈ [t], t' ∈ ([] : List String) ∨ st.IsNew t' := by
    intro t' ht'
    exact .inr (List.mem_singleton.1 ht' ▸ ht)
  have hboth := (hfl.append hft).trans hfr (hnew hrt'.1)
  have hkept := hfr.isOld (hft.isOld hlt.2)
  refine ⟨hlt.2, hkept, hrt'.2, hfr, hboth.trans hfc (hnew hlt.1), ?_⟩
  rcases hresult with rfl | hresult
  · exact ⟨hlt.1, hfc.isOld hkept⟩
  · exact ⟨hboth.isNew hresult.1, hresult.2⟩

theorem fillsBody_setOperation {operator : SetOperator} {keys : List String}
    {left right : BoundQuery} (hl : FillsQuery left) (hr : FillsQuery right) :
    FillsBody (.setOperation operator keys left right) := by
  intro orderBy skip take output destination st st' table hrun
  simp only [planBody] at hrun
  obtain ⟨lt, st₁, hleft, hrun⟩ := run_bind_ok.1 hrun
  obtain ⟨rt, st₂, htable, hrun⟩ := run_bind_ok.1 hrun
  obtain ⟨rt', st₃, hright, hrun⟩ := run_bind_ok.1 hrun
  obtain ⟨result, st₄, hcombine, hfinish⟩ := run_bind_ok.1 hrun
  have htables := operandTables hl hr hleft htable hright hcombine
  exact Fills.finishSetQuery htables.result hfinish htables.fills

/-! ## Queries -/

theorem fillsQuery_mk {scope : Nat} {ctes : List BoundCte} {body : BoundBody}
    {orderBy : List SortKey} {skip take : Option Nat} {output : List Column}
    (hctes : FillsCtes ctes) (hbody : FillsBody body) :
    FillsQuery ⟨scope, ctes, body, orderBy, skip, take, output⟩ := by
  intro destination st st' table hrun
  simp only [planQuery] at hrun
  obtain ⟨_, st₁, henter, hrun⟩ := run_bind_ok.1 hrun
  obtain ⟨_, st₂, hplanCtes, hrun⟩ := run_bind_ok.1 hrun
  obtain ⟨_, st₃, hplanBody, hrun⟩ := run_bind_ok.1 hrun
  obtain ⟨_, st₄, hexit, hrun⟩ := run_bind_ok.1 hrun
  obtain ⟨_, st₅, hset, hpure⟩ := run_bind_ok.1 hrun
  obtain ⟨rfl, rfl⟩ := run_pure_ok.1 hpure
  have hbefore : Fills [] st st₂ := (Fills.enterQuery henter).append (hctes hplanCtes)
  have hafter : Fills [] st₃ st₅ := (Fills.exitQuery hexit).append (.setTableAttribute hset)
  obtain ⟨hfills, hplaced⟩ := hbody hplanBody
  exact ⟨(hbefore.mono.append hfills).after hafter, hplaced.extend hbefore hafter⟩

theorem fillsCtes_nil : FillsCtes [] := by
  intro st st' x hrun
  simp only [planCtes] at hrun
  obtain ⟨-, rfl⟩ := run_pure_ok.1 hrun
  exact .refl _

theorem fillsCtes_cons {name : String} {q : BoundQuery} {rest : List BoundCte}
    (hq : FillsQuery q) (hrest : FillsCtes rest) : FillsCtes (⟨name, q⟩ :: rest) := by
  intro st st' x hrun
  simp only [planCtes] at hrun
  obtain ⟨table, st₁, hquery, hrun⟩ := run_bind_ok.1 hrun
  obtain ⟨_, st₂, hemit, hrun⟩ := run_bind_ok.1 hrun
  have hrename : Fills [] st₁ st₂ := .emit (by simp [Node.filled?]) hemit
  exact ((hq hquery).1.append hrename).append (hrest hrun)

mutual

theorem planQuery_fills : ∀ q : BoundQuery, FillsQuery q
  | ⟨_, ctes, body, _, _, _, _⟩ => fillsQuery_mk (planCtes_fills ctes) (planBody_fills body)

theorem planCtes_fills : ∀ ctes : List BoundCte, FillsCtes ctes
  | [] => fillsCtes_nil
  | ⟨_, query⟩ :: rest => fillsCtes_cons (planQuery_fills query) (planCtes_fills rest)

theorem planBody_fills : ∀ body : BoundBody, FillsBody body
  | .select ⟨_, source, _, _, _, _, _⟩ => fillsBody_select (planSource_fills source)
  | .setOperation _ _ left right =>
    fillsBody_setOperation (planQuery_fills left) (planQuery_fills right)

theorem planSource_fills : ∀ src : BoundSource, FillsSource src
  | .schema a schema method args columns type =>
    fillsSource_schema a schema method args columns type
  | .inMemory a table origin columns => fillsSource_inMemory a table origin columns
  | .subquery _ query _ => fillsSource_subquery (planQuery_fills query)
  | .join _ _ left right _ => fillsSource_pair rfl (planSource_fills left) (planSource_fills right)
  | .apply _ _ left right => fillsSource_pair rfl (planSource_fills left) (planSource_fills right)

end

end SchemaQuery.Plan
