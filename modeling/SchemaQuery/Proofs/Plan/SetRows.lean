-- SUMMARY: The plan of a set operation leaves the rows of its recursive definition in its table.
import SchemaQuery.Proofs.Plan.Engine
import SchemaQuery.Sample.Catalog
import SchemaQuery.Sample.Query

/-!
# Rows of set operations

`SetRows` gives the rows of a query that is built with set operators, by recursion
over its operands. The rows of an operand that is a single block are those that
its last step appends. The main statement of this module is that carrying out the
plan leaves exactly these rows in the table of the query, unless a common table
expression below a right operand takes the name of a table of the operands
(`Overwritten`).
-/

namespace SchemaQuery

/-- The position in the output that a term reads. -/
def Term.outputPosition? : Term → Option Nat
  | .outputField _ i _ => some i
  | _ => none

namespace Plan

variable {V : Type}

/-- The values of a row at some positions. -/
def valuesAt (positions : List Nat) (row : List V) : List V := positions.filterMap (row[·]?)

/-! ## The recursive definition -/

namespace Engine

variable (E : Engine V)

/-- Whether the key of a row is among the keys of some rows. -/
def occurs (positions : List Nat) (rows : List (List V)) (row : List V) : Bool :=
  rows.any fun r => E.sameKey (valuesAt positions r) (valuesAt positions row)

/-- The rows of a set operator. Keys are compared at the given positions. -/
def combine (operator : SetOperator) (positions : List Nat) (ls rs : List (List V)) :
    List (List V) :=
  match operator with
  | .unionAll => ls ++ rs
  | .union => rs.foldl (fun rows r => if E.occurs positions rows r then rows else rows ++ [r]) ls
  | .intersect => rs.filter fun r => E.occurs positions ls r
  | .except => ls.filter fun r => !E.occurs positions rs r

/-- The rows in the order of a query with a set operator, without those that it leaves out. -/
def finish (q : BoundQuery) (rows : List (List V)) : List (List V) :=
  page q.skip q.take (E.sorted (q.orderBy.map (·.direction))
    (valuesAt (q.orderBy.filterMap (·.term.outputPosition?))) rows)

end Engine

/-- A part of planning that ends well and emits some nodes. -/
structure Emits {α : Type} (part : Planner α) (st : State) (a : α) (st' : State)
    (ns : List Node) : Prop where
  run : part st = .ok a st'
  nodes : st'.draft.nodes = st.draft.nodes ++ ns

/-- The operands of a set operator, planned from a state on: first the common table expressions,
    then the left operand and the table that the right one is written into. -/
structure Operands (q : BoundQuery) (st : State) where
  operator : SetOperator
  keys : List String
  left : BoundQuery
  right : BoundQuery
  leftTable : String
  rightTable : String
  ctes : List Node
  lefts : List Node
  between : List Node
  /-- Where the left operand is planned from. -/
  start : State
  joint : State
  /-- Where the right operand is planned from. -/
  ready : State
  body : q.body = .setOperation operator keys left right
  plansCtes : Emits (do enterQuery "query lowering"; planCtes q.ctes) st () start ctes
  plansLeft : Emits (planQuery left .fresh) start leftTable joint lefts
  plansTable : Emits (Plan.rightTable operator leftTable left.output) joint rightTable ready between

/-- The rows of a query that is planned from a state and carried out from a store. A block has the
    rows that its last step appends. The operands of a set operator are carried out where their
    nodes stand: the left one after the common table expressions, the right one after the left one
    and the declaration of its table. -/
inductive SetRows (E : Engine V) :
    BoundQuery → Destination → State → Store V → List (List V) → Prop where
  | select {q : BoundQuery} {b : BoundSelect} {destination : Destination} {st st' : State}
      {m : Store V} {table : String} {ns : List Node} {step : Populate}
      (hb : q.body = .select b)
      (hplan : Emits (planQuery q destination) st table st' (ns ++ [.populate step])) :
      SetRows E q destination st m (E.populated (E.run m ns) step)
  | setOperation {q : BoundQuery} {destination : Destination} {st : State} {m : Store V}
      (o : Operands q st) {ls rs : List (List V)}
      (hl : SetRows E o.left .fresh o.start (E.run m o.ctes) ls)
      (hr : SetRows E o.right (.existing o.rightTable) o.ready
        (E.run m (o.ctes ++ o.lefts ++ o.between)) rs) :
      SetRows E q destination st m
        (E.finish q (E.combine o.operator (o.left.positions o.keys) ls rs))

/-- A common table expression below a right operand has the name of a table whose rows are still to
    be combined: that of the left operand, or the one that the right operand is written into. -/
inductive Overwritten : BoundQuery → State → Prop where
  | here {q : BoundQuery} {st st' : State} (o : Operands q st) {table name : String}
      {ns : List Node}
      (hright : Emits (planQuery o.right (.existing o.rightTable)) o.ready table st' ns)
      (hname : name = o.leftTable ∨ name = o.rightTable) (hexposed : Exposed ns name) :
      Overwritten q st
  | left {q : BoundQuery} {st : State} (o : Operands q st) (h : Overwritten o.left o.start) :
      Overwritten q st
  | right {q : BoundQuery} {st : State} (o : Operands q st) (h : Overwritten o.right o.ready) :
      Overwritten q st

theorem Emits.unique {α : Type} {part : Planner α} {st st₁ st₂ : State} {a₁ a₂ : α}
    {ns₁ ns₂ : List Node} (h₁ : Emits part st a₁ st₁ ns₁) (h₂ : Emits part st a₂ st₂ ns₂) :
    a₁ = a₂ ∧ st₁ = st₂ ∧ ns₁ = ns₂ := by
  obtain ⟨rfl, rfl⟩ : a₁ = a₂ ∧ st₁ = st₂ := by simpa using h₁.run.symm.trans h₂.run
  exact ⟨rfl, rfl, List.append_cancel_left (h₁.nodes.symm.trans h₂.nodes)⟩

theorem Operands.unique {q : BoundQuery} {st : State} (o o' : Operands q st) : o = o' := by
  obtain ⟨_, _, _, _, _, _, _, _, _, _, _, _, hb, hctes, hleft, htable⟩ := o
  obtain ⟨_, _, _, _, _, _, _, _, _, _, _, _, hb', hctes', hleft', htable'⟩ := o'
  cases hb.symm.trans hb'
  obtain ⟨-, rfl, rfl⟩ := hctes.unique hctes'
  obtain ⟨rfl, rfl, rfl⟩ := hleft.unique hleft'
  obtain ⟨rfl, rfl, rfl⟩ := htable.unique htable'
  rfl

theorem SetRows.unique {E : Engine V} {q : BoundQuery} {destination : Destination} {st : State}
    {m : Store V} {rows rows' : List (List V)} (h : SetRows E q destination st m rows)
    (h' : SetRows E q destination st m rows') : rows = rows' := by
  induction h generalizing rows' with
  | select hb hplan =>
    cases h' with
    | select hb' hplan' =>
      obtain ⟨-, -, hns⟩ := hplan.unique hplan'
      obtain ⟨rfl, hstep⟩ := List.append_inj' hns rfl
      cases hstep
      rfl
    | setOperation o => cases hb.symm.trans o.body
  | setOperation o _ _ ihl ihr =>
    cases h' with
    | select hb' => cases o.body.symm.trans hb'
    | setOperation o' hl' hr' =>
      obtain rfl := o.unique o'
      rw [ihl hl', ihr hr']

/-! ## Keys and order -/

/-- Keys are read by name, in any table with the columns of the output. -/
theorem Table.key_eq {q : BoundQuery} {keys : List String} {rows : List (List V)}
    (hkeys : ∀ k ∈ keys, k ∈ q.output.map (·.name)) (row : List V) :
    (Table.mk q.output rows).key keys row = valuesAt (q.positions keys) row := by
  rw [Table.key, valuesAt, BoundQuery.positions, List.filterMap_map]
  exact List.filterMap_congr fun k hk => Table.row_eq (hkeys k hk) row

namespace Engine

variable {E : Engine V}

theorem mem_of_mem_finish {q : BoundQuery} {rows : List (List V)} {r : List V}
    (h : r ∈ E.finish q rows) : r ∈ rows :=
  (List.mem_insertionSort _).1 (mem_of_mem_page h)

theorem finish_of_plain {q : BoundQuery} (horder : q.orderBy = []) (hskip : q.skip = none)
    (htake : q.take = none) (rows : List (List V)) : E.finish q rows = rows := by
  simp [finish, horder, hskip, htake, page, sorted_nil]

/-- The values that a set operator is ordered by stand in its output. -/
theorem map_valuation_order {table : String} {t : Table V}
    (hnames : (t.columns.map (·.name)).Nodup) {values : List V}
    (hwidth : values.length = t.columns.length) {order : List SortKey}
    (horder : ∀ k ∈ order, k.ReadsOutput t.columns) :
    order.map (fun k => E.valuation table (t.row values) (k.term.mapUp (readOutput table))) =
      valuesAt (order.filterMap (·.term.outputPosition?)) values := by
  rw [valuesAt, List.filterMap_filterMap, ← List.filterMap_eq_map]
  refine List.filterMap_congr fun k hk => ?_
  obtain ⟨c, hc, hterm⟩ := horder k hk
  obtain ⟨hi, -⟩ := List.getElem?_eq_some_iff.1 hc
  have hv : values[c.ordinal]? = some _ := List.getElem?_eq_getElem (hwidth ▸ hi)
  simp only [hterm, Term.mapUp, readOutput, Term.outputPosition?, Option.bind_some, Function.comp,
    hv, valuation_column hnames hc hv]

/-- Copying the rows of a set operator sorts and pages them. -/
theorem populated_copyStep {m : Store V} {q : BoundQuery} {table : String}
    {rows : List (List V)} (htable : m table = some ⟨q.output, rows⟩)
    (hnames : (q.output.map (·.name)).Nodup) (hwidth : ∀ r ∈ rows, r.length = q.output.length)
    (horder : ∀ k ∈ q.orderBy, k.ReadsOutput q.output) (target : String) :
    E.populated m (copyStep q table target) = E.finish q rows := by
  simp only [populated, copyStep, scanned, htable, Option.all_none, List.filter_true,
    List.map_map, Function.comp_def]
  have hsorted := @map_sorted _ E _ _ (fun r => E.valuation table ((Table.mk q.output rows).row r))
    (q.orderBy.map (·.direction))
    (fun ρ => q.orderBy.map fun k => ρ (k.term.mapUp (readOutput table))) _ rows
    fun r hr => map_valuation_order hnames (hwidth r hr) horder
  rw [← hsorted, ← map_page, List.map_map]
  refine (List.map_congr_left fun r hr => ?_).trans (List.map_id _)
  exact map_valuation_columns hnames (hwidth r (mem_of_mem_finish hr))

/-! ## Matching by key -/

section Match

variable {m : Store V} {q : BoundQuery} {s : SetMatch} {ls rs : List (List V)} {t : Table V}

theorem found_eq (hkeys : ∀ k ∈ s.keyColumns, k ∈ q.output.map (·.name))
    (hprobe : m s.probe = some ⟨q.output, ls⟩) (row : List V) :
    E.found m s ⟨q.output, rs⟩ row = E.occurs (q.positions s.keyColumns) ls row := by
  simp only [found, hprobe, Option.any_some, occurs, Table.key_eq hkeys]

/-- One row goes into the target if its key is found as expected. -/
theorem matchRow_target (hkeys : ∀ k ∈ s.keyColumns, k ∈ q.output.map (·.name))
    (hprobe : m s.probe = some ⟨q.output, ls⟩) (htarget : m s.target = some t)
    (row : List V) :
    (E.matchRow s ⟨q.output, rs⟩ m row) s.target = some (t.append ([row].filter fun r =>
      E.occurs (q.positions s.keyColumns) ls r == (s.expected == .present))) := by
  rw [matchRow, found_eq hkeys hprobe]
  split
  · rename_i hmatch
    simp [hmatch, htarget]
  · rename_i hmatch
    simp [hmatch, htarget, Table.append]

/-- Rows that are probed in another table than the target are chosen one by one. -/
theorem matchRows_target (hkeys : ∀ k ∈ s.keyColumns, k ∈ q.output.map (·.name))
    (hne : s.probe ≠ s.target) (hprobe : m s.probe = some ⟨q.output, ls⟩)
    (htarget : m s.target = some t) (rows : List (List V)) :
    (rows.foldl (E.matchRow s ⟨q.output, rs⟩) m) s.target = some (t.append
      (rows.filter fun r =>
        E.occurs (q.positions s.keyColumns) ls r == (s.expected == .present))) := by
  induction rows generalizing m t with
  | nil => rw [List.foldl_nil, htarget, List.filter_nil, Table.append, List.append_nil]
  | cons row rows ih =>
    have hprobe' : (E.matchRow s ⟨q.output, rs⟩ m row) s.probe = _ :=
      (matchRow_of_ne hne _ row).trans hprobe
    rw [List.foldl_cons, ih hprobe' (matchRow_target hkeys hprobe htarget row)]
    rw [Table.append, Table.append, List.append_assoc, ← List.filter_append]
    rfl

/-- Rows that are probed in the target take part in later probes. -/
theorem matchRows_probe (hkeys : ∀ k ∈ s.keyColumns, k ∈ q.output.map (·.name))
    (hprobe : s.probe = s.target) (hexpected : s.expected = .absent)
    (htarget : m s.target = some ⟨q.output, ls⟩) (rows : List (List V)) :
    (rows.foldl (E.matchRow s ⟨q.output, rs⟩) m) s.target =
      some ⟨q.output, E.combine .union (q.positions s.keyColumns) ls rows⟩ := by
  induction rows generalizing m ls with
  | nil => exact htarget
  | cons row rows ih =>
    have hrow := @matchRow_target _ E _ _ _ _ rs _ hkeys (hprobe ▸ htarget) htarget row
    rw [List.foldl_cons, ih hrow]
    simp only [combine, List.foldl_cons, hexpected]
    congr 3
    cases hoccurs : E.occurs (q.positions s.keyColumns) ls row <;> simp [hoccurs]

end Match

/-- Set operators make no rows of their own. -/
theorem mem_of_mem_combine {operator : SetOperator} {positions : List Nat} {ls rs : List (List V)}
    {r : List V} (h : r ∈ E.combine operator positions ls rs) : r ∈ ls ∨ r ∈ rs := by
  cases operator with
  | unionAll => exact List.mem_append.1 h
  | union =>
    simp only [combine] at h
    induction rs generalizing ls with
    | nil => exact .inl h
    | cons row rs ih =>
      rw [List.foldl_cons] at h
      have hstep := ih h
      split at hstep <;> grind
  | intersect => exact .inr (List.mem_of_mem_filter h)
  | except => exact .inl (List.mem_of_mem_filter h)

end Engine

/-! ## Filling destinations -/

section Tables

variable {E : Engine V} {m : Store V} {st st₁ st' : State} {ns : List Node} {table : String}
  {destination : Destination} {columns : List Column}

/-- What the table of a destination holds before its query is carried out. -/
def Destination.content (m : Store V) (columns : List Column) : Destination → Option (Table V)
  | .fresh => some ⟨columns, []⟩
  | .existing table => m table

/-- The destination is there already, and no node exposes another table under its name. -/
def Destination.Spared (st : State) (ns : List Node) (destination : Destination) : Prop :=
  ∀ t ∈ destination.tables, st.IsOld t ∧ ¬ Exposed ns t

theorem Destination.Spared.of_subset {ns' : List Node} (h : destination.Spared st ns)
    (hsub : ns' ⊆ ns) : destination.Spared st ns' :=
  fun t ht => ⟨(h t ht).1, fun hexposed => (h t ht).2 (hexposed.mono hsub)⟩

theorem Destination.content_run (hfills : Fills [] st st')
    (hns : st'.draft.nodes = st.draft.nodes ++ ns) (hspared : destination.Spared st ns) :
    destination.content (E.run m ns) columns = destination.content m columns := by
  cases destination with
  | fresh => rfl
  | existing t =>
    obtain ⟨hold, hexposed⟩ := hspared t (List.mem_singleton_self _)
    exact Engine.run_of_unwritten (hfills.unwritten hns hold List.not_mem_nil hexposed)

/-- Preparing the table of a destination exposes nothing. -/
theorem Destination.prepared {role : String}
    (hrun : destination.table role columns st = .ok table st') :
    ∃ ns, st'.draft.nodes = st.draft.nodes ++ ns ∧ (∀ t, ¬ Exposed ns t) ∧
      ∀ m, E.run m ns table = destination.content m columns := by
  cases destination with
  | fresh =>
    obtain ⟨rfl, rfl⟩ := run_declare_ok.1 hrun
    exact ⟨[.create _ columns false], rfl, by simp [Exposed], fun m => m.create_self _⟩
  | existing t =>
    obtain ⟨rfl, rfl⟩ := run_pure_ok.1 hrun
    exact ⟨[], (List.append_nil _).symm, by simp [Exposed], fun _ => rfl⟩

/-- A step appends its rows to the table of a destination. -/
theorem Destination.run_populate {role : String} (hbefore : Fills [] st st₁)
    (hrun : destination.table role columns st₁ = .ok table st') :
    ∃ ns, st'.draft.nodes = st.draft.nodes ++ ns ∧ ∀ step : Populate, step.target = table →
      destination.Spared st ns → E.run m (ns ++ [.populate step]) table =
        (destination.content m columns).map (·.append (E.populated (E.run m ns) step)) := by
  obtain ⟨ns, hns, -⟩ := hbefore.nodes
  obtain ⟨ns', hns', -, hcontent⟩ := Destination.prepared (E := E) hrun
  refine ⟨ns ++ ns', by rw [hns', hns, List.append_assoc], ?_⟩
  rintro step rfl hspared
  rw [← content_run hbefore hns (hspared.of_subset (List.subset_append_left _ _)), ← hcontent,
    ← Engine.run_append, Engine.run_append (ns ++ ns')]
  exact Store.append_self ..

/-- The last step of a block appends its rows to the destination. -/
theorem run_planBlock {b : BoundSelect} {orderBy : List SortKey} {skip take : Option Nat}
    {calls : List RefreshCall} {r : Relation} (hbefore : Fills [] st st₁)
    (hrun : planBlock b orderBy skip take columns calls r destination st₁ = .ok table st') :
    ∃ ns step, st'.draft.nodes = st.draft.nodes ++ (ns ++ [.populate step]) ∧
      step.select.length = b.fields.length ∧
      (destination.Spared st ns → E.run m (ns ++ [.populate step]) table =
        (destination.content m columns).map (·.append (E.populated (E.run m ns) step))) := by
  unfold planBlock at hrun
  split at hrun
  · obtain ⟨step, select, having, order, st₂, hstep, hselect, -, -, htable, rfl⟩ :=
      run_planGrouped_ok hrun
    obtain rfl := eq_of_aggregateStep hstep
    have hgroup := hbefore.append (@Fills.declareAndFill st₁ "group" (groupColumns (groupKeys b)
      (distinctAggregates (groupOutputs b orderBy))) true
      (.aggregate (groupStep b orderBy r calls (st₁.draft.tableName "group"))) rfl)
    obtain ⟨ns, hns, hpopulate⟩ := Destination.run_populate hgroup htable
    refine ⟨ns, _, by rw [Draft.emit, hns, List.append_assoc], ?_, hpopulate _ rfl⟩
    rw [eq_map_of_except_mapM (fun _ _ => eq_of_regroup) hselect, List.length_map]
  · obtain ⟨filter, select, order, st₂, -, hselect, -, htable, rfl⟩ := run_planProjection_ok hrun
    obtain ⟨ns, hns, hpopulate⟩ := Destination.run_populate hbefore htable
    refine ⟨ns, _, by rw [Draft.emit, hns, List.append_assoc], ?_, hpopulate _ rfl⟩
    rw [eq_of_relocateAll hselect, List.length_map, List.length_map]

/-- The rows of the operands stand in one table for a union of all rows, and else in two. -/
def HoldsOperands (m : Store V) (columns : List Column) (lt rt : String)
    (ls rs : List (List V)) : SetOperator → Prop
  | .unionAll => m lt = some ⟨columns, ls ++ rs⟩
  | .union | .intersect | .except =>
    lt ≠ rt ∧ m lt = some ⟨columns, ls⟩ ∧ m rt = some ⟨columns, rs⟩

/-- The rows of the right operand are appended to its table, and the left ones stay. -/
theorem holdsOperands {operator : SetOperator} {lt rt : String} {ls rs : List (List V)}
    {rns : List Node} (hlt : st.IsOld lt) (hls : m lt = some ⟨columns, ls⟩)
    (htable : rightTable operator lt columns st = .ok rt st₁)
    (hns : st₁.draft.nodes = st.draft.nodes ++ ns) (hright : Fills [rt] st₁ st')
    (hrns : st'.draft.nodes = st₁.draft.nodes ++ rns) (hkept : ¬ Exposed rns lt)
    (hrs : E.run (E.run m ns) rns rt = (E.run m ns rt).map (·.append rs)) :
    HoldsOperands (E.run (E.run m ns) rns) columns lt rt ls rs operator := by
  cases operator with
  | unionAll =>
    obtain ⟨rfl, rfl⟩ := run_pure_ok.1 htable
    obtain rfl : ns = [] := List.append_right_eq_self.1 hns.symm
    rw [HoldsOperands, hrs, Engine.run_nil, hls]
    rfl
  | union | intersect | except =>
    obtain ⟨hdeclare, hnew, -⟩ := Fills.declare htable
    obtain ⟨rfl, rfl⟩ := run_declare_ok.1 htable
    obtain rfl := List.append_cancel_left hns
    have hne : lt ≠ st.draft.tableName "select" := fun he => hlt.not_isNew (he ▸ hnew)
    refine ⟨hne, ?_, ?_⟩
    · rw [Engine.run_of_unwritten
        (hright.unwritten hrns (hdeclare.isOld hlt) (by simpa using hne) hkept)]
      exact (m.create_of_ne hne _).trans hls
    · rw [hrs]
      exact congrArg _ (m.create_self _)

section Combine

variable {q : BoundQuery} {operator : SetOperator} {keys : List String} {lt rt : String}
  {ls rs : List (List V)}

/-- The rows of one table that are matched in another go into a new table. -/
theorem run_matchInto {role source probe : String} {expected : Presence}
    (hkeys : ∀ k ∈ keys, k ∈ q.output.map (·.name)) (hsource : st.IsOld source)
    (hprobe : st.IsOld probe) (hrs : m source = some ⟨q.output, rs⟩)
    (hls : m probe = some ⟨q.output, ls⟩)
    (hrun : (do
      let target ← declare role q.output false
      emitMatch target source probe keys expected
      return target) st = .ok table st') :
    ∃ ns, st'.draft.nodes = st.draft.nodes ++ ns ∧ E.run m ns table = some ⟨q.output,
      rs.filter fun r => E.occurs (q.positions keys) ls r == (expected == .present)⟩ := by
  obtain ⟨target, st₁, hdeclare, hrest⟩ := run_bind_ok.1 hrun
  obtain ⟨_, _, hmatch, hpure⟩ := run_bind_ok.1 hrest
  obtain ⟨rfl, rfl⟩ := run_pure_ok.1 hpure
  obtain ⟨-, hnew, -⟩ := Fills.declare hdeclare
  obtain ⟨rfl, rfl⟩ := run_declare_ok.1 hdeclare
  obtain rfl := run_emit_ok.1 hmatch
  have hne {t : String} (ht : st.IsOld t) : t ≠ st.draft.tableName role :=
    fun he => ht.not_isNew (he ▸ hnew)
  refine ⟨[.create (st.draft.tableName role) q.output false,
    .setMatch ⟨st.draft.tableName role, source, probe, keys, expected⟩], ?_, ?_⟩
  · simp [Draft.emit, State.declared, Draft.advance]
  · have hrs' := (m.create_of_ne (hne hsource) q.output).trans hrs
    simp only [Engine.run_cons, Engine.run_nil, Engine.step, Engine.matched, hrs']
    exact Engine.matchRows_target (s := ⟨_, source, probe, keys, expected⟩) hkeys
      (hne hprobe) ((m.create_of_ne (hne hprobe) _).trans hls) (m.create_self _) rs

/-- Combining the tables of two operands gives a table with the rows of the operator. -/
theorem run_combineTables (hkeys : ∀ k ∈ keys, k ∈ q.output.map (·.name))
    (hlt : st.IsOld lt) (hrt : st.IsOld rt) (hheld : HoldsOperands m q.output lt rt ls rs operator)
    (hrun : combineTables operator keys q.output lt rt st = .ok table st') :
    ∃ ns, st'.draft.nodes = st.draft.nodes ++ ns ∧ E.run m ns table =
      some ⟨q.output, E.combine operator (q.positions keys) ls rs⟩ := by
  cases operator with
  | unionAll =>
    obtain ⟨rfl, rfl⟩ := run_pure_ok.1 hrun
    exact ⟨[], (List.append_nil _).symm, hheld⟩
  | union =>
    obtain ⟨_, _, hmatch, hpure⟩ := run_bind_ok.1 hrun
    obtain ⟨rfl, rfl⟩ := run_pure_ok.1 hpure
    obtain rfl := run_emit_ok.1 hmatch
    obtain ⟨-, hls, hrs⟩ := hheld
    refine ⟨[.setMatch ⟨lt, rt, lt, keys, .absent⟩], rfl, ?_⟩
    simp only [Engine.run_cons, Engine.run_nil, Engine.step, Engine.matched, hrs]
    exact Engine.matchRows_probe (s := ⟨lt, rt, lt, keys, .absent⟩) hkeys rfl rfl hls rs
  | intersect =>
    obtain ⟨-, hls, hrs⟩ := hheld
    obtain ⟨ns, hns, htable⟩ := run_matchInto hkeys hrt hlt hrs hls hrun
    exact ⟨ns, hns, by rw [htable]; simp [Engine.combine]⟩
  | except =>
    obtain ⟨-, hls, hrs⟩ := hheld
    obtain ⟨ns, hns, htable⟩ := run_matchInto hkeys hlt hrt hls hrs hrun
    have habsent : (Presence.absent == .present) = false := rfl
    exact ⟨ns, hns, by rw [htable]; simp [Engine.combine, habsent]⟩

theorem finishSetQuery_nodes {orderBy : List SortKey} {skip take : Option Nat} {result : String}
    (hrun : finishSetQuery orderBy skip take columns result destination st = .ok table st') :
    ∃ ns, st'.draft.nodes = st.draft.nodes ++ ns := by
  unfold finishSetQuery at hrun
  split at hrun
  · obtain ⟨target, st₁, htable, hrest⟩ := run_bind_ok.1 hrun
    obtain ⟨_, _, hemit, hpure⟩ := run_bind_ok.1 hrest
    obtain ⟨rfl, rfl⟩ := run_pure_ok.1 hpure
    obtain rfl := run_emit_ok.1 hemit
    obtain ⟨ns, hns, -⟩ := (Destination.fills htable).1.nodes
    exact ⟨ns ++ [_], by rw [Draft.emit, hns, List.append_assoc]⟩
  · obtain ⟨rfl, rfl⟩ := run_pure_ok.1 hrun
    exact ⟨[], (List.append_nil _).symm⟩

/-- The rows of a set operator come into the destination in their order. -/
theorem run_finishSetQuery {result : String} {rows : List (List V)}
    (hresult : st.IsOld result) (hrows : m result = some ⟨q.output, rows⟩)
    (hnames : (q.output.map (·.name)).Nodup) (hwidth : ∀ r ∈ rows, r.length = q.output.length)
    (horder : ∀ k ∈ q.orderBy, k.ReadsOutput q.output)
    (hrun : finishSetQuery q.orderBy q.skip q.take q.output result destination st = .ok table st') :
    ∃ ns, st'.draft.nodes = st.draft.nodes ++ ns ∧ E.run m ns table =
      (destination.content m q.output).map (·.append (E.finish q rows)) := by
  unfold finishSetQuery at hrun
  split at hrun
  · obtain ⟨target, st₁, htable, hrest⟩ := run_bind_ok.1 hrun
    obtain ⟨_, _, hemit, hpure⟩ := run_bind_ok.1 hrest
    obtain ⟨rfl, rfl⟩ := run_pure_ok.1 hpure
    obtain rfl := run_emit_ok.1 hemit
    obtain ⟨ns, hns, hexposed, hcontent⟩ := Destination.prepared (E := E) htable
    have hrows' : E.run m ns result = some ⟨q.output, rows⟩ := (Engine.run_of_unwritten
      ((Destination.fills htable).1.unwritten hns hresult List.not_mem_nil (hexposed _))).trans hrows
    refine ⟨ns ++ [.populate (copyStep q result target)], ?_, ?_⟩
    · rw [Draft.emit, hns, List.append_assoc]
      rfl
    · rw [← hcontent m, ← Engine.populated_copyStep hrows' hnames hwidth horder target,
        Engine.run_append]
      exact Store.append_self ..
  · rename_i hcopy
    obtain ⟨rfl, rfl⟩ := run_pure_ok.1 hrun
    obtain ⟨horderBy, hskip, htake, rfl⟩ := not_needsCopy hcopy
    refine ⟨[], (List.append_nil _).symm, ?_⟩
    rw [Engine.finish_of_plain horderBy hskip htake]
    exact hrows

end Combine

end Tables

/-! ## The induction -/

/-- Carrying out the plan of a query appends the rows of the query to its destination. -/
def Computes (E : Engine V) (q : BoundQuery) : Prop :=
  ∀ {destination : Destination} {st st' : State} {table : String} {ns : List Node} (m : Store V),
    Emits (planQuery q destination) st table st' ns → destination.Spared st ns →
    ¬ Overwritten q st → ∃ rows, SetRows E q destination st m rows ∧
      (∀ r ∈ rows, r.length = q.output.length) ∧
      E.run m ns table = (destination.content m q.output).map (·.append rows)

/-- A query is planned by planning its body after its common table expressions. -/
theorem planBody_of_planQuery {q : BoundQuery} {destination : Destination} {st st' : State}
    {table : String} (hrun : planQuery q destination st = .ok table st') :
    ∃ before st₁ st₂, Emits (do enterQuery "query lowering"; planCtes q.ctes) st () st₁ before ∧
      Fills [] st st₁ ∧
      planBody q.orderBy q.skip q.take q.output q.body destination st₁ = .ok table st₂ ∧
      st'.draft.nodes = st₂.draft.nodes := by
  obtain ⟨scope, ctes, body, orderBy, skip, take, output⟩ := q
  simp only [planQuery] at hrun
  obtain ⟨_, st₁, henter, hrun⟩ := run_bind_ok.1 hrun
  obtain ⟨_, st₂, hplanCtes, hrun⟩ := run_bind_ok.1 hrun
  obtain ⟨_, st₃, hplanBody, hrun⟩ := run_bind_ok.1 hrun
  obtain ⟨_, st₄, hexit, hrun⟩ := run_bind_ok.1 hrun
  obtain ⟨_, st₅, hset, hpure⟩ := run_bind_ok.1 hrun
  obtain ⟨rfl, rfl⟩ := run_pure_ok.1 hpure
  obtain rfl := run_modify_ok.1 hexit
  obtain ⟨scopes, -, rfl⟩ := run_setTableAttribute_ok hset
  have hfills : Fills [] st st₂ := (Fills.enterQuery henter).append (planCtes_fills ctes hplanCtes)
  obtain ⟨before, hbefore, -⟩ := hfills.nodes
  refine ⟨before, st₂, st₃, ⟨?_, hbefore⟩, hfills, hplanBody, rfl⟩
  exact run_bind_ok.2 ⟨_, _, henter, hplanCtes⟩

/-- A set operator is planned by planning its operands, combining them, and taking the result to the
    destination. -/
structure OperandsPlanned {q : BoundQuery} {st : State} (o : Operands q st)
    (destination : Destination) (table : String) (st₁ st₂ st' : State) (result : String)
    (rights after last : List Node) : Prop where
  plansRight : Emits (planQuery o.right (.existing o.rightTable)) o.ready o.rightTable st₁ rights
  combines : Emits (combineTables o.operator o.keys o.left.output o.leftTable o.rightTable)
    st₁ result st₂ after
  finishes : Emits (finishSetQuery q.orderBy q.skip q.take q.output result destination) st₂ table
    st' last
  fillsCtes : Fills [] st o.start
  tables : OperandTables o.start o.joint o.ready st₁ st₂ o.leftTable o.rightTable result

section Induction

variable {E : Engine V} {q : BoundQuery} {destination : Destination} {st st' : State}
  {table : String} {ns : List Node}

theorem Emits.operandsPlanned (h : Emits (planQuery q destination) st table st' ns)
    {operator : SetOperator} {keys : List String} {left right : BoundQuery}
    (hb : q.body = .setOperation operator keys left right) :
    ∃ (o : Operands q st) (st₁ st₂ st₃ : State) (result : String) (rights after last : List Node),
      OperandsPlanned o destination table st₁ st₂ st₃ result rights after last ∧
      ns = o.ctes ++ o.lefts ++ o.between ++ rights ++ after ++ last := by
  obtain ⟨ctes, st₁, st₆, hctes, hfills, hbody, hnodes⟩ := planBody_of_planQuery h.run
  rw [hb] at hbody
  simp only [planBody] at hbody
  obtain ⟨lt, st₂, hleft, hbody⟩ := run_bind_ok.1 hbody
  obtain ⟨rt, st₃, htable, hbody⟩ := run_bind_ok.1 hbody
  obtain ⟨rt', st₄, hright, hbody⟩ := run_bind_ok.1 hbody
  obtain ⟨result, st₅, hcombine, hfinish⟩ := run_bind_ok.1 hbody
  have htables := operandTables (planQuery_fills left) (planQuery_fills right) hleft htable hright
    hcombine
  obtain ⟨hfillsRight, rfl⟩ : Fills [rt] st₃ st₄ ∧ rt' = rt := planQuery_fills right hright
  obtain ⟨lefts, hlefts, -⟩ := (planQuery_fills left hleft).1.nodes
  obtain ⟨between, hbetween, -⟩ := (Fills.rightTable htable).1.nodes
  obtain ⟨rights, hrights, -⟩ := hfillsRight.nodes
  obtain ⟨after, hafter, -⟩ := (Fills.combineTables hcombine).1.nodes
  obtain ⟨last, hlast⟩ := finishSetQuery_nodes hfinish
  refine ⟨⟨operator, keys, left, right, lt, rt', ctes, lefts, between, st₁, st₂, st₃, hb, hctes,
    ⟨hleft, hlefts⟩, htable, hbetween⟩, st₄, st₅, st₆, result, rights, after, last,
    ⟨⟨hright, hrights⟩, ⟨hcombine, hafter⟩, ⟨hfinish, hlast⟩, hfills, htables⟩, ?_⟩
  refine List.append_cancel_left (h.nodes.symm.trans ?_)
  simp only [hnodes, hlast, hafter, hrights, hbetween, hlefts, hctes.nodes, List.append_assoc]

/-- Nothing is overwritten where nothing is exposed. -/
theorem Overwritten.exposes (h : Overwritten q st)
    (hplan : Emits (planQuery q destination) st table st' ns) : ∃ name, Exposed ns name := by
  induction h generalizing destination table st' ns with
  | here o hright _ hexposed =>
    obtain ⟨o', _, _, _, _, _, _, _, hplanned, rfl⟩ := hplan.operandsPlanned o.body
    obtain rfl := o.unique o'
    obtain ⟨-, -, rfl⟩ := hright.unique hplanned.plansRight
    exact ⟨_, hexposed.mono fun n hn => by simp [hn]⟩
  | left o _ ih =>
    obtain ⟨o', _, _, _, _, _, _, _, -, rfl⟩ := hplan.operandsPlanned o.body
    obtain rfl := o.unique o'
    obtain ⟨name, hexposed⟩ := ih o.plansLeft
    exact ⟨name, hexposed.mono fun n hn => by simp [hn]⟩
  | right o _ ih =>
    obtain ⟨o', _, _, _, _, _, _, _, hplanned, rfl⟩ := hplan.operandsPlanned o.body
    obtain rfl := o.unique o'
    obtain ⟨name, hexposed⟩ := ih hplanned.plansRight
    exact ⟨name, hexposed.mono fun n hn => by simp [hn]⟩

/-- A block appends the rows of its last step. -/
theorem computes_select {b : BoundSelect} (hb : q.body = .select b)
    (houtput : q.output = Resolve.outputColumns b.fields) : Computes E q := by
  intro destination st st' table ns m hplan hspared _
  obtain ⟨-, st₁, st₂, -, hbefore, hbody, hnodes⟩ := planBody_of_planQuery hplan.run
  rw [hb, planBody_select] at hbody
  obtain ⟨_, _, hget, hbody⟩ := run_bind_ok.1 hbody
  obtain ⟨rfl, rfl⟩ := run_get_ok.1 hget
  obtain ⟨calls, _, hlift, hbody⟩ := run_bind_ok.1 hbody
  obtain ⟨-, rfl⟩ := run_liftExcept_ok.1 hlift
  obtain ⟨r, st₃, hsource, hblock⟩ := run_bind_ok.1 hbody
  obtain ⟨ns', step, hns, hselect, htable⟩ :=
    run_planBlock (E := E) (m := m) (hbefore.append (planSource_fills b.source hsource)) hblock
  obtain rfl := List.append_cancel_left (hplan.nodes.symm.trans (hnodes.trans hns))
  refine ⟨_, .select hb hplan, fun row hrow => ?_,
    htable (hspared.of_subset (List.subset_append_left _ _))⟩
  have hwidth : q.output.length = b.fields.length := by
    rw [houtput, Resolve.outputColumns, Column.number]
    simp
  obtain ⟨ρ, -, rfl⟩ := List.mem_map.1 hrow
  rw [List.length_map, hselect, hwidth]

/-- The operands are carried out one after the other, and then the operator. -/
theorem OperandsPlanned.run_operands {o : Operands q st} {st₁ st₂ : State} {result : String}
    {rights after last : List Node} (h : OperandsPlanned o destination table st₁ st₂ st' result
      rights after last) (m : Store V) (hkeys : ∀ k ∈ o.keys, k ∈ o.left.output.map (·.name))
    (hl : Computes E o.left) (hr : Computes E o.right) (hover : ¬ Overwritten q st) :
    ∃ ls rs, SetRows E o.left .fresh o.start (E.run m o.ctes) ls ∧
      SetRows E o.right (.existing o.rightTable) o.ready
        (E.run m (o.ctes ++ o.lefts ++ o.between)) rs ∧
      (∀ r ∈ ls, r.length = o.left.output.length) ∧ (∀ r ∈ rs, r.length = o.right.output.length) ∧
      E.run m (o.ctes ++ o.lefts ++ o.between ++ rights ++ after) result =
        some ⟨o.left.output, E.combine o.operator (o.left.positions o.keys) ls rs⟩ := by
  have hkept {name : String} (hname : name = o.leftTable ∨ name = o.rightTable) :
      ¬ Exposed rights name := fun hexposed => hover (.here o h.plansRight hname hexposed)
  obtain ⟨ls, hls, hlwidth, hltable⟩ := hl (E.run m o.ctes) o.plansLeft
    (fun _ ht => absurd ht List.not_mem_nil) fun h => hover (.left o h)
  obtain ⟨rs, hrs, hrwidth, hrtable⟩ := hr (E.run m (o.ctes ++ o.lefts ++ o.between)) h.plansRight
    (fun t ht => List.mem_singleton.1 ht ▸ ⟨h.tables.right, hkept (.inr rfl)⟩)
    fun h => hover (.right o h)
  have hltable' : E.run (E.run m o.ctes) o.lefts o.leftTable = some ⟨o.left.output, ls⟩ := hltable
  rw [← Engine.run_append] at hltable'
  rw [Engine.run_append (o.ctes ++ o.lefts)] at hrtable
  have hheld := holdsOperands h.tables.left hltable' o.plansTable.run o.plansTable.nodes
    h.tables.fillsRight h.plansRight.nodes (hkept (.inl rfl)) hrtable
  obtain ⟨after', hafter, hresult⟩ := run_combineTables (E := E) hkeys h.tables.leftKept
    (h.tables.fillsRight.isOld h.tables.right) hheld h.combines.run
  obtain rfl := List.append_cancel_left (h.combines.nodes.symm.trans hafter)
  refine ⟨ls, rs, hls, hrs, hlwidth, hrwidth, ?_⟩
  simpa only [Engine.run_append] using hresult

/-- A set operator appends what it makes of the rows of its operands. -/
theorem computes_setOperation {operator : SetOperator} {keys : List String}
    {left right : BoundQuery} (hb : q.body = .setOperation operator keys left right)
    (hcombines : Combines keys left right q.orderBy q.output)
    (hnames : (left.output.map (·.name)).Nodup) (hl : Computes E left) (hr : Computes E right) :
    Computes E q := by
  intro destination st st' table ns m hplan hspared hover
  obtain ⟨o, st₁, st₂, st₃, result, rights, after, last, hplanned, rfl⟩ := hplan.operandsPlanned hb
  cases o.body.symm.trans hb
  obtain ⟨ls, rs, hls, hrs, hlwidth, hrwidth, hrows⟩ :=
    hplanned.run_operands m hcombines.keys hl hr hover
  -- the rows of either operand fit into the output
  have hlength : o.right.output.length = o.left.output.length := by
    simpa using congrArg List.length hcombines.types
  have hwidth : ∀ r ∈ E.combine o.operator (o.left.positions o.keys) ls rs,
      r.length = q.output.length := by
    intro r hr
    rw [hcombines.columns]
    exact (Engine.mem_of_mem_combine hr).elim (hlwidth r) fun h => (hrwidth r h).trans hlength
  -- nothing so far has filled the destination
  have hall := hplanned.fillsCtes.append hplanned.tables.fills
  have hnodes : st₂.draft.nodes = st.draft.nodes ++
      (o.ctes ++ o.lefts ++ o.between ++ rights ++ after) := by
    simp only [hplanned.combines.nodes, hplanned.plansRight.nodes, o.plansTable.nodes,
      o.plansLeft.nodes, o.plansCtes.nodes, List.append_assoc]
  have hspared' := hspared.of_subset (List.subset_append_left _ _)
  rw [← hcombines.columns] at hrows hnames
  obtain ⟨last', hlast, hfinished⟩ := run_finishSetQuery hplanned.tables.result.2 hrows hnames hwidth
    hcombines.order hplanned.finishes.run
  obtain rfl := List.append_cancel_left (hplanned.finishes.nodes.symm.trans hlast)
  rw [Destination.content_run hall hnodes hspared', ← Engine.run_append] at hfinished
  exact ⟨_, .setOperation o hls hrs, fun r hr => hwidth r (Engine.mem_of_mem_finish hr), hfinished⟩

/-- By recursion over the operands. -/
theorem planQuery_computes {qs : List BoundQuery} (hformed : ∀ q ∈ qs, q.Formed) :
    ∀ q : BoundQuery, q.queries ⊆ qs → (∀ o ∈ q.operands, (o.output.map (·.name)).Nodup) →
      Computes E q
  | ⟨_, _, .select b, _, _, _, _⟩, hqs, _ => by
    rw [BoundQuery.queries_eq, List.cons_subset] at hqs
    exact computes_select rfl (hformed _ hqs.1).gives
  | ⟨_, _, .setOperation _ _ left right, _, _, _, _⟩, hqs, hnames => by
    rw [BoundQuery.queries_eq, List.cons_subset, List.append_subset, BoundBody.queries_setOperation,
      List.append_subset] at hqs
    simp only [BoundQuery.operands, BoundBody.operands, List.forall_mem_cons,
      List.forall_mem_append] at hnames
    obtain ⟨hself, -, hqsl, hqsr⟩ := hqs
    obtain ⟨hleft, -, hnamesl, hnamesr⟩ := hnames
    exact computes_setOperation rfl (hformed _ hself).gives hleft
      (planQuery_computes hformed left hqsl hnamesl) (planQuery_computes hformed right hqsr hnamesr)

end Induction

/-- Carrying out the plan of a resolved query leaves exactly the rows of the query in its table, for
    any engine and from any store, if the columns of each operand of its set operators have distinct
    names, unless a common table expression below a right operand has the name of a table of the
    operands. -/
theorem planQuery_setRows {env : Resolve.Env} {q : Query} {analysis : Resolve.Analysis}
    {requests : List TableRequest} (ha : Resolve.analyze env q = (.ok analysis, requests))
    {q' : BoundQuery} (hq : q' ∈ analysis.query.queries)
    (hnames : ∀ o ∈ q'.operands, (o.output.map (·.name)).Nodup) {st st' : State} {table : String}
    {ns : List Node} (hplan : Emits (planQuery q' .fresh) st table st' ns) (E : Engine V)
    (m : Store V) :
    Overwritten q' st ∨ ∃ rows, E.run m ns table = some ⟨q'.output, rows⟩ ∧
      ∀ rows', SetRows E q' .fresh st m rows' ↔ rows' = rows := by
  rw [or_iff_not_imp_left]
  intro hover
  obtain ⟨rows, hrows, -, htable⟩ := planQuery_computes (E := E) (Resolve.analyze_formed ha) q'
    (analysis.query.queries_closed q' hq) hnames m hplan (fun _ ht => absurd ht List.not_mem_nil)
    hover
  refine ⟨rows, htable, fun rows' => ⟨fun h => h.unique hrows, ?_⟩⟩
  rintro rfl
  exact hrows

theorem emits_of_ofQuery {config : PlanConfig} {scopes scopes' : Scopes} {q : BoundQuery}
    {plan : Plan} (h : ofQuery config scopes q = .ok (plan, scopes')) :
    ∃ st', Emits (planQuery q .fresh) ⟨scopes, .empty config⟩ plan.result st' plan.nodes := by
  unfold ofQuery at h
  cases hrun : (planQuery q .fresh).run ⟨scopes, .empty config⟩ with
  | error e st => rw [hrun] at h; cases h
  | ok table st =>
    rw [hrun] at h
    cases h
    exact ⟨st, hrun, rfl⟩

/-- Stands for `select Name, City from #A.entities() a union (Name) (select Name, City from
    #A.entities() b except (City) select Name, City from #A.entities() c order by City desc take 2)
    order by Name skip 1 take 3` -/
def pagedUnion : Query :=
  (((Query.combine .union (Sample.nameCity "a")
    (((Query.combine .except (Sample.nameCity "b") (Sample.nameCity "c") ["City"]).withOrder
      [⟨.identifier "City", .desc⟩]).withTake 2) ["Name"]).withOrder
    [⟨.identifier "Name", .asc⟩]).withSkip 1).withTake 3

/-- Stands for `select Name from #A.entities() a union (Name) (with "__t0_select" as
    (select City from #A.entities() b) select c.City from "__t0_select" c)` -/
def namedLikeOperand : Query :=
  .combine .union
    (.ofSelect ((Select.empty.addExpr (.identifier "Name")).withSource (Sample.entitiesAs "a")))
    ((Query.ofSelect ((Select.empty.addExpr (.ofColumn "c" "City")).withSource
      ((Source.ofMemory "__t0_select").withAlias "c"))).withCtes
      [⟨"__t0_select", [], .ofSelect ((Select.empty.addExpr (.identifier "City")).withSource
        (Sample.entitiesAs "b"))⟩]) ["Name"]

/-- The names and cities, as numbers, of the rows of each alias. -/
def numberedCities : String → List (Nat × Nat)
  | "a" => [(3, 1), (1, 1), (1, 2)]
  | "b" => [(2, 5), (4, 6), (5, 7)]
  | "c" => [(9, 6)]
  | _ => []

/-- An engine over the rows of `numberedCities`. -/
def numberEngine : Engine Nat where
  scan _ s := (numberedCities s.aliasName).map fun row t =>
    match t with
    | .column _ name _ _ _ => if name = "Name" then row.1 else row.2
    | _ => 0
  eval row t :=
    match t with
    | .column _ name _ _ _ => (row name).getD 0
    | _ => 0
  holds v := v != 0
  compare := Ord.compare
  same v w := v == w
  groups _ _ := []

/-- The nested operator drops the city 6 and gives its rows by city, 7 before 5. Of the union the
    first of the rows ordered by name is skipped; the equal names on the left both stay. The names
    on the left of `namedLikeOperand` are gone: cities stand in their place, and once more behind. -/
theorem planQuery_setRows_pagedUnion :
    (∃ analysis requests table st' ns,
      Resolve.analyze ⟨Sample.catalog, default⟩ pagedUnion = (.ok analysis, requests) ∧
      (∀ o ∈ analysis.query.operands, (o.output.map (·.name)).Nodup) ∧
      Emits (planQuery analysis.query .fresh) ⟨analysis.scopes, .empty default⟩ table st' ns ∧
      ∀ rows, SetRows numberEngine analysis.query .fresh ⟨analysis.scopes, .empty default⟩
        (fun _ => none) rows ↔ rows = [[1, 2], [2, 5], [3, 1]]) ∧
    ∃ analysis requests plan scopes,
      Resolve.analyze ⟨Sample.catalog, default⟩ namedLikeOperand = (.ok analysis, requests) ∧
      ofQuery default analysis.scopes analysis.query = .ok (plan, scopes) ∧
      (numberEngine.run (fun _ => none) plan.nodes plan.result).map (·.rows) =
        some [[5], [6], [7], [5], [6], [7]] := by
  constructor
  · obtain ⟨analysis, requests, plan, scopes, h, hplan, hcheck⟩ := exists_plan_of_check
      ⟨Sample.catalog, default⟩ default pagedUnion (fun a plan => decide
        ((∀ o ∈ a.query.operands, (o.output.map Column.name).Nodup) ∧
          (∀ n ∈ plan.nodes, n.filled? ≠ none) ∧
          (numberEngine.run (fun _ => none) plan.nodes plan.result).map (·.rows) =
            some [[1, 2], [2, 5], [3, 1]]))
      (by decide +kernel)
    obtain ⟨hnames, hfills, hrows⟩ := of_decide_eq_true hcheck
    obtain ⟨st', hemits⟩ := emits_of_ofQuery hplan
    rcases planQuery_setRows h analysis.query.self_mem_queries hnames hemits numberEngine
      (fun _ => none) with hover | ⟨rows, htable, hunique⟩
    · obtain ⟨name, source, hrename⟩ := hover.exposes hemits
      exact absurd rfl (hfills _ hrename)
    · rw [htable] at hrows
      cases hrows
      exact ⟨analysis, requests, _, st', _, h, hnames, hemits, hunique⟩
  · obtain ⟨analysis, requests, plan, scopes, h, hplan, hcheck⟩ := exists_plan_of_check
      ⟨Sample.catalog, default⟩ default namedLikeOperand (fun _ plan => decide
        ((numberEngine.run (fun _ => none) plan.nodes plan.result).map (·.rows) =
          some [[5], [6], [7], [5], [6], [7]]))
      (by decide +kernel)
    exact ⟨analysis, requests, plan, scopes, h, hplan, of_decide_eq_true hcheck⟩

end Plan

end SchemaQuery
