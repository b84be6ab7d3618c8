-- SUMMARY: The nodes that planning emits, each with what was planned before it.
import Mathlib.Data.List.Induction
import Mathlib.Data.List.Nodup
import SchemaQuery.Proofs.Plan.Block
import SchemaQuery.Proofs.Plan.Tables
import SchemaQuery.Proofs.Resolve.Output
import SchemaQuery.Proofs.Resolve.Trail

/-!
# Emitted nodes

Planning emits few kinds of nodes, and each of them follows from the query and
from nodes that are there already. `Emitted` has one rule for each kind. A rule
names the part of the query that the node belongs to, the relations that it reads
(`Planned`), and the declarations of the tables that it writes and reads. What
holds of all plans can then be proved by cases on these rules.
-/

namespace SchemaQuery

namespace Plan

/-! ## Pairs of sources -/

/-- Whether the right side of a loop is read anew for every left row. -/
def LoopKind.isApply : LoopKind → Bool
  | .crossApply | .outerApply => true
  | .innerJoin | .leftOuterJoin | .rightOuterJoin => false

/-- A join or an apply. -/
structure Pair where
  kind : LoopKind
  left : BoundSource
  right : BoundSource
  condition : Option Term

namespace Pair

/-- What the sides are read for: by steps after the pair, by its condition, and by the arguments of
    the right side. -/
def inputs (p : Pair) (needs : ColumnNeeds) : ColumnNeeds :=
  (needs.addAll p.condition.toList).addAll p.right.arguments

/-- What the arguments of the right side may read: the left side of an apply, else what is around
    the pair. -/
def around {α : Type} (p : Pair) (left : α) (outer : Option α) : Option α :=
  if p.kind.isApply then some left else outer

end Pair

end Plan

/-- The sides of a source that is no leaf. -/
def BoundSource.pair? : BoundSource → Option Plan.Pair
  | .join _ kind left right condition => some ⟨.ofJoin kind, left, right, some condition⟩
  | .apply _ kind left right => some ⟨.ofApply kind, left, right, none⟩
  | .schema .. | .inMemory .. | .subquery .. => none

namespace BoundSource

/-- Induction over leaves and pairs. -/
@[elab_as_elim]
theorem pairInduction {motive : BoundSource → Prop}
    (leaf : ∀ s, s.pair? = none → motive s)
    (pair : ∀ s p, s.pair? = some p → motive p.left → motive p.right → motive s) :
    ∀ s, motive s := by
  intro s
  induction s using treeInduction with
  | join a kind left right condition ihl ihr => exact pair _ _ rfl ihl ihr
  | apply a kind left right ihl ihr => exact pair _ _ rfl ihl ihr
  | _ => exact leaf _ rfl

theorem isLeaf_of_pair?_none {s : BoundSource} (h : s.pair? = none) : s.isLeaf = true := by
  cases s with
  | join | apply => cases h
  | _ => rfl

theorem isLeftDeep_pair {src : BoundSource} {p : Plan.Pair} (hp : src.pair? = some p) :
    src.isLeftDeep = (p.left.isLeftDeep && p.right.isLeaf) := by
  cases src <;> cases hp <;> rfl

end BoundSource

namespace Plan

/-- A part of a source, with the source around it and the needs that either is planned for. -/
inductive PartOf (root : BoundSource) (needs : ColumnNeeds) :
    BoundSource → Option (BoundSource × ColumnNeeds) → ColumnNeeds → Prop where
  | root : PartOf root needs root none needs
  | left {src : BoundSource} {outer : Option (BoundSource × ColumnNeeds)} {n : ColumnNeeds}
      {p : Pair} (h : PartOf root needs src outer n) (hp : src.pair? = some p) :
      PartOf root needs p.left outer (p.inputs n)
  | right {src : BoundSource} {outer : Option (BoundSource × ColumnNeeds)} {n : ColumnNeeds}
      {p : Pair} (h : PartOf root needs src outer n) (hp : src.pair? = some p) :
      PartOf root needs p.right (p.around (p.left, p.inputs n) outer) (p.inputs n)

theorem parts_of_pair {src : BoundSource} {p : Pair} (hp : src.pair? = some p) :
    src.parts = src :: (p.left.parts ++ p.right.parts) := by
  cases src <;> cases hp <;> rfl

theorem left_mem_parts {src : BoundSource} {p : Pair} (hp : src.pair? = some p) :
    p.left ∈ src.parts := by
  simp [parts_of_pair hp, p.left.self_mem_parts]

theorem right_mem_parts {src : BoundSource} {p : Pair} (hp : src.pair? = some p) :
    p.right ∈ src.parts := by
  simp [parts_of_pair hp, p.right.self_mem_parts]

section Pair

variable {src : BoundSource} {p : Pair}

theorem leaves_pair (hp : src.pair? = some p) : src.leaves = p.left.leaves ++ p.right.leaves := by
  cases src <;> cases hp <;> rfl

theorem leafAliases_pair (hp : src.pair? = some p) :
    src.leafAliases = p.left.leafAliases ++ p.right.leafAliases := by
  cases src <;> cases hp <;> rfl

theorem arguments_pair (hp : src.pair? = some p) :
    src.arguments = p.left.arguments ++ p.right.arguments := by
  cases src <;> cases hp <;> rfl

/-- The leaves of the source around a part. -/
def outerLeaves (outer : Option (BoundSource × ColumnNeeds)) : List (String × List Column) :=
  outer.elim [] (·.1.leaves)

theorem reads_pair {outer : Option (BoundSource × ColumnNeeds)} (hp : src.pair? = some p)
    (h : src.Reads (outerLeaves outer)) (needs : ColumnNeeds) :
    p.left.Reads (outerLeaves outer) ∧
      p.right.Reads (outerLeaves (p.around (p.left, needs) outer)) ∧
      ∀ t ∈ p.condition.toList, ∀ u ∈ t.subterms,
        u.ReadsFrom (p.left.leaves ++ p.right.leaves) := by
  cases src with
  | join a kind left right condition =>
    cases hp
    obtain ⟨hl, hr, hcondition⟩ := h
    exact ⟨hl, by cases kind <;> exact hr, by simpa using hcondition⟩
  | apply a kind left right =>
    cases hp
    exact ⟨h.1, by cases kind <;> exact h.2, by simp⟩
  | _ => cases hp

end Pair

theorem PartOf.mem_parts {root src : BoundSource} {needs n : ColumnNeeds}
    {outer : Option (BoundSource × ColumnNeeds)} (h : PartOf root needs src outer n) :
    src ∈ root.parts := by
  induction h with
  | root => exact root.self_mem_parts
  | left _ hp ih => exact BoundSource.parts_subset ih (left_mem_parts hp)
  | right _ hp ih => exact BoundSource.parts_subset ih (right_mem_parts hp)

/-! ## Steps -/

/-- The step that fills the table of a pair. -/
def Pair.step (p : Pair) (table : String) (outer : Option Relation) (l r : Relation)
    (sources : List (String × Column)) : Populate :=
  joinStep table p.kind (p.condition.map (·.mapUp (relocateNode ([l, r] ++ outer.toList)))) l r
    sources

/-- The step of a block without groups. -/
def projectStep (q : BoundQuery) (b : BoundSelect) (r : Relation) (target : String) :
    Populate where
  target := target
  source := r.scan
  filter := b.filter.map (·.mapUp (relocateNode [r]))
  skip := q.skip
  take := q.take
  select := readFrom r (b.fields.map (·.term))
  orderBy := q.orderBy.map fun k => { k with term := k.term.mapUp (relocateNode [r]) }

/-- The columns of the grouping table of a block. -/
def groupTable (q : BoundQuery) (b : BoundSelect) : List Column :=
  groupColumns (groupKeys b) (distinctAggregates (groupOutputs b q.orderBy))

/-- The step that reads the groups of a block. -/
def scoreStep (q : BoundQuery) (b : BoundSelect) (table target : String) : Populate where
  target := target
  source := .transition b.source.aliasName table
  filter := b.having.map (regroupTerm (groupKeys b) table)
  skip := q.skip
  take := q.take
  select := b.fields.map fun f => regroupTerm (groupKeys b) table f.term
  orderBy := q.orderBy.map fun k => { k with term := regroupTerm (groupKeys b) table k.term }

/-- The step that copies the result of a set operator. -/
def copyStep (q : BoundQuery) (table target : String) : Populate where
  target := target
  source := .transition table table
  filter := none
  skip := q.skip
  take := q.take
  select := q.output.map fun c => .tableColumn table c.name c.type
  orderBy := q.orderBy.map fun k => { k with term := k.term.mapUp (readOutput table) }

/-- The node is a step of a block over a part of its source: a side of a pair, or the whole
    source. -/
inductive StepOver (q : BoundQuery) (b : BoundSelect) : BoundSource → Node → Prop where
  | left {src : BoundSource} {p : Pair} {table : String} {outer : Option Relation} {l r : Relation}
      {sources : List (String × Column)} (hsrc : src ∈ b.source.parts)
      (hp : src.pair? = some p) : StepOver q b p.left (.populate (p.step table outer l r sources))
  | right {src : BoundSource} {p : Pair} {table : String} {outer : Option Relation} {l r : Relation}
      {sources : List (String × Column)} (hsrc : src ∈ b.source.parts)
      (hp : src.pair? = some p) : StepOver q b p.right (.populate (p.step table outer l r sources))
  | project {r : Relation} {target : String} :
      StepOver q b b.source (.populate (projectStep q b r target))
  | aggregate {r : Relation} {calls : List RefreshCall} {table : String} :
      StepOver q b b.source (.aggregate (groupStep b q.orderBy r calls table))

theorem StepOver.mem_parts {q : BoundQuery} {b : BoundSelect} {src : BoundSource} {n : Node}
    (h : StepOver q b src n) : src ∈ b.source.parts := by
  cases h with
  | left hsrc hp => exact BoundSource.parts_subset hsrc (left_mem_parts hp)
  | right hsrc hp => exact BoundSource.parts_subset hsrc (right_mem_parts hp)
  | project | aggregate => exact b.source.self_mem_parts

/-- The node is a step of a block of the queries, and reads the table for a common table expression
    of its name. -/
def ScansCte (queries : List BoundQuery) (n : Node) (al table : String) : Prop :=
  ∃ q ∈ queries, ∃ b, q.body = .select b ∧
    ∃ columns, StepOver q b (.inMemory al table .cte columns) n

/-! ## Planned sources -/

/-- What planning starts from. -/
structure Setting where
  config : PlanConfig
  scopes : Scopes
  queries : List BoundQuery

/-- A node gives some table the name. -/
def Exposed (before : List Node) (name : String) : Prop := ∃ table, .rename table name ∈ before

/-- A source of the queries has the alias. -/
def Setting.HasAlias (E : Setting) (a : String) : Prop :=
  ∃ b ∈ BoundQuery.blocksOf E.queries, ∃ p ∈ b.source.parts, p.aliasName = a

/-- The table of a pair, with the columns it keeps. -/
structure JoinTable (E : Setting) (scope : Nat) (before : List Node) (needs : ColumnNeeds)
    (l r : Relation) (table : String) (sources : List (String × Column)) : Prop where
  trimmed : trimmedColumns E.scopes scope (l.leaves ++ r.leaves) needs = .ok sources
  declared : .create table (joinColumns sources) false ∈ before
  named : ∃ k, table = numberedTable E.config k "join"

/-- A table for the rows of a query. -/
structure RowTable (E : Setting) (before : List Node) (columns : List Column) (table : String) :
    Prop where
  declared : .create table columns false ∈ before
  named : ∃ k role, role ≠ "join" ∧ table = numberedTable E.config k role

/-- A source of the block with the scope was planned for some needs, around it the relation
    `outer`, and is read through a relation. -/
inductive Planned (E : Setting) (scope : Nat) (before : List Node) :
    Option Relation → BoundSource → ColumnNeeds → Relation → Prop where
  | schema (outer : Option Relation) (a schema method : String) (args : List Term)
      (columns : List Column) (type : DataType) (needs : ColumnNeeds) :
      Planned E scope before outer (.schema a schema method args columns type) needs
        (.leaf a (.schema a schema method (args.map (·.mapUp (relocateNode outer.toList)))))
  | host (outer : Option Relation) (a table : String) (columns : List Column)
      (needs : ColumnNeeds) :
      Planned E scope before outer (.inMemory a table .host columns) needs
        (.leaf a (.inMemory a table))
  | cte (outer : Option Relation) (a : String) {table : String} (columns : List Column)
      (needs : ColumnNeeds) (h : Exposed before table ∨ E.HasAlias (cteKey table)) :
      Planned E scope before outer (.inMemory a table .cte columns) needs
        (.leaf a (.transition a table))
  | subquery (outer : Option Relation) (a : String) {q : BoundQuery} {table : String}
      (columns : List Column) (needs : ColumnNeeds) (hq : q ∈ E.queries)
      (h : RowTable E before q.output table) :
      Planned E scope before outer (.subquery a q columns) needs (.leaf a (.transition a table))
  | pair {outer : Option Relation} {src : BoundSource} {needs : ColumnNeeds} {p : Pair}
      {l r : Relation} {table : String} {sources : List (String × Column)}
      (hp : src.pair? = some p) (hl : Planned E scope before outer p.left (p.inputs needs) l)
      (hr : Planned E scope before (p.around l outer) p.right (p.inputs needs) r)
      (htable : JoinTable E scope before needs l r table sources)
      (hfill : .populate (p.step table outer l r sources) ∈ before) :
      Planned E scope before outer src needs
        (.transition src.aliasName table (l.leaves ++ r.leaves))

/-- The source around a part was planned. -/
inductive Surrounds (E : Setting) (scope : Nat) (before : List Node) :
    Option (BoundSource × ColumnNeeds) → Option Relation → Prop where
  | none : Surrounds E scope before none none
  | some {outer : Option Relation} {src : BoundSource} {needs : ColumnNeeds} {r : Relation}
      (h : Planned E scope before outer src needs r) :
      Surrounds E scope before (some (src, needs)) (some r)

/-- The source of a block was planned. -/
structure BlockPlanned (E : Setting) (before : List Node) (q : BoundQuery) (b : BoundSelect)
    (calls : List RefreshCall) (r : Relation) : Prop where
  mem : q ∈ E.queries
  body : q.body = .select b
  registered : refreshCalls E.scopes b = .ok calls
  planned : Planned E b.scope before none b.source (blockNeeds b q.orderBy calls) r

/-- A table that can take the rows of a query. -/
def Accepts (E : Setting) (before : List Node) (q : BoundQuery) (table : String) : Prop :=
  ∃ columns, RowTable E before columns table ∧ columns.map (·.type) = q.output.map (·.type)

/-! ## Emitted nodes -/

def Node.isCreate : Node → Bool
  | .create .. => true
  | _ => false

/-- The number of tables that some nodes declare. -/
def tableCount (ns : List Node) : Nat := ns.countP Node.isCreate

/-- A node that planning emits after the nodes `before`. -/
inductive Emitted (E : Setting) (before : List Node) : Node → Prop where
  | create (role : String) (columns : List Column) (forGrouping : Bool) :
      Emitted E before
        (.create (numberedTable E.config (tableCount before) role) columns forGrouping)
  | join {q : BoundQuery} {b : BoundSelect} {calls : List RefreshCall} {src : BoundSource}
      {outer : Option (BoundSource × ColumnNeeds)} {needs : ColumnNeeds} {p : Pair}
      {ro : Option Relation} {l r : Relation} {table : String} {sources : List (String × Column)}
      (hq : q ∈ E.queries) (hb : q.body = .select b)
      (hpart : PartOf b.source (blockNeeds b q.orderBy calls) src outer needs)
      (hp : src.pair? = some p) (houter : Surrounds E b.scope before outer ro)
      (hl : Planned E b.scope before ro p.left (p.inputs needs) l)
      (hr : Planned E b.scope before (p.around l ro) p.right (p.inputs needs) r)
      (htable : JoinTable E b.scope before needs l r table sources)
      (hcalls : refreshCalls E.scopes b = .ok calls) :
      Emitted E before (.populate (p.step table ro l r sources))
  | project {q : BoundQuery} {b : BoundSelect} {calls : List RefreshCall} {r : Relation}
      {target : String} (h : BlockPlanned E before q b calls r) (hgrouped : b.isGrouped = false)
      (htarget : Accepts E before q target) :
      Emitted E before (.populate (projectStep q b r target))
  | aggregate {q : BoundQuery} {b : BoundSelect} {calls : List RefreshCall} {r : Relation}
      {table : String} (h : BlockPlanned E before q b calls r) (hgrouped : b.isGrouped = true)
      (htable : ∃ rest, before = rest ++ [.create table (groupTable q b) true])
      (hupdates : ∀ t ∈ calls.flatMap (·.args), Located [r] t) :
      Emitted E before (.aggregate (groupStep b q.orderBy r calls table))
  | score {q : BoundQuery} {b : BoundSelect} {calls : List RefreshCall} {r : Relation}
      {table target : String} (h : BlockPlanned E before q b calls r)
      (hgrouped : b.isGrouped = true) (htable : .create table (groupTable q b) true ∈ before)
      (hfill : .aggregate (groupStep b q.orderBy r calls table) ∈ before)
      (htarget : Accepts E before q target) :
      Emitted E before (.populate (scoreStep q b table target))
  | copy {q left right : BoundQuery} {operator : SetOperator} {keys : List String}
      {table target : String} (hq : q ∈ E.queries)
      (hbody : q.body = .setOperation operator keys left right)
      (htable : RowTable E before q.output table) (htarget : Accepts E before q target) :
      Emitted E before (.populate (copyStep q table target))
  | setMatch {q left right : BoundQuery} {operator : SetOperator} {keys : List String}
      {target source probe : String} (expected : Presence) (hq : q ∈ E.queries)
      (hbody : q.body = .setOperation operator keys left right)
      (htarget : RowTable E before left.output target)
      (hsource : RowTable E before left.output source)
      (hprobe : RowTable E before left.output probe) :
      Emitted E before (.setMatch ⟨target, source, probe, keys, expected⟩)
  | rename {q : BoundQuery} {source : String} (name : String) (hq : q ∈ E.queries)
      (hsource : RowTable E before q.output source) :
      Emitted E before (.rename source name)

/-- Every node follows from the ones before it. -/
def Sound (E : Setting) (ns : List Node) : Prop :=
  ∀ before n after, ns = before ++ n :: after → Emitted E before n

variable {E : Setting}

theorem Sound.nil : Sound E [] := by
  intro before n after h
  simp at h

theorem Sound.concat {ns : List Node} {n : Node} (h : Sound E ns) (hn : Emitted E ns n) :
    Sound E (ns ++ [n]) := by
  intro before n' after hns
  rcases List.eq_nil_or_concat after with rfl | ⟨rest, last, rfl⟩
  · obtain ⟨rfl, hlast⟩ := List.append_inj' hns rfl
    cases hlast
    exact hn
  · rw [List.concat_eq_append, ← List.cons_append, ← List.append_assoc] at hns
    obtain ⟨hinit, -⟩ := List.append_inj' hns rfl
    exact h before n' rest hinit

/-- All nodes but the last are sound, and the last follows from them. -/
theorem Sound.init {ns : List Node} {n : Node} (h : Sound E (ns ++ [n])) :
    Sound E ns ∧ Emitted E ns n := by
  refine ⟨fun before n' after hns => h before n' (after ++ [n]) ?_, h ns n [] rfl⟩
  rw [hns, List.append_assoc, List.cons_append]

/-! ## Names of tables -/

theorem mem_declared {ns : List Node} {table : String} {columns : List Column}
    {forGrouping : Bool} : (table, columns, forGrouping) ∈ ns.filterMap Node.declared? ↔
      .create table columns forGrouping ∈ ns := by
  rw [List.mem_filterMap]
  constructor
  · rintro ⟨n, hn, hdeclared⟩
    cases n <;> cases hdeclared
    exact hn
  · exact fun h => ⟨_, h, rfl⟩

/-- Every declared table has a number below the number of tables. -/
theorem Sound.numbered {ns : List Node} (h : Sound E ns) {table : String} {columns : List Column}
    {forGrouping : Bool} (hmem : .create table columns forGrouping ∈ ns) :
    ∃ k role, k < tableCount ns ∧ table = numberedTable E.config k role := by
  induction ns using List.reverseRecOn with
  | nil => cases hmem
  | append_singleton ns n ih =>
    obtain ⟨hinit, hn⟩ := h.init
    have hcount : tableCount (ns ++ [n]) = tableCount ns + tableCount [n] := List.countP_append
    rcases List.mem_append.1 hmem with hmem | hmem
    · obtain ⟨k, role, hk, rfl⟩ := ih hinit hmem
      exact ⟨k, role, by omega, rfl⟩
    · obtain rfl := List.mem_singleton.1 hmem
      cases hn with
      | create role =>
        refine ⟨tableCount ns, role, ?_, rfl⟩
        rw [hcount]
        simp [tableCount, Node.isCreate]

theorem Emitted.create_name {before : List Node} {table : String} {columns : List Column}
    {forGrouping : Bool} (h : Emitted E before (.create table columns forGrouping)) :
    ∃ role, table = numberedTable E.config (tableCount before) role := by
  cases h with
  | create role => exact ⟨role, rfl⟩

/-- A table is declared at one place only. -/
theorem Sound.create_unique {ns rest rest' after after' : List Node} (h : Sound E ns)
    {table : String} {columns columns' : List Column} {g g' : Bool}
    (hns : ns = rest ++ .create table columns g :: after)
    (hns' : ns = rest' ++ .create table columns' g' :: after') :
    rest = rest' ∧ Node.create table columns g :: after = .create table columns' g' :: after' := by
  have hcount : tableCount rest = tableCount rest' := by
    obtain ⟨role, hname⟩ := (h _ _ _ hns).create_name
    obtain ⟨role', hname'⟩ := (h _ _ _ hns').create_name
    exact numberedTable_injective (hname.symm.trans hname')
  -- a declaration before the other one would count
  have hshorter {xs ys zs : List Node} {n : Node} (hn : n.isCreate = true)
      (hxs : xs = ys ++ n :: zs) : tableCount ys < tableCount xs := by
    rw [hxs, tableCount, tableCount, List.countP_append, List.countP_cons_of_pos hn]
    omega
  rcases List.append_eq_append_iff.1 (hns.symm.trans hns') with ⟨as, has, hafter⟩ | ⟨as, has, hafter⟩
  · cases as with
    | nil => exact ⟨by simpa using has.symm, hafter⟩
    | cons n as =>
      obtain ⟨rfl, -⟩ := List.cons.inj hafter
      exact absurd hcount (Nat.ne_of_lt (hshorter rfl has))
  · cases as with
    | nil => exact ⟨by simpa using has, hafter.symm⟩
    | cons n as =>
      obtain ⟨rfl, -⟩ := List.cons.inj hafter
      exact absurd hcount.symm (Nat.ne_of_lt (hshorter rfl has))

/-- A grouping table is filled by one step. -/
theorem Sound.groupStep_unique {ns : List Node} (h : Sound E ns) {step step' : Aggregate}
    (hstep : .aggregate step ∈ ns) (hstep' : .aggregate step' ∈ ns)
    (htarget : step'.target = step.target) : step' = step := by
  -- the step follows the declaration of its table
  have hplace {step : Aggregate} (hmem : .aggregate step ∈ ns) : ∃ rest columns after,
      ns = rest ++ .create step.target columns true :: .aggregate step :: after := by
    obtain ⟨before, after, hns⟩ := List.append_of_mem hmem
    cases h _ _ _ hns with
    | aggregate _ _ htable =>
      obtain ⟨rest, rfl⟩ := htable
      exact ⟨rest, _, after, by simpa [groupStep] using hns⟩
  obtain ⟨rest, columns, after, hns⟩ := hplace hstep
  obtain ⟨rest', columns', after', hns'⟩ := hplace hstep'
  rw [htarget] at hns'
  obtain ⟨-, htail⟩ := h.create_unique hns hns'
  cases htail
  rfl

/-- No table is declared twice. -/
theorem Sound.nodup {ns : List Node} (h : Sound E ns) :
    ((ns.filterMap Node.declared?).map (·.1)).Nodup := by
  induction ns using List.reverseRecOn with
  | nil => exact List.nodup_nil
  | append_singleton ns n ih =>
    obtain ⟨hinit, hn⟩ := h.init
    rw [List.filterMap_append, List.map_append, List.nodup_append]
    refine ⟨ih hinit, ?_, ?_⟩
    · cases n with
      | create => exact List.nodup_singleton _
      | _ => exact List.nodup_nil
    · intro t ht t' ht' heq
      subst heq
      cases hn with
      | create role columns forGrouping =>
        obtain ⟨⟨t', columns', forGrouping'⟩, hmem, rfl⟩ := List.mem_map.1 ht
        obtain ⟨k, role', hk, hname⟩ := hinit.numbered (mem_declared.1 hmem)
        have hlast : t' = numberedTable E.config (tableCount ns) role := by
          simpa [Node.declared?] using ht'
        have := numberedTable_injective (hname.symm.trans hlast)
        omega
      | _ => simp [Node.declared?] at ht'

/-- The declaration of a table. -/
theorem columnsOf?_of_create {p : Plan} (h : Sound E p.nodes) {table : String}
    {columns : List Column} {forGrouping : Bool}
    (hmem : .create table columns forGrouping ∈ p.nodes) : p.columnsOf? table = some columns := by
  have hfind : p.tables.find? (·.1 = table) = some (table, columns, forGrouping) := by
    cases hfind : p.tables.find? (·.1 = table) with
    | none =>
      have := List.find?_eq_none.1 hfind _ (mem_declared.2 hmem)
      simp at this
    | some d =>
      have hname : d.1 = table := by simpa using List.find?_some hfind
      exact congrArg some (List.inj_on_of_nodup_map h.nodup (List.mem_of_find?_eq_some hfind)
        (mem_declared.2 hmem) hname)
  rw [columnsOf?, hfind]
  rfl

/-! ## More nodes -/

section Mono

variable {before before' : List Node} (hle : before ⊆ before')

include hle

theorem Exposed.mono {name : String} (h : Exposed before name) : Exposed before' name := by
  obtain ⟨table, h⟩ := h
  exact ⟨table, hle h⟩

theorem JoinTable.mono {scope : Nat} {needs : ColumnNeeds} {l r : Relation} {table : String}
    {sources : List (String × Column)} (h : JoinTable E scope before needs l r table sources) :
    JoinTable E scope before' needs l r table sources :=
  ⟨h.trimmed, hle h.declared, h.named⟩

theorem RowTable.mono {columns : List Column} {table : String}
    (h : RowTable E before columns table) : RowTable E before' columns table :=
  ⟨hle h.declared, h.named⟩

theorem Planned.mono {scope : Nat} {outer : Option Relation} {src : BoundSource}
    {needs : ColumnNeeds} {r : Relation} (h : Planned E scope before outer src needs r) :
    Planned E scope before' outer src needs r := by
  induction h with
  | schema outer a schema method args columns type needs => exact .schema ..
  | host outer a table columns needs => exact .host ..
  | cte outer a columns needs h => exact .cte outer a columns needs (h.imp_left (.mono hle))
  | subquery outer a columns needs hq h => exact .subquery outer a columns needs hq (h.mono hle)
  | pair hp _ _ htable hfill ihl ihr => exact .pair hp ihl ihr (htable.mono hle) (hle hfill)

theorem Surrounds.mono {scope : Nat} {outer : Option (BoundSource × ColumnNeeds)}
    {ro : Option Relation} (h : Surrounds E scope before outer ro) :
    Surrounds E scope before' outer ro := by
  cases h with
  | none => exact .none
  | some h => exact .some (h.mono hle)

theorem Accepts.mono {q : BoundQuery} {table : String} (h : Accepts E before q table) :
    Accepts E before' q table := by
  obtain ⟨columns, htable, htypes⟩ := h
  exact ⟨columns, htable.mono hle, htypes⟩

end Mono

end Plan

end SchemaQuery
