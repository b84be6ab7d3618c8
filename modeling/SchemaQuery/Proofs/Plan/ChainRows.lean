-- SUMMARY: Planned joins compute the rows of the joins as they were bound.
import SchemaQuery.Proofs.Plan.Filled
import SchemaQuery.Proofs.Plan.JoinRows
import SchemaQuery.Proofs.Resolve.Query
import SchemaQuery.Sample.Catalog
import SchemaQuery.Sample.Query

/-!
# Rows of a chain of joins

A source that is a chain of joins and applies, with a leaf on every right side, is
planned from the left: each step joins the rows so far with the next leaf and
keeps the columns that are still needed. By induction over the chain the rows of
the last table simulate the full rows of the source, as long as each step finds in
the store what was meant by the tables that it reads (`Displaced` says when it does
not). So the clauses of a block, redirected to the last table, have the values they
have on the source as it was bound.
-/

namespace SchemaQuery.Plan

open List (Forall₂)

/-! ## Leaves -/

/-- What planning a leaf gives: its rows are its content for its redirected arguments. -/
structure LeafPlanned (leaves : List (String × List Column)) (src : BoundSource)
    (outer : Option Relation) (r : Relation) : Prop where
  direct : r.table = none
  own : r.leaves = [src.aliasName]
  rows : ∀ {V : Type} {I : Interpretation V} {σ : Store V} {contents : Contents V} {ρ : FullRow V}
    {row : List (Binding V)}, (∀ p ∈ r.scan.tables, contents src.aliasName = σ.rows p.2) →
    (∀ t ∈ src.arguments, I.value (I.planReader leaves row) (t.mapUp (relocateNode outer.toList)) =
      I.value (I.fullReader leaves ρ) t) →
    Forall₂ (LeafRow I src.aliasName) (fullRows I contents leaves src ρ)
      (I.scanRows leaves σ row r.scan)

section Leaves

variable {leaves : List (String × List Column)} {src : BoundSource} {V : Type}
  {I : Interpretation V}

theorem leafRows_map {α : Type} {a : String} (xs : List α) (f : α → Row V) :
    Forall₂ (LeafRow I a) (xs.map fun x => I.single a (f x))
      (xs.map fun x => [.source a (f x)]) := by
  rw [List.forall₂_map_left_iff, List.forall₂_map_right_iff, List.forall₂_same]
  exact fun x _ => ⟨f x, rfl, rfl⟩

theorem leafRows_transition {a table : String} {σ : Store V} {contents : Contents V}
    (ha : a ∈ leaves.map (·.1)) (hrows : contents a = σ.rows table) (row : List (Binding V)) :
    Forall₂ (LeafRow I a) ((contents a).map fun x => I.single a (I.sourceRow x))
      (I.scanRows leaves σ row (.transition a table)) := by
  simp only [Interpretation.scanRows, if_pos ha, hrows]
  exact leafRows_map _ I.sourceRow

theorem leafPlanned_of_run {scope : Nat} {needs : ColumnNeeds} {outer : Option Relation}
    {st st' : State} {r : Relation} (hleaf : src.isLeaf = true)
    (hmem : src.aliasName ∈ leaves.map (·.1))
    (hrun : planSource scope src needs outer st = .ok r st') : LeafPlanned leaves src outer r := by
  obtain ⟨_, hplanned, rfl⟩ := exists_leafRun hleaf hrun
  refine ⟨rfl, rfl, fun {V I σ contents ρ row} hcontents hvalues => ?_⟩
  cases hplanned with
  | @schema a schema method args args' columns type hargs =>
    have hargs' : args'.map (I.value (I.planReader leaves row)) =
        args.map (I.value (I.fullReader leaves ρ)) := by
      rw [eq_of_scanArguments hargs, List.map_map]
      exact List.map_congr_left hvalues
    simp only [Relation.leaf, Interpretation.scanRows, fullRows, hargs']
    exact leafRows_map _ id
  | inMemory a table origin columns =>
    cases origin with
    | cte => exact leafRows_transition hmem (hcontents (a, table) (List.mem_singleton_self _)) row
    | host => exact leafRows_map _ id
  | @subquery a table =>
    exact leafRows_transition hmem (hcontents (a, table) (List.mem_singleton_self _)) row

/-- Terms that read no leaf have the same value everywhere. -/
theorem value_of_no_reads {t : Term} (h : ∀ u ∈ t.subterms, u.ReadsFrom [])
    (P F : Reader V) : I.value P (t.mapUp (relocateNode [])) = I.value F t := by
  refine value_relocate fun u hu => ?_
  have hu := h u hu
  cases u with
  | column =>
    obtain ⟨_, hmem, _⟩ := hu
    cases hmem
  | call m args type =>
    intro a ha
    obtain ⟨_, hmem⟩ := hu a ha
    cases hmem
  | tableColumn => exact absurd hu id
  | _ => trivial

/-- The arguments of a leaf read what is around it. -/
theorem leaf_reads {outer : List (String × List Column)} (hreads : src.Reads outer)
    (hleaf : src.isLeaf = true) : ∀ t ∈ src.arguments, ∀ u ∈ t.subterms, u.ReadsFrom outer := by
  cases src with
  | schema => exact hreads
  | inMemory | subquery => simp [BoundSource.arguments]
  | join | apply => cases hleaf

end Leaves

/-! ## Tables in the store -/

/-- The joins of a block are among the given steps. -/
def OwnsJoins (b : BoundSelect) (own : Populate → Bool) : Prop :=
  ∀ src ∈ b.source.parts, ∀ p, src.pair? = some p → ∀ table outer l r sources,
    own (p.step table outer l r sources) = true

/-- A join of the block does not find what it reads: the table of a common table expression was
    written by an earlier node of the block, or a rename has put another table in the place of one
    that was created for the block. -/
def Displaced (q : BoundQuery) (b : BoundSelect) (joins : List Node) : Prop :=
  ∃ before n after src, joins = before ++ n :: after ∧ StepOver q b src n ∧
    ((∃ a table columns, src = .inMemory a table .cte columns ∧ ∃ m ∈ before, m.written = table) ∨
      ∃ al table early source late, (al, table) ∈ n.scans ∧
        before = early ++ .rename source table :: late ∧
        ∀ columns forGrouping, .create table columns forGrouping ∉ late)

/-- The rows of a leaf that is read from a transition table: a common table expression has those
    from before the joins, and a subquery those that its own nodes leave in its table. -/
def Supplies {V : Type} (I : Interpretation V) (leaves : List (String × List Column))
    (own : Populate → Bool) (σ : Store V) (before joins : List Node)
    (rows : List (String → Option V)) : BoundSource → Prop
  | .inMemory _ table .cte _ => rows = σ.rows table
  | .subquery _ query _ => ∃ st st' table ns, planQuery query .fresh st = .ok table st' ∧
      st'.draft.nodes = before ++ ns ∧ ns <+: joins ∧ rows = (I.run leaves own σ ns).rows table
  | _ => True

section Tables

variable {q : BoundQuery} {b : BoundSelect} {src : BoundSource} {scope : Nat} {needs : ColumnNeeds}
  {outer : Option Relation} {st st' : State} {r : Relation} {before joins joins' ns : List Node}

theorem Displaced.mono (h : Displaced q b joins) (hle : joins <+: joins') :
    Displaced q b joins' := by
  obtain ⟨before, n, after, src, rfl, h⟩ := h
  obtain ⟨rest, rfl⟩ := hle
  exact ⟨before, n, after ++ rest, src, by simp, h⟩

/-- A table that a join of the block reads is not written after it is complete. -/
theorem Fills.unwritten_of_kept {early late : List Node} {n : Node} {al table : String}
    (hkept : ¬ Displaced q b (early ++ late ++ [n])) (hstep : StepOver q b src n)
    (hscan : (al, table) ∈ n.scans) (hfills : Fills [] st st')
    (hlate : st'.draft.nodes = st.draft.nodes ++ late)
    (htable : (∃ columns, src = .inMemory al table .cte columns) ∨ st.IsOld table) :
    ∀ m ∈ late, m.written ≠ table := by
  rcases htable with ⟨columns, rfl⟩ | hold
  · intro m hm hwritten
    exact hkept ⟨early ++ late, n, [], _, rfl, hstep,
      .inl ⟨al, table, columns, rfl, m, List.mem_append_right _ hm, hwritten⟩⟩
  · refine hfills.unwritten hlate hold List.not_mem_nil ?_
    rintro ⟨source, hrename⟩
    obtain ⟨ns, hns, hfilled⟩ := hfills.nodes
    obtain rfl := List.append_cancel_left (hlate.symm.trans hns)
    obtain ⟨first, rest, rfl⟩ := List.append_of_mem hrename
    refine hkept ⟨_, n, [], src, rfl, hstep,
      .inr ⟨al, table, early ++ first, source, rest, hscan, by simp, ?_⟩⟩
    intro columns forGrouping hcreate
    exact (hfilled (.create table columns forGrouping) (by simp [hcreate]) table rfl).elim
      List.not_mem_nil hold.not_isNew

/-- A planned source is read from the table of a common table expression or from numbered tables. -/
theorem planSource_tables (hrun : planSource scope src needs outer st = .ok r st') :
    ∀ p ∈ r.scan.tables, (∃ columns, src = .inMemory p.1 p.2 .cte columns) ∨ st'.IsOld p.2 := by
  cases hpair : src.pair? with
  | some p =>
    obtain ⟨_, _, _, _, _, hplanned, rfl⟩ := exists_pairRun hpair hrun
    intro p hp
    obtain rfl := List.mem_singleton.1 hp
    rw [hplanned.joined]
    exact .inr ⟨_, "join", Nat.lt_succ_self _, rfl⟩
  | none =>
    obtain ⟨_, hplanned, rfl⟩ := exists_leafRun (BoundSource.isLeaf_of_pair?_none hpair) hrun
    intro p hp
    cases hplanned with
    | schema => cases hp
    | inMemory a table origin columns =>
      cases origin with
      | cte =>
        obtain rfl := List.mem_singleton.1 hp
        exact .inl ⟨columns, rfl⟩
      | host => cases hp
    | subquery hquery =>
      obtain rfl := List.mem_singleton.1 hp
      exact .inr (planQuery_fills _ hquery).2.2

variable {V : Type} {I : Interpretation V} {leaves : List (String × List Column)}
  {own : Populate → Bool} {σ τ : Store V} {rows : List (String → Option V)}

theorem Store.rows_congr {table : String} (h : σ table = τ table) :
    σ.rows table = τ.rows table := by
  rw [Store.rows, h, Store.rows]

theorem scanRows_congr {scan : Scan} (h : ∀ p ∈ scan.tables, σ p.2 = τ p.2)
    (row : List (Binding V)) : I.scanRows leaves σ row scan = I.scanRows leaves τ row scan := by
  cases scan with
  | transition a table =>
    simp only [Interpretation.scanRows, Store.rows_congr (h (a, table) (List.mem_singleton_self _))]
  | _ => rfl

theorem Supplies.mono (h : Supplies I leaves own σ before joins rows src)
    (hle : joins <+: joins') : Supplies I leaves own σ before joins' rows src := by
  cases src with
  | subquery =>
    obtain ⟨st, st', table, ns, hquery, hns, hpre, hrows⟩ := h
    exact ⟨st, st', table, ns, hquery, hns, hpre.trans hle, hrows⟩
  | inMemory _ _ origin => cases origin <;> exact h
  | _ => trivial

/-- A planned leaf is supplied with the rows that it is read from, if its table is then as it was
    left. -/
theorem exists_supplies (hleaf : src.isLeaf = true)
    (hrun : planSource scope src needs outer st = .ok r st')
    (hns : st'.draft.nodes = before ++ ns) (hle : ns <+: joins)
    (hcte : ∀ p ∈ r.scan.tables, (∃ columns, src = .inMemory p.1 p.2 .cte columns) → τ p.2 = σ p.2)
    (hkept : ∀ p ∈ r.scan.tables, st'.IsOld p.2 → τ p.2 = I.run leaves own σ ns p.2) :
    ∃ rows, Supplies I leaves own σ before joins rows src ∧
      ∀ p ∈ r.scan.tables, rows = τ.rows p.2 := by
  obtain ⟨_, hplanned, rfl⟩ := exists_leafRun hleaf hrun
  cases hplanned with
  | schema => exact ⟨[], trivial, fun _ hp => absurd hp List.not_mem_nil⟩
  | inMemory a table origin columns =>
    cases origin with
    | host => exact ⟨[], trivial, fun _ hp => absurd hp List.not_mem_nil⟩
    | cte =>
      refine ⟨σ.rows table, rfl, fun p hp => ?_⟩
      obtain rfl := List.mem_singleton.1 hp
      exact Store.rows_congr (hcte _ hp ⟨columns, rfl⟩).symm
  | @subquery a table _ _ _ hquery =>
    refine ⟨(I.run leaves own σ ns).rows table, ⟨_, _, table, ns, hquery, hns, hle, rfl⟩,
      fun p hp => ?_⟩
    obtain rfl := List.mem_singleton.1 hp
    exact Store.rows_congr (hkept _ hp (planQuery_fills _ hquery).2.2).symm

end Tables

/-! ## Chains -/

/-- What planning a chain gives: a relation over its leaves whose rows simulate the full rows once
    the emitted nodes have run, for leaves with the rows that the store supplies. -/
structure ChainPlanned (q : BoundQuery) (b : BoundSelect) (leaves : List (String × List Column))
    (src : BoundSource) (needs : ColumnNeeds) (r : Relation) (st st' : State) : Prop where
  carries : r.leaves = src.leafAliases
  rows : ∀ {V : Type} (I : Interpretation V) {own : Populate → Bool} (σ : Store V) {ns : List Node},
    OwnsJoins b own → st'.draft.nodes = st.draft.nodes ++ ns → ¬ Displaced q b ns →
    ∃ contents : Contents V, (∀ leaf ∈ src.parts, leaf.isLeaf = true →
        Supplies I leaves own σ st.draft.nodes ns (contents leaf.aliasName) leaf) ∧
      Forall₂ (Simulates I src needs r) (fullRows I contents leaves src I.nulls)
        (I.scanRows leaves (I.run leaves own σ ns) [] r.scan)

section Chains

variable {s : Scopes} {qs : List BoundQuery} {scope : Nat} {leaves : List (String × List Column)}
  {q : BoundQuery} {b : BoundSelect}

/-- What a source inside a block knows of the scopes and of all leaves of the block. -/
structure ChainBound (s : Scopes) (scope : Nat) (leaves : List (String × List Column))
    (src : BoundSource) : Prop where
  bound : SourceBound s scope src
  reads : src.Reads []
  sublist : src.leaves.Sublist leaves
  compound : ∀ p ∈ src.parts, p.isLeaf = false → p.aliasName ∉ leaves.map (·.1)

theorem ChainBound.mem_aliases {src : BoundSource} (h : ChainBound s scope leaves src)
    (hleaf : src.isLeaf = true) : src.aliasName ∈ leaves.map (·.1) := by
  have hmem : (src.aliasName, src.columns) ∈ src.leaves := by simp [src.leaves_of_isLeaf hleaf]
  exact List.mem_map.2 ⟨_, h.sublist.subset hmem, rfl⟩

theorem parts_of_isLeaf {src : BoundSource} (hleaf : src.isLeaf = true) : src.parts = [src] := by
  cases src with
  | join | apply => cases hleaf
  | _ => rfl

theorem chainPlanned_leaf {src : BoundSource} {needs : ColumnNeeds} {st st' : State} {r : Relation}
    (hsrc : ChainBound s scope leaves src) (hleaf : src.isLeaf = true)
    (hrun : planSource scope src needs none st = .ok r st') :
    ChainPlanned q b leaves src needs r st st' := by
  have haliases : src.leafAliases = [src.aliasName] := by
    rw [← src.map_leaves, src.leaves_of_isLeaf hleaf]
    rfl
  have hargs := leaf_reads hsrc.reads hleaf
  have hplanned := leafPlanned_of_run hleaf (hsrc.mem_aliases hleaf) hrun
  refine ⟨hplanned.own.trans haliases.symm, fun {V} I {own} σ {ns} _ hns _ => ?_⟩
  have hcte : ∀ p ∈ r.scan.tables, (∃ columns, src = .inMemory p.1 p.2 .cte columns) →
      I.run leaves own σ ns p.2 = σ p.2 := by
    rintro p - ⟨columns, rfl⟩
    obtain ⟨_, ⟨⟩, -⟩ := exists_leafRun rfl hrun
    obtain rfl : ns = [] := List.append_right_eq_self.1 hns.symm
    rfl
  obtain ⟨rows, hsupplies, hrows⟩ := exists_supplies hleaf hrun hns (List.prefix_refl ns) hcte
    fun _ _ _ => rfl
  refine ⟨fun _ => rows, fun leaf hmem _ => ?_, ?_⟩
  · obtain rfl := List.mem_singleton.1 (parts_of_isLeaf hleaf ▸ hmem)
    exact hsupplies
  · refine (hplanned.rows hrows fun t ht => value_of_no_reads (hargs t ht) _ _).imp ?_
    rintro _ _ ⟨x, rfl, rfl⟩
    refine ⟨fun a ha => Function.update_of_ne (by simpa [haliases] using ha) _ _, .inl ?_⟩
    exact ⟨src.aliasName, haliases, hplanned.direct, by simp [Interpretation.single]⟩

/-- The step of a join fills the table that was created for it. -/
theorem run_join {V : Type} {I : Interpretation V} {τ : Store V} {kind : LoopKind}
    {predicate : Option Term} {table : String} {leftRelation rightRelation : Relation}
    {sources : List (String × Column)} {own : Populate → Bool}
    (hown : own (joinStep table kind predicate leftRelation rightRelation sources) = true)
    (hτ : τ table = some ⟨joinColumns sources, []⟩) :
    I.runNode leaves own τ
        (.populate (joinStep table kind predicate leftRelation rightRelation sources)) table =
      some ⟨joinColumns sources, I.loopRows leaves τ (joinColumns sources) leftRelation.scan
        rightRelation.scan predicate (paddingOf kind leftRelation rightRelation sources)
        (joinSelect leftRelation rightRelation sources)⟩ := by
  rw [Interpretation.runNode, if_pos hown]
  simp [joinStep, Interpretation.joined, Store.append, hτ, Table.append]

/-- The sides of a pair whose right side is a leaf. -/
theorem sides_of_planned {src left right : BoundSource} {outer : Option Relation}
    {leftRelation rightRelation : Relation} (hdistinct : (leaves.map (·.1)).Nodup)
    (hnames : (qualifiedNames leaves).Nodup) (hsrc : ChainBound s scope leaves src)
    (hleaves : src.leaves = left.leaves ++ right.leaves) (hleaf : right.isLeaf = true)
    (hcarries : leftRelation.leaves = left.leafAliases)
    (hright : LeafPlanned leaves right outer rightRelation) :
    Sides leaves left right leftRelation rightRelation right.aliasName right.columns where
  names := hnames
  subset := hleaves ▸ hsrc.sublist.subset
  carries := hcarries
  leaf := right.leaves_of_isLeaf hleaf
  direct := hright.direct
  own := hright.own
  apart := by
    have haliases : (src.leaves.map (·.1)).Nodup := hdistinct.sublist (hsrc.sublist.map _)
    rw [hleaves, List.map_append, left.map_leaves, right.leaves_of_isLeaf hleaf] at haliases
    intro hmem
    exact (List.nodup_append.1 haliases).2.2 _ hmem right.aliasName (by simp) rfl

/-- Planning the right side of a pair, a leaf, gives the sides of the pair. -/
theorem sides_of_run {src left right : BoundSource} {outer : Option Relation}
    {leftRelation rightRelation : Relation} {needs : ColumnNeeds} {st st' : State}
    (hdistinct : (leaves.map (·.1)).Nodup) (hnames : (qualifiedNames leaves).Nodup)
    (hsrc : ChainBound s scope leaves src) (hleaves : src.leaves = left.leaves ++ right.leaves)
    (hleaf : right.isLeaf = true) (hcarries : leftRelation.leaves = left.leafAliases)
    (hrun : planSource scope right needs outer st = .ok rightRelation st') :
    LeafPlanned leaves right outer rightRelation ∧
      Sides leaves left right leftRelation rightRelation right.aliasName right.columns ∧
      leftRelation.leaves ++ rightRelation.leaves = src.leafAliases := by
  have hmem : right.aliasName ∈ leaves.map (·.1) :=
    List.mem_map.2 ⟨(right.aliasName, right.columns), hsrc.sublist.subset (by
      simp [hleaves, right.leaves_of_isLeaf hleaf]), rfl⟩
  have hright := leafPlanned_of_run hleaf hmem hrun
  have hsides := sides_of_planned hdistinct hnames hsrc hleaves hleaf hcarries hright
  refine ⟨hright, hsides, ?_⟩
  rw [hcarries, hright.own, ← hsides.leafAliases, ← left.map_leaves, ← right.map_leaves,
    ← src.map_leaves, hleaves, List.map_append]

theorem le_inputs (p : Pair) (needs : ColumnNeeds) : needs.Le (p.inputs needs) :=
  (ColumnNeeds.le_addAll _ _).trans (ColumnNeeds.le_addAll _ _)

theorem inputs_covers_condition (p : Pair) (needs : ColumnNeeds) {t u : Term}
    (ht : t ∈ p.condition.toList) (hu : u ∈ t.subterms) : (p.inputs needs).Covers u :=
  (ColumnNeeds.covers_addAll _ ht hu).mono (ColumnNeeds.le_addAll _ _)

/-- The side whose rows a loop keeps. -/
def LoopKind.kept : LoopKind → Option JoinSide
  | .innerJoin | .crossApply => none
  | .leftOuterJoin | .outerApply => some .left
  | .rightOuterJoin => some .right

/-- A pair as it was bound is a nested loop over its sides. -/
theorem fullRows_pair {V : Type} (I : Interpretation V) (contents : Contents V) {src : BoundSource}
    {p : Pair} (hp : src.pair? = some p) (outer : FullRow V) :
    fullRows I contents leaves src outer = nestedLoop p.kind.kept
      (fullRows I contents leaves p.left outer)
      (fun l => fullRows I contents leaves p.right ((p.around l none).getD outer))
      (fullRows I contents leaves p.right outer)
      (fun l r => p.condition.all fun t =>
        I.holds (I.value (I.fullReader leaves (l.merge p.right r)) t))
      (FullRow.merge p.right) id id := by
  cases src with
  | join _ kind =>
    cases hp
    cases kind <;> rfl
  | apply _ kind =>
    cases hp
    cases kind <;> rfl
  | _ => cases hp

/-- The rows of a source depend on the contents of its own leaves. -/
theorem fullRows_congr {V : Type} {I : Interpretation V} {contents contents' : Contents V}
    {src : BoundSource} (h : ∀ a ∈ src.leafAliases, contents a = contents' a) :
    fullRows I contents leaves src = fullRows I contents' leaves src := by
  induction src using BoundSource.pairInduction with
  | leaf src hleaf =>
    funext outer
    cases src with
    | schema => simp only [fullRows]
    | inMemory a table origin columns =>
      cases origin with
      | cte => simp only [fullRows, h a (List.mem_singleton_self _)]
      | host => simp only [fullRows]
    | subquery a query columns => simp only [fullRows, h a (List.mem_singleton_self _)]
    | join | apply => cases hleaf
  | pair src p hp ihl ihr =>
    rw [leafAliases_pair hp] at h
    have hl := ihl fun a ha => h a (List.mem_append_left _ ha)
    have hr := ihr fun a ha => h a (List.mem_append_right _ ha)
    funext outer
    rw [fullRows_pair I contents hp, fullRows_pair I contents' hp, hl, hr]

/-- The step of a pair joins rows that simulate those of its left side with the rows of a leaf. -/
theorem simulates_pair {V : Type} {I : Interpretation V} {contents : Contents V} {τ : Store V}
    {src : BoundSource} {p : Pair} {needs : ColumnNeeds} {l r : Relation} {own : Populate → Bool}
    {table : String} {sources : List (String × Column)} (hp : src.pair? = some p)
    (hdistinct : (leaves.map (·.1)).Nodup) (hsrc : ChainBound s scope leaves src)
    (hright : p.right.isLeaf = true) (hcarries : l.leaves = p.left.leafAliases)
    (hleaf : LeafPlanned leaves p.right (p.around l none) r)
    (hsides : Sides leaves p.left p.right l r p.right.aliasName p.right.columns)
    (htrimmed : Trimmed src needs sources) (hown : own (p.step table none l r sources) = true)
    (hτ : τ table = some ⟨joinColumns sources, []⟩)
    (hcontents : ∀ x ∈ r.scan.tables, contents p.right.aliasName = τ.rows x.2)
    (hlefts : Forall₂ (Simulates I p.left (p.inputs needs) l)
      (fullRows I contents leaves p.left I.nulls) (I.scanRows leaves τ [] l.scan)) :
    Forall₂ (Simulates I src needs (.transition src.aliasName table src.leafAliases))
      (fullRows I contents leaves src I.nulls)
      (I.scanRows leaves (I.runNode leaves own τ (.populate (p.step table none l r sources))) []
        (.transition src.aliasName table)) := by
  obtain ⟨-, hreads, hcondition⟩ := @reads_pair src p none hp hsrc.reads needs
  have hargs := leaf_reads hreads hright
  have hcompound : src.isLeaf = false := by cases src <;> cases hp <;> rfl
  -- without an apply, the leaf reads nothing
  have halone (happly : p.kind.isApply = false) (row : List (Binding V)) (ρ : FullRow V) :
      Forall₂ (LeafRow I p.right.aliasName) (fullRows I contents leaves p.right ρ)
        (I.scanRows leaves τ row r.scan) := by
    refine hleaf.rows hcontents fun t ht => ?_
    have hnone {α : Type} (x : α) : p.around x none = none := by simp [Pair.around, happly]
    have hargs := hargs t ht
    rw [hnone] at hargs ⊢
    exact value_of_no_reads hargs _ _
  have hleaves := leaves_pair hp
  have ha := hsrc.compound _ src.self_mem_parts hcompound
  rw [fullRows_pair I contents hp]
  simp only [Interpretation.scanRows, if_neg ha, Store.rows, Pair.step, run_join hown hτ,
    Option.elim_some, List.map_map]
  rw [List.forall₂_map_right_iff]
  refine (hsides.loopRows_joined hleaves htrimmed (le_inputs p needs) ?_ hlefts ?_ ?_ ?_).imp ?_
  · generalize p.kind = kind
    cases kind <;> rfl
  · intro ρ row hrow
    cases happly : p.kind.isApply with
    | false => exact halone happly row _
    | true =>
      have hsome {α : Type} (x : α) : p.around x none = some x := by simp [Pair.around, happly]
      refine hleaf.rows hcontents fun t ht => value_relocate fun u hu => ?_
      have hread := hargs t ht u hu
      have hcovers : (p.inputs needs).Covers u := ColumnNeeds.covers_addAll _ ht hu
      simp only [hsome] at hread ⊢
      refine agrees_of_provides hdistinct
        (List.Subset.trans (List.subset_append_left _ _) hsides.subset) (fun x hx c hc hneeds => ?_)
        hread hcovers
      simpa using hrow.provides hcarries hx hc hneeds [] []
  · intro hkept
    refine halone ?_ _ _
    generalize p.kind = kind at hkept
    cases kind <;> first
      | rfl
      | cases hkept
  · intro ρ row x hrow
    rw [Option.all_map]
    cases hcond : p.condition with
    | none => rfl
    | some t =>
      have ht : t ∈ p.condition.toList := by simp [hcond]
      simp only [Option.all_some, Option.toList_none, List.append_nil]
      congr 1
      refine (value_relocate fun u hu => ?_).symm
      exact agrees_of_provides hdistinct hsides.subset (hsides.provides_pair hrow x)
        (hcondition t ht u hu) (inputs_covers_condition p needs ht hu)
  · rintro ρ _ ⟨houtside, rfl⟩
    exact simulates_joinTable hsides.names (hleaves ▸ hsides.subset) htrimmed houtside _ table _

section PairNodes

variable {src : BoundSource} {p : Pair} {needs : ColumnNeeds} {st st₁ st₂ : State}
  {l r : Relation} {sources : List (String × Column)} {lns rns : List Node}

/-- The node that creates the table of a join. -/
def createJoin (st : State) (sources : List (String × Column)) : Node :=
  .create (st.draft.tableName "join") (joinColumns sources) false

/-- What the step of a pair reads is not written between its completion and the step. -/
structure PairKept (p : Pair) (st : State) (l r : Relation) (lns rns : List Node) (create : Node) :
    Prop where
  left : ∀ x ∈ l.scan.tables, ∀ n ∈ rns ++ [create], n.written ≠ x.2
  cte : ∀ x ∈ r.scan.tables, (∃ columns, p.right = .inMemory x.1 x.2 .cte columns) →
    ∀ n ∈ lns ++ rns ++ [create], n.written ≠ x.2
  right : ∀ x ∈ r.scan.tables, st.IsOld x.2 → ∀ n ∈ [create], n.written ≠ x.2

theorem pairKept_of_run (hp : src.pair? = some p) (hpart : src ∈ b.source.parts)
    (hleft : planSource scope p.left (p.inputs needs) none st = .ok l st₁)
    (hright : planSource scope p.right (p.inputs needs) (p.around l none) st₁ = .ok r st₂)
    (hlns : st₁.draft.nodes = st.draft.nodes ++ lns)
    (hrns : st₂.draft.nodes = st₁.draft.nodes ++ rns)
    (hkept : ¬ Displaced q b (lns ++ rns ++ [createJoin st₂ sources] ++
      [.populate (p.step (st₂.draft.tableName "join") none l r sources)])) :
    PairKept p st₂ l r lns rns (createJoin st₂ sources) := by
  have hfillsl := planSource_fills p.left hleft
  have hfillsr := planSource_fills p.right hright
  obtain ⟨hdeclare, -⟩ := Fills.declared st₂ "join" (joinColumns sources) false
  have hscan {x : String × String} (hx : x ∈ l.scan.tables ∨ x ∈ r.scan.tables) :
      (x.1, x.2) ∈ (Node.populate (p.step (st₂.draft.tableName "join") none l r sources)).scans :=
    List.mem_append.2 hx
  constructor
  · intro x hx
    rw [List.append_assoc lns] at hkept
    refine (hfillsr.append hdeclare).unwritten_of_kept hkept (.left hpart hp) (hscan (.inl hx)) ?_
      (planSource_tables hleft x hx)
    rw [← List.append_assoc, ← hrns]
    rfl
  · intro x hx hcte
    rw [← List.nil_append (lns ++ rns ++ _)] at hkept
    refine ((hfillsl.append hfillsr).append hdeclare).unwritten_of_kept hkept (.right hpart hp)
      (hscan (.inr hx)) ?_ (.inl hcte)
    rw [← List.append_assoc, ← List.append_assoc, ← hlns, ← hrns]
    rfl
  · intro x hx hold
    exact hdeclare.unwritten_of_kept hkept (.right hpart hp) (hscan (.inr hx)) rfl (.inr hold)

variable {V : Type} {I : Interpretation V} {own : Populate → Bool} {σ : Store V}
  {before joins : List Node} {contents : Contents V} {rows : List (String → Option V)}

/-- A leaf on the right is supplied beside the leaves on the left. -/
theorem supplies_pair (hp : src.pair? = some p) (hright : p.right.isLeaf = true)
    (hapart : p.right.aliasName ∉ p.left.leafAliases)
    (hlefts : ∀ leaf ∈ p.left.parts, leaf.isLeaf = true →
      Supplies I leaves own σ before joins (contents leaf.aliasName) leaf)
    (hrows : Supplies I leaves own σ before joins rows p.right) :
    ∀ leaf ∈ src.parts, leaf.isLeaf = true → Supplies I leaves own σ before joins
      (Function.update contents p.right.aliasName rows leaf.aliasName) leaf := by
  intro leaf hmem hleaf
  rw [parts_of_pair hp, List.mem_cons, List.mem_append, parts_of_isLeaf hright,
    List.mem_singleton] at hmem
  rcases hmem with rfl | hmem | rfl
  · cases leaf <;> cases hp <;> cases hleaf
  · have hne : leaf.aliasName ≠ p.right.aliasName := by
      intro heq
      refine hapart (heq ▸ BoundSource.leafAliases_subset hmem ?_)
      simp [← leaf.map_leaves, leaf.leaves_of_isLeaf hleaf]
    rw [Function.update_of_ne hne]
    exact hlefts leaf hmem hleaf
  · rwa [Function.update_self]

/-- The nodes of a pair are those of the left side, those of the leaf, and the join. The join finds
    both sides as they were left. -/
theorem chainPlanned_pair {st' : State} {r' : Relation} (hp : src.pair? = some p) (hs : s.Ordered)
    (hdistinct : (leaves.map (·.1)).Nodup) (hnames : (qualifiedNames leaves).Nodup)
    (hsrc : ChainBound s scope leaves src) (hpart : src ∈ b.source.parts)
    (hqs : p.left.queries ++ p.right.queries ⊆ qs) (hright : p.right.isLeaf = true)
    (hscopes : SameBindings s st.scopes)
    (hl : ∀ needs r st', planSource scope p.left needs none st = .ok r st' →
      ChainPlanned q b leaves p.left needs r st st')
    (hrun : planSource scope src needs none st = .ok r' st') :
    ChainPlanned q b leaves src needs r' st st' := by
  rw [List.append_subset] at hqs
  obtain ⟨st₁, st₂, l, r, sources, ⟨hleftRun, hrightRun, hsources, rfl⟩, rfl⟩ :=
    exists_pairRun hp hrun
  obtain ⟨-, hmoves₁, -⟩ := planSource_moves p.left _ _ _ _ _ _ hqs.1 hleftRun
  obtain ⟨-, hmoves₂, -⟩ := planSource_moves p.right _ _ _ _ _ _ hqs.2 hrightRun
  have hscopes₂ := (hscopes.trans hmoves₁.scopes).trans hmoves₂.scopes
  have hleft := hl _ _ _ hleftRun
  obtain ⟨hleaf, hsides, haliases⟩ :=
    sides_of_run hdistinct hnames hsrc (leaves_pair hp) hright hleft.carries hrightRun
  obtain ⟨tables, htables⟩ := hsrc.bound.leafTables
  have htrimmed : Trimmed src needs sources :=
    trimmed_of_leafTables (hscopes₂.ordered hs) (htables.frame fun k => hscopes₂.find k scope)
      (haliases ▸ hsources)
  rw [haliases]
  refine ⟨rfl, fun {V} I {own} σ {ns} hown hns hkept => ?_⟩
  obtain ⟨lns, hlns, -⟩ := (planSource_fills p.left hleftRun).nodes
  obtain ⟨rns, hrns, -⟩ := (planSource_fills p.right hrightRun).nodes
  obtain rfl : ns = lns ++ rns ++ [createJoin st₂ sources] ++
      [.populate (p.step (st₂.draft.tableName "join") none l r sources)] := by
    refine List.append_cancel_left (hns.symm.trans ?_)
    rw [← List.append_assoc, ← List.append_assoc, ← List.append_assoc, ← hlns, ← hrns]
    rfl
  have hreads := pairKept_of_run hp hpart hleftRun hrightRun hlns hrns hkept
  -- the store that the step of the pair finds
  let τ := I.run leaves own σ (lns ++ rns ++ [createJoin st₂ sources])
  have hτ : τ (st₂.draft.tableName "join") = some ⟨joinColumns sources, []⟩ := by
    simp only [τ, I.run_append]
    exact Store.create_self ..
  have hle : lns ++ rns <+: lns ++ rns ++ [createJoin st₂ sources] ++
      [.populate (p.step (st₂.draft.tableName "join") none l r sources)] :=
    (List.prefix_append _ _).trans (List.prefix_append _ _)
  obtain ⟨contents, hsupplies, hlefts⟩ := hleft.rows I σ hown hlns fun h =>
    hkept (h.mono ((List.prefix_append _ _).trans hle))
  have hrightKept : ∀ x ∈ r.scan.tables, st₂.IsOld x.2 →
      τ x.2 = I.run leaves own σ (lns ++ rns) x.2 := by
    intro x hx hold
    simp only [τ, I.run_append leaves σ (lns ++ rns)]
    exact I.run_of_unwritten leaves (hreads.right x hx hold) _
  obtain ⟨rows, hsupply, hrows⟩ := exists_supplies hright hrightRun
    (by rw [hrns, hlns, List.append_assoc]) hle
    (fun x hx hcte => I.run_of_unwritten leaves (hreads.cte x hx hcte) σ) hrightKept
  refine ⟨Function.update contents p.right.aliasName rows, supplies_pair hp hright hsides.apart
    (fun leaf hmem hleaf => (hsupplies leaf hmem hleaf).mono
      ((List.prefix_append _ _).trans hle)) hsupply, ?_⟩
  rw [I.run_append]
  refine simulates_pair hp hdistinct hsrc hright hleft.carries hleaf hsides htrimmed
    (hown src hpart p hp _ _ _ _ _) hτ (fun x hx => ?_) ?_
  · rw [Function.update_self]
    exact hrows x hx
  · have hsame : fullRows I (Function.update contents p.right.aliasName rows) leaves p.left =
        fullRows I contents leaves p.left := by
      refine fullRows_congr fun a ha => Function.update_of_ne ?_ _ _
      rintro rfl
      exact hsides.apart ha
    have hleftKept : ∀ x ∈ l.scan.tables, τ x.2 = I.run leaves own σ lns x.2 := by
      intro x hx
      simp only [τ, List.append_assoc, I.run_append leaves σ lns]
      exact I.run_of_unwritten leaves (hreads.left x hx) _
    rw [hsame]
    exact scanRows_congr hleftKept [] ▸ hlefts

end PairNodes

theorem ChainBound.left {src : BoundSource} {p : Pair} (h : ChainBound s scope leaves src)
    (hp : src.pair? = some p) : ChainBound s scope leaves p.left where
  bound _ hmem := h.bound _ (BoundSource.parts_subset (left_mem_parts hp) hmem)
  reads := (@reads_pair src p none hp h.reads .empty).1
  sublist := by
    have hsub := h.sublist
    rw [leaves_pair hp] at hsub
    exact (List.sublist_append_left _ _).trans hsub
  compound _ hmem := h.compound _ (BoundSource.parts_subset (left_mem_parts hp) hmem)

/-- A chain is planned so that its rows are simulated, step by step from the left. -/
theorem planSource_chain (hs : s.Ordered) (hdistinct : (leaves.map (·.1)).Nodup)
    (hnames : (qualifiedNames leaves).Nodup) {src : BoundSource} :
    src.isLeftDeep = true → ChainBound s scope leaves src → src ∈ b.source.parts →
    src.queries ⊆ qs → ∀ {st : State} needs r st', SameBindings s st.scopes →
      planSource scope src needs none st = .ok r st' →
      ChainPlanned q b leaves src needs r st st' := by
  induction src using BoundSource.pairInduction with
  | leaf src hleaf =>
    intro _ hsrc _ _ st needs r st' _ hrun
    exact chainPlanned_leaf hsrc (BoundSource.isLeaf_of_pair?_none hleaf) hrun
  | pair src p hp ihl =>
    intro hdeep hsrc hpart hqs st needs r st' hscopes hrun
    rw [BoundSource.isLeftDeep_pair hp, Bool.and_eq_true] at hdeep
    rw [queries_pair hp] at hqs
    have hleft := BoundSource.parts_subset hpart (left_mem_parts hp)
    refine chainPlanned_pair hp hs hdistinct hnames hsrc hpart hqs hdeep.2 hscopes ?_ hrun
    intro needs r st'
    exact ihl hdeep.1 (hsrc.left hp) hleft (List.append_subset.1 hqs).1 needs r st' hscopes

end Chains

/-! ## Blocks -/

theorem destination_nodes {role : String} {columns : List Column} {destination : Destination}
    {table : String} {st st' : State} (hrun : destination.table role columns st = .ok table st') :
    ∃ ns, st'.draft.nodes = st.draft.nodes ++ ns ∧ ∀ n ∈ ns, n.evaluates? = none := by
  cases destination with
  | fresh =>
    obtain ⟨-, rfl⟩ := run_declare_ok.1 hrun
    exact ⟨[_], rfl, by simp [Node.evaluates?]⟩
  | existing t =>
    obtain ⟨-, rfl⟩ := run_pure_ok.1 hrun
    exact ⟨[], by simp, by simp⟩

/-- The first step of a block that evaluates terms reads its relation, for the redirected
    clauses. -/
theorem planBlock_steps {q : BoundQuery} {b : BoundSelect} {calls : List RefreshCall}
    {relation : Relation} {destination : Destination} {table : String} {st st' : State}
    (hrun : planBlock b q.orderBy q.skip q.take q.output calls relation destination st =
      .ok table st') :
    ∃ st₁ pre n post, Fills [] st st₁ ∧ st₁.draft.nodes = st.draft.nodes ++ pre ∧
      st'.draft.nodes = st.draft.nodes ++ (pre ++ n :: post) ∧ StepOver q b b.source n ∧
      (∀ m ∈ pre, m.evaluates? = none) ∧
      n.evaluates? = some (relation.scan, readFrom relation (sourceTerms b q.orderBy)) := by
  have hoption (t : Option Term) : (t.map (·.mapUp (relocateNode [relation]))).toList =
      readFrom relation t.toList := by
    cases t <;> rfl
  unfold planBlock at hrun
  split at hrun
  · rename_i hgrouped
    obtain ⟨step, select, having, order, st₁, hstep, -, -, -, htable, rfl⟩ :=
      run_planGrouped_ok hrun
    obtain rfl := eq_of_aggregateStep hstep
    obtain ⟨ns, hns, -⟩ := destination_nodes htable
    refine ⟨_, [.create (st.draft.tableName "group") (groupColumns (groupKeys b)
      (distinctAggregates (groupOutputs b q.orderBy))) true],
      .aggregate (groupStep b q.orderBy relation calls (st.draft.tableName "group")),
      ns ++ [.populate ⟨table, .transition b.source.aliasName (st.draft.tableName "group"), having,
        q.skip, q.take, select, order⟩], (Fills.declared st "group" _ true).1, rfl, ?_, .aggregate,
      by simp [Node.evaluates?], ?_⟩
    · simp [Draft.emit, hns, State.declared, Draft.advance]
    · simp [Node.evaluates?, groupStep, sourceTerms, hgrouped, hoption, readFrom, List.flatMap_map,
        List.map_flatMap]
  · rename_i hgrouped
    obtain ⟨filter, select, order, st₁, hfilter, hselect, horder, htable, rfl⟩ :=
      run_planProjection_ok hrun
    obtain rfl := eq_of_relocateOption hfilter
    obtain rfl := eq_of_relocateAll hselect
    obtain rfl := eq_of_relocateOrder horder
    obtain ⟨ns, hns, hnone⟩ := destination_nodes htable
    refine ⟨st₁, ns, .populate (projectStep q b relation table), [], (Destination.fills htable).1,
      hns, ?_, .project, hnone, ?_⟩
    · rw [Draft.emit, hns, List.append_assoc]
      rfl
    · simp [Node.evaluates?, projectStep, sourceTerms, hgrouped, hoption, readFrom]

/-- The source of a resolved block, as a part of a chain over its own leaves. -/
theorem chainBound_of_block {Named : String → Prop} {s : Scopes} {b : Block}
    (h : BlockBound Named s b) : (b.source.leaves.map (·.1)).Nodup ∧
      ChainBound s b.scope b.source.leaves b.source := by
  refine ⟨?_, h.source, h.sourceReads, List.Sublist.refl _, ?_⟩
  · rw [b.source.map_leaves]
    exact h.distinct.sublist b.source.leafAliases_sublist
  · intro p hp hcompound hmem
    rw [b.source.map_leaves] at hmem
    obtain ⟨p', hp', hleaf, halias⟩ := BoundSource.exists_leaf_part hmem
    obtain rfl := List.inj_on_of_nodup_map h.distinct hp hp' halias.symm
    rw [hcompound] at hleaf
    cases hleaf

/-- A term that a block evaluates on its source occurs in a clause. -/
theorem sourceTerms_occur {b : BoundSelect} {orderBy : List SortKey} {t : Term}
    (h : t ∈ sourceTerms b orderBy) :
    ∃ clause ∈ b.filter.toList ++ b.groupBy ++ groupOutputs b orderBy, t ∈ clause.subterms := by
  have hself {t : Term} (ht : t ∈ b.filter.toList ++ b.groupBy ++ groupOutputs b orderBy) :
      ∃ clause ∈ b.filter.toList ++ b.groupBy ++ groupOutputs b orderBy, t ∈ clause.subterms :=
    ⟨t, ht, t.self_mem_subterms⟩
  unfold sourceTerms at h
  split at h
  · simp only [List.mem_append, List.mem_flatMap] at h
    rcases h with (h | h) | ⟨p, hp, ht⟩
    · exact hself (by simp [h])
    · refine hself ?_
      unfold groupKeys at h
      split at h
      · cases h
      · simp [h]
    · obtain ⟨out, hout, hagg⟩ := mem_distinctAggregates hp
      refine ⟨out, List.mem_append_right _ hout, ?_⟩
      have hin : t ∈ (Term.aggregate p.1.method p.1.args p.2).subterms :=
        Term.mem_subterms.2 (.inr ⟨t, ht, t.self_mem_subterms⟩)
      exact Term.mem_subterms_trans hin (Term.mem_aggregates.1 hagg).1
  · refine hself ?_
    simp only [List.mem_append] at h
    simp only [groupOutputs, List.mem_append]
    tauto

/-- What a block evaluates on its source is collected as needed. -/
theorem blockNeeds_covers {b : BoundSelect} {orderBy : List SortKey} (calls : List RefreshCall)
    {clause u : Term} (h : clause ∈ b.filter.toList ++ b.groupBy ++ groupOutputs b orderBy)
    (hu : u ∈ clause.subterms) : (blockNeeds b orderBy calls).Covers u := by
  refine ColumnNeeds.covers_addAll _ ?_ hu
  simp only [groupOutputs, List.mem_append] at h ⊢
  tauto

/-! ## Resolved queries -/

/-- The nodes of a block in a plan: `joins` for its source, then `steps` for its clauses. -/
def BlockNodes (s : Scopes) (q : BoundQuery) (b : BoundSelect) (before joins steps : List Node) :
    Prop :=
  ∃ st st₁ st₂ calls relation destination table, SameBindings s st.scopes ∧
    refreshCalls st.scopes b = .ok calls ∧
    planSource b.scope b.source (blockNeeds b q.orderBy calls) none st = .ok relation st₁ ∧
    planBlock b q.orderBy q.skip q.take q.output calls relation destination st₁ = .ok table st₂ ∧
    st.draft.nodes = before ∧ st₁.draft.nodes = before ++ joins ∧
    st₂.draft.nodes = before ++ joins ++ steps

/-- After the nodes have run on any store, the terms have on the rows of the scan the tuples that
    the clauses of the block have on the full rows of its source. -/
def SameTuples (q : BoundQuery) (b : BoundSelect) (before nodes : List Node) (scan : Scan)
    (terms : List Term) : Prop :=
  ∀ {V : Type} (I : Interpretation V) {own : Populate → Bool} (σ : Store V), OwnsJoins b own →
    ∃ contents : Contents V, (∀ leaf ∈ b.source.parts, leaf.isLeaf = true →
        Supplies I b.source.leaves own σ before nodes (contents leaf.aliasName) leaf) ∧
      I.tuples (I.scanRows b.source.leaves (I.run b.source.leaves own σ nodes) [] scan)
          (I.planReader b.source.leaves) terms =
        I.tuples (fullRows I contents b.source.leaves b.source I.nulls)
          (I.fullReader b.source.leaves) (sourceTerms b q.orderBy)

/-- The plan keeps the meaning of a block: the first step over its source evaluates its terms to the
    tuples of the clauses of the block, unless a step of the block does not find what it reads. -/
def KeepsTuples (s : Scopes) (plan : Plan) (q : BoundQuery) (b : BoundSelect) : Prop :=
  ∃ before joins pre n post after scan terms,
    plan.nodes = before ++ joins ++ (pre ++ n :: post) ++ after ∧
    BlockNodes s q b before joins (pre ++ n :: post) ∧
    (∀ m ∈ pre, m.evaluates? = none) ∧ n.evaluates? = some (scan, terms) ∧
    (Displaced q b (joins ++ pre ++ [n]) ∨ SameTuples q b before (joins ++ pre) scan terms)

/-- Rows that simulate full rows give the same tuples. -/
theorem tuples_of_simulates {V : Type} {I : Interpretation V} {leaves : List (String × List Column)}
    {src : BoundSource} {needs : ColumnNeeds} {r : Relation} {rows : List (FullRow V)}
    {rows' : List (List (Binding V))} {ts : List Term} (hdistinct : (leaves.map (·.1)).Nodup)
    (hsub : src.leaves ⊆ leaves) (hcarries : r.leaves = src.leafAliases)
    (hreads : ∀ t ∈ ts, ∀ u ∈ t.subterms, u.ReadsFrom src.leaves ∧ needs.Covers u)
    (h : Forall₂ (Simulates I src needs r) rows rows') :
    I.tuples rows' (I.planReader leaves) (readFrom r ts) =
      I.tuples rows (I.fullReader leaves) ts := by
  induction h with
  | nil => rfl
  | cons hrow _ ih =>
    refine congrArg₂ List.cons ?_ ih
    simp only [readFrom, List.map_map]
    refine List.map_congr_left fun t ht => value_relocate fun u hu => ?_
    obtain ⟨hread, hcovers⟩ := hreads t ht u hu
    refine agrees_of_provides hdistinct hsub (fun l hl c hc hneeds => ?_) hread hcovers
    simpa using hrow.provides hcarries hl hc hneeds [] []

/-- Stands for `select a.Name, b.Amount, i.Label from #A.entities() a
    left outer join #B.orders() b on a.Id = b.PersonId outer apply #A.items(a.Id) i` -/
def outerChain : Query :=
  .ofSelect ((((Select.empty.addExpr (.ofColumn "a" "Name")).addExpr
    (.ofColumn "b" "Amount")).addExpr (.ofColumn "i" "Label")).withSource
      (.apply .outer
        (.join .leftOuter (Sample.entitiesAs "a") (Sample.ordersAs "b")
          (.equals (.ofColumn "a" "Id") (.ofColumn "b" "PersonId")))
        ((Source.ofSchema "A" "items" [.ofColumn "a" "Id"]).withAlias "i")))

/-- Stands for `with "__t1_join" as (select City from #A.entities() x) select c.City
    from #A.entities() a inner join #B.orders() b on a.Id = b.PersonId
    inner join "__t1_join" c on a.City = c.City` -/
def namedLikeChain : Query :=
  (Query.ofSelect ((Select.empty.addExpr (.ofColumn "c" "City")).withSource
      (.join .inner
        (.join .inner (Sample.entitiesAs "a") (Sample.ordersAs "b")
          (.equals (.ofColumn "a" "Id") (.ofColumn "b" "PersonId")))
        ((Source.ofMemory "__t1_join").withAlias "c")
        (.equals (.ofColumn "a" "City") (.ofColumn "c" "City"))))).withCtes
    [⟨"__t1_join", [], .ofSelect ((Select.empty.addExpr (.identifier "City")).withSource
      (Sample.entitiesAs "x"))⟩]

end SchemaQuery.Plan
