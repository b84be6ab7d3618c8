-- SUMMARY: The tables of a chain of joins and applies have exactly the columns that are read later.
import SchemaQuery.Proofs.Plan.Outcome
import SchemaQuery.Proofs.Plan.Outward

/-!
# Columns of join tables

A chain is planned from its last pair down to its first leaf and its tables are
declared on the way back, so the needs at a pair have grown by what all later
pairs read and by nothing else. Said without the recursion, the table of pair `i`
has the columns of the leaves up to the right side of the pair that the steps
after the chain need, or that the condition or the arguments of a pair after `i`
refer to (`BoundSource.readAfter`). The main statement of this module is
`planSource_joinTables`.
-/

namespace SchemaQuery

/-! ## Chains -/

/-- Whether the condition of a pair or the arguments of its right side read a column. -/
def Plan.Pair.refersTo (p : Plan.Pair) (aliasName column : String) : Bool :=
  (p.condition.toList ++ p.right.arguments).any fun t => t.refersTo aliasName column

namespace BoundSource

/-- The pairs of a source along its left sides, the innermost first. -/
def spine : BoundSource → List Plan.Pair
  | .join _ kind left right condition => left.spine ++ [⟨.ofJoin kind, left, right, some condition⟩]
  | .apply _ kind left right => left.spine ++ [⟨.ofApply kind, left, right, none⟩]
  | .schema .. | .inMemory .. | .subquery .. => []

/-- Whether a pair after position `i` reads a column. -/
def readAfter (src : BoundSource) (i : Nat) (aliasName column : String) : Bool :=
  (src.spine.drop (i + 1)).any fun p => p.refersTo aliasName column

variable {src : BoundSource} {p : Plan.Pair}

theorem spine_pair (hp : src.pair? = some p) : src.spine = p.left.spine ++ [p] := by
  cases src <;> cases hp <;> rfl

theorem spine_of_pair?_none (hp : src.pair? = none) : src.spine = [] := by
  cases src <;> first | rfl | cases hp

/-- A chain has one leaf more than it has pairs. -/
theorem length_leaves_of_isLeftDeep (h : src.isLeftDeep = true) :
    src.leaves.length = src.spine.length + 1 := by
  induction src using pairInduction with
  | leaf s hs =>
    rw [spine_of_pair?_none hs, leaves_of_isLeaf (isLeaf_of_pair?_none hs)]
    rfl
  | pair s p hp ihl =>
    rw [isLeftDeep_pair hp, Bool.and_eq_true] at h
    rw [Plan.leaves_pair hp, spine_pair hp, List.length_append, List.length_append, ihl h.1,
      leaves_of_isLeaf h.2]
    rfl

/-- Nothing comes after the last pair. -/
theorem readAfter_last (hp : src.pair? = some p) (a c : String) :
    src.readAfter p.left.spine.length a c = false := by
  rw [readAfter, spine_pair hp, List.drop_of_length_le (by simp)]
  rfl

/-- After a pair of the left side come the later ones of that side, and the last pair. -/
theorem readAfter_left (hp : src.pair? = some p) {i : Nat} (hi : i < p.left.spine.length)
    (a c : String) : src.readAfter i a c = (p.left.readAfter i a c || p.refersTo a c) := by
  rw [readAfter, spine_pair hp, List.drop_append_of_le_length hi, List.any_append]
  simp [readAfter]

end BoundSource

namespace Plan

/-- The sides of a pair are planned for what is needed after it and for what it refers to itself. -/
theorem Pair.needs_inputs (p : Pair) (needs : ColumnNeeds) (a c : String) :
    (p.inputs needs).needs a c = (needs.needs a c || p.refersTo a c) := by
  rw [Bool.eq_iff_iff, Pair.inputs, ColumnNeeds.needs_addAll, ColumnNeeds.needs_addAll,
    Pair.refersTo, List.any_append, Bool.or_eq_true, Bool.or_eq_true, or_assoc]

/-! ## Tables of pairs -/

/-- The columns of some tables that are kept in the table of a pair, in the order of the tables and
    of their declaration. -/
def keptColumns (keep : String → String → Bool) (tables : List TableSymbol) : List Column :=
  Column.number (tables.flatMap fun t => (t.visibleColumns.filter fun c =>
    keep t.aliasName c.name).map fun c => (t.aliasName ++ "." ++ c.name, c.type))

/-- The nodes declare the table of a pair with the given columns and fill it by a loop over the two
    sides. The left side is the table of the pair before, if there is one. -/
def FillsPair (p : Pair) (previous : Option String) (table : String) (columns : List Column)
    (ns : List Node) : Prop :=
  ∃ before after step left right predicate padding,
    ns = before ++ .create table columns false :: .populate step :: after ∧
    step.target = table ∧ step.source = .loop p.kind left right predicate padding ∧
    left.aliasName = p.left.aliasName ∧ right.aliasName = p.right.aliasName ∧
    ∀ t ∈ previous, left = .transition p.left.aliasName t

/-- The nodes fill one table for each pair of a chain over the leaves `tables`, and the last of them
    is scanned in the end. The columns of each are those that are kept for later. -/
def ChainTables (src : BoundSource) (keep : String → String → Bool) (tables : List TableSymbol)
    (ns : List Node) (scan : Scan) : Prop :=
  ∃ names : List String, names.length = src.spine.length ∧
    (∀ t ∈ names.getLast?, scan = .transition src.aliasName t) ∧
    ∀ i p table, src.spine[i]? = some p → names[i]? = some table →
      FillsPair p (names.take i).getLast? table
        (keptColumns (fun a c => keep a c || src.readAfter i a c) (tables.take (i + 2))) ns

theorem FillsPair.append {p : Pair} {previous : Option String} {table : String}
    {columns : List Column} {ns : List Node} (h : FillsPair p previous table columns ns)
    (ns' : List Node) : FillsPair p previous table columns (ns ++ ns') := by
  obtain ⟨before, after, step, left, right, predicate, padding, rfl, hrest⟩ := h
  exact ⟨before, after ++ ns', step, left, right, predicate, padding, by simp, hrest⟩

theorem joinColumns_eq_keptColumns (needs : ColumnNeeds) (tables : List TableSymbol) :
    joinColumns (tables.flatMap fun t => (needs.columnsOf t).map fun c => (t.aliasName, c)) =
      keptColumns needs.needs tables := by
  simp only [joinColumns, keptColumns, List.map_flatMap, List.map_map]
  rfl

section Runs

variable {scope : Nat} {src : BoundSource} {needs : ColumnNeeds} {outer : Option Relation}
  {st st' : State} {r : Relation}

/-- A planned source is read under its own alias and carries its leaves. -/
theorem planSource_carries (hrun : planSource scope src needs outer st = .ok r st') :
    r.scan.aliasName = src.aliasName ∧ r.leaves = src.leafAliases := by
  induction src using BoundSource.pairInduction generalizing needs outer st st' r with
  | leaf s hs =>
    obtain ⟨_, hleaf, rfl⟩ := exists_leafRun (BoundSource.isLeaf_of_pair?_none hs) hrun
    cases hleaf with
    | inMemory a table origin columns => exact ⟨by cases origin <;> rfl, rfl⟩
    | _ => exact ⟨rfl, rfl⟩
  | pair s p hp ihl ihr =>
    obtain ⟨st₁, st₂, l, r', sources, hpair, rfl⟩ := exists_pairRun hp hrun
    refine ⟨rfl, ?_⟩
    rw [leafAliases_pair hp, ← (ihl hpair.left).2, ← (ihr hpair.right).2]
    rfl

theorem planSource_sameBindings (hrun : planSource scope src needs outer st = .ok r st') :
    SameBindings st.scopes st'.scopes :=
  (planSource_moves src _ _ _ _ _ _ (List.Subset.refl _) hrun).2.1.scopes

end Runs

/-! ## The chain of a block -/

section Chain

variable {s : Scopes} {scope : Nat} {src : BoundSource} {tables : List TableSymbol}

/-- The tables of the left side are the first ones. -/
theorem leafTables_left {p : Pair} (hp : src.pair? = some p)
    (ht : LeafTables s scope src tables) :
    LeafTables s scope p.left (tables.take p.left.leaves.length) where
  leaves := by rw [List.map_take, ht.leaves, leaves_pair hp, List.take_left]
  bound t hmem := ht.bound t (List.mem_of_mem_take hmem)

/-- A pair adds its table to those of its left side. -/
theorem ChainTables.pair {p : Pair} {needs : ColumnNeeds} {lns : List Node} {l r : Scan}
    {predicate : Option Term} {padding : Option Padding} (hp : src.pair? = some p)
    (rns : List Node) (step : Populate) (hlength : tables.length = p.left.spine.length + 2)
    (hleft : ChainTables p.left (p.inputs needs).needs (tables.take (p.left.spine.length + 1)) lns
      l)
    (hl : l.aliasName = p.left.aliasName) (hr : r.aliasName = p.right.aliasName)
    (hsource : step.source = .loop p.kind l r predicate padding) :
    ChainTables src needs.needs tables
      (lns ++ (rns ++ [.create step.target (keptColumns needs.needs tables) false, .populate step]))
      (.transition src.aliasName step.target) := by
  obtain ⟨names, hnames, hscan, hpairs⟩ := hleft
  refine ⟨names ++ [step.target], by simp [hnames, BoundSource.spine_pair hp], by simp, ?_⟩
  intro i p' t hp' ht
  rw [BoundSource.spine_pair hp] at hp'
  by_cases hi : i < p.left.spine.length
  · -- a pair of the left side was planned for the needs that include those of this pair
    rw [List.getElem?_append_left hi] at hp'
    rw [List.getElem?_append_left (hnames ▸ hi)] at ht
    have hpair := (hpairs i p' t hp' ht).append
      (rns ++ [.create step.target (keptColumns needs.needs tables) false, .populate step])
    have hkeep : (fun a c => (p.inputs needs).needs a c || p.left.readAfter i a c) =
        fun a c => needs.needs a c || src.readAfter i a c := by
      funext a c
      rw [Pair.needs_inputs, BoundSource.readAfter_left hp hi, Bool.or_assoc,
        Bool.or_comm (p.refersTo a c)]
    rw [hkeep, List.take_take, Nat.min_eq_left (by omega)] at hpair
    rwa [List.take_append_of_le_length (by omega)]
  · -- the last pair keeps what is needed after the chain
    obtain ⟨hlt, -⟩ := List.getElem?_eq_some_iff.1 hp'
    obtain rfl : i = p.left.spine.length := by simp at hlt; omega
    obtain rfl : p = p' := by simpa using hp'
    obtain rfl : step.target = t := by simpa [← hnames] using ht
    have hkeep : (fun a c => needs.needs a c || src.readAfter p.left.spine.length a c) =
        needs.needs := by
      funext a c
      rw [BoundSource.readAfter_last hp, Bool.or_false]
    rw [hkeep, ← hlength, List.take_length, ← hnames, List.take_left]
    exact ⟨lns ++ rns, [], step, l, r, predicate, padding, by simp, rfl, hsource, hl, hr, hscan⟩

/-- The tables of a chain, by induction along its left sides. -/
theorem planSource_chainTables (hs : s.Ordered) {st st' : State} {needs : ColumnNeeds}
    {outer : Option Relation} {r : Relation} (hdeep : src.isLeftDeep = true)
    (ht : LeafTables s scope src tables) (hst : SameBindings s st.scopes)
    (hrun : planSource scope src needs outer st = .ok r st') :
    ∃ ns, st'.draft.nodes = st.draft.nodes ++ ns ∧
      ChainTables src needs.needs tables ns r.scan := by
  induction src using BoundSource.pairInduction
    generalizing tables needs outer st st' r with
  | leaf src hleaf =>
    obtain ⟨ns, hns, -⟩ := (planSource_fills src hrun).nodes
    exact ⟨ns, hns, [], by simp [BoundSource.spine_of_pair?_none hleaf]⟩
  | pair src p hp ihl =>
    have hlength := BoundSource.length_leaves_of_isLeftDeep hdeep
    rw [BoundSource.isLeftDeep_pair hp, Bool.and_eq_true] at hdeep
    obtain ⟨st₁, st₂, l, r', sources, ⟨hleft, hright, hsources, rfl⟩, rfl⟩ :=
      exists_pairRun hp hrun
    obtain ⟨hl, hlleaves⟩ := planSource_carries hleft
    obtain ⟨hr, hrleaves⟩ := planSource_carries hright
    obtain ⟨rns, hrns, -⟩ := (planSource_fills p.right hright).nodes
    -- the scopes bind the same tables all along
    have hst₂ := (hst.trans (planSource_sameBindings hleft)).trans (planSource_sameBindings hright)
    have hcolumns : joinColumns sources = keptColumns needs.needs tables := by
      rw [hst₂.trimmedColumns, hlleaves, hrleaves, ← leafAliases_pair hp,
        trimmedColumns_of_leafTables hs ht] at hsources
      cases hsources
      exact joinColumns_eq_keptColumns needs tables
    obtain ⟨lns, hlns, hchain⟩ := ihl hdeep.1 (leafTables_left hp ht) hst hleft
    rw [← ht.leaves, List.length_map, BoundSource.spine_pair hp, List.length_append] at hlength
    rw [BoundSource.length_leaves_of_isLeftDeep hdeep.1] at hchain
    refine ⟨_, ?_, ChainTables.pair hp rns (p.step (st₂.draft.tableName "join") outer l r' sources)
      hlength hchain hl hr rfl⟩
    simp [State.joined, State.declared, Draft.emit, Draft.advance, Pair.step, joinStep, hrns, hlns,
      hcolumns]

end Chain

/-- The chain of a resolved block is planned, if its names are plain and it is not nested too deep,
    and the table of each pair has exactly the visible columns of the leaves so far that are needed
    after the chain or that a later pair refers to. -/
theorem planSource_joinTables {env : Resolve.Env} {q : Query} {a : Resolve.Analysis}
    {requests : List TableRequest} (h : Resolve.analyze env q = (.ok a, requests))
    {q' : BoundQuery} (hq' : q' ∈ a.query.queries) {b : BoundSelect} (hb : q'.body = .select b)
    (hdeep : b.source.isLeftDeep = true) (needs : ColumnNeeds) {st : State}
    (hst : SameBindings a.scopes st.scopes) :
    ∃ tables, LeafTables a.scopes b.scope b.source tables ∧
      (PlainName env.config.autoAliasPrefix → (∀ n ∈ q.sourceNames, PlainName n) →
        st.draft.depth + b.source.depth ≤ st.draft.config.maxDepth →
        ∃ r st', planSource b.scope b.source needs none st = .ok r st') ∧
      ∀ r st', planSource b.scope b.source needs none st = .ok r st' →
        ∃ ns, st'.draft.nodes = st.draft.nodes ++ ns ∧
          ChainTables b.source needs.needs tables ns r.scan := by
  obtain ⟨hs, hsealed, -⟩ : _ ∧ Sealed (fun _ => True) a.scopes 0 _ _ ∧ _ :=
    Resolve.analyze_sealed (fun _ => trivial) (fun _ _ => trivial) h
  have hblock : b.block q'.orderBy ∈ BoundQuery.blocksOf a.query.queries :=
    List.mem_filterMap.2 ⟨q', hq', by rw [hb]; rfl⟩
  obtain ⟨-, -, hbound⟩ := hsealed.blocks _ hblock
  obtain ⟨tables, ht⟩ := hbound.source.leafTables
  refine ⟨tables, ht, fun hauto hnames hdepth => ?_, fun r st' hrun =>
    planSource_chainTables hs hdeep ht hst hrun⟩
  obtain ⟨-, hplain, -⟩ := Resolve.analyze_sealed
    (fun n => hauto.append (plainName_toString n)) hnames h
  have hqueries : b.source.queries ⊆ a.query.queries := by
    have hclosed := a.query.queries_closed q' hq'
    rw [q'.queries_eq, hb, BoundBody.queries_select, List.cons_subset, List.append_subset]
      at hclosed
    exact hclosed.2.2
  obtain ⟨hok, -⟩ := planSource_goesDown hs hplain b.source needs hqueries hbound.source
    hbound.sourceReads (.inl ⟨rfl, rfl⟩) st ⟨hst, rfl, by omega⟩
  obtain ⟨r, st', hrun, -⟩ := hok hdepth
  exact ⟨r, st', hrun⟩

/-- Stands for `select c.City from #A.entities() a inner join #B.orders() b on a.Id = b.PersonId
    cross apply #A.items(b.Id) i left outer join #A.entities() c on a.Describe() = c.Name` -/
def describedChain : Query :=
  .ofSelect ((Select.empty.addExpr (.ofColumn "c" "City")).withSource
    (.join .leftOuter
      (.apply .cross
        (.join .inner (Sample.entitiesAs "a") (Sample.ordersAs "b")
          (.equals (.ofColumn "a" "Id") (.ofColumn "b" "PersonId")))
        ((Source.ofSchema "A" "items" [.ofColumn "b" "Id"]).withAlias "i"))
      (Sample.entitiesAs "c")
      (.equals (.ofQualifiedCall "a" "Describe" []) (.ofColumn "c" "Name"))))

/-- The table of the first join keeps the argument of the apply and the row handed to the call, and
    not the key that only the join itself reads. -/
theorem planSource_joinTables_describedChain :
    ∃ a requests b r st' tables ns,
      Resolve.analyze ⟨Sample.catalog, default⟩ describedChain = (.ok a, requests) ∧
      a.query.body = .select b ∧ b.source.spine.length = 3 ∧
      b.source.readAfter 0 "b" "Id" = true ∧ b.source.readAfter 0 "a" "Money" = true ∧
      b.source.readAfter 0 "b" "PersonId" = false ∧ b.source.readAfter 1 "b" "Id" = false ∧
      planSource b.scope b.source ⟨[("c", ["City"])], []⟩ none ⟨a.scopes, .empty default⟩ =
        .ok r st' ∧
      LeafTables a.scopes b.scope b.source tables ∧ st'.draft.nodes = ns ∧
      ChainTables b.source (ColumnNeeds.needs ⟨[("c", ["City"])], []⟩) tables ns r.scan := by
  obtain ⟨a, requests, h, hcheck⟩ := exists_ok_of_check
    (Resolve.analyze ⟨Sample.catalog, default⟩ describedChain) (fun a =>
      (a.query.body.block? a.query.orderBy).any fun (b : Block) => decide (
        b.source.isLeftDeep = true ∧ b.source.depth = 0 ∧ b.source.spine.length = 3 ∧
        b.source.readAfter 0 "b" "Id" = true ∧ b.source.readAfter 0 "a" "Money" = true ∧
        b.source.readAfter 0 "b" "PersonId" = false ∧ b.source.readAfter 1 "b" "Id" = false))
    (by decide +kernel)
  cases hbody : a.query.body with
  | setOperation =>
    rw [hbody] at hcheck
    cases hcheck
  | select b =>
    rw [hbody] at hcheck
    obtain ⟨hdeep, hdepth, hlength, hid, hmoney, hperson, hlater⟩ := of_decide_eq_true hcheck
    have hst : SameBindings a.scopes (⟨a.scopes, .empty default⟩ : State).scopes := .refl _
    obtain ⟨tables, ht, hok, hchain⟩ := planSource_joinTables h a.query.self_mem_queries hbody hdeep
      ⟨[("c", ["City"])], []⟩ hst
    obtain ⟨r, st', hrun⟩ := hok (by decide) (by decide +kernel) (hdepth ▸ Nat.zero_le _)
    obtain ⟨ns, hns, htables⟩ := hchain r st' hrun
    exact ⟨a, requests, b, r, st', tables, ns, h, hbody, hlength, hid, hmoney, hperson, hlater,
      hrun, ht, hns, htables⟩

end Plan

end SchemaQuery
