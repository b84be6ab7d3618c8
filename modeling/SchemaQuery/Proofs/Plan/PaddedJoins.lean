-- SUMMARY: Outer joins and applies of a plan pad the columns of one side, all of them nullable.
import SchemaQuery.Proofs.Plan.Declared

/-!
# Padded joins

The table of a join or apply has the needed columns of its leaves, with the types
at which the block sees them in the end. Where a loop keeps rows that match
nothing, it says which of these columns are null then: those of the leaves on the
other side. The query pads the leaves of that side, so their columns are nullable.
Main statement: `ofQuery_pads`.
-/

namespace SchemaQuery

/-! ## Needed columns -/

/-- The needed columns of a source, each with its leaf, as they are seen where the given leaves are
    padded. -/
def BoundSource.neededColumns (src : BoundSource) (padded : List String)
    (needs : Plan.ColumnNeeds) : List (String × Column) :=
  src.leaves.flatMap fun l =>
    ((seenLeaf padded l).2.filter fun c => needs.needs l.1 c.name).map fun c => (l.1, c)

theorem DataType.isNullable_toNullable (t : DataType) : t.toNullable.isNullable = true := by
  cases t <;> rfl

/-- A needed column of a padded leaf is nullable. -/
theorem BoundSource.nullable_of_needed {src : BoundSource} {padded : List String}
    {needs : Plan.ColumnNeeds} {s : String × Column} (hs : s ∈ src.neededColumns padded needs)
    (hpadded : s.1 ∈ padded) : s.2.type.isNullable = true := by
  obtain ⟨l, -, hs⟩ := List.mem_flatMap.1 hs
  obtain ⟨c, hc, rfl⟩ := List.mem_map.1 hs
  have hseen := (List.mem_filter.1 hc).1
  simp only [seenLeaf] at hseen hpadded
  rw [if_pos hpadded] at hseen
  obtain ⟨c', -, rfl⟩ := List.mem_map.1 hseen
  exact c'.type.isNullable_toNullable

namespace Plan

/-- The columns that a join table keeps are the needed ones of its leaves. -/
theorem sources_of_trimmed {s : Scopes} (hs : s.Ordered) {id : Nat} {root src : BoundSource}
    (hsrc : SourceBound s id src) (hflagged : Resolve.Flagged s id root)
    (hsub : src.leafAliases ⊆ root.leafAliases) {needs : ColumnNeeds}
    {sources : List (String × Column)}
    (h : trimmedColumns s id src.leafAliases needs = .ok sources) :
    sources = src.neededColumns root.padded needs := by
  obtain ⟨tables, ht⟩ := hsrc.leafTables
  rw [trimmedColumns_of_leafTables hs ht needs] at h
  cases h
  rw [BoundSource.neededColumns, ← ht.leaves, List.flatMap_map]
  refine List.flatMap_congr fun t hmem => ?_
  rw [← hflagged.seen_part ht hsub t hmem]
  rfl

theorem JoinTable.sources_eq {E : Setting} {before : List Node} {q : BoundQuery} {b : BoundSelect}
    {src : BoundSource} {needs : ColumnNeeds} {l r : Relation} {table : String}
    {sources : List (String × Column)} (hE : E.Resolved) (hq : q ∈ E.queries)
    (hb : q.body = .select b) (hsrc : src ∈ b.source.parts)
    (hleaves : l.leaves ++ r.leaves = src.leafAliases)
    (h : JoinTable E b.scope before needs l r table sources) :
    sources = src.neededColumns b.source.padded needs :=
  sources_of_trimmed hE.ordered (PartOf.bound (hE.block hq hb) hsrc)
    (hE.seen _ (BoundQuery.mem_blocksOf hq hb)).flagged (BoundSource.leafAliases_subset hsrc)
    (hleaves ▸ h.trimmed)

/-! ## Columns of one side -/

/-- The columns of a join table that belong to some leaves, in order. -/
def leafColumns (leaves : List String) (sources : List (String × Column)) : List Column :=
  (((joinColumns sources).zip sources).filter fun p => p.2.1 ∈ leaves).map (·.1)

theorem sideColumns_eq (side : Relation) (sources : List (String × Column)) :
    sideColumns side sources = leafColumns side.leaves sources := by
  rw [sideColumns, leafColumns, ← List.filterMap_eq_filter, List.map_filterMap]
  refine List.filterMap_congr fun p _ => ?_
  by_cases h : p.2.1 ∈ side.leaves <;> simp [Relation.carries, Option.guard, h]

theorem mem_leafColumns {leaves : List String} {sources : List (String × Column)} {c : Column}
    (h : c ∈ leafColumns leaves sources) : ∃ s ∈ sources, s.1 ∈ leaves ∧ c.type = s.2.type := by
  obtain ⟨p, hp, rfl⟩ := List.mem_map.1 h
  obtain ⟨hzip, hleaf⟩ := List.mem_filter.1 hp
  have heq := zip_joinColumns sources fun s => s
  rw [List.map_id'] at heq
  rw [heq] at hzip
  obtain ⟨s, hs, rfl⟩ := List.mem_map.1 hzip
  exact ⟨s.1, List.fst_mem_of_mem_zipIdx hs, by simpa using hleaf, rfl⟩

/-! ## Loops -/

/-- The scans that a scan is made of, itself included. -/
def Scan.subscans : Scan → List Scan
  | s@(.loop _ left right _ _) => s :: (left.subscans ++ right.subscans)
  | s => [s]

def Node.subscans (n : Node) : List Scan := n.evaluates?.elim [] fun (scan, _) => scan.subscans

theorem subscans_of_not_loop {scan : Scan} (h : scan.isLoop = false) : scan.subscans = [scan] := by
  cases scan with
  | loop => cases h
  | _ => rfl

/-- The side of a pair whose rows may match nothing and are kept. -/
def LoopKind.preserved (kind : LoopKind) : JoinSide :=
  if kind = .rightOuterJoin then .right else .left

/-- The source whose columns are null in a row of the preserved side that matches nothing. -/
def Pair.other (p : Pair) : BoundSource := if p.kind = .rightOuterJoin then p.left else p.right

def LoopKind.isOuter : LoopKind → Bool
  | .leftOuterJoin | .rightOuterJoin | .outerApply => true
  | .innerJoin | .crossApply => false

section Pair

variable {E : Setting} {scope : Nat} {before : List Node} {src : BoundSource} {p : Pair}
  {needs : ColumnNeeds} {l r : Relation}

theorem Planned.scan_aliasName {outer : Option Relation}
    (h : Planned E scope before outer src needs r) : r.scan.aliasName = src.aliasName := by
  cases h <;> rfl

/-- An outer join or apply pads the leaves of the other side. -/
theorem Pair.other_padded (hp : src.pair? = some p) (hkind : p.kind.isOuter = true) :
    p.other.leafAliases ⊆ src.padded := by
  cases src with
  | join a kind left right condition =>
    cases hp
    rw [BoundSource.padded]
    refine List.subset_append_of_subset_right _ ?_
    cases kind with
    | inner => cases hkind
    | leftOuter | rightOuter => exact List.Subset.refl _
  | apply a kind left right =>
    cases hp
    rw [BoundSource.padded]
    refine List.subset_append_of_subset_right _ ?_
    cases kind with
    | cross => cases hkind
    | outer => exact List.Subset.refl _
  | _ => cases hp

/-- The padding of a pair, in the words of the query. -/
theorem paddingOf_eq (hl : l.leaves = p.left.leafAliases) (hr : r.leaves = p.right.leafAliases)
    (sources : List (String × Column)) :
    paddingOf p.kind l r sources = if p.kind.isOuter then
      some ⟨p.kind.preserved, leafColumns p.other.leafAliases sources⟩ else none := by
  cases hkind : p.kind <;>
    simp [paddingOf, LoopKind.isOuter, LoopKind.preserved, Pair.other, hkind, sideColumns_eq, hl, hr]

/-- The columns that a pair pads are nullable, since the source of its block pads their leaves. -/
theorem nullable_of_padding {root : BoundSource} (hp : src.pair? = some p)
    (hsrc : src ∈ root.parts) (hl : l.leaves = p.left.leafAliases)
    (hr : r.leaves = p.right.leafAliases) {pad : Padding}
    (hpad : pad ∈ paddingOf p.kind l r (src.neededColumns root.padded needs)) :
    ∀ c ∈ pad.nulls, c.type.isNullable = true := by
  rw [paddingOf_eq hl hr] at hpad
  split at hpad
  · rename_i hkind
    cases hpad
    intro c hc
    obtain ⟨s, hs, hleaf, htype⟩ := mem_leafColumns hc
    rw [htype]
    exact BoundSource.nullable_of_needed hs
      (BoundSource.padded_subset_of_part hsrc (Pair.other_padded hp hkind hleaf))
  · cases hpad

end Pair

/-- A loop in a node is the source of the step of a pair. -/
theorem Emitted.loop {E : Setting} {before : List Node} {n : Node} (h : Emitted E before n)
    {kind : LoopKind} {left right : Scan} {predicate : Option Term} {padding : Option Padding}
    (hloop : .loop kind left right predicate padding ∈ n.subscans) :
    ∃ q ∈ E.queries, ∃ b calls src outer needs p ro l r table sources, q.body = .select b ∧
      PartOf b.source (blockNeeds b q.orderBy calls) src outer needs ∧ src.pair? = some p ∧
      Planned E b.scope before ro p.left (p.inputs needs) l ∧
      Planned E b.scope before (p.around l ro) p.right (p.inputs needs) r ∧
      JoinTable E b.scope before needs l r table sources ∧
      n = .populate (p.step table ro l r sources) ∧
      .loop kind left right predicate padding = (p.step table ro l r sources).source := by
  -- a scan of planned rows is no loop, so only the step of a pair has one
  have hplain {scan : Scan} (hscan : scan.isLoop = false)
      (hmem : .loop kind left right predicate padding ∈ scan.subscans) : False := by
    rw [subscans_of_not_loop hscan, List.mem_singleton] at hmem
    subst hmem
    cases hscan
  cases h with
  | create | setMatch | rename => cases hloop
  | project hplanned => exact absurd hloop (hplain hplanned.planned.scan_isLoop)
  | aggregate hplanned => exact absurd hloop (hplain hplanned.planned.scan_isLoop)
  | score | copy => exact absurd hloop (hplain rfl)
  | @join q b calls src outer needs p ro l r table sources hq hb hpart hp houter hl hr htable =>
    refine ⟨q, hq, b, calls, src, outer, needs, p, ro, l, r, table, sources, hb, hpart, hp, hl, hr,
      htable, rfl, ?_⟩
    have hcases : Scan.loop kind left right predicate padding ∈
      (p.step table ro l r sources).source :: (l.scan.subscans ++ r.scan.subscans) := hloop
    rcases List.mem_cons.1 hcases with heq | hinner
    · exact heq
    · rcases List.mem_append.1 hinner with hinner | hinner
      · exact absurd hinner (hplain hl.scan_isLoop)
      · exact absurd hinner (hplain hr.scan_isLoop)

/-- In the plan of a resolved query a loop is the source of a step that fills the table of a join or
    apply. It has a padding exactly when it is an outer one. The padding preserves the right side of
    a right outer join and else the left side, its nulls are the declared columns of the table that
    belong to leaves of the other side, and all of them are nullable. -/
theorem ofQuery_pads {env : Resolve.Env} {q : Query} {a : Resolve.Analysis}
    {requests : List TableRequest} (ha : Resolve.analyze env q = (.ok a, requests))
    {config : PlanConfig} {plan : Plan} {scopes : Scopes}
    (h : ofQuery config a.scopes a.query = .ok (plan, scopes)) {n : Node} (hn : n ∈ plan.nodes)
    {kind : LoopKind} {left right : Scan} {predicate : Option Term} {padding : Option Padding}
    (hloop : .loop kind left right predicate padding ∈ n.subscans) :
    ∃ step, n = .populate step ∧ step.source = .loop kind left right predicate padding ∧
      ∃ b ∈ BoundQuery.blocksOf a.query.queries, ∃ src ∈ b.source.parts, ∃ p needs sources,
        src.pair? = some p ∧ p.kind = kind ∧
        p.left.aliasName = left.aliasName ∧ p.right.aliasName = right.aliasName ∧
        p.left.leafAliases.Disjoint p.right.leafAliases ∧
        sources = src.neededColumns b.source.padded needs ∧
        plan.columnsOf? step.target = some (joinColumns sources) ∧
        (padding.isSome ↔ kind = .leftOuterJoin ∨ kind = .rightOuterJoin ∨ kind = .outerApply) ∧
        ∀ pad ∈ padding, pad.preserved = (if kind = .rightOuterJoin then .right else .left) ∧
          pad.nulls = leafColumns
            (if kind = .rightOuterJoin then p.left else p.right).leafAliases sources ∧
          ∀ c ∈ pad.nulls, c.type.isNullable = true := by
  obtain ⟨hsound, -⟩ := ofQuery_sound ha h
  have hE := resolved_of_analyze ha config
  obtain ⟨before, after, hnodes⟩ := List.append_of_mem hn
  have hle : before ⊆ plan.nodes := hnodes ▸ List.subset_append_left _ _
  obtain ⟨q, hq, b, calls, src, outer, needs, p, ro, l, r, table, sources, hb, hpart, hp, hl, hr,
    htable, rfl, hself⟩ := (hsound before n after hnodes).loop hloop
  cases hself
  have hsrc := hpart.mem_parts
  have hsources : sources = src.neededColumns b.source.padded needs := by
    refine htable.sources_eq hE hq hb hsrc ?_
    rw [leafAliases_pair hp, hl.leaves, hr.leaves]
  have hdisjoint := hpart.disjoint_sides (hE.nodup_leafAliases hq hb) hp
  refine ⟨_, rfl, rfl, _, BoundQuery.mem_blocksOf hq hb, src, hsrc, p, needs, sources, hp, rfl,
    hl.scan_aliasName.symm, hr.scan_aliasName.symm, hdisjoint, hsources,
    columnsOf?_of_create hsound (hle htable.declared), ?_, fun pad hpad => ?_⟩
  · rw [paddingOf_eq hl.leaves hr.leaves]
    cases p.kind <;> simp [LoopKind.isOuter]
  · refine ⟨?_, ?_, nullable_of_padding hp hsrc hl.leaves hr.leaves (hsources ▸ hpad)⟩ <;>
    · rw [paddingOf_eq hl.leaves hr.leaves] at hpad
      split at hpad <;> cases hpad
      rfl

/-- The padding of a loop, with its kind. -/
def Scan.padding? : Scan → Option (LoopKind × Padding)
  | .loop kind _ _ _ padding => padding.map fun pad => (kind, pad)
  | _ => none

/-- Stands for `select a.Name, b.Amount, c.City from #A.entities() a left outer join #B.orders() b
    on a.Id = b.PersonId right outer join #A.entities() c on b.Amount = c.Money` -/
def keptCities : Query :=
  .ofSelect ((((Select.empty.addExpr (.ofColumn "a" "Name")).addExpr
    (.ofColumn "b" "Amount")).addExpr (.ofColumn "c" "City")).withSource
      (.join .rightOuter (.join .leftOuter (Sample.entitiesAs "a") (Sample.ordersAs "b")
        (.equals (.ofColumn "a" "Id") (.ofColumn "b" "PersonId"))) (Sample.entitiesAs "c")
          (.equals (.ofColumn "b" "Amount") (.ofColumn "c" "Money"))))

/-- The right outer join pads what the join before it has preserved, too. -/
theorem ofQuery_pads_keptCities :
    ∃ analysis requests plan scopes,
      Resolve.analyze ⟨Sample.catalog, default⟩ keptCities = (.ok analysis, requests) ∧
      ofQuery default analysis.scopes analysis.query = .ok (plan, scopes) ∧
      ∃ n ∈ plan.nodes, ∃ left right predicate pad,
        .loop .rightOuterJoin left right predicate (some pad) ∈ n.subscans ∧
        pad.preserved = .right ∧ pad.nulls.map (·.name) = ["a.Name", "b.Amount"] ∧
        ∀ c ∈ pad.nulls, c.type.isNullable = true := by
  obtain ⟨analysis, requests, plan, scopes, h, hplan, hcheck⟩ := exists_plan_of_check
    ⟨Sample.catalog, default⟩ default keptCities (fun _ plan =>
      plan.nodes.any fun n => n.subscans.any fun scan =>
        scan.padding?.any fun (loop : LoopKind × Padding) => decide (loop.1 = .rightOuterJoin) &&
          decide (loop.2.nulls.map (fun (c : Column) => c.name) = ["a.Name", "b.Amount"]))
    (by decide +kernel)
  obtain ⟨n, hn, hcheck⟩ := List.any_eq_true.1 hcheck
  obtain ⟨scan, hscan, hcheck⟩ := List.any_eq_true.1 hcheck
  cases scan with
  | loop kind left right predicate padding =>
    cases padding with
    | none => cases hcheck
    | some pad =>
      simp only [Scan.padding?, Option.map_some, Option.any_some, Bool.and_eq_true,
        decide_eq_true_eq] at hcheck
      obtain ⟨rfl, hnames⟩ := hcheck
      obtain ⟨_, _, _, _, _, _, _, _, _, _, -, -, -, -, -, -, -, -, hpad⟩ :=
        ofQuery_pads h hplan hn hscan
      obtain ⟨hpreserved, -, hnullable⟩ := hpad pad rfl
      exact ⟨analysis, requests, plan, scopes, h, hplan, n, hn, left, right, predicate, pad, hscan,
        hpreserved, hnames, hnullable⟩
  | _ => cases hcheck

end Plan

end SchemaQuery
