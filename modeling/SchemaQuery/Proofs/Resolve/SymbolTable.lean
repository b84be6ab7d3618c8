-- SUMMARY: What the final scope of a block says of its source, and where the columns of its terms are found.
import Mathlib.Data.List.Nodup
import SchemaQuery.Proofs.Resolve.Nullability
import SchemaQuery.Sample.Catalog
import SchemaQuery.Sample.Query

/-!
# Symbols of sources

The scope of a block describes the tree of its source. A leaf is bound to a plain
table and a join or apply to a compound over its leaves. Joins and applies mark the
leaves on the sides that they do not preserve, and nothing else marks a table
(`analyze_describesSource`). The columns that the terms of a block read are found in
these symbols (`analyze_findsColumns`).
-/

namespace SchemaQuery

namespace BoundSource

/-! ## Sides -/

/-- The side of an outer join or apply whose rows may be missing. -/
def unpreserved? : BoundSource → Option BoundSource
  | .join _ .leftOuter _ right _ => some right
  | .join _ .rightOuter left _ _ => some left
  | .apply _ .outer _ right => some right
  | _ => none

/-- The part lies on the side of a join or apply of the source that is not preserved. -/
def Unpreserved (root p : BoundSource) : Prop :=
  ∃ node ∈ root.parts, ∃ side, node.unpreserved? = some side ∧ p ∈ side.parts

/-- No apply of the source has the part on its right side. -/
def Unapplied (root p : BoundSource) : Prop :=
  ∀ a kind left right, .apply a kind left right ∈ root.parts → p ∉ right.parts

/-- The part is applied to `outer`: that is the left side of the nearest apply around the part that
    has it on the right. -/
def AppliedTo (root p outer : BoundSource) : Prop :=
  ∃ a kind right, .apply a kind outer right ∈ root.parts ∧ p ∈ right.parts ∧ right.Unapplied p

variable {root src left right p outer : BoundSource}

theorem leafAliases_of_isLeaf (h : p.isLeaf = true) : p.leafAliases = [p.aliasName] := by
  rw [← p.map_leaves, leaves_of_isLeaf h]
  rfl

theorem columns_of_not_isLeaf (h : p.isLeaf = false) : p.columns = [] := by
  cases p with
  | join | apply => rfl
  | _ => cases h

theorem unpreserved?_parts {side : BoundSource} (h : src.unpreserved? = some side) :
    side.parts ⊆ src.parts := by
  cases src with
  | join a kind left right condition =>
    cases kind <;> cases h
    · exact fun p hp => by simp [parts, hp]
    · exact fun p hp => by simp [parts, hp]
  | apply a kind left right =>
    cases kind <;> cases h
    exact fun p hp => by simp [parts, hp]
  | _ => cases h

/-- What a join or apply pads itself is the side that it does not preserve. -/
theorem mem_padded {a : String} : a ∈ root.padded ↔
    ∃ node ∈ root.parts, ∃ side, node.unpreserved? = some side ∧ a ∈ side.leafAliases := by
  have hnode {src left right : BoundSource} {own : List String}
      (hparts : src.parts = src :: (left.parts ++ right.parts))
      (hpadded : src.padded = left.padded ++ right.padded ++ own)
      (hown : a ∈ own ↔ ∃ side, src.unpreserved? = some side ∧ a ∈ side.leafAliases)
      (ihl : a ∈ left.padded ↔ ∃ node ∈ left.parts, ∃ side, node.unpreserved? = some side ∧
        a ∈ side.leafAliases)
      (ihr : a ∈ right.padded ↔ ∃ node ∈ right.parts, ∃ side, node.unpreserved? = some side ∧
        a ∈ side.leafAliases) :
      a ∈ src.padded ↔ ∃ node ∈ src.parts, ∃ side, node.unpreserved? = some side ∧
        a ∈ side.leafAliases := by
    simp only [hparts, hpadded, List.mem_append, List.exists_mem_cons_iff, ← hown, ihl, ihr,
      or_and_right, exists_or]
    exact or_comm
  induction root using treeInduction with
  | join _ kind left right condition ihl ihr =>
    refine hnode rfl rfl ?_ ihl ihr
    cases kind <;> simp [JoinKind.padded, unpreserved?]
  | apply _ kind left right ihl ihr =>
    refine hnode rfl rfl ?_ ihl ihr
    cases kind <;> simp [ApplyKind.padded, unpreserved?]
  | _ => simp [padded, parts, unpreserved?]

/-- A leaf is padded when it lies on a side that is not preserved. -/
theorem mem_padded_iff_unpreserved (hdistinct : (root.parts.map (·.aliasName)).Nodup)
    (hp : p ∈ root.parts) (hleaf : p.isLeaf = true) :
    p.aliasName ∈ root.padded ↔ root.Unpreserved p := by
  rw [mem_padded]
  refine exists_congr fun node => and_congr_right fun hnode => exists_congr fun side =>
    and_congr_right fun hside => ⟨fun hmem => ?_, fun hmem => ?_⟩
  · obtain ⟨p', hp', -, halias⟩ := exists_leaf_part hmem
    have hroot : p' ∈ root.parts := parts_subset hnode (unpreserved?_parts hside hp')
    obtain rfl := List.inj_on_of_nodup_map hdistinct hroot hp halias
    exact hp'
  · exact leafAliases_subset hmem (by simp [leafAliases_of_isLeaf hleaf])

/-! ## Terms in a source -/

variable {around : List (String × List Column)}

/-- A join condition sees the leaves of its join, wherever the join stands. -/
theorem Sees.join_part (h : root.Sees around) {a : String} {kind : JoinKind}
    {left right : BoundSource} {condition : Term}
    (hmem : .join a kind left right condition ∈ root.parts) :
    ∀ u ∈ condition.subterms, u.SeesIn (join a kind left right condition).seen := by
  induction root using treeInduction generalizing around with
  | schema | inMemory | subquery => cases List.mem_singleton.1 hmem
  | join a' kind' left' right' condition' ihl ihr =>
    obtain ⟨hleft, hright, hcondition⟩ := h
    simp only [parts, List.mem_cons, List.mem_append] at hmem
    rcases hmem with heq | hmem | hmem
    · cases heq
      exact hcondition
    · exact ihl hleft hmem
    · exact ihr hright hmem
  | apply a' kind' left' right' ihl ihr =>
    obtain ⟨hleft, hright⟩ := h
    simp only [parts, List.mem_cons, List.mem_append] at hmem
    rcases hmem with heq | hmem | hmem
    · cases heq
    · exact ihl hleft hmem
    · exact ihr hright hmem

theorem AppliedTo.of_part (h : src.AppliedTo p outer) (hsub : src.parts ⊆ root.parts) :
    root.AppliedTo p outer := by
  obtain ⟨a, kind, right, hnode, hp, hinner⟩ := h
  exact ⟨a, kind, right, hsub hnode, hp, hinner⟩

theorem unapplied_of_notMem (h : p ∉ src.parts) : src.Unapplied p :=
  fun _ _ _ _ hmem hp => h (parts_subset hmem (by simp [parts, hp]))

theorem Unapplied.join (hl : left.Unapplied p) (hr : right.Unapplied p) (a : String)
    (kind : JoinKind) (condition : Term) : (join a kind left right condition).Unapplied p := by
  intro a' kind' left' right' hmem
  simp only [parts, List.mem_cons, reduceCtorEq, false_or, List.mem_append] at hmem
  rcases hmem with hmem | hmem
  · exact hl _ _ _ _ hmem
  · exact hr _ _ _ _ hmem

theorem Unapplied.apply (hl : left.Unapplied p) (hr : p ∉ right.parts) (a : String)
    (kind : ApplyKind) : (apply a kind left right).Unapplied p := by
  intro a' kind' left' right' hmem
  simp only [parts, List.mem_cons, List.mem_append] at hmem
  rcases hmem with heq | hmem | hmem
  · cases heq
    exact hr
  · exact hl _ _ _ _ hmem
  · exact unapplied_of_notMem hr _ _ _ _ hmem

/-- Two sides with distinct aliases have no part in common. -/
theorem sides_of_nodup {k : String}
    (h : (k :: (left.parts ++ right.parts).map (·.aliasName)).Nodup) :
    (left.parts.map (·.aliasName)).Nodup ∧ (right.parts.map (·.aliasName)).Nodup ∧
      ∀ p ∈ left.parts, p ∉ right.parts := by
  rw [List.map_append] at h
  obtain ⟨hl, hr, hdisjoint⟩ := List.nodup_append.1 (List.nodup_cons.1 h).2
  exact ⟨hl, hr, fun p hpl hpr =>
    hdisjoint _ (List.mem_map_of_mem hpl) _ (List.mem_map_of_mem hpr) rfl⟩

/-- An argument of a schema table sees the source that the table is applied to. A table that is
    applied to nothing in the source sees what is around the source. -/
theorem Sees.argument {a schema method : String} {args : List Term} {columns : List Column}
    {type : DataType} (hp : p = .schema a schema method args columns type) (h : root.Sees around)
    (hdistinct : (root.parts.map (·.aliasName)).Nodup) (hmem : p ∈ root.parts) {t u : Term}
    (ht : t ∈ args) (hu : u ∈ t.subterms) :
    root.Unapplied p ∧ u.SeesIn around ∨ ∃ outer, root.AppliedTo p outer ∧ u.SeesIn outer.seen := by
  induction root using treeInduction generalizing around with
  | schema =>
    obtain rfl := List.mem_singleton.1 hmem
    cases hp
    refine .inl ⟨fun _ _ _ _ happly => ?_, h t ht u hu⟩
    cases List.mem_singleton.1 happly
  | inMemory | subquery =>
    obtain rfl := List.mem_singleton.1 hmem
    cases hp
  | join a' kind left right condition ihl ihr =>
    obtain ⟨hleft, hright, -⟩ := h
    obtain ⟨hdl, hdr, hdisjoint⟩ := sides_of_nodup hdistinct
    simp only [parts, List.mem_cons, hp, reduceCtorEq, false_or, List.mem_append] at hmem
    rw [← hp] at hmem
    rcases hmem with hmem | hmem
    · rcases ihl hleft hdl hmem with ⟨hnone, hsees⟩ | ⟨outer, hto, hsees⟩
      · exact .inl ⟨hnone.join (unapplied_of_notMem (hdisjoint p hmem)) _ _ _, hsees⟩
      · exact .inr ⟨outer, hto.of_part fun _ h => by simp [parts, h], hsees⟩
    · rcases ihr hright hdr hmem with ⟨hnone, hsees⟩ | ⟨outer, hto, hsees⟩
      · exact .inl ⟨(unapplied_of_notMem fun h => hdisjoint p h hmem).join hnone _ _ _, hsees⟩
      · exact .inr ⟨outer, hto.of_part fun _ h => by simp [parts, h], hsees⟩
  | apply a' kind left right ihl ihr =>
    obtain ⟨hleft, hright⟩ := h
    obtain ⟨hdl, hdr, hdisjoint⟩ := sides_of_nodup hdistinct
    simp only [parts, List.mem_cons, hp, reduceCtorEq, false_or, List.mem_append] at hmem
    rw [← hp] at hmem
    rcases hmem with hmem | hmem
    · rcases ihl hleft hdl hmem with ⟨hnone, hsees⟩ | ⟨outer, hto, hsees⟩
      · exact .inl ⟨hnone.apply (hdisjoint p hmem) _ _, hsees⟩
      · exact .inr ⟨outer, hto.of_part fun _ h => by simp [parts, h], hsees⟩
    · rcases ihr hright hdr hmem with ⟨hnone, hsees⟩ | ⟨outer, hto, hsees⟩
      -- no apply on the right side is nearer, so the part is applied to the left side
      · exact .inr ⟨left, ⟨a', kind, right, self_mem_parts _, hmem, hnone⟩, hsees⟩
      · exact .inr ⟨outer, hto.of_part fun _ h => by simp [parts, h], hsees⟩

end BoundSource

theorem Term.SeesIn.mem_leafAliases {src : BoundSource} {a n : String} {o : Nat} {q : Bool}
    {type : DataType} (h : (Term.column a n o q type).SeesIn src.seen) : a ∈ src.leafAliases := by
  obtain ⟨cs, hcs, -⟩ := h
  rw [BoundSource.seen, List.mem_map] at hcs
  obtain ⟨l, hl, heq⟩ := hcs
  cases heq
  rw [← src.map_leaves]
  exact List.mem_map_of_mem hl

namespace Resolve

/-! ## Symbols of a block -/

/-- The scope of a block describes the source of the block. -/
structure DescribesSource (s : Scopes) (b : Block) : Prop where
  /-- A leaf is a plain table, and it is marked when it may be missing. -/
  leaf : ∀ p ∈ b.source.parts, p.isLeaf = true →
    ∃ t, s.findIn? p.aliasName b.scope = some (.table t) ∧ t.isCompound = false ∧
      t.columns = p.columns ∧ t.compoundTables = [p.aliasName] ∧
      (t.nullable = true ↔ b.source.Unpreserved p)
  /-- A join or apply is a compound of its leaves, which are plain tables of the same scope. -/
  node : ∀ p ∈ b.source.parts, p.isLeaf = false →
    ∃ t, s.findIn? p.aliasName b.scope = some (.table t) ∧ t.isCompound = true ∧
      t.columns = [] ∧ t.compoundTables = p.leafAliases ∧
      ∀ l ∈ p.leafAliases, ∃ u, s.resolve .table l b.scope = .ok u ∧
        s.findIn? l b.scope = some (.table u) ∧ u.isCompound = false

/-- The columns that the terms of a block read are those of tables in reach. -/
structure FindsColumns (s : Scopes) (b : Block) : Prop where
  /-- The clauses read the columns of all leaves, as they are visible at the end. -/
  clauses : ∀ t ∈ b.filter.toList ++ b.groupBy ++ b.outputs, ∀ x n o qualify type,
    .column x n o qualify type ∈ t.subterms → x ∈ b.source.leafAliases ∧
      ∃ table, s.findIn? x b.scope = some (.table table) ∧ ⟨n, o, type⟩ ∈ table.visibleColumns
  /-- A join condition reads the leaves of its join. -/
  conditions : ∀ y kind left right condition,
    .join y kind left right condition ∈ b.source.parts → ∀ x n o qualify type,
    .column x n o qualify type ∈ condition.subterms → x ∈ left.leafAliases ++ right.leafAliases
  /-- An argument of a table reads the leaves of the source that the table is applied to. -/
  arguments : ∀ y schema method args columns rowType,
    .schema y schema method args columns rowType ∈ b.source.parts → ∀ t ∈ args,
    ∀ x n o qualify type, .column x n o qualify type ∈ t.subterms →
      ∃ outer, b.source.AppliedTo (.schema y schema method args columns rowType) outer ∧
        x ∈ outer.leafAliases

variable {env : Env} {q : Query} {a : Analysis} {requests : List TableRequest}

theorem analyze_describesSource (h : analyze env q = (.ok a, requests)) :
    ∀ b ∈ BoundQuery.blocksOf a.query.queries, DescribesSource a.scopes b := by
  obtain ⟨hordered, hsealed, -⟩ := analyze_sealed (fun _ => trivial) (fun _ _ => trivial) h
  intro b hb
  obtain ⟨-, -, hbound⟩ := hsealed.blocks b hb
  refine ⟨fun p hp hleaf => ?_, fun p hp hnode => ?_⟩
  · obtain ⟨t, hfind, ht⟩ := hbound.source p hp
    have hown := BoundSource.leafAliases_of_isLeaf hleaf
    obtain ⟨t', hfind', hnull⟩ := (analyze_seen h b hb).flagged p.aliasName
      (BoundSource.leafAliases_subset hp (by simp [hown]))
    obtain rfl : t = t' := by simpa [hfind] using hfind'
    refine ⟨t, hfind, by simp [ht.isCompound, hleaf], ht.columns, ht.compoundTables.trans hown, ?_⟩
    rw [hnull, decide_eq_true_eq, BoundSource.mem_padded_iff_unpreserved hbound.distinct hp hleaf]
  · obtain ⟨t, hfind, ht⟩ := hbound.source p hp
    refine ⟨t, hfind, by simp [ht.isCompound, hnode],
      ht.columns.trans (BoundSource.columns_of_not_isLeaf hnode), ht.compoundTables, fun l hl => ?_⟩
    obtain ⟨p', hp', hleaf, rfl⟩ := BoundSource.exists_leaf_part hl
    obtain ⟨u, hu, hdescribes⟩ := hbound.source p' (BoundSource.parts_subset hp hp')
    exact ⟨u, Scopes.resolve_table_of_findIn? hordered hu, hu,
      by simp [hdescribes.isCompound, hleaf]⟩

/-- Stands for `select a.Name, i.Label from #A.entities() a right outer join #B.orders() b
    on a.Id = b.PersonId outer apply #A.items(b.Id) i where a.City = i.Label
    order by b.Amount` -/
def orderedItems : Query :=
  (Query.ofSelect ((((Select.empty.addExpr (.ofColumn "a" "Name")).addExpr
    (.ofColumn "i" "Label")).withSource
      (.apply .outer
        (.join .rightOuter (Sample.entitiesAs "a") (Sample.ordersAs "b")
          (.equals (.ofColumn "a" "Id") (.ofColumn "b" "PersonId")))
        ((Source.ofSchema "A" "items" [.ofColumn "b" "Id"]).withAlias "i"))).withFilter
      (.equals (.ofColumn "a" "City") (.ofColumn "i" "Label")))).withOrder
    [⟨.ofColumn "b" "Amount", .asc⟩]

/-- Of the three leaves the join and the apply leave only `b` as it is. -/
theorem analyze_describesSource_orderedItems : ∃ analysis requests,
    analyze ⟨Sample.catalog, default⟩ orderedItems = (.ok analysis, requests) ∧
    (BoundQuery.blocksOf analysis.query.queries).map (fun b => (b.source.parts.map (·.aliasName),
      b.source.padded)) = [(["a+b+i", "a+b", "a", "b", "i"], ["a", "i"])] ∧
    ∀ b ∈ BoundQuery.blocksOf analysis.query.queries, DescribesSource analysis.scopes b := by
  obtain ⟨analysis, requests, h, hcheck⟩ := exists_ok_of_check
    (analyze ⟨Sample.catalog, default⟩ orderedItems) (fun a => decide
      ((BoundQuery.blocksOf a.query.queries).map (fun b => (b.source.parts.map (·.aliasName),
        b.source.padded)) = [(["a+b+i", "a+b", "a", "b", "i"], ["a", "i"])]))
    (by decide +kernel)
  exact ⟨analysis, requests, h, of_decide_eq_true hcheck, analyze_describesSource h⟩

theorem analyze_findsColumns (h : analyze env q = (.ok a, requests)) :
    ∀ b ∈ BoundQuery.blocksOf a.query.queries, FindsColumns a.scopes b := by
  obtain ⟨-, hsealed, -⟩ := analyze_sealed (fun _ => trivial) (fun _ _ => trivial) h
  intro b hb
  obtain ⟨-, -, hbound⟩ := hsealed.blocks b hb
  have hseen := analyze_seen h b hb
  constructor
  case clauses =>
    intro t ht x n o qualify type hcolumn
    have hsees := hseen.clauses t ht _ hcolumn
    refine ⟨hsees.mem_leafAliases, ?_⟩
    -- the tables of the leaves show the columns as the term has seen them
    obtain ⟨tables, htables⟩ := hbound.source.leafTables
    rw [← hseen.flagged.seen htables] at hsees
    obtain ⟨cs, hcs, hmem⟩ := hsees
    obtain ⟨table, htable, heq⟩ := List.mem_map.1 hcs
    cases heq
    exact ⟨table, htables.bound table htable, hmem⟩
  case conditions =>
    intro y kind left right condition hjoin x n o qualify type hcolumn
    exact (hseen.source.join_part hjoin _ hcolumn).mem_leafAliases
  case arguments =>
    intro y schema method args columns rowType hschema t ht x n o qualify type hcolumn
    rcases hseen.source.argument rfl hbound.distinct hschema ht hcolumn with
      ⟨-, cs, hcs, -⟩ | ⟨outer, hto, hsees⟩
    · cases hcs
    · exact ⟨outer, hto, hsees.mem_leafAliases⟩

/-- The filter, the fields, the order, a join condition and an argument all read columns. -/
theorem analyze_findsColumns_orderedItems : ∃ analysis requests,
    analyze ⟨Sample.catalog, default⟩ orderedItems = (.ok analysis, requests) ∧
    (BoundQuery.blocksOf analysis.query.queries).map (fun b =>
      (b.source.clauses.flatMap Term.reads, (b.filter.toList ++ b.outputs).flatMap Term.reads)) =
      [([("a", "Id"), ("b", "PersonId"), ("b", "Id")],
        [("a", "City"), ("i", "Label"), ("a", "Name"), ("i", "Label"), ("b", "Amount")])] ∧
    ∀ b ∈ BoundQuery.blocksOf analysis.query.queries, FindsColumns analysis.scopes b := by
  obtain ⟨analysis, requests, h, hcheck⟩ := exists_ok_of_check
    (analyze ⟨Sample.catalog, default⟩ orderedItems) (fun a => decide
      ((BoundQuery.blocksOf a.query.queries).map (fun b =>
        (b.source.clauses.flatMap Term.reads, (b.filter.toList ++ b.outputs).flatMap Term.reads)) =
        [([("a", "Id"), ("b", "PersonId"), ("b", "Id")],
          [("a", "City"), ("i", "Label"), ("a", "Name"), ("i", "Label"), ("b", "Amount")])]))
    (by decide +kernel)
  exact ⟨analysis, requests, h, of_decide_eq_true hcheck, analyze_findsColumns h⟩

end Resolve

end SchemaQuery
