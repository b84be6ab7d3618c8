-- SUMMARY: When a read by name has the type of the column: exactly unless the column is padded later, lent or shared.
import SchemaQuery.Proofs.Plan.PaddedJoins
import SchemaQuery.Proofs.Plan.ReadNames

/-!
# Types of reads

A step that reads a column of a table by name says at which type. The table of a
join is declared with the types at which the block sees its columns in the end,
while a join condition or an argument of a table was bound earlier, when a join
around it had not padded its side yet. `TypeClash` lists this and the two other
ways in which a read can miss the type of its column: updates that a block takes
from a block around it, and aggregates that share an accumulator though their
types differ. Main statement: `ofQuery_typed_iff`.
-/

namespace SchemaQuery

/-! ## Seen columns and needed columns -/

theorem DataType.toNullable_of_isNullable {type : DataType} (h : type.isNullable = true) :
    type.toNullable = type := by
  cases type <;> first | rfl | cases h

namespace BoundSource

/-- The names and types that the needed columns of a source get in the table of a pair, where the
    given leaves are padded. -/
def neededTypes (src : BoundSource) (padded : List String) (needs : Plan.ColumnNeeds) :
    List (String × DataType) :=
  (src.neededColumns padded needs).map fun s => (Plan.qualifiedName s.1 s.2.name, s.2.type)

variable {root part src : BoundSource} {needs : Plan.ColumnNeeds} {padded : List String}

theorem mem_neededColumns {a : String} {c : Column} : (a, c) ∈ src.neededColumns padded needs ↔
    ∃ cs, (a, cs) ∈ src.leaves ∧ c ∈ (seenLeaf padded (a, cs)).2 ∧
      needs.needs a c.name = true := by
  simp only [neededColumns, List.mem_flatMap, List.mem_map, List.mem_filter, Prod.exists,
    Prod.mk.injEq]
  constructor
  · rintro ⟨a, cs, hleaf, c, ⟨hc, hneeds⟩, rfl, rfl⟩
    exact ⟨cs, hleaf, hc, hneeds⟩
  · rintro ⟨cs, hleaf, hc, hneeds⟩
    exact ⟨a, cs, hleaf, c, ⟨hc, hneeds⟩, rfl, rfl⟩

theorem neededColumns_mono {needs' : Plan.ColumnNeeds} (hle : needs.Le needs') :
    src.neededColumns padded needs ⊆ src.neededColumns padded needs' := by
  rintro ⟨a, c⟩ hs
  obtain ⟨cs, hleaf, hc, hneeds⟩ := mem_neededColumns.1 hs
  exact mem_neededColumns.2 ⟨cs, hleaf, hc, hle.columns _ _ hneeds⟩

theorem neededColumns_pair {p : Plan.Pair} (hp : src.pair? = some p) :
    src.neededColumns padded needs =
      p.left.neededColumns padded needs ++ p.right.neededColumns padded needs := by
  rw [neededColumns, Plan.leaves_pair hp, List.flatMap_append]
  rfl

theorem mem_leafAliases_of_needed {s : String × Column} (h : s ∈ src.neededColumns padded needs) :
    s.1 ∈ src.leafAliases := by
  obtain ⟨cs, hleaf, -⟩ := mem_neededColumns.1 h
  exact src.map_leaves ▸ List.mem_map_of_mem hleaf

/-- A needed column that was seen over a part of a source has the type at which it was seen, unless
    it was not nullable there and the source pads it around the part. -/
theorem neededTypes_of_sees (hnodup : root.leafAliases.Nodup) (hpart : part ∈ root.parts)
    (hsrc : src ∈ root.parts) {a n : String} {o : Nat} {qualify : Bool} {type : DataType}
    (hsees : (Term.column a n o qualify type).SeesIn part.seen) (ha : a ∈ src.leafAliases)
    (hneeds : needs.needs a n = true) :
    (Plan.qualifiedName a n, type) ∈ src.neededTypes root.padded needs ∨
      a ∈ root.padded ∧ a ∉ part.padded ∧ type.isNullable = false := by
  obtain ⟨cs, hseen, hc⟩ := hsees
  obtain ⟨⟨a', cs₀⟩, hleaf, heq⟩ := List.mem_map.1 hseen
  obtain ⟨rfl, rfl⟩ := Prod.mk.inj heq
  -- the leaf is one of the other part, too
  have hleaf' : (a', cs₀) ∈ src.leaves := by
    obtain ⟨⟨a, cs₁⟩, hmem, rfl⟩ := List.mem_map.1 (src.map_leaves.symm ▸ ha)
    rw [← root.map_leaves] at hnodup
    rwa [List.inj_on_of_nodup_map hnodup (leaves_subset hpart hleaf) (leaves_subset hsrc hmem) rfl]
  have hneeded {c : Column} (hmem : c ∈ (seenLeaf root.padded (a', cs₀)).2) (hname : c.name = n) :
      (Plan.qualifiedName a' n, c.type) ∈ src.neededTypes root.padded needs :=
    List.mem_map.2 ⟨(a', c), mem_neededColumns.2 ⟨cs₀, hleaf', hmem, hname ▸ hneeds⟩, by rw [hname]⟩
  by_cases hroot : a' ∈ root.padded
  · by_cases hinner : a' ∈ part.padded
    · refine .inl (@hneeded ⟨n, o, type⟩ ?_ rfl)
      simpa [seenLeaf, hroot, hinner] using hc
    · have hc₀ : ⟨n, o, type⟩ ∈ cs₀ := by simpa [hinner] using hc
      have hmem : Column.toNullable ⟨n, o, type⟩ ∈ (seenLeaf root.padded (a', cs₀)).2 := by
        simpa [seenLeaf, hroot] using List.mem_map_of_mem hc₀
      cases hnull : type.isNullable with
      | false => exact .inr ⟨hroot, hinner, rfl⟩
      | true =>
        refine .inl ?_
        rw [← DataType.toNullable_of_isNullable hnull]
        exact hneeded hmem rfl
  · have hinner : a' ∉ part.padded := fun h => hroot (padded_subset_of_part hpart h)
    refine .inl (@hneeded ⟨n, o, type⟩ ?_ rfl)
    simpa [seenLeaf, hroot, hinner] using hc

end BoundSource

namespace Plan

/-! ## Tables of parts -/

/-- The table is declared for a part of the source of a block, which is planned for some needs. -/
structure PartTable (E : Setting) (ns : List Node) (q : BoundQuery) (b : BoundSelect)
    (calls : List RefreshCall) (src : BoundSource) (needs : ColumnNeeds) (table : String) :
    Prop where
  mem : q ∈ E.queries
  body : q.body = .select b
  registered : refreshCalls E.scopes b = .ok calls
  part : ∃ outer, PartOf b.source (blockNeeds b q.orderBy calls) src outer needs
  declared : .create table (joinColumns (src.neededColumns b.source.padded needs)) false ∈ ns

/-- Some declared column of the table has the name and the type. -/
def HasTyped (plan : Plan) (table name : String) (type : DataType) : Prop :=
  ∃ columns, plan.columnsOf? table = some columns ∧ ∃ c ∈ columns, c.name = name ∧ c.type = type

/-- The part of a query that the table is declared for has no column of the name and type for a
    read of it. -/
inductive TypeClash (E : Setting) (ns : List Node) (table name : String) (type : DataType) :
    Prop where
  /-- A join condition or an argument in the source reads a column as not nullable, which a join
      around it pads. -/
  | padded {q : BoundQuery} {b : BoundSelect} {calls : List RefreshCall} {src : BoundSource}
      {needs : ColumnNeeds} {t : Term} {a n : String} {o : Nat} {qualify : Bool}
      (htable : PartTable E ns q b calls src needs table) (ht : t ∈ b.source.clauses)
      (hread : .column a n o qualify type ∈ t.subterms) (hname : qualifiedName a n = name)
      (hpadded : a ∈ b.source.padded) (hplain : type.isNullable = false)
      (hmissing : (name, type) ∉ src.neededTypes b.source.padded needs)
  /-- An update that a block around it lends reads a column that the source of the block does not
      have at that type. -/
  | lent {q : BoundQuery} {b : BoundSelect} {calls : List RefreshCall} {e : Block}
      {c : RefreshCall} {t : Term} {a n : String} {o : Nat} {qualify : Bool}
      (htable : PartTable E ns q b calls b.source (blockNeeds b q.orderBy calls) table)
      (hnone : (b.block q.orderBy).aggregates = []) (he : e ∈ BoundQuery.blocksOf E.queries)
      (hlends : e.Lends E.scopes (b.block q.orderBy)) (hc : c ∈ calls) (ht : t ∈ c.args)
      (hread : .column a n o qualify type ∈ t.subterms) (hname : qualifiedName a n = name)
      (hmissing : (name, type) ∉
        b.source.neededTypes b.source.padded (blockNeeds b q.orderBy calls))
  /-- An aggregate shares its accumulator with one of another type, and no key is written like it
      and has its type. -/
  | shared {q : BoundQuery} {b : BoundSelect} {t : Term} {m : AggregateRef} {args : List Term}
      {first : Accumulator} {type' : DataType} (hq : q ∈ E.queries) (hb : q.body = .select b)
      (htable : .create table (groupTable q b) true ∈ ns) (ht : t ∈ groupOutputs b q.orderBy)
      (hread : .aggregate m args type ∈ t.subterms) (hname : m.accumulator = name)
      (hfirst : (first, type') ∈ distinctAggregates (groupOutputs b q.orderBy))
      (hshared : first.method.accumulator = name) (hne : type' ≠ type)
      (hkeys : (name, type) ∉ (groupKeys b).map fun k => (k.render, k.type))

/-! ## Types of declared columns -/

theorem joinColumns_entries (sources : List (String × Column)) :
    (joinColumns sources).map (fun c => (c.name, c.type)) =
      sources.map fun s => (qualifiedName s.1 s.2.name, s.2.type) :=
  number_entries _

theorem groupTable_entries (q : BoundQuery) (b : BoundSelect) :
    (groupTable q b).map (fun c => (c.name, c.type)) =
      (groupKeys b).map (fun k => (k.render, k.type)) ++
        (distinctAggregates (groupOutputs b q.orderBy)).map fun p =>
          (p.1.method.accumulator, p.2) :=
  number_entries _

section Clash

variable {E : Setting} {plan : Plan} {q : BoundQuery} {b : BoundSelect} {calls : List RefreshCall}
  {src : BoundSource} {needs : ColumnNeeds} {table name : String} {type : DataType}

theorem hasTyped_iff (hsound : Sound E plan.nodes) {columns : List Column} {forGrouping : Bool}
    (hmem : .create table columns forGrouping ∈ plan.nodes) :
    plan.HasTyped table name type ↔ (name, type) ∈ columns.map fun c => (c.name, c.type) := by
  simp [HasTyped, columnsOf?_of_create hsound hmem]

theorem PartTable.hasTyped_iff (hsound : Sound E plan.nodes)
    (h : PartTable E plan.nodes q b calls src needs table) :
    plan.HasTyped table name type ↔ (name, type) ∈ src.neededTypes b.source.padded needs := by
  rw [Plan.hasTyped_iff hsound h.declared, joinColumns_entries]
  rfl

theorem TypeClash.not_hasTyped (hsound : Sound E plan.nodes)
    (h : TypeClash E plan.nodes table name type) : ¬ plan.HasTyped table name type := by
  cases h with
  | padded htable _ _ _ _ _ hmissing => exact mt (htable.hasTyped_iff hsound).1 hmissing
  | lent htable _ _ _ _ _ _ _ hmissing => exact mt (htable.hasTyped_iff hsound).1 hmissing
  | @shared q b _ _ _ first type' _ _ htable _ _ _ hfirst hshared hne hkeys =>
    rw [hasTyped_iff hsound htable, groupTable_entries, List.mem_append]
    rintro (hkey | haccumulator)
    · exact hkeys hkey
    · obtain ⟨p, hp, heq⟩ := List.mem_map.1 haccumulator
      obtain ⟨hpname, rfl⟩ := Prod.mk.inj heq
      -- every accumulator has one column
      have hsame := List.inj_on_of_nodup_map (nodup_accumulatorNames q b) hp hfirst
        (hpname.trans hshared.symm)
      exact hne (by rw [hsame])

end Clash

/-! ## Reads of joined sources -/

/-- Every read of a column has the type of the column, or clashes. -/
def ReadsTyped (E : Setting) (plan : Plan) (t : Term) : Prop :=
  ∀ table name type, .tableColumn table name type ∈ t.subterms →
    plan.HasTyped table name type ∨ TypeClash E plan.nodes table name type

section Reads

variable {E : Setting} {plan : Plan} {before : List Node} {q : BoundQuery} {b : BoundSelect}
  {calls : List RefreshCall} {src : BoundSource} {outer : Option (BoundSource × ColumnNeeds)}
  {needs : ColumnNeeds} {ro : Option Relation} {r : Relation} {table : String}

theorem Planned.partTable (hE : E.Resolved) (hle : before ⊆ plan.nodes) (hq : q ∈ E.queries)
    (hb : q.body = .select b) (hcalls : refreshCalls E.scopes b = .ok calls)
    (hpart : PartOf b.source (blockNeeds b q.orderBy calls) src outer needs)
    (h : Planned E b.scope before ro src needs r) (htable : r.table = some table) :
    PartTable E plan.nodes q b calls src needs table := by
  have hleaves := h.leaves
  cases h with
  | @pair _ _ _ p l r _ sources hp _ _ hjoin =>
    cases htable
    have hsources := hjoin.sources_eq hE hq hb hpart.mem_parts hleaves
    exact ⟨hq, hb, hcalls, ⟨outer, hpart⟩, hle (hsources ▸ hjoin.declared)⟩
  | _ => cases htable

theorem Planned.mem_leafAliases {scope : Nat} (h : Planned E scope before ro src needs r)
    {a : String} (hcarries : r.carries a = true) : a ∈ src.leafAliases := by
  simpa [Relation.carries, h.leaves] using hcarries

namespace PartTable

variable {a n : String} {o : Nat} {qualify : Bool} {type : DataType}

theorem mem_parts (h : PartTable E plan.nodes q b calls src needs table) :
    src ∈ b.source.parts := by
  obtain ⟨_, hpart⟩ := h.part
  exact hpart.mem_parts

/-- What a block has seen over its source has the types of the table. -/
theorem typed_seen (hE : E.Resolved) (hsound : Sound E plan.nodes)
    (h : PartTable E plan.nodes q b calls src needs table)
    (hsees : (Term.column a n o qualify type).SeesIn b.source.seen) (ha : a ∈ src.leafAliases)
    (hneeds : needs.needs a n = true) : plan.HasTyped table (qualifiedName a n) type := by
  rw [h.hasTyped_iff hsound]
  rcases BoundSource.neededTypes_of_sees (hE.nodup_leafAliases h.mem h.body)
    b.source.self_mem_parts h.mem_parts hsees ha hneeds with htyped | ⟨hpadded, hnot, -⟩
  · exact htyped
  · exact absurd hpadded hnot

/-- What a term in the source of a block has seen may be padded later. -/
theorem typed_clause (hE : E.Resolved) (hsound : Sound E plan.nodes)
    (h : PartTable E plan.nodes q b calls src needs table) {t : Term} (ht : t ∈ b.source.clauses)
    (hread : .column a n o qualify type ∈ t.subterms) (ha : a ∈ src.leafAliases)
    (hneeds : needs.needs a n = true) : plan.HasTyped table (qualifiedName a n) type ∨
      TypeClash E plan.nodes table (qualifiedName a n) type := by
  have hseen := (hE.seen _ (BoundQuery.mem_blocksOf h.mem h.body)).source
  obtain ⟨part, hpart, hsees⟩ : ∃ part ∈ b.source.parts,
      (Term.column a n o qualify type).SeesIn part.seen := by
    rcases hseen.exists_part ht hread with ⟨_, hnil, -⟩ | hpart
    · cases hnil
    · exact hpart
  rw [h.hasTyped_iff hsound]
  by_cases htyped : (qualifiedName a n, type) ∈ src.neededTypes b.source.padded needs
  · exact .inl htyped
  · obtain ⟨hpadded, -, hplain⟩ := (BoundSource.neededTypes_of_sees
      (hE.nodup_leafAliases h.mem h.body) hpart h.mem_parts hsees ha hneeds).resolve_left htyped
    exact .inr (.padded h ht hread rfl hpadded hplain htyped)

end PartTable

/-- A redirected term reads columns that the term has. -/
theorem readsTyped_relocated {relations : List Relation} {t : Term}
    {leaves : List (String × List Column)} (hreads : ∀ u ∈ t.subterms, u.ReadsFrom leaves)
    (htyped : ∀ a n o qualify type, .column a n o qualify type ∈ t.subterms →
      ∀ r, relations.find? (·.carries a) = some r → ∀ table, r.table = some table →
        plan.HasTyped table (qualifiedName a n) type ∨
          TypeClash E plan.nodes table (qualifiedName a n) type) :
    ReadsTyped E plan (t.mapUp (relocateNode relations)) := by
  intro table name type hu
  obtain ⟨v, hv, heq⟩ := mem_subterms_relocated hu
  obtain ⟨a, n, o, qualify, rfl, rfl, r, hr, htable⟩ := column_of_relocated (hreads v hv) heq
  exact htyped a n o qualify type hv r hr table htable

/-- The arguments in the scan of a part read what is around it. -/
theorem Planned.scan_typed (hE : E.Resolved) (hsound : Sound E plan.nodes)
    (hle : before ⊆ plan.nodes) (hq : q ∈ E.queries) (hb : q.body = .select b)
    (hcalls : refreshCalls E.scopes b = .ok calls)
    (hpart : PartOf b.source (blockNeeds b q.orderBy calls) src outer needs)
    (houter : Surrounds E b.scope before outer ro) (h : Planned E b.scope before ro src needs r) :
    ∀ t ∈ r.scan.terms, ReadsTyped E plan t := by
  intro t ht
  obtain ⟨x, hx, rfl, hreads⟩ :=
    h.mem_scan_terms (hpart.reads (hE.block hq hb).sourceReads) ht
  refine readsTyped_relocated hreads fun a n o qualify type hread rel hfind table htable => ?_
  cases houter with
  | none => cases hfind
  | @some _ o no _ hplanned =>
    obtain ⟨oo, hpartOuter⟩ := hpart.around rfl
    obtain rfl := List.mem_singleton.1 (List.mem_of_find?_eq_some hfind)
    have hcarries : rel.carries a = true := by simpa using List.find?_some hfind
    have hclause : x ∈ b.source.clauses := BoundSource.clauses_subset hpart.mem_parts
      (src.arguments_subset_clauses hx)
    exact (hplanned.partTable hE hle hq hb hcalls hpartOuter htable).typed_clause hE hsound hclause
      hread (hplanned.mem_leafAliases hcarries) (hpart.covers_arguments rfl x hx _ hread)

/-- The condition of a pair reads its sides. -/
theorem condition_typed (hE : E.Resolved) (hsound : Sound E plan.nodes)
    (hle : before ⊆ plan.nodes) (hq : q ∈ E.queries) (hb : q.body = .select b)
    (hcalls : refreshCalls E.scopes b = .ok calls)
    (hpart : PartOf b.source (blockNeeds b q.orderBy calls) src outer needs) {p : Pair}
    (hp : src.pair? = some p) {l : Relation}
    (hl : Planned E b.scope before ro p.left (p.inputs needs) l)
    (hr : Planned E b.scope before (p.around l ro) p.right (p.inputs needs) r) {x : Term}
    (hx : x ∈ p.condition.toList) :
    ReadsTyped E plan (x.mapUp (relocateNode ([l, r] ++ ro.toList))) := by
  have hreads :=
    (reads_pair hp (hpart.reads (hE.block hq hb).sourceReads) needs).2.2 x hx
  have hclause : x ∈ b.source.clauses :=
    BoundSource.clauses_subset hpart.mem_parts (condition_subset_clauses hp hx)
  refine readsTyped_relocated hreads fun a n o qualify type hread rel hfind table htable => ?_
  have hneeds : (p.inputs needs).needs a n = true := inputs_covers_condition p needs hx hread
  -- a column of a side is found at the side
  have hside : rel = l ∧ l.carries a = true ∨ rel = r ∧ r.carries a = true := by
    obtain ⟨cs, hleaf, -⟩ := hreads _ hread
    have hmem : a ∈ l.leaves ++ r.leaves := by
      rw [hl.leaves, hr.leaves, ← p.left.map_leaves, ← p.right.map_leaves, ← List.map_append]
      exact List.mem_map_of_mem hleaf
    simp only [List.mem_append] at hmem
    simp only [List.cons_append, List.find?_cons, Relation.carries] at hfind
    grind [Relation.carries]
  rcases hside with ⟨rfl, hcarries⟩ | ⟨rfl, hcarries⟩
  · exact (hl.partTable hE hle hq hb hcalls (hpart.left hp) htable).typed_clause hE hsound hclause
      hread (hl.mem_leafAliases hcarries) hneeds
  · exact (hr.partTable hE hle hq hb hcalls (hpart.right hp) htable).typed_clause hE hsound hclause
      hread (hr.mem_leafAliases hcarries) hneeds

/-- A column that the table of a pair takes from a side has the type it has there. -/
theorem joinTerm_typed (hE : E.Resolved) (hsound : Sound E plan.nodes)
    (hle : before ⊆ plan.nodes) (hq : q ∈ E.queries) (hb : q.body = .select b)
    (hcalls : refreshCalls E.scopes b = .ok calls)
    (hpart : PartOf b.source (blockNeeds b q.orderBy calls) src outer needs) {p : Pair}
    (hp : src.pair? = some p) {l : Relation}
    (hl : Planned E b.scope before ro p.left (p.inputs needs) l)
    (hr : Planned E b.scope before (p.around l ro) p.right (p.inputs needs) r)
    {s : String × Column} (hs : s ∈ src.neededColumns b.source.padded needs) :
    ReadsTyped E plan (joinTerm l r s) := by
  have hread {side : BoundSource} {rel : Relation}
      (htyped : ∀ table, rel.table = some table →
        PartTable E plan.nodes q b calls side (p.inputs needs) table)
      (hneeded : s ∈ side.neededColumns b.source.padded needs) :
      ReadsTyped E plan (rel.read s.1 s.2) := by
    intro table name type hu
    unfold Relation.read at hu
    split at hu
    · rename_i htable
      cases List.mem_singleton.1 hu
      refine .inl (((htyped _ htable).hasTyped_iff hsound).2 ?_)
      exact List.mem_map.2 ⟨s, BoundSource.neededColumns_mono (le_inputs p needs) hneeded, rfl⟩
    · cases List.mem_singleton.1 hu
  have hdisjoint := hpart.disjoint_sides (hE.nodup_leafAliases hq hb) hp
  rw [BoundSource.neededColumns_pair hp, List.mem_append] at hs
  unfold joinTerm
  split
  · rename_i hcarries
    refine hread (fun _ => hl.partTable hE hle hq hb hcalls (hpart.left hp)) (hs.resolve_right ?_)
    exact fun hright => hdisjoint (hl.mem_leafAliases hcarries)
      (BoundSource.mem_leafAliases_of_needed hright)
  · rename_i hcarries
    refine hread (fun _ => hr.partTable hE hle hq hb hcalls (hpart.right hp)) (hs.resolve_left ?_)
    intro hleft
    have hmem := BoundSource.mem_leafAliases_of_needed hleft
    exact hcarries (by simpa [Relation.carries, hl.leaves] using hmem)

/-- The clauses of a block and its own updates read its source at the types it has. Updates from a
    block around it may not. -/
theorem BlockPlanned.typed (hE : E.Resolved) (hsound : Sound E plan.nodes)
    (hle : before ⊆ plan.nodes) (h : BlockPlanned E before q b calls r) :
    ∀ t ∈ r.scan.terms ++ readFrom r (sourceTerms b q.orderBy) ++
      readFrom r (calls.flatMap (·.args)), ReadsTyped E plan t := by
  have hblock := hE.block h.mem h.body
  have htables {table : String} : r.table = some table →
      PartTable E plan.nodes q b calls b.source (blockNeeds b q.orderBy calls) table :=
    h.planned.partTable hE hle h.mem h.body h.registered .root
  have hown {rel : Relation} {a : String} (hfind : [r].find? (·.carries a) = some rel) :
      rel = r ∧ a ∈ b.source.leafAliases := by
    obtain rfl := List.mem_singleton.1 (List.mem_of_find?_eq_some hfind)
    exact ⟨rfl, h.planned.mem_leafAliases (by simpa using List.find?_some hfind)⟩
  intro t ht
  simp only [List.mem_append] at ht
  rcases ht with (ht | ht) | ht
  · exact h.planned.scan_typed hE hsound hle h.mem h.body h.registered .root .none t ht
  · obtain ⟨x, hx, rfl⟩ := List.mem_map.1 ht
    obtain ⟨clause, hclause, hin⟩ := sourceTerms_occur hx
    refine readsTyped_relocated
      (fun u hu => hblock.reads clause hclause u (Term.mem_subterms_trans hu hin)) ?_
    intro a n o qualify type hread rel hfind table htable
    obtain ⟨rfl, ha⟩ := hown hfind
    have hmem := Term.mem_subterms_trans hread hin
    exact .inl ((htables htable).typed_seen hE hsound
      ((hE.seen _ (BoundQuery.mem_blocksOf h.mem h.body)).clauses clause hclause _ hmem) ha
      (blockNeeds_covers calls hclause hmem))
  · obtain ⟨x, hx, rfl⟩ := List.mem_map.1 ht
    obtain ⟨c, hc, hx⟩ := List.mem_flatMap.1 hx
    obtain ⟨leaves, hreads⟩ := updates_read hE h.mem h.body h.registered hc
    refine readsTyped_relocated (hreads x hx) ?_
    intro a n o qualify type hread rel hfind table htable
    obtain ⟨rfl, ha⟩ := hown hfind
    have hneeds : (blockNeeds b q.orderBy calls).needs a n = true :=
      blockNeeds_covers_updates hc hx hread
    by_cases haggregates : (b.block q.orderBy).aggregates = []
    · obtain ⟨e, he, hlends⟩ := (refreshCalls_lent hE.ordered hE.sealed
        (BoundQuery.mem_blocksOf h.mem h.body) haggregates h.registered).1
        (List.ne_nil_of_mem hc)
      rw [(htables htable).hasTyped_iff hsound]
      by_cases htyped : (qualifiedName a n, type) ∈
          b.source.neededTypes b.source.padded (blockNeeds b q.orderBy calls)
      · exact .inl htyped
      · exact .inr (.lent (htables htable) haggregates he hlends hc hx hread rfl htyped)
    · rw [refreshCalls_own hE.ordered hblock haggregates h.registered] at hc
      exact .inl ((htables htable).typed_seen hE hsound (hE.update_sees
        (BoundQuery.mem_blocksOf h.mem h.body) hc hx hread) ha hneeds)

end Reads

/-! ## Plans -/

/-- An aggregate is read at its type, or shares the accumulator of one with another type. -/
theorem typed_of_aggregate {E : Setting} {plan : Plan} (hsound : Sound E plan.nodes)
    {q : BoundQuery} {b : BoundSelect} {table : String} (hq : q ∈ E.queries)
    (hb : q.body = .select b) (htable : .create table (groupTable q b) true ∈ plan.nodes)
    {t : Term} (ht : t ∈ groupOutputs b q.orderBy) {m : AggregateRef} {args : List Term}
    {type : DataType} (hread : .aggregate m args type ∈ t.subterms) :
    plan.HasTyped table m.accumulator type ∨
      TypeClash E plan.nodes table m.accumulator type := by
  have hname : m.accumulator ∈ accumulatorNames q b :=
    mem_foldl_addAggregate_of (.inl ⟨_, List.mem_flatMap.2 ⟨t, ht, hread⟩, rfl⟩)
  obtain ⟨⟨first, type'⟩, hfirst, hshared⟩ := List.mem_map.1 hname
  rw [hasTyped_iff hsound htable, groupTable_entries, List.mem_append]
  by_cases hkeys : (m.accumulator, type) ∈ (groupKeys b).map fun k => (k.render, k.type)
  · exact .inl (.inl hkeys)
  · by_cases hne : type' = type
    · exact .inl (.inr (List.mem_map.2 ⟨_, hfirst, Prod.ext hshared hne⟩))
    · exact .inr (.shared hq hb htable ht hread rfl hfirst hshared hne hkeys)

/-- All reads of a node have the types of the columns, or clash. -/
theorem Emitted.typed {E : Setting} {plan : Plan} {before : List Node} {n : Node}
    (hE : E.Resolved) (hsound : Sound E plan.nodes) (hle : before ⊆ plan.nodes)
    (h : Emitted E before n) : ∀ t ∈ n.terms ++ n.updateTerms, ReadsTyped E plan t := by
  cases h with
  | create | setMatch | rename =>
    intro t ht
    cases ht
  | @join q b calls src outer needs p ro l r table sources hq hb hpart hp houter hl hr htable
      hcalls =>
    intro t ht
    rw [updateTerms_populate, List.append_nil, terms_join] at ht
    simp only [List.mem_append] at ht
    rcases ht with ((ht | ht) | ht) | ht
    · obtain ⟨x, hx, rfl⟩ := List.mem_map.1 ht
      exact condition_typed hE hsound hle hq hb hcalls hpart hp hl hr hx
    · exact hl.scan_typed hE hsound hle hq hb hcalls (hpart.left hp) houter t ht
    · exact hr.scan_typed hE hsound hle hq hb hcalls (hpart.right hp) (houter.around hl) t ht
    · obtain ⟨s, hs, rfl⟩ := List.mem_map.1 (joinSelect_eq l r sources ▸ ht)
      have hleaves : l.leaves ++ r.leaves = src.leafAliases := by
        rw [leafAliases_pair hp, hl.leaves, hr.leaves]
      rw [htable.sources_eq hE hq hb hpart.mem_parts hleaves] at hs
      exact joinTerm_typed hE hsound hle hq hb hcalls hpart hp hl hr hs
  | project h hgrouped =>
    intro t ht
    rw [updateTerms_populate, List.append_nil, terms_project hgrouped] at ht
    exact h.typed hE hsound hle t (List.mem_append_left _ ht)
  | aggregate h hgrouped =>
    rw [terms_group hgrouped, updateTerms_group]
    exact h.typed hE hsound hle
  | score h hgrouped htable =>
    intro t ht table' name type hu
    rw [updateTerms_populate, List.append_nil] at ht
    obtain ⟨x, hx, rfl⟩ := mem_terms_score ht
    obtain ⟨rfl, m, args, hread, rfl⟩ :=
      aggregate_of_regrouped (outputs_read (hE.block h.mem h.body) x hx) hu
    exact typed_of_aggregate hsound h.mem h.body (hle htable) hx hread
  | copy hq hbody htable =>
    intro t ht table' name type hu
    rw [updateTerms_populate, List.append_nil] at ht
    obtain ⟨c, hc, rfl⟩ := mem_terms_copy (hE.formed _ hq) hbody ht
    cases List.mem_singleton.1 hu
    exact .inl ((hasTyped_iff hsound (hle htable.declared)).2 (List.mem_map_of_mem hc))

/-- A read of a column in a step of the plan of a resolved query has the type of a column of that
    name in the table, except in three situations: a join condition or an argument reads a column as
    not nullable that a join around it pads, a block takes updates from a block around it, or two
    aggregates share an accumulator though their types differ. -/
theorem ofQuery_typed_iff {env : Resolve.Env} {query : Query} {analysis : Resolve.Analysis}
    {requests : List TableRequest} (ha : Resolve.analyze env query = (.ok analysis, requests))
    {config : PlanConfig} {plan : Plan} {scopes : Scopes}
    (h : ofQuery config analysis.scopes analysis.query = .ok (plan, scopes))
    {n : Node} (hn : n ∈ plan.nodes) {t : Term} (ht : t ∈ n.terms ++ n.updateTerms)
    {table name : String} {type : DataType} (hu : .tableColumn table name type ∈ t.subterms) :
    plan.HasTyped table name type ↔
      ¬ TypeClash ⟨config, analysis.scopes, analysis.query.queries⟩ plan.nodes table name
        type := by
  obtain ⟨hsound, -⟩ := ofQuery_sound ha h
  obtain ⟨before, after, hnodes⟩ := List.append_of_mem hn
  have hle : before ⊆ plan.nodes := hnodes ▸ List.subset_append_left _ _
  constructor
  · exact fun htyped hclash => hclash.not_hasTyped hsound htyped
  · exact ((hsound _ _ _ hnodes).typed (resolved_of_analyze ha config) hsound hle t ht table name
      type hu).resolve_right

/-- Stands for `select d.Amount from #A.entities() a inner join #B.orders() b on a.Id = b.PersonId
    inner join #A.entities() c on a.City = c.City right outer join #B.orders() d
    on c.Id = d.PersonId` -/
def paddedCities : Query :=
  .ofSelect ((Select.empty.addExpr (.ofColumn "d" "Amount")).withSource
    (.join .rightOuter
      (.join .inner
        (.join .inner (Sample.entitiesAs "a") (Sample.ordersAs "b")
          (.equals (.ofColumn "a" "Id") (.ofColumn "b" "PersonId")))
        (Sample.entitiesAs "c") (.equals (.ofColumn "a" "City") (.ofColumn "c" "City")))
      (Sample.ordersAs "d") (.equals (.ofColumn "c" "Id") (.ofColumn "d" "PersonId"))))

/-- The second join compares cities as they are before the outer join pads them, and reads them from
    a table that is declared for what they are after it. -/
theorem ofQuery_typed_iff_paddedCities :
    ∃ analysis requests plan scopes,
      Resolve.analyze ⟨Sample.catalog, default⟩ paddedCities = (.ok analysis, requests) ∧
      ofQuery default analysis.scopes analysis.query = .ok (plan, scopes) ∧
      (∃ n ∈ plan.nodes, ∃ t ∈ n.terms ++ n.updateTerms,
        .tableColumn "__t0_join" "a.City" .string ∈ t.subterms) ∧
      plan.columnsOf? "__t0_join" = some [⟨"a.City", 0, .nullable .string⟩] ∧
      TypeClash ⟨default, analysis.scopes, analysis.query.queries⟩ plan.nodes "__t0_join" "a.City"
        .string := by
  obtain ⟨analysis, requests, plan, scopes, h, hplan, hcheck⟩ := exists_plan_of_check
    ⟨Sample.catalog, default⟩ default paddedCities (fun _ plan => decide
      ((∃ n ∈ plan.nodes, ∃ t ∈ n.terms ++ n.updateTerms, ∃ u ∈ t.subterms,
          u.tableColumn? = some ("__t0_join", "a.City") ∧ u.type = .string) ∧
        plan.columnsOf? "__t0_join" = some [⟨"a.City", 0, .nullable .string⟩]))
    (by decide +kernel)
  rw [decide_eq_true_eq] at hcheck
  obtain ⟨⟨n, hn, t, ht, u, hu, hreads, htype⟩, hcolumns⟩ := hcheck
  obtain ⟨type, rfl⟩ := Term.tableColumn?_eq_some.1 hreads
  obtain rfl : type = .string := htype
  refine ⟨analysis, requests, plan, scopes, h, hplan, ⟨n, hn, t, ht, hu⟩, hcolumns, ?_⟩
  by_contra hclash
  obtain ⟨columns, hdeclared, c, hc, -, htyped⟩ := (ofQuery_typed_iff h hplan hn ht hu).2 hclash
  cases hcolumns.symm.trans hdeclared
  obtain rfl := List.mem_singleton.1 hc
  cases htyped

end Plan

end SchemaQuery
