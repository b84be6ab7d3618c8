-- SUMMARY: A plan reads only declared columns, and whole rows only from tables that keep them whole.
import SchemaQuery.Proofs.Plan.Accumulators
import SchemaQuery.Proofs.Plan.ChainRows
import SchemaQuery.Proofs.Plan.Emission
import SchemaQuery.Proofs.Resolve.Nullability

/-!
# Declared columns

The table of a join is declared before the steps that read it, with the columns
that these steps were known to need. Every part of a source is planned for needs
that cover what is read from it later on: the conditions of the joins around it,
the arguments of applied tables and the clauses of the block. So the columns that
a step reads from a table are declared, and all columns of a source are where a
step hands its rows to a method.
-/

namespace SchemaQuery.Plan

/-! ## Steps -/

/-- The terms in a scan: the arguments of schema tables and the predicates of loops. -/
def Scan.terms : Scan → List Term
  | .schema _ _ _ args => args
  | .inMemory .. | .transition .. => []
  | .loop _ left right predicate _ => predicate.toList ++ left.terms ++ right.terms

namespace Node

/-- The terms that a step evaluates, those of its updates aside. -/
def terms (n : Node) : List Term := n.evaluates?.elim [] fun (scan, ts) => scan.terms ++ ts

/-- The arguments of the updates of a step. -/
def updateTerms : Node → List Term
  | .aggregate step => step.refresh.flatMap (·.args)
  | _ => []

/-- Whether a node fills the table with the rows of a loop. -/
def fillsJoin (table : String) : Node → Bool
  | .populate step => step.target = table && step.source.isLoop
  | _ => false

end Node

/-! ## Declarations -/

/-- Some table of that name is declared with a column of that name. -/
def Declares (ns : List Node) (table name : String) : Prop :=
  ∃ columns forGrouping, .create table columns forGrouping ∈ ns ∧ name ∈ columns.map (·.name)

/-- All columns that a term reads from tables are declared. -/
def ReadsDeclared (ns : List Node) (t : Term) : Prop :=
  ∀ table name type, .tableColumn table name type ∈ t.subterms → Declares ns table name

theorem Declares.mono {ns ns' : List Node} (hle : ns ⊆ ns') {table name : String}
    (h : Declares ns table name) : Declares ns' table name := by
  obtain ⟨columns, forGrouping, hcreate, hname⟩ := h
  exact ⟨columns, forGrouping, hle hcreate, hname⟩

/-! ## Redirected terms -/

section Redirected

variable {relations : List Relation} {ns : List Node} {leaves : List (String × List Column)}
  {needs : ColumnNeeds}

theorem mem_subterms_relocated {t u : Term} (h : u ∈ (t.mapUp (relocateNode relations)).subterms) :
    ∃ v ∈ t.subterms, u = v.mapUp (relocateNode relations) := by
  induction t using Term.childInduction with
  | step t ih =>
    rcases Term.mem_subterms.1 h with rfl | ⟨c, hc, hu⟩
    · exact ⟨t, t.self_mem_subterms, rfl⟩
    · cases hcolumn : t.columnAlias? with
      | none =>
        rw [(relocated_node hcolumn).2.2] at hc
        obtain ⟨c', hc', rfl⟩ := List.mem_map.1 hc
        obtain ⟨v, hv, rfl⟩ := ih c' hc' hu
        exact ⟨v, Term.mem_subterms.2 (.inr ⟨c', hc', hv⟩), rfl⟩
      | some a =>
        cases t with
        | column a n o q type =>
          simp only [Term.mapUp, relocateNode] at hc
          split at hc <;> cases hc
        | _ => cases hcolumn

/-- A redirected node that reads a table was a column of an alias. -/
theorem column_of_relocated {v : Term} (hreads : v.ReadsFrom leaves) {table name : String}
    {type : DataType} (h : .tableColumn table name type = v.mapUp (relocateNode relations)) :
    ∃ a n o q, v = .column a n o q type ∧ name = qualifiedName a n ∧
      ∃ r, relations.find? (·.carries a) = some r ∧ r.table = some table := by
  cases v with
  | column a n o q type' =>
    simp only [Term.mapUp, relocateNode] at h
    cases hfind : relations.find? (·.carries a) with
    | none =>
      rw [hfind] at h
      cases h
    | some r =>
      cases htable : r.table with
      | none =>
        rw [hfind, Option.bind_some, htable] at h
        cases h
      | some t =>
        rw [hfind, Option.bind_some, htable] at h
        cases h
        exact ⟨a, n, o, q, rfl, rfl, r, hfind, htable⟩
  | tableColumn => exact absurd hreads id
  | case branches otherwise => cases otherwise <;> simp [Term.mapUp, relocateNode] at h
  | _ => simp [Term.mapUp, relocateNode] at h

theorem rowAlias?_of_relocated {v : Term} {a : String}
    (h : rowAlias? (v.mapUp (relocateNode relations)) = some a) : rowAlias? v = some a := by
  cases v with
  | column b n o q type =>
    simp only [Term.mapUp, relocateNode] at h
    split at h <;> cases h
  | _ => rwa [(relocated_node rfl).2.1] at h

/-- The relation that a needed column is read from, if it is a table, has the column. -/
def Serves (ns : List Node) (relations : List Relation) (leaves : List (String × List Column))
    (needs : ColumnNeeds) : Prop :=
  ∀ l ∈ leaves, ∀ c ∈ l.2, needs.needs l.1 c.name = true → ∀ r, relations.find? (·.carries l.1) =
    some r → ∀ table, r.table = some table → Declares ns table (qualifiedName l.1 c.name)

theorem readsDeclared_relocated {t : Term}
    (hreads : ∀ u ∈ t.subterms, u.ReadsFrom leaves ∧ needs.Covers u)
    (hserves : Serves ns relations leaves needs) :
    ReadsDeclared ns (t.mapUp (relocateNode relations)) := by
  intro table name type hu
  obtain ⟨v, hv, heq⟩ := mem_subterms_relocated hu
  obtain ⟨hread, hcovers⟩ := hreads v hv
  obtain ⟨a, n, o, q, rfl, rfl, r, hr, htable⟩ := column_of_relocated hread heq
  obtain ⟨cs, hcs, c, hc, rfl⟩ := hread
  exact hserves _ hcs c hc hcovers r hr table htable

end Redirected

/-! ## Parts of a source -/

section Pair

variable {src : BoundSource} {p : Pair}

theorem condition_subset_clauses (hp : src.pair? = some p) :
    p.condition.toList ⊆ src.clauses := by
  cases src with
  | join =>
    cases hp
    simp [BoundSource.clauses]
  | apply =>
    cases hp
    exact List.nil_subset _
  | _ => cases hp

end Pair

namespace PartOf

variable {root src : BoundSource} {needs n : ColumnNeeds}
  {outer : Option (BoundSource × ColumnNeeds)}

theorem reads (hroot : root.Reads []) (h : PartOf root needs src outer n) :
    src.Reads (outerLeaves outer) := by
  induction h with
  | root => exact hroot
  | left _ hp ih => exact (reads_pair hp ih .empty).1
  | right _ hp ih => exact (reads_pair hp ih _).2.1

/-- The source around a part is a part, too. -/
theorem around {o : BoundSource} {no : ColumnNeeds} (h : PartOf root needs src outer n)
    (ho : outer = some (o, no)) : ∃ oo, PartOf root needs o oo no := by
  induction h with
  | root => cases ho
  | left _ _ ih => exact ih ho
  | @right src outer n p h hp ih =>
    unfold Pair.around at ho
    split at ho
    · cases ho
      exact ⟨_, h.left hp⟩
    · exact ih ho

/-- What is around a part is planned for its arguments. -/
theorem covers_arguments {o : BoundSource} {no : ColumnNeeds} (h : PartOf root needs src outer n)
    (ho : outer = some (o, no)) : ∀ t ∈ src.arguments, ∀ u ∈ t.subterms, no.Covers u := by
  induction h with
  | root => cases ho
  | left _ hp ih =>
    intro t ht
    exact ih ho t (by rw [arguments_pair hp]; exact List.mem_append_left _ ht)
  | @right src outer n p h hp ih =>
    intro t ht u hu
    unfold Pair.around at ho
    split at ho
    · cases ho
      exact ColumnNeeds.covers_addAll _ ht hu
    · exact ih ho t (by rw [arguments_pair hp]; exact List.mem_append_right _ ht) u hu

theorem nodup_leafAliases (hroot : root.leafAliases.Nodup) (h : PartOf root needs src outer n) :
    src.leafAliases.Nodup := by
  induction h with
  | root => exact hroot
  | left _ hp ih =>
    rw [leafAliases_pair hp] at ih
    exact ih.of_append_left
  | right _ hp ih =>
    rw [leafAliases_pair hp] at ih
    exact ih.of_append_right

/-- The sides of a pair share no leaf. -/
theorem disjoint_sides {p : Pair} (hroot : root.leafAliases.Nodup)
    (h : PartOf root needs src outer n) (hp : src.pair? = some p) :
    p.left.leafAliases.Disjoint p.right.leafAliases := by
  have hnodup := h.nodup_leafAliases hroot
  rw [leafAliases_pair hp] at hnodup
  exact List.disjoint_of_nodup_append hnodup

/-- A part shares no leaf with what is around it. -/
theorem disjoint_outer {o : BoundSource} {no : ColumnNeeds} (hroot : root.leafAliases.Nodup)
    (h : PartOf root needs src outer n) (ho : outer = some (o, no)) :
    o.leafAliases.Disjoint src.leafAliases := by
  induction h with
  | root => cases ho
  | left _ hp ih =>
    have := ih ho
    rw [leafAliases_pair hp, List.disjoint_append_right] at this
    exact this.1
  | @right src outer n p h hp ih =>
    unfold Pair.around at ho
    split at ho
    · cases ho
      exact h.disjoint_sides hroot hp
    · have := ih ho
      rw [leafAliases_pair hp, List.disjoint_append_right] at this
      exact this.2

end PartOf

/-! ## Planned sources -/

/-- The table of a relation has all the needed columns of a source. -/
def Relation.Keeps (ns : List Node) (src : BoundSource) (needs : ColumnNeeds) (r : Relation) :
    Prop :=
  ∀ table, r.table = some table → ∀ l ∈ src.leaves, ∀ c ∈ l.2, needs.needs l.1 c.name = true →
    Declares ns table (qualifiedName l.1 c.name)

section Planned

variable {E : Setting} {scope : Nat} {before : List Node} {outer : Option Relation}
  {src : BoundSource} {needs : ColumnNeeds} {r : Relation}

theorem Planned.leaves (h : Planned E scope before outer src needs r) :
    r.leaves = src.leafAliases := by
  induction h with
  | pair hp _ _ _ _ ihl ihr =>
    rw [leafAliases_pair hp, ← ihl, ← ihr]
    rfl
  | _ => rfl

theorem JoinTable.trims {l r : Relation} {table : String} {sources : List (String × Column)}
    (hs : E.scopes.Ordered) (hsrc : SourceBound E.scopes scope src)
    (hleaves : l.leaves ++ r.leaves = src.leafAliases)
    (h : JoinTable E scope before needs l r table sources) : Trimmed src needs sources := by
  obtain ⟨tables, ht⟩ := hsrc.leafTables
  exact trimmed_of_leafTables hs ht (hleaves ▸ h.trimmed)

theorem Planned.keeps (hs : E.scopes.Ordered) (hsrc : SourceBound E.scopes scope src)
    (h : Planned E scope before outer src needs r) : r.Keeps before src needs := by
  intro table htable l hl c hc hneeds
  have hleaves := h.leaves
  cases h with
  | pair hp _ _ hjoin =>
    cases htable
    obtain ⟨s, hmem, hs1, hs2⟩ := (hjoin.trims hs hsrc hleaves).complete l hl c hc hneeds
    refine ⟨_, _, hjoin.declared, ?_⟩
    rw [joinColumns_names, ← hs1, ← hs2]
    exact List.mem_map_of_mem hmem
  | _ => cases htable

theorem Relation.Keeps.serves (h : r.Keeps before src needs) :
    Serves before [r] src.leaves needs := by
  intro l hl c hc hneeds r' hr' table htable
  obtain rfl : r' = r := by simpa using List.mem_of_find?_eq_some hr'
  exact h table htable l hl c hc hneeds

end Planned

/-! ## Blocks -/

/-- What planning starts from was resolved. -/
structure Setting.Resolved (E : Setting) : Prop where
  ordered : E.scopes.Ordered
  sealed : Sealed (fun _ => True) E.scopes 0 E.scopes.all.length E.queries
  formed : ∀ q ∈ E.queries, q.Formed
  seen : ∀ b ∈ BoundQuery.blocksOf E.queries, Resolve.BlockSeen E.scopes b

theorem resolved_of_analyze {env : Resolve.Env} {q : Query} {a : Resolve.Analysis}
    {requests : List TableRequest} (h : Resolve.analyze env q = (.ok a, requests))
    (config : PlanConfig) : Setting.Resolved ⟨config, a.scopes, a.query.queries⟩ := by
  obtain ⟨hs, hsealed, -⟩ := Resolve.analyze_sealed (fun _ => trivial) (fun _ _ => trivial) h
  exact ⟨hs, hsealed, Resolve.analyze_formed h, Resolve.analyze_seen h⟩

section Block

variable {E : Setting} {before : List Node} {q : BoundQuery} {b : BoundSelect}
  {calls : List RefreshCall} {src : BoundSource} {outer : Option (BoundSource × ColumnNeeds)}
  {needs : ColumnNeeds} {ro : Option Relation} {r : Relation}

theorem Setting.Resolved.block (hE : E.Resolved) (hq : q ∈ E.queries) (hb : q.body = .select b) :
    BlockBound (fun _ => True) E.scopes (b.block q.orderBy) :=
  (hE.sealed.blocks _ (BoundQuery.mem_blocksOf hq hb)).2.2

theorem Setting.Resolved.nodup_leafAliases (hE : E.Resolved) (hq : q ∈ E.queries)
    (hb : q.body = .select b) : b.source.leafAliases.Nodup :=
  (hE.block hq hb).distinct.sublist b.source.leafAliases_sublist

/-- The arguments of a registered update have seen what the outputs of its block have seen. -/
theorem Setting.Resolved.update_sees (hE : E.Resolved) {e : Block}
    (he : e ∈ BoundQuery.blocksOf E.queries) {c : RefreshCall}
    (hc : c ∈ E.scopes.refreshOf e.scope e.source.aliasName) {t u : Term} (ht : t ∈ c.args)
    (hu : u ∈ t.subterms) : u.SeesIn e.source.seen := by
  obtain ⟨out, hout, hin⟩ := (hE.sealed.blocks e he).2.2.update_occurs hc ht hu
  exact (hE.seen e he).clauses out (List.mem_append_right _ hout) u hin

theorem PartOf.bound (hblock : BlockBound (fun _ => True) E.scopes (b.block q.orderBy))
    (hsrc : src ∈ b.source.parts) : SourceBound E.scopes b.scope src :=
  fun p hp => hblock.source p (BoundSource.parts_subset hsrc hp)

theorem covers_of_no_reads {u : Term} (h : u.ReadsFrom []) (needs : ColumnNeeds) :
    needs.Covers u := by
  cases u with
  | column =>
    obtain ⟨cs, hcs, -⟩ := h
    cases hcs
  | call =>
    intro a ha
    obtain ⟨cs, hcs⟩ := h a ha
    cases hcs
  | _ => trivial

/-- The terms in the scan of a part are its arguments, redirected to what is around it. -/
theorem Planned.mem_scan_terms {scope : Nat} {leaves : List (String × List Column)}
    (h : Planned E scope before ro src needs r) (hreads : src.Reads leaves) {t : Term}
    (ht : t ∈ r.scan.terms) : ∃ x ∈ src.arguments, t = x.mapUp (relocateNode ro.toList) ∧
      ∀ u ∈ x.subterms, u.ReadsFrom leaves := by
  cases h with
  | schema _ a schema method args =>
    obtain ⟨x, hx, rfl⟩ := List.mem_map.1 ht
    exact ⟨x, hx, rfl, hreads x hx⟩
  | _ => cases ht

/-- The arguments in the scan of a part read declared columns of what is around it. -/
theorem Planned.scan_declared (hE : E.Resolved) (hq : q ∈ E.queries) (hb : q.body = .select b)
    (hpart : PartOf b.source (blockNeeds b q.orderBy calls) src outer needs)
    (houter : Surrounds E b.scope before outer ro)
    (h : Planned E b.scope before ro src needs r) :
    ∀ t ∈ r.scan.terms, ReadsDeclared before t := by
  intro t ht
  have hblock := hE.block hq hb
  obtain ⟨x, hx, rfl, hreads⟩ := h.mem_scan_terms (hpart.reads hblock.sourceReads) ht
  cases houter with
  | none =>
    exact @readsDeclared_relocated _ _ _ .empty _
      (fun u hu => ⟨hreads u hu, covers_of_no_reads (hreads u hu) _⟩) (by intro l hl; cases hl)
  | some hplanned =>
    obtain ⟨_, houter⟩ := hpart.around rfl
    have hbound := PartOf.bound hblock houter.mem_parts
    exact readsDeclared_relocated
      (fun u hu => ⟨hreads u hu, hpart.covers_arguments rfl x hx u hu⟩)
      (hplanned.keeps hE.ordered hbound).serves

/-- The clauses of a block read declared columns of its source. -/
theorem BlockPlanned.terms_declared (hE : E.Resolved) (h : BlockPlanned E before q b calls r) :
    ∀ t ∈ r.scan.terms ++ readFrom r (sourceTerms b q.orderBy), ReadsDeclared before t := by
  intro t ht
  have hblock := hE.block h.mem h.body
  rcases List.mem_append.1 ht with ht | ht
  · exact h.planned.scan_declared hE h.mem h.body .root .none t ht
  · obtain ⟨x, hx, rfl⟩ := List.mem_map.1 ht
    obtain ⟨clause, hclause, hin⟩ := sourceTerms_occur hx
    refine readsDeclared_relocated (fun u hu => ?_)
      (h.planned.keeps hE.ordered hblock.source).serves
    have huin := Term.mem_subterms_trans hu hin
    exact ⟨hblock.reads clause hclause u huin, blockNeeds_covers calls hclause huin⟩

end Block

/-! ## Pairs -/

section Pair

variable {E : Setting} {before : List Node} {src : BoundSource} {p : Pair} {needs : ColumnNeeds}
  {l r : Relation}

theorem serves_pair (hnodup : (p.left.leafAliases ++ p.right.leafAliases).Nodup)
    (hl : l.leaves = p.left.leafAliases) (hr : r.leaves = p.right.leafAliases)
    (hkl : l.Keeps before p.left needs) (hkr : r.Keeps before p.right needs)
    (rest : List Relation) :
    Serves before ([l, r] ++ rest) (p.left.leaves ++ p.right.leaves) needs := by
  have hcarries {s : BoundSource} {rel : Relation} (hrel : rel.leaves = s.leafAliases)
      {x : String × List Column} (hx : x ∈ s.leaves) : x.1 ∈ rel.leaves := by
    rw [hrel, ← s.map_leaves]
    exact List.mem_map_of_mem hx
  intro x hx c hc hneeds r' hr' table htable
  rcases List.mem_append.1 hx with hx | hx
  · have hcarry : l.carries x.1 = true := by simpa [Relation.carries] using hcarries hl hx
    simp only [List.cons_append, List.find?_cons, hcarry, Option.some.injEq] at hr'
    subst hr'
    exact hkl table htable x hx c hc hneeds
  · have hnot : l.carries x.1 = false := by
      have hmem : x.1 ∉ l.leaves := fun hmem => by
        rw [hl] at hmem
        have hright := hcarries hr hx
        rw [hr] at hright
        exact List.disjoint_of_nodup_append hnodup hmem hright
      simpa [Relation.carries] using hmem
    have hcarry : r.carries x.1 = true := by simpa [Relation.carries] using hcarries hr hx
    simp only [List.cons_append, List.find?_cons, hnot, hcarry, Option.some.injEq] at hr'
    subst hr'
    exact hkr table htable x hx c hc hneeds

theorem joinSelect_declared (hle : needs.Le (p.inputs needs))
    (hl : l.leaves = p.left.leafAliases) (hr : r.leaves = p.right.leafAliases)
    (hp : src.pair? = some p) {sources : List (String × Column)}
    (htrimmed : Trimmed src needs sources)
    (hserves : Serves before [l, r] (p.left.leaves ++ p.right.leaves) (p.inputs needs)) :
    ∀ t ∈ joinSelect l r sources, ReadsDeclared before t := by
  intro t ht
  rw [joinSelect_eq] at ht
  obtain ⟨s, hs, rfl⟩ := List.mem_map.1 ht
  obtain ⟨x, hx, c, hc, hs1, hs2, hneeds⟩ := htrimmed.sound s hs
  rw [leaves_pair hp] at hx
  have hcarries : l.carries s.1 = true ∨ r.carries s.1 = true := by
    have hmem : s.1 ∈ l.leaves ++ r.leaves := by
      rw [hl, hr, ← p.left.map_leaves, ← p.right.map_leaves, ← List.map_append, hs1]
      exact List.mem_map_of_mem hx
    simpa [Relation.carries] using hmem
  -- the column itself, redirected to the sides
  have hcolumn : joinTerm l r s =
      (Term.column s.1 s.2.name s.2.ordinal true s.2.type).mapUp (relocateNode [l, r]) := by
    rw [joinTerm_eq hcarries, Term.mapUp]
  rw [hcolumn]
  refine readsDeclared_relocated (fun u hu => ?_) hserves
  obtain rfl := List.mem_singleton.1 hu
  refine ⟨⟨x.2, hs1 ▸ hx, c, hc, hs2.symm⟩, ?_⟩
  change (p.inputs needs).needs s.1 s.2.name = true
  rw [hs1, hs2]
  exact hle.columns _ _ hneeds

theorem terms_join (table : String) (ro : Option Relation) (sources : List (String × Column)) :
    (Node.populate (p.step table ro l r sources)).terms =
      p.condition.toList.map (·.mapUp (relocateNode ([l, r] ++ ro.toList))) ++ l.scan.terms ++
        r.scan.terms ++ joinSelect l r sources := by
  cases h : p.condition <;>
    simp [Node.terms, Node.evaluates?, Pair.step, joinStep, Scan.terms, h]

end Pair

/-! ## Groups and results -/

section Outputs

variable {leaves : List (String × List Column)} {keys : List Term} {table : String}

/-- A term that reads groups reads columns for its aggregates only. -/
theorem aggregate_of_regrouped {t : Term} (hreads : ∀ u ∈ t.subterms, u.ReadsFrom leaves)
    {table' name : String} {type : DataType}
    (h : .tableColumn table' name type ∈ (regroupTerm keys table t).subterms) :
    table' = table ∧ ∃ m args, .aggregate m args type ∈ t.subterms ∧ m.accumulator = name := by
  induction t using Term.childInduction with
  | step t ih =>
    cases hkey : Resolve.isKey keys t with
    | true =>
      obtain ⟨i, -, -, -, hi⟩ : ∃ i k, _ ∧ _ ∧ regroupTerm keys table t = .groupField i t.type :=
        regroupTerm_key hkey
      rw [hi] at h
      cases List.mem_singleton.1 h
    | false =>
      cases hagg : t.isAggregate with
      | true =>
        cases t with
        | aggregate m args type' =>
          rw [regroupTerm_aggregate hkey] at h
          cases List.mem_singleton.1 h
          exact ⟨rfl, m, args, Term.self_mem_subterms _, rfl⟩
        | _ => cases hagg
      | false =>
        obtain ⟨-, hchildren⟩ : _ ∧ (regroupTerm keys table t).children = _ :=
          regroupTerm_children hkey hagg
        rw [Term.mem_subterms, hchildren] at h
        rcases h with h | ⟨c, hc, hu⟩
        · have hself := hreads t t.self_mem_subterms
          unfold regroupTerm at h
          rw [findIdx?_not_key hkey] at h
          cases t with
          | tableColumn => exact absurd hself id
          | case branches otherwise => cases otherwise <;> cases h
          | aggregate => cases hagg
          | _ => cases h
        · obtain ⟨c', hc', rfl⟩ := List.mem_map.1 hc
          have hin {v : Term} (hv : v ∈ c'.subterms) : v ∈ t.subterms :=
            Term.mem_subterms.2 (.inr ⟨c', hc', hv⟩)
          obtain ⟨htable, m, args, hg, hname⟩ := ih c' hc' (fun u hu => hreads u (hin hu)) hu
          exact ⟨htable, m, args, hin hg, hname⟩

theorem accumulator_of_regrouped {t : Term} (hreads : ∀ u ∈ t.subterms, u.ReadsFrom leaves)
    {table' name : String} {type : DataType}
    (h : .tableColumn table' name type ∈ (regroupTerm keys table t).subterms) :
    table' = table ∧ ∃ g ∈ t.subterms, g.accumulator? = some name := by
  obtain ⟨htable, m, args, hg, hname⟩ := aggregate_of_regrouped hreads h
  exact ⟨htable, _, hg, congrArg some hname⟩

/-- The accumulators of the outputs of a block are columns of its grouping table. -/
theorem accumulator_mem_groupTable {q : BoundQuery} {b : BoundSelect} {t g : Term}
    (ht : t ∈ groupOutputs b q.orderBy) (hg : g ∈ t.subterms) {name : String}
    (hname : g.accumulator? = some name) : name ∈ (groupTable q b).map (·.name) := by
  have hmem := @mem_foldl_addAggregate_of ((groupOutputs b q.orderBy).flatMap Term.subterms) []
    name (.inl ⟨g, List.mem_flatMap.2 ⟨t, ht, hg⟩, hname⟩)
  obtain ⟨p, hp, rfl⟩ := List.mem_map.1 hmem
  rw [groupTable, groupColumns, number_names, List.map_append, List.map_map, List.map_map]
  exact List.mem_append_right _ (List.mem_map.2 ⟨p, hp, rfl⟩)

end Outputs

/-! ## Emitted nodes -/

section Emitted

variable {E : Setting} {before : List Node} {n : Node} {q : BoundQuery} {b : BoundSelect}
  {calls : List RefreshCall} {r : Relation}

theorem terms_project (hgrouped : b.isGrouped = false) (target : String) :
    (Node.populate (projectStep q b r target)).terms =
      r.scan.terms ++ readFrom r (sourceTerms b q.orderBy) := by
  cases h : b.filter <;>
    simp [Node.terms, Node.evaluates?, projectStep, sourceTerms, readFrom, hgrouped, h]

theorem terms_group (hgrouped : b.isGrouped = true) (table : String) :
    (Node.aggregate (groupStep b q.orderBy r calls table)).terms =
      r.scan.terms ++ readFrom r (sourceTerms b q.orderBy) := by
  cases h : b.filter <;>
    simp [Node.terms, Node.evaluates?, groupStep, sourceTerms, readFrom, hgrouped, h,
      List.flatMap_map, List.map_flatMap]

theorem updateTerms_populate (step : Populate) : (Node.populate step).updateTerms = [] := rfl

theorem updateTerms_group (table : String) :
    (Node.aggregate (groupStep b q.orderBy r calls table)).updateTerms =
      readFrom r (calls.flatMap (·.args)) := by
  simp [Node.updateTerms, groupStep, readFrom, List.flatMap_map, List.map_flatMap]

theorem mem_terms_score {table target : String} {t : Term}
    (h : t ∈ (Node.populate (scoreStep q b table target)).terms) :
    ∃ x ∈ groupOutputs b q.orderBy, t = regroupTerm (groupKeys b) table x := by
  simp only [Node.terms, Node.evaluates?, scoreStep, Option.elim_some, Scan.terms, List.nil_append,
    List.mem_append, List.mem_map, Option.mem_toList, Option.map_eq_some_iff] at h
  rcases h with (⟨x, hx, rfl⟩ | ⟨f, hf, rfl⟩) | ⟨_, ⟨k, hk, rfl⟩, rfl⟩
  · exact ⟨x, mem_having (by simpa using hx), rfl⟩
  · exact ⟨f.term, mem_fields hf, rfl⟩
  · exact ⟨k.term, mem_order hk, rfl⟩

/-- A sort key over an output reads the table that holds it. -/
theorem mem_terms_copy {keys : List String} {operator : SetOperator} {left right : BoundQuery}
    (hformed : q.Formed) (hbody : q.body = .setOperation operator keys left right)
    {table target : String} {t : Term}
    (h : t ∈ (Node.populate (copyStep q table target)).terms) :
    ∃ c ∈ q.output, t = .tableColumn table c.name c.type := by
  have hcombines : Combines keys left right q.orderBy q.output := by
    have hgives := hformed.gives
    rwa [hbody] at hgives
  simp only [Node.terms, Node.evaluates?, copyStep, Option.elim_some, Scan.terms, List.nil_append,
    Option.toList_none, List.mem_append, List.mem_map] at h
  rcases h with ⟨c, hc, rfl⟩ | ⟨_, ⟨k, hk, rfl⟩, rfl⟩
  · exact ⟨c, hc, rfl⟩
  · obtain ⟨c, hc, hterm⟩ := hcombines.order k hk
    refine ⟨c, List.mem_of_getElem? hc, ?_⟩
    rw [hterm]
    rfl

/-- A node reads columns only that are declared before it. -/
theorem Emitted.terms_declared (hE : E.Resolved) (h : Emitted E before n) :
    ∀ t ∈ n.terms, ReadsDeclared before t := by
  intro t ht
  cases h with
  | create | setMatch | rename => cases ht
  | @join q b calls src outer needs p ro l r table sources hq hb hpart hp houter hl hr htable =>
    have hblock := hE.block hq hb
    have hleft := hpart.left hp
    have hright := hpart.right hp
    have hnodup := hpart.nodup_leafAliases (hblock.distinct.sublist b.source.leafAliases_sublist)
    have hleaves : l.leaves ++ r.leaves = src.leafAliases := by
      rw [leafAliases_pair hp, hl.leaves, hr.leaves]
    rw [leafAliases_pair hp] at hnodup
    have hserves := serves_pair hnodup hl.leaves hr.leaves
      (hl.keeps hE.ordered (PartOf.bound hblock hleft.mem_parts))
      (hr.keeps hE.ordered (PartOf.bound hblock hright.mem_parts))
    rw [terms_join] at ht
    simp only [List.mem_append] at ht
    rcases ht with ((ht | ht) | ht) | ht
    · obtain ⟨x, hx, rfl⟩ := List.mem_map.1 ht
      have hreads := (reads_pair hp (hpart.reads hblock.sourceReads) needs).2.2 x hx
      exact readsDeclared_relocated
        (fun u hu => ⟨hreads u hu, inputs_covers_condition p needs hx hu⟩) (hserves ro.toList)
    · exact hl.scan_declared hE hq hb hleft houter t ht
    · exact hr.scan_declared hE hq hb hright (houter.around hl) t ht
    · have htrimmed := htable.trims hE.ordered (PartOf.bound hblock hpart.mem_parts) hleaves
      exact joinSelect_declared (le_inputs p needs) hl.leaves hr.leaves hp htrimmed (hserves []) t
        ht
  | project h hgrouped =>
    rw [terms_project hgrouped] at ht
    exact h.terms_declared hE t ht
  | aggregate h hgrouped =>
    rw [terms_group hgrouped] at ht
    exact h.terms_declared hE t ht
  | score h hgrouped htable =>
    obtain ⟨x, hx, rfl⟩ := mem_terms_score ht
    intro table' name type hu
    obtain ⟨rfl, g, hg, hname⟩ :=
      accumulator_of_regrouped (outputs_read (hE.block h.mem h.body) x hx) hu
    exact ⟨_, _, htable, accumulator_mem_groupTable hx hg hname⟩
  | copy hq hbody htable =>
    obtain ⟨c, hc, rfl⟩ := mem_terms_copy (hE.formed _ hq) hbody ht
    intro table' name type hu
    cases List.mem_singleton.1 hu
    exact ⟨_, _, htable.declared, List.mem_map_of_mem hc⟩

end Emitted

/-! ## Whole rows -/

/-- A step over a loop fills the table. -/
def IsJoinTable (ns : List Node) (table : String) : Prop := ∃ n ∈ ns, n.fillsJoin table = true

instance (ns : List Node) (table : String) : Decidable (IsJoinTable ns table) :=
  inferInstanceAs (Decidable (∃ n ∈ ns, n.fillsJoin table = true))

/-- The table is declared for a join or apply and filled by its step. -/
def HoldsPair (ns : List Node) (src : BoundSource) (table : String) : Prop :=
  ∃ p ro l r sources, src.pair? = some p ∧ l.leaves = p.left.leafAliases ∧
    r.leaves = p.right.leafAliases ∧ .create table (joinColumns sources) false ∈ ns ∧
    .populate (p.step table ro l r sources) ∈ ns

/-- Some of the terms hands the row of the alias to a method. -/
def HandsRow (ts : List Term) (a : String) : Prop :=
  ∃ t ∈ ts, ∃ u ∈ t.subterms, rowAlias? u = some a

instance (ts : List Term) (a : String) : Decidable (HandsRow ts a) :=
  inferInstanceAs (Decidable (∃ t ∈ ts, ∃ u ∈ t.subterms, rowAlias? u = some a))

section Rows

variable {E : Setting} {ns before : List Node} {n : Node} {q : BoundQuery} {b : BoundSelect}
  {calls : List RefreshCall} {src : BoundSource} {outer : Option (BoundSource × ColumnNeeds)}
  {needs : ColumnNeeds} {ro : Option Relation} {r : Relation} {scope : Nat}

theorem Planned.scan_isLoop (h : Planned E scope before ro src needs r) :
    r.scan.isLoop = false := by
  cases h <;> rfl

theorem IsJoinTable.declared (hsound : Sound E ns) {table : String} (h : IsJoinTable ns table) :
    ∃ columns k, .create table columns false ∈ ns ∧ table = numberedTable E.config k "join" := by
  obtain ⟨n, hmem, hfills⟩ := h
  obtain ⟨before, after, hns⟩ := List.append_of_mem hmem
  have hle : before ⊆ ns := hns ▸ List.subset_append_left _ _
  cases hsound before _ after hns with
  | join _ _ _ _ _ _ _ htable =>
    obtain ⟨rfl, -⟩ := by simpa [Node.fillsJoin] using hfills
    obtain ⟨k, hk⟩ := htable.named
    exact ⟨_, k, hle htable.declared, hk⟩
  | project h => simp [Node.fillsJoin, projectStep, h.planned.scan_isLoop] at hfills
  | score | copy => simp [Node.fillsJoin, scoreStep, copyStep, Scan.isLoop] at hfills
  | _ => cases hfills

theorem IsJoinTable.not_rowTable (hsound : Sound E ns) {table : String} {columns : List Column}
    (h : IsJoinTable ns table) : ¬ RowTable E before columns table := by
  rintro ⟨-, k, role, hrole, hname⟩
  obtain ⟨-, k', -, hname'⟩ := h.declared hsound
  exact hrole (numberedTable_role (hname.symm.trans hname'))

/-- A table that the scan of a part reads: that of a common table expression, or the table of a
    pair. -/
theorem Planned.scanned {al table : String} (h : Planned E scope before ro src needs r)
    (hscan : (al, table) ∈ r.scan.tables)
    (hrows : ∀ columns, ¬ RowTable E before columns table) :
    (∃ columns, src = .inMemory al table .cte columns) ∨
      src.aliasName = al ∧ r.table = some table ∧ HoldsPair before src table := by
  cases h with
  | schema | host => cases hscan
  | cte _ _ columns =>
    cases List.mem_singleton.1 hscan
    exact .inl ⟨columns, rfl⟩
  | subquery _ _ _ _ _ htable =>
    cases List.mem_singleton.1 hscan
    exact absurd htable (hrows _)
  | pair hp hl hr htable hfill =>
    cases List.mem_singleton.1 hscan
    exact .inr ⟨rfl, rfl, _, _, _, _, _, hp, hl.leaves, hr.leaves, htable.declared, hfill⟩

theorem handsRow_append {ts ts' : List Term} {a : String} :
    HandsRow (ts ++ ts') a ↔ HandsRow ts a ∨ HandsRow ts' a := by
  simp only [HandsRow, List.mem_append, or_and_right, exists_or]

/-- Redirected terms hand on the rows that the terms do. -/
theorem handsRow_of_relocated {relations : List Relation} {ts : List Term} {a : String}
    (h : HandsRow (ts.map (·.mapUp (relocateNode relations))) a) : HandsRow ts a := by
  obtain ⟨_, hmem, u, hu, ha⟩ := h
  obtain ⟨t, ht, rfl⟩ := List.mem_map.1 hmem
  obtain ⟨v, hv, rfl⟩ := mem_subterms_relocated hu
  exact ⟨t, ht, v, hv, rowAlias?_of_relocated ha⟩

theorem needsRow_of_covers {ts : List Term} {a : String}
    (hcovers : ∀ t ∈ ts, ∀ u ∈ t.subterms, needs.Covers u) (h : HandsRow ts a) :
    needs.needsRow a = true := by
  obtain ⟨t, ht, u, hu, ha⟩ := h
  have hcover := hcovers t ht u hu
  cases u with
  | call => exact hcover a ha
  | _ => cases ha

theorem not_handsRow_joinSelect {l r : Relation} {sources : List (String × Column)} {a : String} :
    ¬ HandsRow (joinSelect l r sources) a := by
  rintro ⟨t, ht, u, hu, ha⟩
  obtain ⟨s, -, rfl⟩ := List.mem_map.1 ht
  have hread (rel : Relation) : ∀ u ∈ (rel.read s.1 s.2).subterms, rowAlias? u = none := by
    intro u hu
    unfold Relation.read at hu
    split at hu <;> (obtain rfl := List.mem_singleton.1 hu; rfl)
  have hnone : rowAlias? u = none := by
    dsimp only at hu
    split at hu
    · exact hread l u hu
    · exact hread r u hu
  rw [hnone] at ha
  cases ha

/-- The node scans a table that holds a pair, and the table keeps every row that the terms hand on;
    or the node reads the table for a common table expression. -/
def RowsKept (E : Setting) (ns : List Node) (n : Node) (ts : List Term) (al table : String) :
    Prop :=
  ScansCte E.queries n al table ∨
  ∃ q ∈ E.queries, ∃ b, q.body = .select b ∧ ∃ src, StepOver q b src n ∧ src.aliasName = al ∧
    HoldsPair ns src table ∧ ∀ a, HandsRow ts a → ∀ cs, (a, cs) ∈ src.leaves → ∀ c ∈ cs,
      Declares ns table (qualifiedName a c.name)

theorem RowsKept.of_subset {ts ts' : List Term} (hsub : ts ⊆ ts') {al table : String}
    (h : RowsKept E ns n ts' al table) : RowsKept E ns n ts al table := by
  refine h.imp_right ?_
  rintro ⟨q, hq, b, hb, src, hstep, halias, hholds, hrows⟩
  exact ⟨q, hq, b, hb, src, hstep, halias, hholds, fun a ⟨t, ht, hu⟩ => hrows a ⟨t, hsub ht, hu⟩⟩

theorem HoldsPair.mono (hle : before ⊆ ns) {table : String} (h : HoldsPair before src table) :
    HoldsPair ns src table := by
  obtain ⟨p, ro, l, r, sources, hp, hl, hr, hcreate, hfill⟩ := h
  exact ⟨p, ro, l, r, sources, hp, hl, hr, hle hcreate, hle hfill⟩

/-- A part that was planned for the rows that some terms hand on. -/
theorem Planned.rowsKept (hE : E.Resolved) (hsound : Sound E ns) (hle : before ⊆ ns)
    (hq : q ∈ E.queries) (hb : q.body = .select b) (hstep : StepOver q b src n)
    (h : Planned E b.scope before ro src needs r) {al table : String}
    (hscan : (al, table) ∈ r.scan.tables) (hjoin : IsJoinTable ns table) {ts : List Term}
    (hneeds : r.scan.terms = [] → ∀ a ∈ src.leafAliases, HandsRow ts a → needs.needsRow a = true) :
    RowsKept E ns n ts al table := by
  rcases h.scanned hscan fun _ => hjoin.not_rowTable hsound with ⟨columns, rfl⟩ | hpair
  · exact .inl ⟨q, hq, b, hb, columns, hstep⟩
  · obtain ⟨halias, htable, hholds⟩ := hpair
    refine .inr ⟨q, hq, b, hb, src, hstep, halias, hholds.mono hle, fun a ha cs hcs c hc => ?_⟩
    have hterms : r.scan.terms = [] := by
      cases h <;> first
        | rfl
        | cases htable
    have hmem : a ∈ src.leafAliases := by
      rw [← src.map_leaves]
      exact List.mem_map_of_mem hcs
    have hkeeps := h.keeps hE.ordered (PartOf.bound (hE.block hq hb) hstep.mem_parts)
    exact (hkeeps table htable (a, cs) hcs c hc
      (ColumnNeeds.needs_of_row (hneeds hterms a hmem ha) c.name)).mono hle

theorem blockNeeds_covers_updates {c : RefreshCall} (hc : c ∈ calls) {order : List SortKey}
    {t u : Term} (ht : t ∈ c.args) (hu : u ∈ t.subterms) : (blockNeeds b order calls).Covers u :=
  ColumnNeeds.covers_addAll _ (List.mem_append_right _ (List.mem_flatMap.2 ⟨c, hc, ht⟩)) hu

/-- The source of a block is planned for the rows that its clauses and updates hand on. -/
theorem BlockPlanned.rowsKept (hE : E.Resolved) (hsound : Sound E ns) (hle : before ⊆ ns)
    (h : BlockPlanned E before q b calls r) (hstep : StepOver q b b.source n) {al table : String}
    (hscan : (al, table) ∈ r.scan.tables) (hjoin : IsJoinTable ns table) :
    RowsKept E ns n (r.scan.terms ++ readFrom r (sourceTerms b q.orderBy) ++
      readFrom r (calls.flatMap (·.args))) al table := by
  refine h.planned.rowsKept hE hsound hle h.mem h.body hstep hscan hjoin ?_
  intro hterms a _ ha
  rw [hterms, List.nil_append, handsRow_append] at ha
  rcases ha with ha | ha
  · refine needsRow_of_covers (fun t ht u hu => ?_) (handsRow_of_relocated ha)
    obtain ⟨clause, hclause, hin⟩ := sourceTerms_occur ht
    exact blockNeeds_covers calls hclause (Term.mem_subterms_trans hu hin)
  · refine needsRow_of_covers (fun t ht u hu => ?_) (handsRow_of_relocated ha)
    obtain ⟨c, hc, ht⟩ := List.mem_flatMap.1 ht
    exact blockNeeds_covers_updates hc ht hu

/-- The arguments on the left of a pair hand on rows from around the pair only. -/
theorem Planned.not_handsRow_outer {scope : Nat} (hroot : b.source.Reads [])
    (hnodup : b.source.leafAliases.Nodup)
    (hpart : PartOf b.source needs src outer needs') {p : Pair} (hp : src.pair? = some p)
    (h : Planned E scope before ro p.left (p.inputs needs') r) {a : String}
    (ha : a ∈ src.leafAliases) : ¬ HandsRow r.scan.terms a := by
  rintro ⟨t, ht, u, hu, halias⟩
  obtain ⟨x, -, rfl, hreads⟩ := h.mem_scan_terms ((hpart.left hp).reads hroot) ht
  obtain ⟨v, hv, rfl⟩ := mem_subterms_relocated hu
  have hread := hreads v hv
  have hrow := rowAlias?_of_relocated halias
  cases v with
  | call m args type =>
    obtain ⟨cs, hcs⟩ := hread a hrow
    cases outer with
    | none => cases hcs
    | some o =>
      refine hpart.disjoint_outer hnodup rfl ?_ ha
      rw [← o.1.map_leaves]
      exact List.mem_map_of_mem hcs
  | _ => cases hrow

/-- Where a step scans the table of a pair, the table keeps every row that the step hands on. -/
theorem Emitted.rowsKept (hE : E.Resolved) (hsound : Sound E ns) (hle : before ⊆ ns)
    (h : Emitted E before n) {al table : String} (hscan : (al, table) ∈ n.scans)
    (hjoin : IsJoinTable ns table) : RowsKept E ns n (n.terms ++ n.updateTerms) al table := by
  cases h with
  | create | setMatch | rename => cases hscan
  | @join q b calls src outer needs p ro l r target sources hq hb hpart hp houter hl hr htable =>
    have hblock := hE.block hq hb
    have hnodup := hblock.distinct.sublist b.source.leafAliases_sublist
    have hcondition {a : String} (ha : HandsRow (p.condition.toList.map
        (·.mapUp (relocateNode ([l, r] ++ ro.toList)))) a) : (p.inputs needs).needsRow a = true :=
      needsRow_of_covers (fun t ht u hu => inputs_covers_condition p needs ht hu)
        (handsRow_of_relocated ha)
    have hleft {a : String} (ha : a ∈ src.leafAliases) : ¬ HandsRow l.scan.terms a :=
      hl.not_handsRow_outer hblock.sourceReads hnodup hpart hp ha
    have hright {a : String} (ha : HandsRow r.scan.terms a) :
        (p.inputs needs).needsRow a = true := by
      obtain ⟨t, ht, u, hu, halias⟩ := ha
      obtain ⟨x, hx, rfl, -⟩ := hr.mem_scan_terms ((hpart.right hp).reads hblock.sourceReads) ht
      obtain ⟨v, hv, rfl⟩ := mem_subterms_relocated hu
      exact needsRow_of_covers (fun t ht u hu => ColumnNeeds.covers_addAll _ ht hu)
        ⟨x, hx, v, hv, rowAlias?_of_relocated halias⟩
    have hneeds {a : String} (hmem : a ∈ p.left.leafAliases ++ p.right.leafAliases) (ha : HandsRow
        ((Node.populate (p.step target ro l r sources)).terms ++ []) a) :
        (p.inputs needs).needsRow a = true := by
      rw [List.append_nil, terms_join] at ha
      simp only [handsRow_append] at ha
      rcases ha with ((ha | ha) | ha) | ha
      · exact hcondition ha
      · exact absurd ha (hleft (leafAliases_pair hp ▸ hmem))
      · exact hright ha
      · exact absurd ha not_handsRow_joinSelect
    change _ ∈ l.scan.tables ++ r.scan.tables at hscan
    rcases List.mem_append.1 hscan with hscan | hscan
    · exact hl.rowsKept hE hsound hle hq hb (.left hpart.mem_parts hp) hscan hjoin
        fun _ a hmem ha => hneeds (List.mem_append_left _ hmem) ha
    · exact hr.rowsKept hE hsound hle hq hb (.right hpart.mem_parts hp) hscan hjoin
        fun _ a hmem ha => hneeds (List.mem_append_right _ hmem) ha
  | project h hgrouped =>
    rw [terms_project hgrouped]
    exact (h.rowsKept hE hsound hle .project hscan hjoin).of_subset
      (List.append_subset.2 ⟨List.subset_append_left _ _, List.nil_subset _⟩)
  | @aggregate q b calls r target h hgrouped =>
    rw [terms_group hgrouped, updateTerms_group]
    exact h.rowsKept hE hsound hle .aggregate hscan hjoin
  | score h hgrouped htable =>
    cases List.mem_singleton.1 hscan
    obtain ⟨columns, k, hcreate, -⟩ := hjoin.declared hsound
    -- a table is declared once, for groups or for a join
    have hsame := List.inj_on_of_nodup_map hsound.nodup (mem_declared.2 (hle htable))
      (mem_declared.2 hcreate) rfl
    cases hsame
  | copy hq hbody htable =>
    cases List.mem_singleton.1 hscan
    exact absurd htable (hjoin.not_rowTable hsound)

end Rows

/-! ## Plans -/

/-- The declaration of a table in the plan has a column of that name. -/
def HasColumn (plan : Plan) (table name : String) : Prop :=
  ∃ columns, plan.columnsOf? table = some columns ∧ ∃ c ∈ columns, c.name = name

theorem hasColumn_of_declares {E : Setting} {plan : Plan} (hsound : Sound E plan.nodes)
    {table name : String} (h : Declares plan.nodes table name) : plan.HasColumn table name := by
  obtain ⟨columns, forGrouping, hcreate, hname⟩ := h
  exact ⟨columns, columnsOf?_of_create hsound hcreate, List.mem_map.1 hname⟩

/-- Every column that the plan of a resolved query reads from a table is declared there. A table
    that holds a join or apply has all columns of each of its leaves whose row is handed to a method
    by a step that scans the table, unless a common table expression has the name of the table and
    the step reads the table for it. -/
theorem ofQuery_hasColumns {env : Resolve.Env} {q : Query} {a : Resolve.Analysis}
    {requests : List TableRequest} (ha : Resolve.analyze env q = (.ok a, requests))
    {config : PlanConfig} {plan : Plan} {scopes : Scopes}
    (h : ofQuery config a.scopes a.query = .ok (plan, scopes)) {n : Node} (hn : n ∈ plan.nodes) :
    (∀ t ∈ n.terms, ∀ table name type, .tableColumn table name type ∈ t.subterms →
      plan.HasColumn table name) ∧
    ∀ al table, (al, table) ∈ n.scans → IsJoinTable plan.nodes table →
      ScansCte a.query.queries n al table ∨
      ∃ q ∈ a.query.queries, ∃ b, q.body = .select b ∧ ∃ src, StepOver q b src n ∧
        src.aliasName = al ∧ HoldsPair plan.nodes src table ∧
        ∀ leaf, HandsRow (n.terms ++ n.updateTerms) leaf → ∀ columns,
          (leaf, columns) ∈ src.leaves → ∀ c ∈ columns,
            plan.HasColumn table (qualifiedName leaf c.name) := by
  obtain ⟨hsound, -⟩ := ofQuery_sound ha h
  have hE := resolved_of_analyze ha config
  obtain ⟨before, after, hnodes⟩ := List.append_of_mem hn
  have hemitted := hsound before n after hnodes
  have hle : before ⊆ plan.nodes := hnodes ▸ List.subset_append_left _ _
  constructor
  · intro t ht table name type hu
    exact hasColumn_of_declares hsound ((hemitted.terms_declared hE t ht _ _ _ hu).mono hle)
  · intro al table hscan hjoin
    refine (hemitted.rowsKept hE hsound hle hscan hjoin).imp_right ?_
    rintro ⟨q, hq, b, hb, src, hstep, halias, hholds, hrows⟩
    exact ⟨q, hq, b, hb, src, hstep, halias, hholds, fun leaf hleaf columns hcs c hc =>
      hasColumn_of_declares hsound (hrows leaf hleaf columns hcs c hc)⟩

/-- Stands for `select a.Describe(), b.Amount from #A.entities() a inner join #B.orders() b
    on a.Id = b.PersonId` -/
def describedOrders : Query :=
  .ofSelect (((Select.empty.addExpr (.ofQualifiedCall "a" "Describe" [])).addExpr
    (.ofColumn "b" "Amount")).withSource
      (.join .inner (Sample.entitiesAs "a") (Sample.ordersAs "b")
        (.equals (.ofColumn "a" "Id") (.ofColumn "b" "PersonId"))))

/-- Stands for `with "__t0_join" as (select a.Name from #A.entities() a inner join #B.orders() b
    on a.Id = b.PersonId) select a.GetTypeName() from "__t0_join" a` -/
def namedLikeJoin : Query :=
  (Query.ofSelect ((Select.empty.addExpr (.ofQualifiedCall "a" "GetTypeName" [])).withSource
    ((Source.ofMemory "__t0_join").withAlias "a"))).withCtes
    [⟨"__t0_join", [], .ofSelect ((Select.empty.addExpr (.ofColumn "a" "Name")).withSource
      (.join .inner (Sample.entitiesAs "a") (Sample.ordersAs "b")
        (.equals (.ofColumn "a" "Id") (.ofColumn "b" "PersonId"))))⟩]

/-- The last step of `describedOrders` hands rows of people to a method, so the join table has a
    column that nothing in the query names. The last step of `namedLikeJoin` reads a join table that
    lacks it for the common table expression of that name. -/
theorem ofQuery_hasColumns_describedOrders :
    (∃ analysis requests plan scopes,
      Resolve.analyze ⟨Sample.catalog, default⟩ describedOrders = (.ok analysis, requests) ∧
      ofQuery default analysis.scopes analysis.query = .ok (plan, scopes) ∧
      (∃ n ∈ plan.nodes, ("a+b", "__t0_join") ∈ n.scans ∧ HandsRow n.terms "a") ∧
      IsJoinTable plan.nodes "__t0_join" ∧ plan.HasColumn "__t0_join" "a.Self") ∧
    ∃ analysis requests plan scopes,
      Resolve.analyze ⟨Sample.catalog, default⟩ namedLikeJoin = (.ok analysis, requests) ∧
      ofQuery default analysis.scopes analysis.query = .ok (plan, scopes) ∧
      (∃ n ∈ plan.nodes, ("a", "__t0_join") ∈ n.scans ∧ HandsRow n.terms "a" ∧
        ScansCte analysis.query.queries n "a" "__t0_join") ∧
      IsJoinTable plan.nodes "__t0_join" ∧ ¬ plan.HasColumn "__t0_join" "a.Self" := by
  constructor
  · obtain ⟨analysis, requests, plan, scopes, h, hplan, hcheck⟩ := exists_plan_of_check
      ⟨Sample.catalog, default⟩ default describedOrders (fun a plan => decide
        ((∃ n ∈ plan.nodes, ("a+b", "__t0_join") ∈ n.scans ∧ HandsRow n.terms "a") ∧
          IsJoinTable plan.nodes "__t0_join" ∧
          ∀ b ∈ BoundQuery.blocksOf a.query.queries, ∀ src ∈ b.source.parts,
            src.aliasName = "a+b" → src.isLeaf = false ∧
              ∃ l ∈ src.leaves, l.1 = "a" ∧ ∃ c ∈ l.2, c.name = "Self"))
      (by decide +kernel)
    obtain ⟨⟨n, hn, hscan, hhands⟩, htable, hparts⟩ := of_decide_eq_true hcheck
    refine ⟨analysis, requests, plan, scopes, h, hplan, ⟨n, hn, hscan, hhands⟩, htable, ?_⟩
    rcases (ofQuery_hasColumns h hplan hn).2 _ _ hscan htable with
      ⟨q, hq, b, hb, columns, hstep⟩ | ⟨q, hq, b, hb, src, hstep, halias, -, hrows⟩
    · cases (hparts _ (BoundQuery.mem_blocksOf hq hb) _ hstep.mem_parts rfl).1
    · obtain ⟨-, ⟨_, columns⟩, hl, rfl, c, hc, hname⟩ :=
        hparts _ (BoundQuery.mem_blocksOf hq hb) src hstep.mem_parts halias
      have hhas := hrows "a" (handsRow_append.2 (.inl hhands)) columns hl c hc
      rwa [hname] at hhas
  · obtain ⟨analysis, requests, plan, scopes, h, hplan, hcheck⟩ := exists_plan_of_check
      ⟨Sample.catalog, default⟩ default namedLikeJoin (fun a plan => decide
        ((∃ n ∈ plan.nodes, ("a", "__t0_join") ∈ n.scans ∧ HandsRow n.terms "a") ∧
          IsJoinTable plan.nodes "__t0_join" ∧
          (∃ columns ∈ plan.columnsOf? "__t0_join", ∀ c ∈ columns, c.name ≠ "a.Self") ∧
          ∀ b ∈ BoundQuery.blocksOf a.query.queries, ∀ src ∈ b.source.parts,
            src.aliasName = "a" → src.pair?.isNone))
      (by decide +kernel)
    obtain ⟨⟨n, hn, hscan, hhands⟩, htable, ⟨columns, hcolumns, hlacks⟩, hparts⟩ :=
      of_decide_eq_true hcheck
    refine ⟨analysis, requests, plan, scopes, h, hplan, ⟨n, hn, hscan, hhands, ?_⟩, htable, ?_⟩
    · refine ((ofQuery_hasColumns h hplan hn).2 _ _ hscan htable).resolve_right ?_
      rintro ⟨q, hq, b, hb, src, hstep, halias, ⟨p, _, _, _, _, hp, -⟩, -⟩
      have hnone := hparts _ (BoundQuery.mem_blocksOf hq hb) src hstep.mem_parts halias
      rw [hp] at hnone
      cases hnone
    · rintro ⟨columns', hcolumns', c, hc, hname⟩
      cases hcolumns.symm.trans hcolumns'
      exact hlacks c hc hname

end SchemaQuery.Plan
