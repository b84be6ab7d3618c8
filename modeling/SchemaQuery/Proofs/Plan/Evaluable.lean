-- SUMMARY: When every step has at hand what its terms read: unless a join inside an apply reads the other side of the apply.
import SchemaQuery.Proofs.Plan.Complete
import SchemaQuery.Proofs.Plan.GroupOutputs
import SchemaQuery.Proofs.Plan.ReadNames

/-!
# Steps that can evaluate their terms

A term of a step reads columns of the aliases that the step scans, and columns of
the tables that it scans. The arguments of a schema table are evaluated before the
table is read, so they have only what stands on the left of the loop around it.

The right side of an apply may read the left side. Where it is a schema table the
two meet in one loop, but a join or apply on the right side is filled by a step of
its own, which does not scan the left side. Such a step cannot evaluate arguments
that read columns from around it (`BoundSource.ReadsOutward`). All other steps can
evaluate their terms (`Emitted.evaluable`).
-/

namespace SchemaQuery

namespace BoundSource

/-- The arguments in a source that read what is around it. -/
def openArguments : BoundSource → List Term
  | .schema _ _ _ args _ _ => args
  | .inMemory .. | .subquery .. => []
  | .join _ _ left right _ => left.openArguments ++ right.openArguments
  | .apply _ _ left _ => left.openArguments

/-- A join or apply with an argument that reads a column from around it. -/
def ReadsOutward (src : BoundSource) : Prop :=
  src.isLeaf = false ∧
    ∃ t ∈ src.openArguments, ∃ u ∈ t.subterms, u.columnAlias?.isSome = true

instance (src : BoundSource) : Decidable src.ReadsOutward :=
  inferInstanceAs (Decidable (_ ∧ _))

/-- The right side of an apply. -/
def applied? : BoundSource → Option BoundSource
  | .apply _ _ _ right => some right
  | _ => none

/-- The right sides of the applies in a source that read outward. -/
def outwardSides (src : BoundSource) : List BoundSource :=
  (src.parts.filterMap applied?).filter (·.ReadsOutward)

theorem mem_outwardSides {src right : BoundSource} : right ∈ src.outwardSides ↔
    (∃ a kind left, .apply a kind left right ∈ src.parts) ∧ right.ReadsOutward := by
  rw [outwardSides, List.mem_filter, List.mem_filterMap, decide_eq_true_eq]
  refine and_congr_left fun _ => ⟨?_, ?_⟩
  · rintro ⟨s, hs, happlied⟩
    cases s <;> cases happlied
    exact ⟨_, _, _, hs⟩
  · rintro ⟨a, kind, left, hs⟩
    exact ⟨_, hs, rfl⟩

end BoundSource

namespace Plan

/-! ## Terms at hand -/

namespace Scan

/-- The aliases under which a scan gives its rows. -/
def aliases : Scan → List String
  | .schema aliasName _ _ _ | .inMemory aliasName _ | .transition aliasName _ => [aliasName]
  | .loop _ left right _ _ => left.aliases ++ right.aliases

/-- The terms in a scan, each with the aliases that have a row where the term is evaluated: `seen`
    and, on the right side of a loop, those of the left side. -/
def placedTerms (seen : List String) : Scan → List (List String × Term)
  | .schema _ _ _ args => args.map fun t => (seen, t)
  | .inMemory .. | .transition .. => []
  | .loop _ left right predicate _ =>
    predicate.toList.map (fun t => (seen ++ left.aliases ++ right.aliases, t)) ++
      left.placedTerms seen ++ right.placedTerms (seen ++ left.aliases)

end Scan

/-- All columns that a term reads are columns of the aliases or of the tables. -/
def AtHand (aliases tables : List String) (t : Term) : Prop :=
  ∀ u ∈ t.subterms, (∀ a ∈ u.columnAlias?, a ∈ aliases) ∧ ∀ c ∈ u.tableColumn?, c.1 ∈ tables

instance (aliases tables : List String) (t : Term) : Decidable (AtHand aliases tables t) :=
  inferInstanceAs (Decidable (∀ u ∈ t.subterms, _ ∧ _))

namespace Node

/-- The terms of a step, each with the aliases that have a row where the term is evaluated. -/
def placedTerms (n : Node) : List (List String × Term) :=
  n.evaluates?.elim [] fun (scan, ts) =>
    scan.placedTerms [] ++ (ts ++ n.updateTerms).map fun t => (scan.aliases, t)

/-- The step has everything at hand that its terms read. -/
def Evaluable (n : Node) : Prop :=
  ∀ p ∈ n.placedTerms, AtHand p.1 (n.scans.map (·.2)) p.2

instance (n : Node) : Decidable n.Evaluable :=
  inferInstanceAs (Decidable (∀ p ∈ n.placedTerms, _))

/-- The node fills the table of a join or apply that is part of the source. -/
def FillsPartOf (n : Node) (root : BoundSource) : Prop :=
  ∃ src ∈ root.parts, ∃ p table ro l r sources, src.pair? = some p ∧
    n = .populate (p.step table ro l r sources)

end Node

/-! ## Redirected terms -/

section Redirected

variable {aliases tables : List String} {relations : List Relation}

/-- What a relation holds is among the aliases and tables. -/
structure Relation.Given (aliases tables : List String) (r : Relation) : Prop where
  table : ∀ t ∈ r.table, t ∈ tables
  leaves : r.table = none → ∀ a ∈ r.leaves, a ∈ aliases

theorem Relation.Given.mono {aliases' tables' : List String} {r : Relation}
    (h : r.Given aliases tables) (ha : aliases ⊆ aliases') (ht : tables ⊆ tables') :
    r.Given aliases' tables' :=
  ⟨fun t hmem => ht (h.table t hmem), fun hnone a hmem => ha (h.leaves hnone a hmem)⟩

theorem mem_leaves_of_find? {r : Relation} {a : String}
    (h : relations.find? (·.carries a) = some r) : a ∈ r.leaves := by
  have hcarries := List.find?_some h
  simpa [Relation.carries] using hcarries

/-- A redirected term is at hand if each of its columns is found in a relation at hand. -/
theorem atHand_relocated {t : Term} {leaves : List (String × List Column)}
    (hreads : ∀ u ∈ t.subterms, u.ReadsFrom leaves)
    (hfound : ∀ u ∈ t.subterms, ∀ a ∈ u.columnAlias?,
      ∃ r, relations.find? (·.carries a) = some r ∧ r.Given aliases tables) :
    AtHand aliases tables (t.mapUp (relocateNode relations)) := by
  intro u hu
  obtain ⟨v, hv, rfl⟩ := mem_subterms_relocated hu
  have hread := hreads v hv
  cases v with
  | column a n o q type =>
    obtain ⟨r, hr, hgiven⟩ := hfound _ hv a rfl
    cases htable : r.table with
    | none =>
      have hmem := hgiven.leaves htable a (mem_leaves_of_find? hr)
      simpa [Term.mapUp, relocateNode, hr, htable, Term.columnAlias?, Term.tableColumn?] using hmem
    | some table =>
      have hmem := hgiven.table table htable
      simpa [Term.mapUp, relocateNode, hr, htable, Term.columnAlias?, Term.tableColumn?] using hmem
  | tableColumn => exact absurd hread id
  | case branches otherwise =>
    cases otherwise <;> simp [Term.mapUp, relocateNode, Term.columnAlias?, Term.tableColumn?]
  | _ => simp [Term.mapUp, relocateNode, Term.columnAlias?, Term.tableColumn?]

/-- A term without columns can be evaluated anywhere. -/
theorem atHand_of_no_column {t : Term} {leaves : List (String × List Column)}
    (hreads : ∀ u ∈ t.subterms, u.ReadsFrom leaves)
    (hnone : ∀ u ∈ t.subterms, u.columnAlias? = none) :
    AtHand aliases tables (t.mapUp (relocateNode relations)) := by
  refine atHand_relocated hreads fun u hu a ha => ?_
  rw [hnone u hu] at ha
  cases ha

theorem find?_of_mem_leaves {r : Relation} {a : String} (h : a ∈ r.leaves)
    (rest : List Relation) : (r :: rest).find? (·.carries a) = some r := by
  have hcarries : r.carries a = true := by simpa [Relation.carries] using h
  rw [List.find?_cons, hcarries]

/-- A column of a leaf is one of its alias. -/
theorem mem_of_readsFrom {u : Term} {leaves : List (String × List Column)}
    (hread : u.ReadsFrom leaves) {a : String} (ha : a ∈ u.columnAlias?) :
    a ∈ leaves.map (·.1) := by
  cases u with
  | column =>
    cases ha
    obtain ⟨cs, hcs, -⟩ := hread
    exact List.mem_map_of_mem hcs
  | _ => cases ha

theorem columnAlias?_of_readsFrom_nil {u : Term} (hread : u.ReadsFrom []) :
    u.columnAlias? = none := by
  cases u with
  | column =>
    obtain ⟨_, hcs, -⟩ := hread
    cases hcs
  | _ => rfl

end Redirected

/-! ## Planned sources -/

section Planned

variable {E : Setting} {scope : Nat} {before : List Node} {ro : Option Relation}
  {src : BoundSource} {needs : ColumnNeeds} {r : Relation}

/-- The scan of a planned source gives what its relation holds. -/
theorem Planned.given (h : Planned E scope before ro src needs r) :
    r.Given r.scan.aliases (r.scan.tables.map (·.2)) := by
  cases h with
  | pair => exact ⟨by simp [Relation.transition, Scan.tables], by simp [Relation.transition]⟩
  | _ => exact ⟨by simp [Relation.leaf], fun _ _ ha => ha⟩

/-- The terms in the scan of a part are its open arguments, redirected to what is around it. -/
theorem Planned.mem_placedTerms {leaves : List (String × List Column)}
    (h : Planned E scope before ro src needs r) (hreads : src.Reads leaves) {seen : List String}
    {q : List String × Term} (hq : q ∈ r.scan.placedTerms seen) :
    q.1 = seen ∧ ∃ x ∈ src.openArguments, q.2 = x.mapUp (relocateNode ro.toList) ∧
      ∀ u ∈ x.subterms, u.ReadsFrom leaves := by
  cases h with
  | schema _ a schema method args =>
    obtain ⟨t, ht, rfl⟩ := List.mem_map.1 hq
    obtain ⟨x, hx, rfl⟩ := List.mem_map.1 ht
    exact ⟨rfl, x, hx, rfl, hreads x hx⟩
  | _ => cases hq

end Planned

/-! ## Parts inside an apply -/

section Parts

variable {root src : BoundSource} {needs n : ColumnNeeds} {p : Pair}
  {outer : Option (BoundSource × ColumnNeeds)}

theorem openArguments_left (hp : src.pair? = some p) :
    p.left.openArguments ⊆ src.openArguments := by
  cases src <;> cases hp
  · exact List.subset_append_left _ _
  · exact List.Subset.refl _

theorem openArguments_right (hp : src.pair? = some p) (hkind : p.kind.isApply = false) :
    p.right.openArguments ⊆ src.openArguments := by
  cases src with
  | join a kind left right condition =>
    cases hp
    exact List.subset_append_right _ _
  | apply a kind left right =>
    cases hp
    cases kind <;> cases hkind
  | _ => cases hp

theorem isLeaf_of_pair (hp : src.pair? = some p) : src.isLeaf = false := by
  cases src <;> cases hp <;> rfl

theorem eq_apply_of_pair (hp : src.pair? = some p) (hkind : p.kind.isApply = true) :
    ∃ a kind, src = .apply a kind p.left p.right := by
  cases src with
  | join a kind left right condition =>
    cases hp
    cases kind <;> cases hkind
  | apply a kind left right =>
    cases hp
    exact ⟨a, kind, rfl⟩
  | _ => cases hp

/-- What is around a part is the left side of an apply, and the part stands on the right side, where
    its arguments read the left one. -/
theorem PartOf.in_apply {o : BoundSource} {no : ColumnNeeds} (h : PartOf root needs src outer n)
    (ho : outer = some (o, no)) : ∃ a kind right, .apply a kind o right ∈ root.parts ∧
      src ∈ right.parts ∧ src.openArguments ⊆ right.openArguments := by
  induction h with
  | root => cases ho
  | @left src outer n p h hp ih =>
    obtain ⟨a, kind, right, happly, hsrc, hopen⟩ := ih ho
    exact ⟨a, kind, right, happly, BoundSource.parts_subset hsrc (left_mem_parts hp),
      List.Subset.trans (openArguments_left hp) hopen⟩
  | @right src outer n p h hp ih =>
    cases hkind : p.kind.isApply with
    | true =>
      obtain ⟨a, kind, rfl⟩ := eq_apply_of_pair hp hkind
      simp only [Pair.around, hkind, if_true] at ho
      cases ho
      exact ⟨a, kind, p.right, h.mem_parts, p.right.self_mem_parts, List.Subset.refl _⟩
    | false =>
      simp only [Pair.around, hkind] at ho
      obtain ⟨a, kind, right, happly, hsrc, hopen⟩ := ih ho
      exact ⟨a, kind, right, happly, BoundSource.parts_subset hsrc (right_mem_parts hp),
        List.Subset.trans (openArguments_right hp hkind) hopen⟩

theorem reads_openArguments {leaves : List (String × List Column)} (h : src.Reads leaves) :
    ∀ t ∈ src.openArguments, ∀ u ∈ t.subterms, u.ReadsFrom leaves := by
  induction src using BoundSource.treeInduction with
  | schema => exact h
  | inMemory | subquery =>
    intro t ht
    cases ht
  | join _ _ _ _ _ ihl ihr =>
    intro t ht
    rcases List.mem_append.1 ht with ht | ht
    · exact ihl h.1 t ht
    · exact ihr h.2.1 t ht
  | apply _ _ _ _ ihl => exact ihl h.1

/-- A part is a pair only of a source that is no leaf. -/
theorem isLeaf_of_mem_parts (hsrc : src ∈ root.parts) (hleaf : src.isLeaf = false) :
    root.isLeaf = false := by
  cases root with
  | join | apply => rfl
  | _ =>
    obtain rfl := List.mem_singleton.1 hsrc
    exact hleaf

end Parts

/-! ## Steps -/

section Steps

variable {q : BoundQuery} {b : BoundSelect} {calls : List RefreshCall} {p : Pair} {l r : Relation}

theorem placedTerms_join (table : String) (ro : Option Relation)
    (sources : List (String × Column)) :
    (Node.populate (p.step table ro l r sources)).placedTerms =
      (p.condition.toList.map (·.mapUp (relocateNode ([l, r] ++ ro.toList)))).map
          (fun t => (l.scan.aliases ++ r.scan.aliases, t)) ++
        l.scan.placedTerms [] ++ r.scan.placedTerms l.scan.aliases ++
        (joinSelect l r sources).map fun t => (l.scan.aliases ++ r.scan.aliases, t) := by
  cases h : p.condition <;>
    simp [Node.placedTerms, Node.evaluates?, Node.updateTerms, Pair.step, joinStep,
      Scan.placedTerms, Scan.aliases, h]

theorem scans_join (table : String) (ro : Option Relation) (sources : List (String × Column)) :
    (Node.populate (p.step table ro l r sources)).scans.map (·.2) =
      l.scan.tables.map (·.2) ++ r.scan.tables.map (·.2) := by
  simp [Node.scans, Node.evaluates?, Pair.step, joinStep, Scan.tables]

theorem placedTerms_project (hgrouped : b.isGrouped = false) (target : String) :
    (Node.populate (projectStep q b r target)).placedTerms = r.scan.placedTerms [] ++
      (readFrom r (sourceTerms b q.orderBy)).map fun t => (r.scan.aliases, t) := by
  cases h : b.filter <;>
    simp [Node.placedTerms, Node.evaluates?, Node.updateTerms, projectStep, sourceTerms, readFrom,
      hgrouped, h]

theorem placedTerms_group (hgrouped : b.isGrouped = true) (table : String) :
    (Node.aggregate (groupStep b q.orderBy r calls table)).placedTerms = r.scan.placedTerms [] ++
      (readFrom r (sourceTerms b q.orderBy) ++ readFrom r (calls.flatMap (·.args))).map
        fun t => (r.scan.aliases, t) := by
  cases h : b.filter <;>
    simp [Node.placedTerms, Node.evaluates?, Node.updateTerms, groupStep, sourceTerms, readFrom,
      hgrouped, h, List.flatMap_map, List.map_flatMap]

end Steps

theorem Scan.mem_terms_of_placed {seen : List String} {scan : Scan} {q : List String × Term}
    (h : q ∈ scan.placedTerms seen) : q.2 ∈ scan.terms := by
  induction scan generalizing seen with
  | schema a schema method args =>
    obtain ⟨t, ht, rfl⟩ := List.mem_map.1 h
    exact ht
  | inMemory | transition => cases h
  | loop kind left right predicate padding ihl ihr =>
    simp only [Scan.placedTerms, List.mem_append, List.mem_map] at h
    simp only [Scan.terms, List.mem_append]
    rcases h with (⟨t, ht, rfl⟩ | h) | h
    · exact .inl (.inl ht)
    · exact .inl (.inr (ihl h))
    · exact .inr (ihr h)

theorem Node.mem_terms_of_placed {n : Node} {q : List String × Term} (h : q ∈ n.placedTerms) :
    q.2 ∈ n.terms ++ n.updateTerms := by
  unfold Node.placedTerms at h
  unfold Node.terms
  cases hevaluates : n.evaluates? with
  | none =>
    rw [hevaluates] at h
    cases h
  | some e =>
    simp only [hevaluates, Option.elim_some, List.mem_append, List.mem_map] at h ⊢
    rcases h with h | ⟨t, ht, rfl⟩
    · exact .inl (.inl (Scan.mem_terms_of_placed h))
    · exact ht.imp_left .inr

/-! ## Blocks -/

section Block

variable {E : Setting} {before : List Node} {q : BoundQuery} {b : BoundSelect}
  {calls : List RefreshCall} {r : Relation}

/-- Outside an apply, the arguments of a source read nothing. -/
theorem BlockPlanned.atHand_scan (hE : E.Resolved) (h : BlockPlanned E before q b calls r) :
    ∀ x ∈ r.scan.placedTerms [], AtHand x.1 (r.scan.tables.map (·.2)) x.2 := by
  intro x hx
  obtain ⟨-, t, -, ht, hreads⟩ := h.planned.mem_placedTerms (hE.block h.mem h.body).sourceReads hx
  rw [ht]
  exact atHand_of_no_column hreads fun u hu => columnAlias?_of_readsFrom_nil (hreads u hu)

/-- The clauses of a block read its source. -/
theorem BlockPlanned.atHand_clauses (hE : E.Resolved) (h : BlockPlanned E before q b calls r) :
    ∀ t ∈ readFrom r (sourceTerms b q.orderBy),
      AtHand r.scan.aliases (r.scan.tables.map (·.2)) t := by
  intro t ht
  obtain ⟨x, hx, rfl⟩ := List.mem_map.1 ht
  obtain ⟨clause, hclause, hin⟩ := sourceTerms_occur hx
  have hreads : ∀ u ∈ x.subterms, u.ReadsFrom b.source.leaves := fun u hu =>
    (hE.block h.mem h.body).reads clause hclause u (Term.mem_subterms_trans hu hin)
  refine atHand_relocated hreads fun u hu a ha => ?_
  have hmem : a ∈ r.leaves := by
    rw [h.planned.leaves, ← b.source.map_leaves]
    exact mem_of_readsFrom (hreads u hu) ha
  exact ⟨r, find?_of_mem_leaves hmem [], h.planned.given⟩

/-- The updates of a block read its source, as a grouping step found their columns there. -/
theorem BlockPlanned.atHand_updates (hE : E.Resolved) (h : BlockPlanned E before q b calls r)
    (hupdates : ∀ t ∈ calls.flatMap (·.args), Located [r] t) :
    ∀ t ∈ readFrom r (calls.flatMap (·.args)),
      AtHand r.scan.aliases (r.scan.tables.map (·.2)) t := by
  intro t ht
  obtain ⟨x, hx, rfl⟩ := List.mem_map.1 ht
  obtain ⟨c, hc, hxc⟩ := List.mem_flatMap.1 hx
  obtain ⟨leaves, hreads⟩ := updates_read hE h.mem h.body h.registered hc
  refine atHand_relocated (hreads x hxc) fun u hu a ha => ?_
  have hlocated := hupdates x hx u hu
  have hmem : a ∈ r.leaves := by
    cases u with
    | column =>
      cases ha
      by_contra hnot
      simp [detached?, Relation.carries, hnot] at hlocated
    | _ => cases ha
  exact ⟨r, find?_of_mem_leaves hmem [], h.planned.given⟩

end Block

/-! ## Joins -/

section Join

variable {E : Setting} {before : List Node} {scope : Nat} {src : BoundSource} {p : Pair}
  {needs : ColumnNeeds} {ro : Option Relation} {l r : Relation} {aliases tables : List String}

/-- A column of one of the sides is found there, before what is around the pair. -/
theorem find?_pair (hl : l.Given aliases tables) (hr : r.Given aliases tables) {a : String}
    (ha : a ∈ l.leaves ++ r.leaves) (rest : List Relation) :
    ∃ r', ([l, r] ++ rest).find? (·.carries a) = some r' ∧ r'.Given aliases tables := by
  by_cases hleft : a ∈ l.leaves
  · exact ⟨l, find?_of_mem_leaves hleft (r :: rest), hl⟩
  · have hright : a ∈ r.leaves := (List.mem_append.1 ha).resolve_left hleft
    have hnot : l.carries a = false := by simpa [Relation.carries] using hleft
    refine ⟨r, ?_, hr⟩
    rw [List.cons_append, List.find?_cons, hnot]
    exact find?_of_mem_leaves hright rest

/-- What the two sides give is at hand in the loop over both. -/
theorem given_pair (hl : l.Given l.scan.aliases (l.scan.tables.map (·.2)))
    (hr : r.Given r.scan.aliases (r.scan.tables.map (·.2))) :
    l.Given (l.scan.aliases ++ r.scan.aliases)
        (l.scan.tables.map (·.2) ++ r.scan.tables.map (·.2)) ∧
      r.Given (l.scan.aliases ++ r.scan.aliases)
        (l.scan.tables.map (·.2) ++ r.scan.tables.map (·.2)) :=
  ⟨hl.mono (List.subset_append_left _ _) (List.subset_append_left _ _),
    hr.mono (List.subset_append_right _ _) (List.subset_append_right _ _)⟩

theorem joinSelect_atHand (hp : src.pair? = some p) (hl : l.leaves = p.left.leafAliases)
    (hr : r.leaves = p.right.leafAliases) {sources : List (String × Column)}
    (htrimmed : Trimmed src needs sources) (hgl : l.Given aliases tables)
    (hgr : r.Given aliases tables) : ∀ t ∈ joinSelect l r sources, AtHand aliases tables t := by
  intro t ht
  rw [joinSelect_eq] at ht
  obtain ⟨s, hs, rfl⟩ := List.mem_map.1 ht
  obtain ⟨x, hx, c, hc, hs1, hs2, -⟩ := htrimmed.sound s hs
  have hmem : s.1 ∈ l.leaves ++ r.leaves := by
    rw [hl, hr, ← leafAliases_pair hp, ← src.map_leaves, hs1]
    exact List.mem_map_of_mem hx
  have hcarries : l.carries s.1 = true ∨ r.carries s.1 = true := by
    simpa [Relation.carries] using hmem
  have hcolumn : joinTerm l r s =
      (Term.column s.1 s.2.name s.2.ordinal true s.2.type).mapUp (relocateNode [l, r]) := by
    rw [joinTerm_eq hcarries, Term.mapUp]
  rw [hcolumn]
  refine @atHand_relocated _ _ _ _ src.leaves (fun u hu => ?_) (fun u hu a ha => ?_)
  · obtain rfl := List.mem_singleton.1 hu
    exact ⟨x.2, hs1 ▸ hx, c, hc, hs2.symm⟩
  · obtain rfl := List.mem_singleton.1 hu
    cases ha
    exact find?_pair hgl hgr hmem []

/-- The step of a pair has everything at hand if its open arguments read nothing. -/
theorem evaluable_join {q : BoundQuery} {b : BoundSelect} {calls : List RefreshCall}
    {outer : Option (BoundSource × ColumnNeeds)} {table : String}
    {sources : List (String × Column)} (hE : E.Resolved) (hq : q ∈ E.queries)
    (hb : q.body = .select b)
    (hpart : PartOf b.source (blockNeeds b q.orderBy calls) src outer needs)
    (hp : src.pair? = some p) (hl : Planned E b.scope before ro p.left (p.inputs needs) l)
    (hr : Planned E b.scope before (p.around l ro) p.right (p.inputs needs) r)
    (htable : JoinTable E b.scope before needs l r table sources)
    (hquiet : ∀ t ∈ src.openArguments, ∀ u ∈ t.subterms, u.columnAlias? = none) :
    (Node.populate (p.step table ro l r sources)).Evaluable := by
  have hblock := hE.block hq hb
  have hreads := hpart.reads hblock.sourceReads
  obtain ⟨hgl, hgr⟩ := given_pair hl.given hr.given
  have hleaves : l.leaves ++ r.leaves = src.leafAliases := by
    rw [leafAliases_pair hp, hl.leaves, hr.leaves]
  intro x hx
  rw [placedTerms_join] at hx
  rw [scans_join]
  simp only [List.mem_append] at hx
  rcases hx with ((hx | hx) | hx) | hx
  · obtain ⟨_, ht, rfl⟩ := List.mem_map.1 hx
    obtain ⟨t, hmem, rfl⟩ := List.mem_map.1 ht
    have hcondition := (reads_pair hp hreads needs).2.2 t hmem
    refine atHand_relocated hcondition fun u hu a ha => find?_pair hgl hgr ?_ _
    rw [hleaves, ← src.map_leaves, leaves_pair hp]
    exact mem_of_readsFrom (hcondition u hu) ha
  · obtain ⟨-, t, ht, heq, hread⟩ := hl.mem_placedTerms (reads_pair hp hreads needs).1 hx
    rw [heq]
    exact atHand_of_no_column hread (hquiet t (openArguments_left hp ht))
  · obtain ⟨hseen, t, ht, heq, hread⟩ :=
      hr.mem_placedTerms (reads_pair hp hreads needs).2.1 hx
    rw [heq, hseen]
    -- the right side of an apply reads the left side, that of a join what is around the join
    cases hkind : p.kind.isApply with
    | true =>
      simp only [Pair.around, hkind, if_true, Option.toList_some] at hread ⊢
      refine atHand_relocated hread fun u hu a ha => ?_
      have hmem : a ∈ l.leaves := by
        rw [hl.leaves, ← p.left.map_leaves]
        exact mem_of_readsFrom (hread u hu) ha
      exact ⟨l, find?_of_mem_leaves hmem [],
        hl.given.mono (List.Subset.refl _) (List.subset_append_left _ _)⟩
    | false => exact atHand_of_no_column hread (hquiet t (openArguments_right hp hkind ht))
  · obtain ⟨t, ht, rfl⟩ := List.mem_map.1 hx
    have htrimmed := htable.trims hE.ordered (PartOf.bound hblock hpart.mem_parts) hleaves
    exact joinSelect_atHand hp hl.leaves hr.leaves htrimmed hgl hgr t ht

/-- A pair whose open arguments read a column stands on the right side of an apply, which reads
    outward, too. -/
theorem PartOf.mem_outwardSides {root : BoundSource} {n : ColumnNeeds}
    {outer : Option (BoundSource × ColumnNeeds)} (hroot : root.Reads [])
    (hpart : PartOf root needs src outer n) (hp : src.pair? = some p) {t u : Term}
    (ht : t ∈ src.openArguments) (hu : u ∈ t.subterms) (hcolumn : u.columnAlias? ≠ none) :
    ∃ right ∈ root.outwardSides, src ∈ right.parts := by
  cases outer with
  | none =>
    have hreads := reads_openArguments (hpart.reads hroot) t ht u hu
    exact absurd (columnAlias?_of_readsFrom_nil hreads) hcolumn
  | some o =>
    obtain ⟨a, kind, right, happly, hsrc, hopen⟩ := hpart.in_apply rfl
    have houtward : right.ReadsOutward :=
      ⟨isLeaf_of_mem_parts hsrc (isLeaf_of_pair hp), t, hopen ht, u, hu,
        Option.isSome_iff_ne_none.2 hcolumn⟩
    exact ⟨right, BoundSource.mem_outwardSides.2 ⟨⟨a, kind, o.1, happly⟩, houtward⟩, hsrc⟩

end Join

/-- A node has everything at hand, or it fills a part of a source that reads outward. -/
theorem Emitted.evaluable {E : Setting} {before : List Node} {n : Node} (hE : E.Resolved)
    (h : Emitted E before n) : n.Evaluable ∨ ∃ b ∈ BoundQuery.blocksOf E.queries,
      ∃ right ∈ b.source.outwardSides, n.FillsPartOf right := by
  cases h with
  | create | setMatch | rename =>
    left
    intro x hx
    cases hx
  | @join q b calls src outer needs p ro l r table sources hq hb hpart hp houter hl hr htable =>
    by_cases hquiet : ∀ t ∈ src.openArguments, ∀ u ∈ t.subterms, u.columnAlias? = none
    · exact .inl (evaluable_join hE hq hb hpart hp hl hr htable hquiet)
    · push Not at hquiet
      obtain ⟨t, ht, u, hu, hcolumn⟩ := hquiet
      obtain ⟨right, hright, hsrc⟩ :=
        hpart.mem_outwardSides (hE.block hq hb).sourceReads hp ht hu hcolumn
      exact .inr ⟨_, BoundQuery.mem_blocksOf hq hb, right, hright, src, hsrc, p, table, ro, l, r,
        sources, hp, rfl⟩
  | project h hgrouped =>
    left
    intro x hx
    rw [placedTerms_project hgrouped] at hx
    rcases List.mem_append.1 hx with hx | hx
    · exact h.atHand_scan hE x hx
    · obtain ⟨t, ht, rfl⟩ := List.mem_map.1 hx
      exact h.atHand_clauses hE t ht
  | aggregate h hgrouped _ hupdates =>
    left
    intro x hx
    rw [placedTerms_group hgrouped] at hx
    rcases List.mem_append.1 hx with hx | hx
    · exact h.atHand_scan hE x hx
    · obtain ⟨t, ht, rfl⟩ := List.mem_map.1 hx
      rcases List.mem_append.1 ht with ht | ht
      · exact h.atHand_clauses hE t ht
      · exact h.atHand_updates hE hupdates t ht
  | score h hgrouped htable =>
    left
    intro x hx u hu
    have hterm := Node.mem_terms_of_placed hx
    rw [updateTerms_populate, List.append_nil] at hterm
    refine ⟨fun a ha => ?_, fun c hc => ?_⟩
    · rw [columnAlias?_score hE h.mem h.body hgrouped _ hterm u hu] at ha
      cases ha
    · obtain ⟨type, rfl⟩ := Term.tableColumn?_eq_some.1 hc
      obtain ⟨y, hy, heq⟩ := mem_terms_score hterm
      rw [heq] at hu
      obtain ⟨rfl, -⟩ := accumulator_of_regrouped (outputs_read (hE.block h.mem h.body) y hy) hu
      exact List.mem_singleton_self _
  | copy hq hbody htable =>
    left
    intro x hx u hu
    have hterm := Node.mem_terms_of_placed hx
    rw [updateTerms_populate, List.append_nil] at hterm
    obtain ⟨c, hc, heq⟩ := mem_terms_copy (hE.formed _ hq) hbody hterm
    rw [heq] at hu
    obtain rfl := List.mem_singleton.1 hu
    refine ⟨fun a ha => (by cases ha), fun c hc => ?_⟩
    cases hc
    exact List.mem_singleton_self _

end Plan

end SchemaQuery
