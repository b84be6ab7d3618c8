-- SUMMARY: A join inside an apply that reads the other side of the apply leads to a step that cannot evaluate its terms.
import SchemaQuery.Proofs.Plan.Evaluable

/-!
# Joins that read outward

The left side of an apply is planned before the right side. A step that fills a
join on the right side scans tables that were declared after those of the left
side, and aliases of the right side only. So it has nothing of the left side at
hand, neither under its alias nor in its table, unless a common table expression
was given the name of that table (`planSource_outward`). With what was shown of
the other steps this tells which steps of a plan can be carried out
(`ofQuery_evaluable`).
-/

namespace SchemaQuery

namespace BoundSource

theorem parts_sublist {s p : BoundSource} (h : p ∈ s.parts) : p.parts.Sublist s.parts := by
  induction s using pairInduction with
  | leaf s hs =>
    cases s with
    | join | apply => cases hs
    | _ =>
      obtain rfl := List.mem_singleton.1 h
      exact List.Sublist.refl _
  | pair s q hq ihl ihr =>
    rw [Plan.parts_of_pair hq] at h ⊢
    rcases List.mem_cons.1 h with rfl | h
    · rw [Plan.parts_of_pair hq]
    · rcases List.mem_append.1 h with h | h
      · exact ((ihl h).trans (List.sublist_append_left _ _)).cons _
      · exact ((ihr h).trans (List.sublist_append_right _ _)).cons _

/-- The common table expression that a source reads. -/
def cteName? : BoundSource → Option String
  | .inMemory _ table .cte _ => some table
  | _ => none

/-- The right side of an apply reads the left side. -/
theorem reads_of_apply {root left right : BoundSource} {a : String} {kind : ApplyKind}
    {leaves : List (String × List Column)} (h : root.Reads leaves)
    (hpart : .apply a kind left right ∈ root.parts) : right.Reads left.leaves := by
  induction root using treeInduction generalizing leaves with
  | join _ _ _ _ _ ihl ihr =>
    simp only [parts, List.mem_cons, List.mem_append, reduceCtorEq, false_or] at hpart
    exact hpart.elim (ihl h.1) (ihr h.2.1)
  | apply _ _ _ _ ihl ihr =>
    simp only [parts, List.mem_cons, List.mem_append] at hpart
    rcases hpart with hself | hpart | hpart
    · cases hself
      exact h.2
    · exact ihl h.1 hpart
    · exact ihr h.2 hpart
  | _ => cases List.mem_singleton.1 hpart

end BoundSource

namespace Plan

/-! ## Runs over pairs -/

namespace PairRun

variable {scope : Nat} {p : Pair} {needs : ColumnNeeds} {outer : Option Relation}
  {st st₁ st₂ st' : State} {l r : Relation} {sources : List (String × Column)}

theorem fillsLeft (h : PairRun scope p needs outer st st₁ st₂ st' l r sources) : Fills [] st st₁ :=
  planSource_fills p.left h.left

theorem fillsRight (h : PairRun scope p needs outer st st₁ st₂ st' l r sources) :
    Fills [] st₁ st₂ :=
  planSource_fills p.right h.right

theorem fillsJoin (h : PairRun scope p needs outer st st₁ st₂ st' l r sources) :
    Fills [] st₂ st' := by
  rw [h.joined]
  exact .declareAndFill rfl

theorem step_mem (h : PairRun scope p needs outer st st₁ st₂ st' l r sources) :
    .populate (p.step (st₂.draft.tableName "join") outer l r sources) ∈ st'.draft.nodes := by
  rw [h.joined]
  exact List.mem_append_right _ (List.mem_singleton_self _)

end PairRun

/-! ## Relations of planned sources -/

section Relations

variable {scope : Nat} {src : BoundSource} {needs : ColumnNeeds} {outer : Option Relation}
  {st st' : State} {r : Relation}

/-- No common table expression that the source reads has a name like those of numbered tables. -/
def PlainNames (config : PlanConfig) (src : BoundSource) : Prop :=
  ∀ s ∈ src.parts, ∀ name ∈ s.cteName?, ¬ IsReserved config name

instance (config : PlanConfig) (src : BoundSource) : Decidable (PlainNames config src) :=
  inferInstanceAs (Decidable (∀ s ∈ src.parts, _))

theorem PlainNames.part {config : PlanConfig} {p : BoundSource} (h : PlainNames config src)
    (hp : p ∈ src.parts) : PlainNames config p :=
  fun s hs => h s (BoundSource.parts_subset hp hs)

theorem State.IsOld.isReserved {table : String} (h : st.IsOld table) :
    IsReserved st.draft.config table := by
  obtain ⟨k, role, -, rfl⟩ := h
  exact isReserved_numberedTable _ _ _

/-- What the relation of a planned source scans and holds. -/
structure Anew (src : BoundSource) (st st' : State) (r : Relation) : Prop where
  aliases : r.scan.aliases = [src.aliasName]
  leaves : r.leaves = src.leafAliases
  /-- No scanned table was there before. -/
  scanned : ∀ t ∈ r.scan.tables.map (·.2), ¬ st.IsOld t
  held : ∀ t ∈ r.table, st'.IsOld t

theorem planSource_anew (hnames : PlainNames st.draft.config src)
    (hrun : planSource scope src needs outer st = .ok r st') : Anew src st st' r := by
  induction src using BoundSource.pairInduction generalizing needs outer st st' r with
  | leaf s hs =>
    obtain ⟨_, hleaf, rfl⟩ := exists_leafRun (BoundSource.isLeaf_of_pair?_none hs) hrun
    cases hleaf with
    | schema => exact ⟨rfl, rfl, by simp [Relation.leaf, Scan.tables], by simp [Relation.leaf]⟩
    | inMemory a table origin columns =>
      cases origin with
      | host =>
        exact ⟨rfl, rfl, by simp [Relation.leaf, memoryScan, Scan.tables], by simp [Relation.leaf]⟩
      | cte =>
        refine ⟨rfl, rfl, ?_, by simp [Relation.leaf]⟩
        intro t ht hold
        obtain rfl := List.mem_singleton.1 ht
        exact hnames _ (List.mem_singleton_self _) _ rfl hold.isReserved
    | subquery hquery =>
      obtain ⟨-, hnew, -⟩ : _ ∧ Created st _ _ := planQuery_fills _ hquery
      refine ⟨rfl, rfl, ?_, by simp [Relation.leaf]⟩
      intro t ht hold
      obtain rfl := List.mem_singleton.1 ht
      exact hold.not_isNew hnew
  | pair s p hp ihl ihr =>
    obtain ⟨st₁, st₂, l, r', sources, hpair, rfl⟩ := exists_pairRun hp hrun
    have hl := ihl (hnames.part (left_mem_parts hp)) hpair.left
    have hr := ihr (hpair.fillsLeft.config ▸ hnames.part (right_mem_parts hp)) hpair.right
    refine ⟨rfl, ?_, ?_, ?_⟩
    · rw [leafAliases_pair hp, ← hl.leaves, ← hr.leaves]
      rfl
    · intro t ht hold
      obtain rfl := List.mem_singleton.1 ht
      have hfills := hpair.fillsLeft.append hpair.fillsRight
      exact hold.not_isNew (hfills.isNew ⟨_, "join", Nat.le_refl _, rfl⟩)
    · intro t ht
      cases ht
      rw [hpair.joined]
      exact ⟨_, "join", Nat.lt_succ_self _, rfl⟩

end Relations

/-! ## Reads that are not at hand -/

section Detached

variable {ro : Relation} {x u : Term} {a : String}

/-- The parts of a redirected term are the redirected parts. -/
theorem mapUp_mem_subterms (relations : List Relation) {t : Term} (hu : u ∈ t.subterms) :
    u.mapUp (relocateNode relations) ∈ (t.mapUp (relocateNode relations)).subterms := by
  induction t using Term.childInduction with
  | step t ih =>
    rcases Term.mem_subterms.1 hu with rfl | ⟨c, hc, hu⟩
    · exact Term.self_mem_subterms _
    · have hcolumn : t.columnAlias? = none := by
        cases t with
        | column => cases hc
        | _ => rfl
      refine Term.mem_subterms.2 (.inr ⟨c.mapUp (relocateNode relations), ?_, ih c hc hu⟩)
      rw [(relocated_node hcolumn).2.2]
      exact List.mem_map_of_mem hc

/-- A term that reads a relation is not at hand without the alias and without the table. -/
theorem not_atHand_of_missing {aliases tables : List String} (hu : u ∈ x.subterms)
    (ha : u.columnAlias? = some a) (hcarried : a ∈ ro.leaves) (haliases : a ∉ aliases)
    (htables : ∀ t ∈ ro.table, t ∉ tables) :
    ¬ AtHand aliases tables (x.mapUp (relocateNode [ro])) := by
  intro h
  obtain ⟨hcolumn, htable⟩ := h _ (mapUp_mem_subterms [ro] hu)
  cases u with
  | column b n o q type =>
    cases ha
    simp only [Term.mapUp, relocateNode, find?_of_mem_leaves hcarried, Option.bind_some]
      at hcolumn htable
    cases hro : ro.table with
    | none =>
      rw [hro] at hcolumn
      exact haliases (hcolumn a rfl)
    | some t =>
      rw [hro] at htable
      exact htables t hro (htable _ rfl)
  | _ => cases ha

/-- The open arguments of a leaf are those of a schema table. -/
theorem placed_of_open {scope : Nat} {src : BoundSource} {needs : ColumnNeeds} {st st' : State}
    {r : Relation} (hleaf : src.isLeaf = true) (hx : x ∈ src.openArguments)
    (hrun : planSource scope src needs (some ro) st = .ok r st') (seen : List String) :
    (seen, x.mapUp (relocateNode [ro])) ∈ r.scan.placedTerms seen := by
  cases src with
  | schema b schema method args columns type =>
    obtain ⟨_, ⟨hargs⟩, rfl⟩ := exists_leafRun rfl hrun
    obtain rfl := eq_of_scanArguments hargs
    exact List.mem_map_of_mem (List.mem_map_of_mem hx)
  | inMemory | subquery => cases hx
  | join | apply => cases hleaf

theorem Node.FillsPartOf.of_part {n : Node} {src root : BoundSource} (h : n.FillsPartOf src)
    (hsrc : src ∈ root.parts) : n.FillsPartOf root := by
  obtain ⟨s, hs, hfills⟩ := h
  exact ⟨s, BoundSource.parts_subset hsrc hs, hfills⟩

theorem openArguments_cases {src : BoundSource} {p : Pair} (hp : src.pair? = some p)
    (hx : x ∈ src.openArguments) :
    x ∈ p.left.openArguments ∨ p.kind.isApply = false ∧ x ∈ p.right.openArguments := by
  cases src with
  | join b kind left right condition =>
    cases hp
    exact (List.mem_append.1 hx).imp_right fun hx => ⟨by cases kind <;> rfl, hx⟩
  | apply b kind left right =>
    cases hp
    exact .inl hx
  | _ => cases hp

end Detached

/-! ## Sources that read outward -/

section Outward

variable {scope : Nat} {ro : Relation} {x u : Term} {a : String}

/-- The step of a pair cannot evaluate an argument that reads what is around the pair. -/
theorem PairRun.not_evaluable {p : Pair} {needs : ColumnNeeds} {st st₁ st₂ st' : State}
    {l r : Relation} {sources : List (String × Column)}
    (h : PairRun scope p needs (some ro) st st₁ st₂ st' l r sources)
    (hl : Anew p.left st st₁ l) (hr : Anew p.right st₁ st₂ r) (hro : ∀ t ∈ ro.table, st.IsOld t)
    (hu : u ∈ x.subterms) (ha : u.columnAlias? = some a) (hcarried : a ∈ ro.leaves)
    {seen : List String} (hseen : a ∉ seen)
    (hplaced : (seen, x.mapUp (relocateNode [ro])) ∈
      l.scan.placedTerms [] ++ r.scan.placedTerms l.scan.aliases) :
    ¬ (Node.populate (p.step (st₂.draft.tableName "join") (some ro) l r sources)).Evaluable := by
  intro hevaluable
  have hmissing : ∀ t ∈ ro.table, t ∉ l.scan.tables.map (·.2) ++ r.scan.tables.map (·.2) := by
    intro t ht hmem
    rcases List.mem_append.1 hmem with hmem | hmem
    · exact hl.scanned t hmem (hro t ht)
    · exact hr.scanned t hmem (h.fillsLeft.isOld (hro t ht))
  have hatHand := hevaluable (seen, x.mapUp (relocateNode [ro])) (by
    rw [placedTerms_join, List.append_assoc (List.map _ _)]
    exact List.mem_append_left _ (List.mem_append_right _ hplaced))
  rw [scans_join] at hatHand
  exact not_atHand_of_missing hu ha hcarried hseen hmissing hatHand

/-- Planning a join or apply with an argument that reads what is around it emits a step that cannot
    evaluate its terms. -/
theorem planSource_outward (hu : u ∈ x.subterms) (ha : u.columnAlias? = some a)
    (hcarried : a ∈ ro.leaves) {src : BoundSource} {needs : ColumnNeeds} {st st' : State}
    {r : Relation} (hleaf : src.isLeaf = false) (hx : x ∈ src.openArguments)
    (haliases : ∀ s ∈ src.parts, s.aliasName ≠ a) (hnames : PlainNames st.draft.config src)
    (hro : ∀ t ∈ ro.table, st.IsOld t)
    (hrun : planSource scope src needs (some ro) st = .ok r st') :
    ∃ n ∈ st'.draft.nodes, ¬ n.Evaluable ∧ n.FillsPartOf src := by
  induction src using BoundSource.pairInduction generalizing needs st st' r with
  | leaf s hs => cases hleaf.symm.trans (BoundSource.isLeaf_of_pair?_none hs)
  | pair s p hp ihl ihr =>
    obtain ⟨st₁, st₂, l, r', sources, hpair, -⟩ := exists_pairRun hp hrun
    have hpl := left_mem_parts hp
    have hpr := right_mem_parts hp
    have hnl := hnames.part hpl
    have hnr : PlainNames st₁.draft.config p.right := hpair.fillsLeft.config ▸ hnames.part hpr
    have hl := planSource_anew hnl hpair.left
    have hr := planSource_anew hnr hpair.right
    have hfills : (Node.populate (p.step (st₂.draft.tableName "join") (some ro) l r'
        sources)).FillsPartOf s := ⟨s, s.self_mem_parts, p, _, _, _, _, _, hp, rfl⟩
    rcases openArguments_cases hp hx with hx | ⟨hkind, hx⟩
    · cases hside : p.left.isLeaf with
      | true =>
        -- the argument of a leaf on the left is evaluated before any row is there
        have hplaced := placed_of_open hside hx hpair.left []
        exact ⟨_, hpair.step_mem, hpair.not_evaluable hl hr hro hu ha hcarried List.not_mem_nil
          (List.mem_append_left _ hplaced), hfills⟩
      | false =>
        obtain ⟨n, hn, hfails, hfills⟩ := ihl hside hx
          (fun s hs => haliases s (BoundSource.parts_subset hpl hs)) hnl hro hpair.left
        have hle := subset_of_appended (hpair.fillsRight.append hpair.fillsJoin).nodes
        exact ⟨n, hle hn, hfails, hfills.of_part hpl⟩
    · have hright := hpair.right
      simp only [Pair.around, hkind] at hright
      cases hside : p.right.isLeaf with
      | true =>
        have hseen : a ∉ l.scan.aliases := by
          rw [hl.aliases, List.mem_singleton]
          exact (haliases p.left hpl).symm
        have hplaced := placed_of_open hside hx hright l.scan.aliases
        exact ⟨_, hpair.step_mem, hpair.not_evaluable hl hr hro hu ha hcarried hseen
          (List.mem_append_right _ hplaced), hfills⟩
      | false =>
        obtain ⟨n, hn, hfails, hfills⟩ := ihr hside hx
          (fun s hs => haliases s (BoundSource.parts_subset hpr hs)) hnr
          (fun t ht => hpair.fillsLeft.isOld (hro t ht)) hright
        exact ⟨n, subset_of_appended hpair.fillsJoin.nodes hn, hfails, hfills.of_part hpr⟩

/-- Planning a source plans both sides of each apply in it, the right one around the left one. -/
theorem planSource_apply {root left right : BoundSource} {b : String} {kind : ApplyKind}
    (hpart : .apply b kind left right ∈ root.parts) {needs : ColumnNeeds}
    {outer : Option Relation} {st st' : State} {r : Relation}
    (hrun : planSource scope root needs outer st = .ok r st') :
    ∃ needs' outer' st₁ st₂ st₃ l r', planSource scope left needs' outer' st₁ = .ok l st₂ ∧
      planSource scope right needs' (some l) st₂ = .ok r' st₃ ∧
      st₁.draft.config = st.draft.config ∧ st₃.draft.nodes ⊆ st'.draft.nodes := by
  induction root using BoundSource.pairInduction generalizing needs outer st st' r with
  | leaf s hs =>
    cases s with
    | join | apply => cases hs
    | _ => cases List.mem_singleton.1 hpart
  | pair s p hp ihl ihr =>
    obtain ⟨st₁, st₂, l, r', sources, hpair, -⟩ := exists_pairRun hp hrun
    rw [parts_of_pair hp, List.mem_cons, List.mem_append] at hpart
    rcases hpart with rfl | hpart | hpart
    · cases hp
      have hright := hpair.right
      have haround : Pair.around ⟨.ofApply kind, left, right, none⟩ l outer = some l := by
        cases kind <;> rfl
      rw [haround] at hright
      exact ⟨_, outer, st, st₁, st₂, l, r', hpair.left, hright, rfl,
        subset_of_appended hpair.fillsJoin.nodes⟩
    · obtain ⟨n, o, s₁, s₂, s₃, l', r'', hl, hr, hconfig, hle⟩ := ihl hpart hpair.left
      exact ⟨n, o, s₁, s₂, s₃, l', r'', hl, hr, hconfig,
        List.Subset.trans hle (subset_of_appended (hpair.fillsRight.append hpair.fillsJoin).nodes)⟩
    · obtain ⟨n, o, s₁, s₂, s₃, l', r'', hl, hr, hconfig, hle⟩ := ihr hpart hpair.right
      exact ⟨n, o, s₁, s₂, s₃, l', r'', hl, hr, hconfig.trans hpair.fillsLeft.config,
        List.Subset.trans hle (subset_of_appended hpair.fillsJoin.nodes)⟩

/-- The source of a block that holds an apply whose right side reads outward. -/
theorem planSource_block {Named : String → Prop} {s : Scopes} {b : Block}
    (hblock : BlockBound Named s b) {right : BoundSource} (hright : right ∈ b.source.outwardSides)
    {needs : ColumnNeeds} {outer : Option Relation} {st st' : State} {r : Relation}
    (hnames : PlainNames st.draft.config b.source)
    (hrun : planSource scope b.source needs outer st = .ok r st') :
    ∃ n ∈ st'.draft.nodes, ¬ n.Evaluable ∧ n.FillsPartOf right := by
  obtain ⟨⟨al, kind, left, hpart⟩, hleaf, x, hx, u, hu, hcolumn⟩ :=
    BoundSource.mem_outwardSides.1 hright
  obtain ⟨a, ha⟩ := Option.isSome_iff_exists.1 hcolumn
  obtain ⟨_, _, st₁, st₂, st₃, l, r', hl, hr, hconfig, hle⟩ := planSource_apply hpart hrun
  have hpair : (BoundSource.apply al kind left right).pair? =
      some ⟨.ofApply kind, left, right, none⟩ := rfl
  have hpl := BoundSource.parts_subset hpart (left_mem_parts hpair)
  have hpr := BoundSource.parts_subset hpart (right_mem_parts hpair)
  have hanew := planSource_anew (hconfig ▸ hnames.part hpl) hl
  -- the column is one of a leaf on the left, and no part on the right has its alias
  have hread := reads_openArguments
    (BoundSource.reads_of_apply hblock.sourceReads hpart) x hx u hu
  have hmem : a ∈ left.leafAliases := by
    rw [← left.map_leaves]
    exact mem_of_readsFrom hread ha
  have hdistinct := hblock.distinct.sublist ((BoundSource.parts_sublist hpart).map _)
  rw [parts_of_pair hpair, List.map_cons, List.map_append] at hdistinct
  have hdisjoint := List.disjoint_of_nodup_append hdistinct.of_cons
  have haliases : ∀ s ∈ right.parts, s.aliasName ≠ a := by
    rintro s hs rfl
    exact hdisjoint (left.leafAliases_sublist.subset hmem) (List.mem_map_of_mem hs)
  have hnames₂ : PlainNames st₂.draft.config right :=
    (planSource_fills left hl).config.trans hconfig ▸ hnames.part hpr
  obtain ⟨n, hn, hfails, hfills⟩ := planSource_outward hu ha (hanew.leaves ▸ hmem) hleaf hx haliases
    hnames₂ hanew.held hr
  exact ⟨n, hle hn, hfails, hfills⟩

end Outward

/-! ## Plans -/

/-- The source of every block is planned, and all nodes of its plan are nodes of the whole plan. -/
theorem ofQuery_plans_source {config : PlanConfig} {scopes scopes' : Scopes} {root q : BoundQuery}
    {plan : Plan} (h : ofQuery config scopes root = .ok (plan, scopes')) (hq : q ∈ root.queries)
    {b : BoundSelect} (hb : q.body = .select b) :
    ∃ needs st st' r, planSource b.scope b.source needs none st = .ok r st' ∧
      st.draft.config = config ∧ st'.draft.nodes ⊆ plan.nodes := by
  obtain ⟨final, hpasses, hnodes, -⟩ := ofQuery_passes h
  obtain ⟨hqs, st₁, st₂, table, destination, hbefore, hrun, hafter⟩ := hpasses.2 q hq
  rw [hb, planBody_select] at hrun
  obtain ⟨_, _, hget, hrun⟩ := run_bind_ok.1 hrun
  obtain ⟨rfl, rfl⟩ := run_get_ok.1 hget
  obtain ⟨calls, _, hlift, hrun⟩ := run_bind_ok.1 hrun
  obtain ⟨hcalls, rfl⟩ := run_liftExcept_ok.1 hlift
  obtain ⟨r, st₃, hplan, hrun⟩ := run_bind_ok.1 hrun
  have hsource : b.source.queries ⊆ root.queries := by
    rw [q.queries_eq, hb, BoundBody.queries_select, List.cons_subset, List.append_subset] at hqs
    exact hqs.2.2
  obtain ⟨hscan, hmoves, -⟩ := planSource_moves b.source _ _ _ _ _ _ hsource hplan
  have hblock := Moves.planBlock hq hb ((hmoves.scopes.refreshCalls b).trans hcalls) hscan hrun
  refine ⟨_, _, st₃, r, hplan, hbefore.extended.config, ?_⟩
  rw [hnodes]
  exact (Moves.extended (hblock.trans hafter)).nodes.subset

/-- In the plan of a resolved query, each step has at hand what its terms read, except for steps
    that fill a join or apply on the right side of an apply whose left side it reads. Each such
    right side leads to a step that cannot evaluate its terms, unless the block reads a common table
    expression with a name like those of numbered tables. -/
theorem ofQuery_evaluable {env : Resolve.Env} {query : Query} {analysis : Resolve.Analysis}
    {requests : List TableRequest} (ha : Resolve.analyze env query = (.ok analysis, requests))
    {config : PlanConfig} {plan : Plan} {scopes : Scopes}
    (h : ofQuery config analysis.scopes analysis.query = .ok (plan, scopes)) :
    (∀ n ∈ plan.nodes, n.Evaluable ∨ ∃ b ∈ BoundQuery.blocksOf analysis.query.queries,
      ∃ right ∈ b.source.outwardSides, n.FillsPartOf right) ∧
    ∀ b ∈ BoundQuery.blocksOf analysis.query.queries, PlainNames config b.source →
      ∀ right ∈ b.source.outwardSides, ∃ n ∈ plan.nodes, ¬ n.Evaluable ∧ n.FillsPartOf right := by
  have hE := resolved_of_analyze ha config
  constructor
  · intro n hn
    obtain ⟨hsound, -⟩ := ofQuery_sound ha h
    obtain ⟨before, after, hnodes⟩ := List.append_of_mem hn
    exact (hsound _ _ _ hnodes).evaluable hE
  · intro b hb hnames right hright
    obtain ⟨q, hq, hblock⟩ := List.mem_filterMap.1 hb
    cases hbody : q.body with
    | select s =>
      rw [hbody] at hblock
      cases hblock
      obtain ⟨needs, st, st', r, hrun, rfl, hle⟩ := ofQuery_plans_source h hq hbody
      obtain ⟨n, hn, hfails⟩ := planSource_block (hE.block hq hbody) hright hnames hrun
      exact ⟨n, hle hn, hfails⟩
    | setOperation =>
      rw [hbody] at hblock
      cases hblock

/-- Stands for `select a.Name, i.Label, b.Amount from #A.entities() a cross apply
    (#A.items(a.Id) i inner join #B.orders() b on i.Value = b.PersonId)` -/
def appliedJoin : Query :=
  .ofSelect ((((Select.empty.addExpr (.ofColumn "a" "Name")).addExpr
    (.ofColumn "i" "Label")).addExpr (.ofColumn "b" "Amount")).withSource
      (.apply .cross (Sample.entitiesAs "a")
        (.join .inner ((Source.ofSchema "A" "items" [.ofColumn "a" "Id"]).withAlias "i")
          (Sample.ordersAs "b") (.equals (.ofColumn "i" "Value") (.ofColumn "b" "PersonId")))))

/-- The join is filled before the apply, by a step that reads the items of `a.Id` and has no row
    of `a`. -/
theorem ofQuery_evaluable_appliedJoin :
    ∃ analysis requests plan scopes,
      Resolve.analyze ⟨Sample.catalog, default⟩ appliedJoin = (.ok analysis, requests) ∧
      ofQuery default analysis.scopes analysis.query = .ok (plan, scopes) ∧
      ∃ b ∈ BoundQuery.blocksOf analysis.query.queries, PlainNames default b.source ∧
        ∃ right ∈ b.source.outwardSides, right.aliasName = "i+b" ∧
          ∃ n ∈ plan.nodes, ¬ n.Evaluable ∧ n.FillsPartOf right := by
  obtain ⟨analysis, requests, plan, scopes, h, hplan, hcheck⟩ := exists_plan_of_check
    ⟨Sample.catalog, default⟩ default appliedJoin (fun a _ => decide
      (∃ b ∈ BoundQuery.blocksOf a.query.queries, PlainNames default b.source ∧
        ∃ right ∈ b.source.outwardSides, right.aliasName = "i+b"))
    (by decide +kernel)
  obtain ⟨b, hb, hnames, right, hright, halias⟩ := of_decide_eq_true hcheck
  obtain ⟨n, hn, hfails⟩ := (ofQuery_evaluable h hplan).2 b hb hnames right hright
  exact ⟨analysis, requests, plan, scopes, h, hplan, b, hb, hnames, right, hright, halias, n, hn,
    hfails⟩

end Plan

end SchemaQuery
