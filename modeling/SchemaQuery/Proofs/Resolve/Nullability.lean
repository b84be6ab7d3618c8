-- SUMMARY: Which leaves of a source are padded, and the types at which the terms of a block see their columns.
import SchemaQuery.Proofs.Resolve.Runs
import SchemaQuery.Proofs.Resolve.Written

/-!
# Nullability of sources

An outer join or apply pads one of its sides with nulls, so the columns of the
leaves on that side are seen as nullable from then on. A term sees the columns of
the leaves at hand as they are at the time it is bound: a join condition after the
join has marked its own side and before any join around it has, an argument of an
applied table before the apply marks it, and the clauses of a block at the end.
Main statement: `analyze_seen`.
-/

namespace SchemaQuery

/-! ## Padded leaves -/

namespace BoundSource

/-- The leaves that the joins and applies of a source pad with nulls. -/
def padded : BoundSource → List String
  | .join _ kind left right _ => left.padded ++ right.padded ++ kind.padded left right
  | .apply _ kind left right => left.padded ++ right.padded ++ kind.padded right
  | _ => []

theorem padded_subset (src : BoundSource) : src.padded ⊆ src.leafAliases := by
  induction src using treeInduction with
  | join _ kind left right _ ihl ihr =>
    rw [padded, leafAliases]
    exact List.append_subset.2 ⟨List.append_subset.2 ⟨List.subset_append_of_subset_left _ ihl,
      List.subset_append_of_subset_right _ ihr⟩, kind.padded_subset left right⟩
  | apply _ kind left right ihl ihr =>
    rw [padded, leafAliases]
    exact List.append_subset.2 ⟨List.append_subset.2 ⟨List.subset_append_of_subset_left _ ihl,
      List.subset_append_of_subset_right _ ihr⟩, kind.padded_subset left right⟩
  | _ => exact List.nil_subset _

end BoundSource

/-- A leaf as it is seen where the given aliases are padded. -/
def seenLeaf (padded : List String) (l : String × List Column) : String × List Column :=
  (l.1, if l.1 ∈ padded then l.2.map (·.toNullable) else l.2)

/-- The leaves of a source as they are seen over all its joins and applies. -/
def BoundSource.seen (src : BoundSource) : List (String × List Column) :=
  src.leaves.map (seenLeaf src.padded)

/-- What the terms in a source see: an argument of a schema table the leaves around it, a join
    condition the leaves of the join, each as padded so far. -/
def BoundSource.Sees (outer : List (String × List Column)) : BoundSource → Prop
  | .schema _ _ _ args _ _ => ∀ t ∈ args, ∀ u ∈ t.subterms, u.SeesIn outer
  | .inMemory .. | .subquery .. => True
  | .join a kind left right condition => left.Sees outer ∧ right.Sees outer ∧
      ∀ u ∈ condition.subterms, u.SeesIn (BoundSource.join a kind left right condition).seen
  | .apply _ _ left right => left.Sees outer ∧ right.Sees left.seen

namespace BoundSource

/-- What a part of a source pads, the source pads. -/
theorem padded_subset_of_part {root src : BoundSource} (h : src ∈ root.parts) :
    src.padded ⊆ root.padded :=
  subset_of_part (fun _ _ _ _ _ => by simp [padded]) (fun _ _ _ _ => by simp [padded]) h

theorem clauses_subset {root src : BoundSource} (h : src ∈ root.parts) :
    src.clauses ⊆ root.clauses :=
  subset_of_part (fun _ _ _ _ _ => by simp [clauses]) (fun _ _ _ _ => by simp [clauses]) h

theorem arguments_subset_clauses (src : BoundSource) : src.arguments ⊆ src.clauses := by
  induction src using treeInduction with
  | join _ _ _ _ _ ihl ihr =>
    exact List.subset_append_of_subset_left _ (List.append_subset.2
      ⟨List.subset_append_of_subset_left _ ihl, List.subset_append_of_subset_right _ ihr⟩)
  | apply _ _ _ _ ihl ihr =>
    exact List.append_subset.2
      ⟨List.subset_append_of_subset_left _ ihl, List.subset_append_of_subset_right _ ihr⟩
  | _ => exact List.Subset.refl _

/-- What a term in a source has seen is around the source, or a part of it as padded so far. -/
theorem Sees.exists_part {src : BoundSource} {outer : List (String × List Column)}
    (h : src.Sees outer) {t : Term} (ht : t ∈ src.clauses) {u : Term} (hu : u ∈ t.subterms) :
    u.SeesIn outer ∨ ∃ part ∈ src.parts, u.SeesIn part.seen := by
  induction src using treeInduction generalizing outer with
  | schema => exact .inl (h t ht u hu)
  | inMemory | subquery => cases ht
  | join a kind left right condition ihl ihr =>
    obtain ⟨hleft, hright, hcondition⟩ := h
    simp only [clauses, List.mem_append, List.mem_singleton] at ht
    rcases ht with (ht | ht) | rfl
    · exact (ihl hleft ht).imp_right (Exists.imp fun _ => .imp_left fun h => by simp [parts, h])
    · exact (ihr hright ht).imp_right (Exists.imp fun _ => .imp_left fun h => by simp [parts, h])
    · exact .inr ⟨_, self_mem_parts _, hcondition u hu⟩
  | apply a kind left right ihl ihr =>
    obtain ⟨hleft, hright⟩ := h
    rcases List.mem_append.1 ht with ht | ht
    · exact (ihl hleft ht).imp_right (Exists.imp fun _ => .imp_left fun h => by simp [parts, h])
    · rcases ihr hright ht with hsees | ⟨part, hmem, hsees⟩
      · exact .inr ⟨left, by simp [parts, left.self_mem_parts], hsees⟩
      · exact .inr ⟨part, by simp [parts, hmem], hsees⟩

end BoundSource

/-! ## Marked tables -/

namespace Resolve

/-- The leaves of a bound source that are seen as nullable are those it pads. -/
def Flagged (s : Scopes) (id : Nat) (src : BoundSource) : Prop :=
  ∀ a ∈ src.leafAliases, ∃ t, s.findIn? a id = some (.table t) ∧
    t.nullable = decide (a ∈ src.padded)

variable {env : Env} {id : Nat} {src left right : BoundSource} {s s₁ s₂ s₃ s' : Scopes}

theorem Flagged.kept (h : Flagged s id src)
    (hkept : ∀ k t, s.findIn? k id = some (.table t) → s'.findIn? k id = some (.table t)) :
    Flagged s' id src := by
  intro a ha
  obtain ⟨t, ht, hnull⟩ := h a ha
  exact ⟨t, hkept a t ht, hnull⟩

theorem seen_eq_seenLeaf {t : TableSymbol} {padded : List String}
    (h : t.nullable = decide (t.aliasName ∈ padded)) : t.seen = seenLeaf padded t.leaf := by
  by_cases hmem : t.aliasName ∈ padded
  · have hview : t.view = Column.toNullable := by
      funext c
      simp [TableSymbol.view, h, hmem]
    simp [TableSymbol.seen, seenLeaf, TableSymbol.leaf, TableSymbol.visibleColumns, hview, hmem]
  · have hview : t.view = id := by
      funext c
      simp [TableSymbol.view, h, hmem]
    simp [TableSymbol.seen, seenLeaf, TableSymbol.leaf, TableSymbol.visibleColumns, hview, hmem]

theorem mem_leafAliases_of_leafTables {tables : List TableSymbol}
    (ht : LeafTables s id src tables) {t : TableSymbol} (hmem : t ∈ tables) :
    t.aliasName ∈ src.leafAliases := by
  rw [← src.map_leaves, ← ht.leaves, List.map_map]
  exact List.mem_map_of_mem hmem

/-- The tables of a part of a source show its leaves as the source pads them. -/
theorem Flagged.seen_part {root : BoundSource} (h : Flagged s id root) {tables : List TableSymbol}
    (ht : LeafTables s id src tables) (hsub : src.leafAliases ⊆ root.leafAliases) :
    ∀ t ∈ tables, t.seen = seenLeaf root.padded t.leaf := by
  intro t hmem
  obtain ⟨t', ht', hnull⟩ := h t.aliasName (hsub (mem_leafAliases_of_leafTables ht hmem))
  rw [ht.bound t hmem] at ht'
  cases ht'
  exact seen_eq_seenLeaf hnull

/-- The tables of a source show its leaves as padded. -/
theorem Flagged.seen (h : Flagged s id src) {tables : List TableSymbol}
    (ht : LeafTables s id src tables) : tables.map (·.seen) = src.seen := by
  rw [BoundSource.seen, ← ht.leaves, List.map_map]
  exact List.map_congr_left (h.seen_part ht (List.Subset.refl _))

/-- What marking some bound tables does to each table. -/
theorem markAll_findIn? {as : List String} (hs : s.Ordered)
    (hbound : ∀ a ∈ as, ∃ t, s.findIn? a id = some (.table t)) (h : markAll id as s = .ok s')
    {k : String} {t : TableSymbol} (hk : s.findIn? k id = some (.table t)) :
    s'.findIn? k id = some (.table { t with nullable := t.nullable || decide (k ∈ as) }) := by
  induction as generalizing s t with
  | nil =>
    obtain rfl := except_pure_ok.1 h
    simpa using hk
  | cons a as ih =>
    obtain ⟨u, hu, hrest⟩ := markAll_cons.1 h
    obtain ⟨ta, hta⟩ := hbound a (List.mem_cons_self ..)
    obtain ⟨hwithin, hnew⟩ := Scopes.markNullable_within hs hta hu
    have hbound' : ∀ b ∈ as, ∃ t, u.findIn? b id = some (.table t) := by
      intro b hb
      obtain ⟨tb, htb⟩ := hbound b (List.mem_cons_of_mem _ hb)
      obtain ⟨n, hn⟩ := hwithin.tables b tb htb
      exact ⟨_, hn⟩
    by_cases hka : k = a
    · subst hka
      obtain rfl : ta = t := by simpa [hta] using hk
      have hu : u.findIn? k id = some (.table { ta with nullable := true }) := by simp [hnew]
      rw [ih (hwithin.ordered hs) hbound' hrest hu]
      simp
    · have hu : u.findIn? k id = some (.table t) := by rw [hnew, if_neg hka, hk]
      rw [ih (hwithin.ordered hs) hbound' hrest hu]
      simp [hka]

/-- Between `s` and `s'` a source was bound in the scope `id`: tables that were there before are
    unchanged, and of the new leaves those that the source pads are marked. -/
structure Pads (id : Nat) (src : BoundSource) (s s' : Scopes) : Prop where
  kept : ∀ k t, s.findIn? k id = some (.table t) → s'.findIn? k id = some (.table t)
  flagged : Flagged s' id src

theorem table_of_add (hs : s.Ordered) (hid : id < s.all.length) {a k : String} {symbol : Symbol}
    {t : TableSymbol} (hadd : s.add id a symbol = .ok s') (hk : s.findIn? k id = some (.table t)) :
    s'.findIn? k id = some (.table t) := by
  have hne : ¬k = a := by
    rintro rfl
    rw [Scopes.add_free hs hid hadd] at hk
    cases hk
  rw [Scopes.add_findIn? hs hid hadd, if_neg hne, hk]

/-- A new leaf is not padded. -/
theorem Pads.leaf {t : TableSymbol} (hs : s.Ordered) (hid : id < s.all.length)
    (hleaf : src.leafAliases = [src.aliasName]) (hpadded : src.padded = [])
    (hadd : s.add id src.aliasName (.table t) = .ok s') (hnull : t.nullable = false) :
    Pads id src s s' := by
  refine ⟨fun k t hk => table_of_add hs hid hadd hk, fun a ha => ?_⟩
  obtain rfl := List.mem_singleton.1 (hleaf ▸ ha)
  exact ⟨t, by simp [Scopes.add_findIn? hs hid hadd], by simp [hnull, hpadded]⟩

/-- Two sources bound one after the other, then some leaves marked and a table bound over both. -/
theorem Pads.pair {Named : String → Prop} {as : List String} {a : String} {t : TableSymbol}
    (hs : s.Ordered) (hid : id < s.all.length) (hl : BindsSource Named id left s s₁)
    (hr : BindsSource Named id right s₁ s₂) (hpl : Pads id left s s₁) (hpr : Pads id right s₁ s₂)
    (hmark : markAll id as s₂ = .ok s₃) (has : as ⊆ left.leafAliases ++ right.leafAliases)
    (hadd : s₃.add id a (.table t) = .ok s')
    (hleaves : src.leafAliases = left.leafAliases ++ right.leafAliases)
    (hpadded : src.padded = left.padded ++ right.padded ++ as) : Pads id src s s' := by
  have hleft₂ : Flagged s₂ id left := hpl.flagged.kept hpr.kept
  have hbound : ∀ a ∈ left.leafAliases ++ right.leafAliases,
      ∃ t, s₂.findIn? a id = some (.table t) := by
    intro a ha
    rcases List.mem_append.1 ha with ha | ha
    · obtain ⟨t, ht, -⟩ := hleft₂ a ha
      exact ⟨t, ht⟩
    · obtain ⟨t, ht, -⟩ := hpr.flagged a ha
      exact ⟨t, ht⟩
  have hs₂ := (hl.within.trans hr.within).ordered hs
  have hid₂ : id < s₂.all.length :=
    Nat.lt_of_lt_of_le hid (hl.within.trans hr.within).length_le
  have hmarks := markAll_marks hs₂ (fun a ha => hbound a (has ha)) hmark
  have hlater {k : String} {t : TableSymbol} (hk : s₂.findIn? k id = some (.table t)) :
      s'.findIn? k id = some (.table { t with nullable := t.nullable || decide (k ∈ as) }) :=
    table_of_add (hmarks.within.ordered hs₂) (hmarks.length ▸ hid₂) hadd
      (markAll_findIn? hs₂ (fun a ha => hbound a (has ha)) hmark hk)
  -- what is bound before a source is bound is none of its leaves
  have hnew {src : BoundSource} {s : Scopes} (hfree : ∀ p ∈ src.parts,
      s.findIn? p.aliasName id = none) {k : String} {t : TableSymbol}
      (hk : s.findIn? k id = some (.table t)) : k ∉ src.leafAliases := by
    intro hmem
    obtain ⟨p, hp, -, rfl⟩ := BoundSource.exists_leaf_part hmem
    rw [hfree p hp] at hk
    cases hk
  refine ⟨fun k t hk => ?_, fun k hk => ?_⟩
  · have hk₁ := hpl.kept k t hk
    have hnot : k ∉ as := fun hmem => by
      rcases List.mem_append.1 (has hmem) with hmem | hmem
      · exact hnew hl.free hk hmem
      · exact hnew hr.free hk₁ hmem
    have hk' := hlater (hpr.kept k t hk₁)
    simpa [hnot] using hk'
  · rw [hleaves] at hk
    rcases List.mem_append.1 hk with hk | hk
    · obtain ⟨t, ht, hnull⟩ := hpl.flagged k hk
      have hright : k ∉ right.padded := fun hmem => hnew hr.free ht (right.padded_subset hmem)
      refine ⟨_, hlater (hpr.kept k t ht), ?_⟩
      simp [hnull, hpadded, hright]
    · obtain ⟨t, ht, hnull⟩ := hpr.flagged k hk
      have hleft : k ∉ left.padded := by
        intro hmem
        obtain ⟨tl, htl, -⟩ := hpl.flagged k (left.padded_subset hmem)
        exact hnew hr.free htl hk
      refine ⟨_, hlater ht, ?_⟩
      simp [hnull, hpadded, hleft]

/-! ## Seen columns -/

/-- What the arguments of a table see: the active source as it is padded so far, if there is one. -/
def Facing (s : Scopes) (ctx : Context) (outer : List (String × List Column)) : Prop :=
  match ctx.aliasName with
  | none => outer = []
  | some a => ∃ src : BoundSource, src.aliasName = a ∧ src.seen = outer ∧
      SourceBound s ctx.scope src ∧ Flagged s ctx.scope src

section Facing

variable {ctx : Context} {outer : List (String × List Column)}

theorem Facing.later (h : Facing s ctx outer) (hw : s.Within ctx.scope s')
    (hkept : ∀ k t, s.findIn? k ctx.scope = some (.table t) →
      s'.findIn? k ctx.scope = some (.table t)) : Facing s' ctx outer := by
  unfold Facing at h ⊢
  cases ha : ctx.aliasName with
  | none =>
    rw [ha] at h
    exact h
  | some a =>
    rw [ha] at h
    obtain ⟨src, halias, hseen, hsrc, hflagged⟩ := h
    exact ⟨src, halias, hseen, hsrc.within hw, hflagged.kept hkept⟩

theorem Facing.around (h : Facing s ctx outer) : ∃ leaves, Around s ctx leaves := by
  unfold Facing at h
  unfold Around
  cases ha : ctx.aliasName with
  | none => exact ⟨[], rfl⟩
  | some a =>
    rw [ha] at h
    obtain ⟨src, halias, -, hsrc, -⟩ := h
    exact ⟨src.leaves, src, halias, rfl, hsrc⟩

theorem Facing.active (h : Facing s ctx outer) :
    ∃ tables, ActiveTables s ctx tables ∧ tables.map (·.seen) = outer := by
  unfold Facing at h
  cases ha : ctx.aliasName with
  | none =>
    rw [ha] at h
    exact ⟨[], by simp [ActiveTables, ha], h.symm⟩
  | some a =>
    rw [ha] at h
    obtain ⟨src, rfl, rfl, hsrc, hflagged⟩ := h
    obtain ⟨tables, ht⟩ := hsrc.leafTables
    exact ⟨tables, ht.active hsrc rfl ha, hflagged.seen ht⟩

end Facing

/-- What binding a source gives: marked leaves, terms that see what is at hand, and no aggregates. -/
structure SourceSeen (outer : List (String × List Column)) (id : Nat) (src : BoundSource)
    (s s' : Scopes) : Prop where
  pads : Pads id src s s'
  sees : src.Sees outer
  plain : ∀ t ∈ src.clauses, t.aggregates = []

variable (env) in
/-- The statement of the induction over a source. -/
def SeesSource (src : Source) : Prop :=
  ∀ {ctx : Context} {outer : List (String × List Column)} {s s' : State} {usage : ColumnUsage}
    {b : BoundSource}, Working ctx.scope s.scopes → s.scopes.OnlyTables ctx.scope →
    Facing s.scopes ctx outer → ctx.groupBy = [] → bindSource env usage src ctx s = .ok b s' →
    SourceSeen outer ctx.scope b s.scopes s'.scopes

theorem seesSource_schema (schema method : String) (args : List Expr) (a : Option String) :
    SeesSource env (.schema schema method args a) := by
  intro ctx outer s s' usage b hwork _ hfacing hlinks h
  simp only [bindSource] at h
  obtain ⟨tables, hactive, hseen⟩ := hfacing.active
  obtain ⟨a', n, m, ts, columns, type, explicit, rfl, -, ⟨u, hb⟩, hadd⟩ :=
    bindSchemaSource_run hwork.ordered hactive hlinks (fun _ _ => trivial) (fun _ => trivial) h
  refine ⟨.leaf hwork.ordered hwork.lt rfl rfl hadd rfl, ?_, ?_⟩
  · intro t ht v hv
    rw [← hseen]
    exact (hb.resolved t ht v hv).seesIn
  · exact List.flatMap_eq_nil_iff.1 (hb.allowed rfl)

theorem seesSource_inMemory (name : String) (a : Option String) :
    SeesSource env (.inMemory name a) := by
  intro ctx outer s s' usage b hwork _ _ _ h
  simp only [bindSource] at h
  obtain ⟨_, _, _, rfl, -, hadd⟩ := bindMemorySource_run h
  exact ⟨.leaf hwork.ordered hwork.lt rfl rfl hadd rfl, trivial, by simp [BoundSource.clauses]⟩

theorem seesSource_subquery (q : Query) (a : Option String) :
    SeesSource env (.subquery q a) := by
  intro ctx outer s s' usage b hwork _ _ _ h
  simp only [bindSource, run_bind_ok] at h
  obtain ⟨_, s₁, henter, bq, s₂, hbind, _, s₃, hleave, h⟩ := h
  obtain ⟨hw, hsame, -⟩ :=
    nested_query (binds_query q) hwork (fun _ _ => trivial) henter hbind hleave
  obtain ⟨a', _, rfl, -, hadd⟩ :=
    bindSubquerySource_run (fun _ _ => trivial) (fun _ => trivial) h
  have hwork₃ := hwork.within hw
  have hleaf : Pads ctx.scope (.subquery a' bq bq.output) s₃.scopes s'.scopes :=
    .leaf hwork₃.ordered hwork₃.lt rfl rfl hadd rfl
  exact ⟨⟨fun k t hk => hleaf.kept k t ((hsame k).trans hk), hleaf.flagged⟩, trivial,
    by simp [BoundSource.clauses]⟩

theorem seesSource_join {kind : JoinKind} {left right : Source} {condition : Expr}
    (hl : SeesSource env left) (hr : SeesSource env right) :
    SeesSource env (.join kind left right condition) := by
  intro ctx outer s s' usage b hwork ho hfacing hlinks h
  simp only [bindSource, run_bind_ok] at h
  obtain ⟨bl, s₁, hleft, br, s₂, hright, h⟩ := h
  obtain ⟨leaves, haround⟩ := hfacing.around
  obtain ⟨hbl, hreadsl, -⟩ := binds_source left hwork ho haround hlinks (fun _ _ => trivial) hleft
  have hseenl := hl hwork ho hfacing hlinks hleft
  have hwork₁ := hwork.within hbl.within
  have ho₁ := hbl.onlyTables ho
  obtain ⟨hbr, hreadsr, -⟩ := binds_source right hwork₁ ho₁ (haround.within hbl.within) hlinks
    (fun _ _ => trivial) hright
  have hseenr := hr hwork₁ ho₁ (hfacing.later hbl.within hseenl.pads.kept) hlinks hright
  obtain ⟨u, a, t, c, tables, hmarked, hadd, rfl, -, htables, hresolved, hplain⟩ :=
    bindJoin_steps hwork.ordered hwork.lt ho hlinks hbl hbr h
  have hpads : Pads ctx.scope (.join a kind bl br c) s.scopes s'.scopes :=
    .pair hwork.ordered hwork.lt hbl hbr hseenl.pads hseenr.pads hmarked.marked
      (kind.padded_subset _ _) hadd rfl rfl
  refine ⟨hpads, ⟨hseenl.sees, hseenr.sees, fun v hv => ?_⟩, ?_⟩
  · rw [← hpads.flagged.seen htables]
    exact (hresolved v hv).seesIn
  · simp only [BoundSource.clauses, List.forall_mem_append]
    exact ⟨⟨hseenl.plain, hseenr.plain⟩, by simpa using hplain⟩

theorem seesSource_apply {kind : ApplyKind} {left right : Source} (hl : SeesSource env left)
    (hr : SeesSource env right) : SeesSource env (.apply kind left right) := by
  intro ctx outer s s' usage b hwork ho hfacing hlinks h
  simp only [bindSource, run_bind_ok] at h
  obtain ⟨bl, s₁, hleft, br, s₂, hright, h⟩ := h
  obtain ⟨leaves, haround⟩ := hfacing.around
  obtain ⟨hbl, hreadsl, -⟩ := binds_source left hwork ho haround hlinks (fun _ _ => trivial) hleft
  have hseenl := hl hwork ho hfacing hlinks hleft
  have hwork₁ := hwork.within hbl.within
  have ho₁ := hbl.onlyTables ho
  have haround₁ : Around s₁.scopes (ctx.withAlias bl.aliasName) bl.leaves :=
    ⟨bl, rfl, rfl, hbl.bound⟩
  obtain ⟨hbr, hreadsr, -⟩ := @binds_source env right (ctx.withAlias bl.aliasName) bl.leaves s₁ s₂
    usage br hwork₁ ho₁ haround₁ hlinks (fun _ _ => trivial) hright
  -- the applied source faces the left one, which is padded by its own joins only
  have hseenr := @hr (ctx.withAlias bl.aliasName) bl.seen s₁ s₂ usage br hwork₁ ho₁
    ⟨bl, rfl, rfl, hbl.bound, hseenl.pads.flagged⟩ hlinks hright
  obtain ⟨u, hmarked, a, hcompose, rfl⟩ := run_bindApply_ok h
  obtain ⟨rfl, hadd⟩ := compose_run hcompose
  refine ⟨.pair hwork.ordered hwork.lt hbl hbr hseenl.pads hseenr.pads hmarked.marked
    (kind.padded_subset _ _) hadd rfl rfl, ⟨hseenl.sees, hseenr.sees⟩, ?_⟩
  simp only [BoundSource.clauses, List.forall_mem_append]
  exact ⟨hseenl.plain, hseenr.plain⟩

theorem bindSource_seen : ∀ source : Source, SeesSource env source
  | .schema schema method args a => seesSource_schema schema method args a
  | .inMemory name a => seesSource_inMemory name a
  | .subquery query a => seesSource_subquery query a
  | .apply _ left right => seesSource_apply (bindSource_seen left) (bindSource_seen right)
  | .join _ left right _ => seesSource_join (bindSource_seen left) (bindSource_seen right)

/-! ## Blocks -/

/-- At the end of a block its leaves are marked as its source pads them, and every term has seen
    the columns it reads. -/
structure BlockSeen (s : Scopes) (b : Block) : Prop where
  flagged : Flagged s b.scope b.source
  source : b.source.Sees []
  sourcePlain : ∀ t ∈ b.source.clauses, t.aggregates = []
  clauses : ∀ t ∈ b.filter.toList ++ b.groupBy ++ b.outputs, ∀ u ∈ t.subterms,
    u.SeesIn b.source.seen

theorem BlockRun.seen {b : Block} (h : BlockRun env s b) : BlockSeen s b := by
  cases h with
  | @mk id usage source src sel orderBy b order s₀ s₁ s₂ hwork hctes hsource hblock hkept =>
    have ho := onlyTables_of_onlyCtes hctes
    obtain ⟨hb, -⟩ := @binds_source env source (.ofScope id) [] s₀ s₁ _ src hwork ho rfl rfl
      (fun _ _ => trivial) hsource
    have hseen := @bindSource_seen env source (.ofScope id) [] s₀ s₁ _ src hwork ho rfl rfl hsource
    obtain ⟨rfl, rfl, tables, ht, hclauses⟩ :=
      bindBlock_clauses (hb.within.ordered hwork.ordered) hb.bound hblock
    have htables := hseen.pads.flagged.seen ht
    refine ⟨?_, hseen.sees, hseen.plain, fun t hmem u hu => ?_⟩
    · refine hseen.pads.flagged.kept fun k t hk => ?_
      exact (hkept k).trans (hclauses.outputs.registers.tables k t hk)
    · change u.SeesIn b.source.seen
      rw [← htables]
      rcases List.mem_append.1 hmem with hmem | hmem
      · exact hclauses.rows t hmem u hu
      · exact hclauses.outputs.sees t hmem u hu

/-- In every block of a resolved query the terms have seen the columns they read. -/
theorem analyze_seen {q : Query} {a : Analysis} {requests : List TableRequest}
    (h : analyze env q = (.ok a, requests)) :
    ∀ b ∈ BoundQuery.blocksOf a.query.queries, BlockSeen a.scopes b :=
  fun b hb => (analyze_runs h b hb).seen

end Resolve

end SchemaQuery
