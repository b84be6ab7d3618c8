-- SUMMARY: What the scopes of a resolved query hold, scope by scope and block by block.
import SchemaQuery.Proofs.Query.Shape
import SchemaQuery.Proofs.Resolve.Binding
import SchemaQuery.Resolve.Grouping

/-!
# Layout of scopes

Every select block has a scope of its own. That scope binds the parts of the
source of the block, the common table expressions of its query, and the updates
of the aggregates that the block reads; no scope binds anything else (`Owned`).
`BlockBound` says what a block knows of its scope, and `Sealed` says both for a
range of scopes that no later step changes.
-/

namespace SchemaQuery

/-! ## Sources -/

/-- The symbol of a part of a source: a plain one for a leaf, a compound for a join or apply. -/
structure TableSymbol.Describes (t : TableSymbol) (p : BoundSource) : Prop where
  aliasName : t.aliasName = p.aliasName
  compoundTables : t.compoundTables = p.leafAliases
  columns : t.columns = p.columns
  isCompound : t.isCompound = !p.isLeaf

/-- Every part of the source is bound in the scope. -/
def SourceBound (s : Scopes) (id : Nat) (src : BoundSource) : Prop :=
  ∀ p ∈ src.parts, ∃ t, s.findIn? p.aliasName id = some (.table t) ∧ t.Describes p

/-- The bound tables of the leaves of a source. -/
structure LeafTables (s : Scopes) (id : Nat) (src : BoundSource) (tables : List TableSymbol) :
    Prop where
  leaves : tables.map (·.leaf) = src.leaves
  bound : ∀ t ∈ tables, s.findIn? t.aliasName id = some (.table t)

/-- What the terms in a source read: an argument of a schema table reads the leaves around it, a
    join condition the leaves of the join. -/
def BoundSource.Reads (outer : List (String × List Column)) : BoundSource → Prop
  | .schema _ _ _ args _ _ => ∀ t ∈ args, ∀ u ∈ t.subterms, u.ReadsFrom outer
  | .inMemory .. | .subquery .. => True
  | .join _ _ left right condition => left.Reads outer ∧ right.Reads outer ∧
      ∀ u ∈ condition.subterms, u.ReadsFrom (left.leaves ++ right.leaves)
  | .apply _ _ left right => left.Reads outer ∧ right.Reads left.leaves

namespace SourceBound

variable {s s' : Scopes} {id : Nat} {src : BoundSource}

theorem within (h : SourceBound s id src) (hw : s.Within id s') : SourceBound s' id src := by
  intro p hp
  obtain ⟨t, hfind, ht⟩ := h p hp
  obtain ⟨b, hb⟩ := hw.tables _ _ hfind
  exact ⟨{ t with nullable := b }, hb, ht.aliasName, ht.compoundTables, ht.columns, ht.isCompound⟩

theorem frame (h : SourceBound s id src) (hf : ∀ k, s'.findIn? k id = s.findIn? k id) :
    SourceBound s' id src := by
  intro p hp
  obtain ⟨t, hfind, ht⟩ := h p hp
  exact ⟨t, (hf _).trans hfind, ht⟩

/-- A free name is none of a bound source. -/
theorem notMem_of_free (h : SourceBound s id src) {k : String} (hk : s.findIn? k id = none) :
    k ∉ src.parts.map (·.aliasName) := by
  intro hmem
  obtain ⟨p, hp, rfl⟩ := List.mem_map.1 hmem
  obtain ⟨t, ht, -⟩ := h p hp
  rw [hk] at ht
  cases ht

theorem leafTables (h : SourceBound s id src) : ∃ tables, LeafTables s id src tables := by
  have hleaf (src : BoundSource) (hleaves : src.leaves = [(src.aliasName, src.columns)])
      (h : SourceBound s id src) : ∃ tables, LeafTables s id src tables := by
    obtain ⟨t, hfind, halias, -, hcolumns⟩ := h src src.self_mem_parts
    refine ⟨[t], by simp [TableSymbol.leaf, hleaves, halias, hcolumns], ?_⟩
    intro t' ht'
    obtain rfl := List.mem_singleton.1 ht'
    rw [halias]
    exact hfind
  have hpair {left right : BoundSource} {tables tables' : List TableSymbol}
      (hl : LeafTables s id left tables) (hr : LeafTables s id right tables') :
      (tables ++ tables').map (·.leaf) = left.leaves ++ right.leaves ∧
        ∀ t ∈ tables ++ tables', s.findIn? t.aliasName id = some (.table t) := by
    refine ⟨by rw [List.map_append, hl.leaves, hr.leaves], ?_⟩
    intro t ht
    rcases List.mem_append.1 ht with ht | ht
    · exact hl.bound t ht
    · exact hr.bound t ht
  induction src using BoundSource.treeInduction with
  | join a kind left right condition ihl ihr =>
    obtain ⟨tables, hl⟩ := ihl fun p hp => h p (by simp [BoundSource.parts, hp])
    obtain ⟨tables', hr⟩ := ihr fun p hp => h p (by simp [BoundSource.parts, hp])
    exact ⟨tables ++ tables', (hpair hl hr).1, (hpair hl hr).2⟩
  | apply a kind left right ihl ihr =>
    obtain ⟨tables, hl⟩ := ihl fun p hp => h p (by simp [BoundSource.parts, hp])
    obtain ⟨tables', hr⟩ := ihr fun p hp => h p (by simp [BoundSource.parts, hp])
    exact ⟨tables ++ tables', (hpair hl hr).1, (hpair hl hr).2⟩
  | _ => exact hleaf _ rfl h

end SourceBound

/-- The leaves of a bound source are the active tables wherever the source is active. -/
theorem LeafTables.active {s : Scopes} {id : Nat} {ctx : Resolve.Context} {src : BoundSource}
    {tables : List TableSymbol} (ht : LeafTables s id src tables) (h : SourceBound s id src)
    (hscope : ctx.scope = id) (ha : ctx.aliasName = some src.aliasName) :
    Resolve.ActiveTables s ctx tables := by
  subst hscope
  obtain ⟨t, hfind, -, hparts, -⟩ := h src src.self_mem_parts
  simp only [Resolve.ActiveTables, ha]
  refine ⟨t, hfind, ?_, ht.bound⟩
  rw [hparts, ← src.map_leaves, ← ht.leaves, List.map_map]
  rfl

/-! ## Blocks -/

/-- The aggregates that a block outputs. -/
def Block.aggregates (b : Block) : List Term := b.outputs.flatMap Term.aggregates

/-- What a block knows of the scope it was bound in. `Named` holds of the aliases of leaves. -/
structure BlockBound (Named : String → Prop) (s : Scopes) (b : Block) : Prop where
  source : SourceBound s b.scope b.source
  distinct : (b.source.parts.map (·.aliasName)).Nodup
  composed : ∀ p ∈ b.source.parts, p.aliasName = "+".intercalate p.leafAliases
  named : ∀ a ∈ b.source.leafAliases, Named a
  sourceReads : b.source.Reads []
  reads : ∀ t ∈ b.filter.toList ++ b.groupBy ++ b.outputs, ∀ u ∈ t.subterms,
    u.ReadsFrom b.source.leaves
  /-- Inside an aggregate every name was resolved against the tables of the block. -/
  resolved : ∃ tables, LeafTables s b.scope b.source tables ∧
    ∀ t ∈ b.outputs, ∀ g ∈ t.aggregates, ∀ u ∈ g.subterms, u.ResolvedIn tables
  plain : ∀ t ∈ b.filter.toList ++ b.groupBy, t.aggregates = []
  grouped : b.grouping ≠ .none → Resolve.checkGroupedAll b.groupBy b.outputs = .ok ()
  implicit : b.grouping = .implicit → b.groupBy = []
  ungrouped : b.grouping = .none → ∀ t ∈ b.outputs, t.aggregates = []
  sound : ∀ c ∈ s.refreshOf b.scope b.source.aliasName,
    ∃ t ∈ b.outputs, ∃ g ∈ t.aggregates, c.Updates g
  complete : ∀ t ∈ b.outputs, ∀ g ∈ t.aggregates,
    ∃ c ∈ s.refreshOf b.scope b.source.aliasName, ∃ c' : RefreshCall,
      c'.Updates g ∧ c.render = c'.render

theorem LeafTables.frame {s s' : Scopes} {id : Nat} {src : BoundSource}
    {tables : List TableSymbol} (h : LeafTables s id src tables)
    (hf : ∀ k, s'.findIn? k id = s.findIn? k id) : LeafTables s' id src tables :=
  ⟨h.leaves, fun t ht => (hf _).trans (h.bound t ht)⟩

theorem Scopes.refreshOf_frame {s s' : Scopes} {id : Nat}
    (hf : ∀ k, s'.findIn? k id = s.findIn? k id) (a : String) :
    s'.refreshOf id a = s.refreshOf id a := by
  simp only [Scopes.refreshOf, hf]

/-- A block knows only its own scope. -/
theorem BlockBound.frame {Named : String → Prop} {s s' : Scopes} {b : Block}
    (h : BlockBound Named s b) (hf : ∀ k, s'.findIn? k b.scope = s.findIn? k b.scope) :
    BlockBound Named s' b where
  source := h.source.frame hf
  distinct := h.distinct
  composed := h.composed
  named := h.named
  sourceReads := h.sourceReads
  reads := h.reads
  resolved := by
    obtain ⟨tables, ht, hresolved⟩ := h.resolved
    exact ⟨tables, ht.frame hf, hresolved⟩
  plain := h.plain
  grouped := h.grouped
  implicit := h.implicit
  ungrouped := h.ungrouped
  sound := Scopes.refreshOf_frame hf b.source.aliasName ▸ h.sound
  complete := Scopes.refreshOf_frame hf b.source.aliasName ▸ h.complete

/-! ## Scopes -/

/-- The bindings that a scope can have, given the blocks of the query. -/
inductive Owned (bs : List Block) (id : Nat) : String → Symbol → Prop where
  | cte (name : String) (t : TableSymbol) : Owned bs id (cteKey name) (.table t)
  | source (b : Block) (hb : b ∈ bs) (hid : b.scope = id) (p : BoundSource)
      (hp : p ∈ b.source.parts) (t : TableSymbol) : Owned bs id p.aliasName (.table t)
  | refresh (b : Block) (hb : b ∈ bs) (hid : b.scope = id) (c : RefreshCall)
      (cs : List RefreshCall) :
      Owned bs id (refreshKey b.source.aliasName) (.refresh (c :: cs))

theorem Owned.mono {bs bs' : List Block} {id : Nat} {k : String} {symbol : Symbol}
    (h : Owned bs id k symbol) (hsub : bs ⊆ bs') : Owned bs' id k symbol := by
  cases h with
  | cte name t => exact .cte name t
  | source b hb hid p hp t => exact .source b (hsub hb) hid p hp t
  | refresh b hb hid c cs => exact .refresh b (hsub hb) hid c cs

/-- The scopes from `lo` up to `hi` are those of the queries `qs`, and they bind what the blocks of
    these queries account for. -/
structure Sealed (Named : String → Prop) (s : Scopes) (lo hi : Nat) (qs : List BoundQuery) :
    Prop where
  scopes : ∀ q ∈ qs, lo ≤ q.scope ∧ q.scope < hi
  blocks : ∀ b ∈ BoundQuery.blocksOf qs, lo ≤ b.scope ∧ b.scope < hi ∧ BlockBound Named s b
  owned : ∀ i, lo ≤ i → i < hi → ∀ k symbol, s.findIn? k i = some symbol →
    Owned (BoundQuery.blocksOf qs) i k symbol

namespace Sealed

variable {Named : String → Prop} {s s' : Scopes} {lo mid hi : Nat} {qs qs' : List BoundQuery}

theorem nil (Named : String → Prop) (s : Scopes) (n : Nat) : Sealed Named s n n [] where
  scopes := by simp
  blocks := by simp
  owned := by omega

theorem frame (h : Sealed Named s lo hi qs)
    (hf : ∀ i, lo ≤ i → i < hi → ∀ k, s'.findIn? k i = s.findIn? k i) :
    Sealed Named s' lo hi qs where
  scopes := h.scopes
  blocks := by
    intro b hb
    obtain ⟨hlo, hhi, hbound⟩ := h.blocks b hb
    exact ⟨hlo, hhi, hbound.frame (hf b.scope hlo hhi)⟩
  owned := by
    intro i hlo hhi k symbol hfind
    exact h.owned i hlo hhi k symbol ((hf i hlo hhi k).symm.trans hfind)

theorem append (h : Sealed Named s lo mid qs) (h' : Sealed Named s mid hi qs')
    (hlo : lo ≤ mid) (hhi : mid ≤ hi) : Sealed Named s lo hi (qs ++ qs') where
  scopes := by
    intro q hq
    rcases List.mem_append.1 hq with hq | hq
    · have := h.scopes q hq
      omega
    · have := h'.scopes q hq
      omega
  blocks := by
    intro b hb
    rw [BoundQuery.blocksOf_append] at hb
    rcases List.mem_append.1 hb with hb | hb
    · obtain ⟨hl, hm, hbound⟩ := h.blocks b hb
      exact ⟨hl, by omega, hbound⟩
    · obtain ⟨hm, hh, hbound⟩ := h'.blocks b hb
      exact ⟨by omega, hh, hbound⟩
  owned := by
    intro i hl hh k symbol hfind
    rw [BoundQuery.blocksOf_append]
    by_cases hi : i < mid
    · exact (h.owned i hl hi k symbol hfind).mono (List.subset_append_left _ _)
    · exact (h'.owned i (by omega) hh k symbol hfind).mono (List.subset_append_right _ _)

/-- Only the scopes and the blocks of the queries count. -/
theorem congr (h : Sealed Named s lo hi qs) (hscopes : qs'.map (·.scope) = qs.map (·.scope))
    (hblocks : BoundQuery.blocksOf qs' = BoundQuery.blocksOf qs) : Sealed Named s lo hi qs' where
  scopes := by
    intro q hq
    have hmem : q.scope ∈ qs.map (·.scope) := hscopes ▸ List.mem_map_of_mem hq
    obtain ⟨q', hq', heq⟩ := List.mem_map.1 hmem
    exact heq ▸ h.scopes q' hq'
  blocks := hblocks ▸ h.blocks
  owned := hblocks ▸ h.owned

/-- Work in an older scope leaves a sealed range as it is. -/
theorem within {id : Nat} (h : Sealed Named s lo hi qs) (hw : s.Within id s') (hid : id < lo)
    (hhi : hi ≤ s.all.length) : Sealed Named s' lo hi qs :=
  h.frame fun i hl hh k => hw.frame i (by omega) (by omega) k

end Sealed

end SchemaQuery
