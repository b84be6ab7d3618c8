-- SUMMARY: The shape of queries and bound queries: depth, names, nested queries and parts of sources.
import Mathlib.Data.List.Basic
import SchemaQuery.Bound.Query

/-!
# Shapes

Measures and views of queries that statements about resolution and planning are
made of. A query is nested in another as a common table expression, as a source
or as an operand; `depth` counts how deep this goes, and `BoundQuery.queries`
lists all queries of a bound query. A bound source is a tree whose nodes are its
`parts` and whose tips are its `leaves`.
-/

namespace SchemaQuery

/-! ## Queries as written -/

mutual

/-- How deeply queries are nested, the query itself included. -/
def Query.depth : Query → Nat
  | ⟨body, _, _, _, ctes⟩ => 1 + max (Query.depthOfCtes ctes) body.depth

def Query.depthOfCtes : List Cte → Nat
  | [] => 0
  | ⟨_, _, query⟩ :: rest => max query.depth (Query.depthOfCtes rest)

def QueryBody.depth : QueryBody → Nat
  | .select ⟨_, _, none, _, _, _⟩ => 0
  | .select ⟨_, _, some source, _, _, _⟩ => source.depth
  | .setOperation _ left right _ => max left.depth right.depth

def Source.depth : Source → Nat
  | .schema .. | .inMemory .. => 0
  | .subquery query _ => query.depth
  | .join _ left right _ | .apply _ left right => max left.depth right.depth

end

mutual

/-- The names that sources are bound under as written, in all nested queries: the aliases, and the
    names of tables in memory that have none. -/
def Query.sourceNames : Query → List String
  | ⟨body, _, _, _, ctes⟩ => Query.sourceNamesOfCtes ctes ++ body.sourceNames

def Query.sourceNamesOfCtes : List Cte → List String
  | [] => []
  | ⟨_, _, query⟩ :: rest => query.sourceNames ++ Query.sourceNamesOfCtes rest

def QueryBody.sourceNames : QueryBody → List String
  | .select ⟨_, _, none, _, _, _⟩ => []
  | .select ⟨_, _, some source, _, _, _⟩ => source.sourceNames
  | .setOperation _ left right _ => left.sourceNames ++ right.sourceNames

def Source.sourceNames : Source → List String
  | .schema _ _ _ aliasName => aliasName.toList
  | .inMemory name aliasName => [aliasName.getD name]
  | .subquery query aliasName => query.sourceNames ++ aliasName.toList
  | .join _ left right _ | .apply _ left right => left.sourceNames ++ right.sourceNames

end

/-! ## Bound queries -/

mutual

def BoundQuery.depth : BoundQuery → Nat
  | ⟨_, ctes, body, _, _, _, _⟩ => 1 + max (BoundQuery.depthOfCtes ctes) body.depth

def BoundQuery.depthOfCtes : List BoundCte → Nat
  | [] => 0
  | ⟨_, query⟩ :: rest => max query.depth (BoundQuery.depthOfCtes rest)

def BoundBody.depth : BoundBody → Nat
  | .select ⟨_, source, _, _, _, _, _⟩ => source.depth
  | .setOperation _ _ left right => max left.depth right.depth

def BoundSource.depth : BoundSource → Nat
  | .schema .. | .inMemory .. => 0
  | .subquery _ query _ => query.depth
  | .join _ _ left right _ | .apply _ _ left right => max left.depth right.depth

end

mutual

/-- The query and all queries nested in it. -/
def BoundQuery.queries : BoundQuery → List BoundQuery
  | q@⟨_, ctes, body, _, _, _, _⟩ => q :: (BoundQuery.queriesOfCtes ctes ++ body.queries)

def BoundQuery.queriesOfCtes : List BoundCte → List BoundQuery
  | [] => []
  | ⟨_, query⟩ :: rest => query.queries ++ BoundQuery.queriesOfCtes rest

def BoundBody.queries : BoundBody → List BoundQuery
  | .select ⟨_, source, _, _, _, _, _⟩ => source.queries
  | .setOperation _ _ left right => left.queries ++ right.queries

def BoundSource.queries : BoundSource → List BoundQuery
  | .schema .. | .inMemory .. => []
  | .subquery _ query _ => query.queries
  | .join _ _ left right _ | .apply _ _ left right => left.queries ++ right.queries

end

mutual

/-- All operands of the set operators that a query is built with. -/
def BoundQuery.operands : BoundQuery → List BoundQuery
  | ⟨_, _, body, _, _, _, _⟩ => body.operands

def BoundBody.operands : BoundBody → List BoundQuery
  | .select _ => []
  | .setOperation _ _ left right => left :: right :: (left.operands ++ right.operands)

end

/-- The positions of some columns in the output. -/
def BoundQuery.positions (q : BoundQuery) (names : List String) : List Nat :=
  names.map fun name => (q.output.map (·.name)).idxOf name

/-- A select block with its order, up to the names of its fields. -/
structure Block where
  scope : Nat
  source : BoundSource
  filter : Option Term
  groupBy : List Term
  grouping : Grouping
  /-- The terms of the fields, of the condition on groups and of the order. -/
  outputs : List Term

def BoundSelect.block (s : BoundSelect) (order : List SortKey) : Block :=
  ⟨s.scope, s.source, s.filter, s.groupBy, s.grouping,
    s.fields.map (·.term) ++ s.having.toList ++ order.map (·.term)⟩

/-- The block of a body that is one. -/
def BoundBody.block? (order : List SortKey) : BoundBody → Option Block
  | .select s => some (s.block order)
  | .setOperation .. => none

namespace BoundQuery

/-- The blocks of some queries. -/
def blocksOf (qs : List BoundQuery) : List Block := qs.filterMap fun q => q.body.block? q.orderBy

theorem mem_blocksOf {qs : List BoundQuery} {q : BoundQuery} {b : BoundSelect} (hq : q ∈ qs)
    (hb : q.body = .select b) : b.block q.orderBy ∈ blocksOf qs :=
  List.mem_filterMap.2 ⟨q, hq, by rw [hb]; rfl⟩

@[simp] theorem blocksOf_append (qs qs' : List BoundQuery) :
    blocksOf (qs ++ qs') = blocksOf qs ++ blocksOf qs' :=
  List.filterMap_append

@[simp] theorem blocksOf_nil : blocksOf [] = [] := rfl

theorem queries_eq (q : BoundQuery) :
    q.queries = q :: (queriesOfCtes q.ctes ++ q.body.queries) := by
  cases q
  simp [queries]

/-- The queries nested in a query. -/
def nested (q : BoundQuery) : List BoundQuery := queriesOfCtes q.ctes ++ q.body.queries

theorem self_mem_queries (q : BoundQuery) : q ∈ q.queries := by
  rw [queries_eq]
  exact List.mem_cons_self ..

theorem depth_eq (q : BoundQuery) : q.depth = 1 + max (depthOfCtes q.ctes) q.body.depth := by
  cases q
  simp [depth]

end BoundQuery

namespace BoundBody

theorem queries_select (s : BoundSelect) : (select s).queries = s.source.queries := by
  cases s
  simp [queries]

theorem queries_setOperation (operator : SetOperator) (keys : List String)
    (left right : BoundQuery) :
    (setOperation operator keys left right).queries = left.queries ++ right.queries := by
  simp [queries]

theorem depth_select (s : BoundSelect) : (select s).depth = s.source.depth := by
  cases s
  simp [depth]

theorem depth_setOperation (operator : SetOperator) (keys : List String)
    (left right : BoundQuery) :
    (setOperation operator keys left right).depth = max left.depth right.depth := by
  simp [depth]

end BoundBody

/-- With a query the list has all queries nested in it. -/
def BoundQuery.Closed (qs : List BoundQuery) : Prop := ∀ q ∈ qs, q.queries ⊆ qs

theorem BoundQuery.Closed.append {qs qs' : List BoundQuery} (h : Closed qs) (h' : Closed qs') :
    Closed (qs ++ qs') := by
  intro q hq
  rcases List.mem_append.1 hq with hq | hq
  · exact List.subset_append_of_subset_left _ (h q hq)
  · exact List.subset_append_of_subset_right _ (h' q hq)

mutual

theorem BoundQuery.queries_closed : ∀ q : BoundQuery, BoundQuery.Closed q.queries
  | ⟨_, ctes, body, _, _, _, _⟩ => by
    intro q' hq'
    rw [BoundQuery.queries, List.mem_cons] at hq'
    rcases hq' with rfl | hq'
    · exact List.Subset.refl _
    · rw [BoundQuery.queries]
      exact List.subset_cons_of_subset _
        ((BoundQuery.queriesOfCtes_closed ctes).append body.queries_closed q' hq')

theorem BoundQuery.queriesOfCtes_closed :
    ∀ ctes : List BoundCte, BoundQuery.Closed (BoundQuery.queriesOfCtes ctes)
  | [] => by simp [BoundQuery.Closed, BoundQuery.queriesOfCtes]
  | ⟨_, query⟩ :: rest => by
    rw [BoundQuery.queriesOfCtes]
    exact query.queries_closed.append (BoundQuery.queriesOfCtes_closed rest)

theorem BoundBody.queries_closed : ∀ body : BoundBody, BoundQuery.Closed body.queries
  | .select ⟨_, source, _, _, _, _, _⟩ => by
    rw [BoundBody.queries]
    exact source.queries_closed
  | .setOperation _ _ left right => by
    rw [BoundBody.queries]
    exact left.queries_closed.append right.queries_closed

theorem BoundSource.queries_closed : ∀ source : BoundSource, BoundQuery.Closed source.queries
  | .schema .. | .inMemory .. => by simp [BoundQuery.Closed, BoundSource.queries]
  | .subquery _ query _ => by
    rw [BoundSource.queries]
    exact query.queries_closed
  | .join _ _ left right _ | .apply _ _ left right => by
    rw [BoundSource.queries]
    exact left.queries_closed.append right.queries_closed

end

theorem BoundQuery.operands_subset_queries : ∀ q : BoundQuery, q.operands ⊆ q.queries
  | ⟨scope, ctes, .select s, orderBy, skip, take, output⟩ => by
    simp [BoundQuery.operands, BoundBody.operands]
  | ⟨scope, ctes, .setOperation operator keys left right, orderBy, skip, take, output⟩ => by
    have hl := operands_subset_queries left
    have hr := operands_subset_queries right
    intro o ho
    rw [BoundQuery.operands, BoundBody.operands] at ho
    rw [BoundQuery.queries_eq, BoundBody.queries_setOperation]
    simp only [List.mem_cons, List.mem_append] at ho ⊢
    rcases ho with rfl | rfl | ho | ho
    · exact .inr (.inr (.inl o.self_mem_queries))
    · exact .inr (.inr (.inr o.self_mem_queries))
    · exact .inr (.inr (.inl (hl ho)))
    · exact .inr (.inr (.inr (hr ho)))

namespace BoundQuery

variable {scope : Nat} {ctes : List BoundCte} {orderBy : List SortKey} {skip take : Option Nat}
variable {output : List Column}

/-- The blocks of a query: its own, then those of its expressions and of its body. -/
theorem blocksOf_queries (q : BoundQuery) :
    blocksOf q.queries = (q.body.block? q.orderBy).toList ++
      (blocksOf (queriesOfCtes q.ctes) ++ blocksOf q.body.queries) := by
  rw [queries_eq, ← blocksOf_append, blocksOf, List.filterMap_cons]
  cases q.body.block? q.orderBy <;> rfl

theorem blocksOf_select (s : BoundSelect) :
    blocksOf (queries ⟨scope, ctes, .select s, orderBy, skip, take, output⟩) =
      s.block orderBy :: (blocksOf (queriesOfCtes ctes) ++ blocksOf s.source.queries) := by
  rw [blocksOf_queries, BoundBody.queries_select]
  rfl

theorem blocksOf_setOperation (operator : SetOperator) (keys : List String)
    (left right : BoundQuery) :
    blocksOf (queries ⟨scope, ctes, .setOperation operator keys left right, orderBy, skip, take,
        output⟩) =
      blocksOf (queriesOfCtes ctes) ++ (blocksOf left.queries ++ blocksOf right.queries) := by
  rw [blocksOf_queries, BoundBody.queries_setOperation, blocksOf_append left.queries]
  rfl

end BoundQuery

/-! ## Bound sources -/

namespace BoundSource

/-- The columns of a source with columns of its own. -/
def columns : BoundSource → List Column
  | .schema _ _ _ _ columns _ | .inMemory _ _ _ columns | .subquery _ _ columns => columns
  | .join .. | .apply .. => []

/-- The sources that a source is made of, itself included. -/
def parts : BoundSource → List BoundSource
  | s@(.join _ _ left right _) | s@(.apply _ _ left right) => s :: (left.parts ++ right.parts)
  | s => [s]

/-- The sources that are no join or apply, each with its columns. -/
def leaves : BoundSource → List (String × List Column)
  | .join _ _ left right _ | .apply _ _ left right => left.leaves ++ right.leaves
  | s => [(s.aliasName, s.columns)]

/-- Whether a source is no join or apply. -/
def isLeaf : BoundSource → Bool
  | .join .. | .apply .. => false
  | _ => true

/-- Whether a source is a chain of joins and applies with a leaf on every right side. -/
def isLeftDeep : BoundSource → Bool
  | .join _ _ left right _ | .apply _ _ left right => left.isLeftDeep && right.isLeaf
  | _ => true

/-- Induction over the tree of a source. -/
@[elab_as_elim]
theorem treeInduction {motive : BoundSource → Prop}
    (schema : ∀ a schema method args columns type,
      motive (.schema a schema method args columns type))
    (inMemory : ∀ a table origin columns, motive (.inMemory a table origin columns))
    (subquery : ∀ a query columns, motive (.subquery a query columns))
    (join : ∀ a kind left right condition, motive left → motive right →
      motive (.join a kind left right condition))
    (apply : ∀ a kind left right, motive left → motive right →
      motive (.apply a kind left right)) :
    ∀ s, motive s
  | .schema a sch method args columns type => schema a sch method args columns type
  | .inMemory a table origin columns => inMemory a table origin columns
  | .subquery a query columns => subquery a query columns
  | .join a kind left right condition =>
    join a kind left right condition
      (treeInduction schema inMemory subquery join apply left)
      (treeInduction schema inMemory subquery join apply right)
  | .apply a kind left right =>
    apply a kind left right
      (treeInduction schema inMemory subquery join apply left)
      (treeInduction schema inMemory subquery join apply right)

theorem self_mem_parts (s : BoundSource) : s ∈ s.parts := by
  cases s <;> simp [parts]

theorem map_leaves (s : BoundSource) : s.leaves.map (·.1) = s.leafAliases := by
  induction s using treeInduction with
  | join _ _ _ _ _ ihl ihr => simp [leaves, leafAliases, ihl, ihr]
  | apply _ _ _ _ ihl ihr => simp [leaves, leafAliases, ihl, ihr]
  | _ => rfl

theorem leaves_of_isLeaf {s : BoundSource} (h : s.isLeaf = true) :
    s.leaves = [(s.aliasName, s.columns)] := by
  cases s with
  | join | apply => cases h
  | _ => rfl

theorem leafAliases_ne_nil (s : BoundSource) : s.leafAliases ≠ [] := by
  induction s using treeInduction with
  | join _ _ _ _ _ ihl => simp [leafAliases, ihl]
  | apply _ _ _ _ ihl => simp [leafAliases, ihl]
  | _ => simp [leafAliases]

/-- Every leaf is a part. -/
theorem leafAliases_sublist (s : BoundSource) :
    s.leafAliases.Sublist (s.parts.map (·.aliasName)) := by
  induction s using treeInduction with
  | join _ _ _ _ _ ihl ihr =>
    simp only [leafAliases, parts, List.map_cons, List.map_append]
    exact (ihl.append ihr).cons _
  | apply _ _ _ _ ihl ihr =>
    simp only [leafAliases, parts, List.map_cons, List.map_append]
    exact (ihl.append ihr).cons _
  | _ => exact List.Sublist.refl _

theorem exists_leaf_part {s : BoundSource} {a : String} (h : a ∈ s.leafAliases) :
    ∃ p ∈ s.parts, p.isLeaf = true ∧ p.aliasName = a := by
  have hpair {left right : BoundSource} (hl : a ∈ left.leafAliases → ∃ p ∈ left.parts,
      p.isLeaf = true ∧ p.aliasName = a) (hr : a ∈ right.leafAliases → ∃ p ∈ right.parts,
      p.isLeaf = true ∧ p.aliasName = a) (h : a ∈ left.leafAliases ++ right.leafAliases) :
      ∃ p ∈ left.parts ++ right.parts, p.isLeaf = true ∧ p.aliasName = a := by
    rcases List.mem_append.1 h with h | h
    · obtain ⟨p, hp, hleaf⟩ := hl h
      exact ⟨p, List.mem_append_left _ hp, hleaf⟩
    · obtain ⟨p, hp, hleaf⟩ := hr h
      exact ⟨p, List.mem_append_right _ hp, hleaf⟩
  induction s using treeInduction with
  | join _ _ _ _ _ ihl ihr =>
    obtain ⟨p, hp, hleaf⟩ := hpair ihl ihr h
    exact ⟨p, List.mem_cons_of_mem _ hp, hleaf⟩
  | apply _ _ _ _ ihl ihr =>
    obtain ⟨p, hp, hleaf⟩ := hpair ihl ihr h
    exact ⟨p, List.mem_cons_of_mem _ hp, hleaf⟩
  | _ => exact ⟨_, List.mem_singleton.2 rfl, rfl, (List.mem_singleton.1 h).symm⟩

/-- What a join or apply has from both its sides, a source has from all its parts. -/
theorem subset_of_part {α : Type} {f : BoundSource → List α}
    (hjoin : ∀ a kind left right condition, f left ⊆ f (.join a kind left right condition) ∧
      f right ⊆ f (.join a kind left right condition))
    (happly : ∀ a kind left right, f left ⊆ f (.apply a kind left right) ∧
      f right ⊆ f (.apply a kind left right))
    {s p : BoundSource} (h : p ∈ s.parts) : f p ⊆ f s := by
  induction s using treeInduction with
  | join a kind left right condition ihl ihr =>
    obtain ⟨hleft, hright⟩ := hjoin a kind left right condition
    simp only [parts, List.mem_cons, List.mem_append] at h
    rcases h with rfl | h | h
    · exact List.Subset.refl _
    · exact List.Subset.trans (ihl h) hleft
    · exact List.Subset.trans (ihr h) hright
  | apply a kind left right ihl ihr =>
    obtain ⟨hleft, hright⟩ := happly a kind left right
    simp only [parts, List.mem_cons, List.mem_append] at h
    rcases h with rfl | h | h
    · exact List.Subset.refl _
    · exact List.Subset.trans (ihl h) hleft
    · exact List.Subset.trans (ihr h) hright
  | _ =>
    obtain rfl := List.mem_singleton.1 h
    exact List.Subset.refl _

/-- The parts of a part are parts. -/
theorem parts_subset {s p : BoundSource} (h : p ∈ s.parts) : p.parts ⊆ s.parts :=
  subset_of_part (fun _ _ _ _ _ => by simp [parts]) (fun _ _ _ _ => by simp [parts]) h

theorem leaves_subset {s p : BoundSource} (h : p ∈ s.parts) : p.leaves ⊆ s.leaves :=
  subset_of_part (fun _ _ _ _ _ => by simp [leaves]) (fun _ _ _ _ => by simp [leaves]) h

theorem leafAliases_subset {s p : BoundSource} (h : p ∈ s.parts) :
    p.leafAliases ⊆ s.leafAliases :=
  subset_of_part (fun _ _ _ _ _ => by simp [leafAliases]) (fun _ _ _ _ => by simp [leafAliases]) h

end BoundSource

end SchemaQuery
