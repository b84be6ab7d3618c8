-- SUMMARY: Renaming the output of a query keeps its blocks.
import SchemaQuery.Proofs.Query.Shape

/-!
# Renamed outputs

The declared columns of a common table expression rename the output of its query.
Only names of fields and of sort keys over a set operator change, so the blocks
of the query and the nesting of its parts stay the same.
-/

namespace SchemaQuery

/-- A term that is no field of the output of a set operator. -/
def Term.NotOutputField (t : Term) : Prop := ∀ n i type, t ≠ .outputField n i type

theorem map_term_renameFields (fields : List Field) (names : List String) :
    (renameFields fields names).map (·.term) = fields.map (·.term) := by
  induction fields generalizing names with
  | nil => simp [renameFields]
  | cons f fs ih =>
    cases names with
    | nil => simp [renameFields]
    | cons n ns => simp [renameFields, ih]

theorem SortKey.renameOutput_term {k : SortKey} (names : List String) (h : k.term.NotOutputField) :
    (k.renameOutput names).term = k.term := by
  unfold SortKey.renameOutput
  split
  · rename_i n i type hterm
    exact absurd hterm (h n i type)
  · rfl

theorem BoundSelect.block_renameOutput {s : BoundSelect} {order : List SortKey}
    (names : List String) (h : ∀ t ∈ (s.block order).outputs, t.NotOutputField) :
    ({ s with fields := renameFields s.fields names } : BoundSelect).block
      (order.map (·.renameOutput names)) = s.block order := by
  have horder : (order.map (·.renameOutput names)).map (·.term) = order.map (·.term) := by
    rw [List.map_map]
    refine List.map_congr_left fun k hk => SortKey.renameOutput_term names (h k.term ?_)
    exact List.mem_append_right _ (List.mem_map_of_mem hk)
  simp only [BoundSelect.block, map_term_renameFields, horder]

namespace BoundQuery

section Equations

-- Many proofs below open these definitions. Their equations are generated once, here.
attribute [local simp] renameOutput BoundBody.renameOutput

end Equations

theorem blocksOf_renameOutput (names : List String) : ∀ q : BoundQuery,
    (∀ b ∈ blocksOf q.queries, ∀ t ∈ b.outputs, t.NotOutputField) →
    blocksOf (q.renameOutput names).queries = blocksOf q.queries
  | ⟨scope, ctes, .select s, orderBy, skip, take, output⟩, h => by
    rw [blocksOf_select] at h
    rw [renameOutput, BoundBody.renameOutput, blocksOf_select, blocksOf_select,
      BoundSelect.block_renameOutput names (h _ (by simp))]
  | ⟨scope, ctes, .setOperation operator keys left right, orderBy, skip, take, output⟩, h => by
    rw [blocksOf_setOperation] at h
    rw [renameOutput, BoundBody.renameOutput, blocksOf_setOperation, blocksOf_setOperation,
      blocksOf_renameOutput names left fun b hb => h b (by simp [hb]),
      blocksOf_renameOutput names right fun b hb => h b (by simp [hb])]

theorem sources_renameOutput (names : List String) : ∀ q : BoundQuery,
    (blocksOf (q.renameOutput names).queries).map (fun b => (b.scope, b.source)) =
      (blocksOf q.queries).map fun b => (b.scope, b.source)
  | ⟨scope, ctes, .select s, orderBy, skip, take, output⟩ => by
    rw [renameOutput, BoundBody.renameOutput, blocksOf_select, blocksOf_select]
    simp only [List.map_cons, BoundSelect.block]
  | ⟨scope, ctes, .setOperation operator keys left right, orderBy, skip, take, output⟩ => by
    rw [renameOutput, BoundBody.renameOutput, blocksOf_setOperation, blocksOf_setOperation]
    simp only [List.map_append, sources_renameOutput names left, sources_renameOutput names right]

theorem scopes_renameOutput (names : List String) : ∀ q : BoundQuery,
    (q.renameOutput names).queries.map (·.scope) = q.queries.map (·.scope)
  | ⟨scope, ctes, .select s, orderBy, skip, take, output⟩ => by
    rw [renameOutput, BoundBody.renameOutput, queries_eq, queries_eq]
    simp only [List.map_cons, List.map_append, BoundBody.queries_select]
  | ⟨scope, ctes, .setOperation operator keys left right, orderBy, skip, take, output⟩ => by
    rw [renameOutput, BoundBody.renameOutput, queries_eq, queries_eq]
    simp only [List.map_cons, List.map_append, BoundBody.queries_setOperation,
      scopes_renameOutput names left, scopes_renameOutput names right]

/-- The operands of a renamed query are renamed one by one. -/
theorem operands_renameOutput (names : List String) : ∀ q : BoundQuery,
    (q.renameOutput names).operands = q.operands.map (·.renameOutput names)
  | ⟨scope, ctes, .select s, orderBy, skip, take, output⟩ => by
    simp [renameOutput, BoundBody.renameOutput, operands, BoundBody.operands]
  | ⟨scope, ctes, .setOperation operator keys left right, orderBy, skip, take, output⟩ => by
    simp [renameOutput, BoundBody.renameOutput, operands, BoundBody.operands,
      operands_renameOutput names left, operands_renameOutput names right]

/-- The queries of a renamed one are as before or renamed themselves. -/
theorem mem_queries_renameOutput (names : List String) : ∀ q : BoundQuery,
    ∀ r ∈ (q.renameOutput names).queries, ∃ r' ∈ q.queries, r = r' ∨ r = r'.renameOutput names
  | ⟨scope, ctes, .select s, orderBy, skip, take, output⟩, r, hr => by
    rw [queries_eq, List.mem_cons] at hr
    rcases hr with rfl | hr
    · exact ⟨_, self_mem_queries _, .inr rfl⟩
    · simp only [renameOutput, BoundBody.renameOutput, BoundBody.queries_select] at hr
      rw [queries_eq, BoundBody.queries_select]
      exact ⟨r, List.mem_cons_of_mem _ hr, .inl rfl⟩
  | ⟨scope, ctes, .setOperation operator keys left right, orderBy, skip, take, output⟩, r, hr => by
    rw [queries_eq, List.mem_cons] at hr
    rcases hr with rfl | hr
    · exact ⟨_, self_mem_queries _, .inr rfl⟩
    · simp only [renameOutput, BoundBody.renameOutput, BoundBody.queries_setOperation,
        List.mem_append] at hr
      rw [queries_eq]
      simp only [BoundBody.queries_setOperation, List.mem_cons, List.mem_append]
      rcases hr with hr | hr | hr
      · exact ⟨r, .inr (.inl hr), .inl rfl⟩
      · obtain ⟨r', hr', hsame⟩ := mem_queries_renameOutput names left r hr
        exact ⟨r', .inr (.inr (.inl hr')), hsame⟩
      · obtain ⟨r', hr', hsame⟩ := mem_queries_renameOutput names right r hr
        exact ⟨r', .inr (.inr (.inr hr')), hsame⟩

/-- Every query is nested in the same ones as before. -/
theorem nested_renameOutput (names : List String) (q : BoundQuery) :
    ∀ r ∈ (q.renameOutput names).queries, ∃ r' ∈ q.queries,
      r'.scope = r.scope ∧ r'.nested.map (·.scope) = r.nested.map (·.scope) := by
  intro r hr
  obtain ⟨r', hr', rfl | rfl⟩ := mem_queries_renameOutput names q r hr
  · exact ⟨r, hr', rfl, rfl⟩
  · have hscopes := r'.scopes_renameOutput names
    simp only [queries_eq, List.map_cons, List.cons.injEq] at hscopes
    exact ⟨r', hr', hscopes.1.symm, hscopes.2.symm⟩

theorem depth_renameOutput (names : List String) : ∀ q : BoundQuery,
    (q.renameOutput names).depth = q.depth
  | ⟨scope, ctes, .select s, orderBy, skip, take, output⟩ => by
    rw [renameOutput, BoundBody.renameOutput, depth_eq, depth_eq, BoundBody.depth_select,
      BoundBody.depth_select]
  | ⟨scope, ctes, .setOperation operator keys left right, orderBy, skip, take, output⟩ => by
    rw [renameOutput, BoundBody.renameOutput, depth_eq, depth_eq, BoundBody.depth_setOperation,
      BoundBody.depth_setOperation, depth_renameOutput names left, depth_renameOutput names right]

end BoundQuery

end SchemaQuery
