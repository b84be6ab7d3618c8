-- SUMMARY: The columns asked of a source are those that the select block names for it.
import SchemaQuery.Proofs.NameMap
import SchemaQuery.Query.Usage

/-!
# Asked columns

The usage of a select block is collected item by item. What it asks of an alias
in the end can be said without it: everything if a wildcard covers the alias, and
otherwise the columns that are written bare or qualified by the alias
(`contains_requestedFor_collect`).
-/

namespace SchemaQuery

/-! ## Written columns -/

/-- The columns that an item of a projection names. -/
def SelectItem.references : SelectItem → List (Option String × String)
  | .expr e | .aliased e _ => e.references
  | .wildcard | .qualifiedWildcard _ => []

/-- Whether an item of a projection is a wildcard over the columns of an alias. -/
def SelectItem.spreads (a : String) : SelectItem → Bool
  | .wildcard => true
  | .qualifiedWildcard q => q = a
  | .expr _ | .aliased .. => false

/-- A select block as written, with the order applied to it. -/
structure WrittenBlock where
  select : Select
  orderBy : List OrderItem

namespace WrittenBlock

/-- The expressions of the clauses after the projection. -/
def clauses (w : WrittenBlock) : List Expr :=
  w.select.filter.toList ++ w.select.groupBy ++ w.select.having.toList ++ w.orderBy.map (·.expr)

/-- The columns named by the clauses after the projection and by the sources. -/
def clauseReferences (w : WrittenBlock) : List (Option String × String) :=
  w.clauses.flatMap Expr.references ++ (w.select.source.map Source.references).getD []

/-- The columns that a block names, each with its qualifier if it has one. -/
def references (w : WrittenBlock) : List (Option String × String) :=
  w.select.projection.flatMap SelectItem.references ++ w.clauseReferences

/-- A block asks for a column of an alias: by a wildcard, by its bare name or by its qualified
    name. -/
def Asks (w : WrittenBlock) (a n : String) : Prop :=
  w.select.projection.any (·.spreads a) = true ∨ (none, n) ∈ w.references ∨
    (some a, n) ∈ w.references

/-- A name stands before a dot. -/
def Qualifies (w : WrittenBlock) (n : String) : Prop := ∃ r ∈ w.references, r.1 = some n

instance (w : WrittenBlock) (a n : String) : Decidable (w.Asks a n) :=
  inferInstanceAs (Decidable (_ ∨ _ ∨ _))

instance (w : WrittenBlock) (n : String) : Decidable (w.Qualifies n) :=
  inferInstanceAs (Decidable (∃ r ∈ w.references, r.1 = some n))

end WrittenBlock

theorem Expr.referencesAll_eq (es : List Expr) : referencesAll es = es.flatMap references := by
  induction es with
  | nil => rfl
  | cons e es ih => rw [referencesAll, ih, List.flatMap_cons]

namespace WrittenBlock

variable (w : WrittenBlock)

theorem item_references_subset {item : SelectItem} (h : item ∈ w.select.projection) :
    item.references ⊆ w.references :=
  fun _ hr => List.mem_append_left _ (List.mem_flatMap.2 ⟨item, h, hr⟩)

theorem clause_references_subset {e : Expr} (h : e ∈ w.clauses) : e.references ⊆ w.references := by
  refine fun r hr => List.mem_append_right _ (List.mem_append_left _ ?_)
  exact List.mem_flatMap.2 ⟨e, h, hr⟩

theorem source_references_subset {src : Source} (h : w.select.source = some src) :
    src.references ⊆ w.references := by
  refine fun r hr => List.mem_append_right _ (List.mem_append_right _ ?_)
  simpa [h] using hr

end WrittenBlock

/-! ## Requests -/

namespace ColumnRequest

theorem contains_iff {r : ColumnRequest} {n : String} :
    r.contains n = true ↔ r.all = true ∨ n ∈ r.names := by
  simp [contains]

theorem contains_insert {r : ColumnRequest} {n x : String} :
    (r.insert n).contains x = true ↔ r.contains x = true ∨ x = n := by
  rw [contains_iff, contains_iff, insert, NameSet.mem_insert, or_left_comm, or_comm]

theorem contains_merge {r s : ColumnRequest} {x : String} :
    (r.merge s).contains x = true ↔ r.contains x = true ∨ s.contains x = true := by
  simp only [contains_iff, merge, NameSet.mem_union, Bool.or_eq_true]
  exact or_or_or_comm

theorem contains_none (x : String) : ColumnRequest.none.contains x = false := rfl

end ColumnRequest

namespace ColumnUsage

variable {u : ColumnUsage} {a b n : String}

/-- What was asked of an alias by its qualified names. -/
def qualified (u : ColumnUsage) (a : String) : ColumnRequest := (u.byAlias.get? a).getD .none

theorem contains_requestedFor : (u.requestedFor a).contains n = true ↔
    u.unqualified.contains n = true ∨ (u.qualified a).contains n = true := by
  unfold requestedFor qualified
  cases u.byAlias.get? a with
  | none => simp [ColumnRequest.contains_none]
  | some r => exact ColumnRequest.contains_merge

theorem qualified_update {f : ColumnRequest → ColumnRequest} :
    (u.update b f).qualified a = if b = a then f (u.qualified a) else u.qualified a := by
  unfold qualified update
  rw [NameMap.get?_insert]
  by_cases h : b = a
  · subst h
    simp
  · simp [h]

theorem contains_addReference {r : Option String × String} :
    ((u.addReference r).requestedFor a).contains n = true ↔
      (u.requestedFor a).contains n = true ∨ r = (none, n) ∨ r = (some a, n) := by
  obtain ⟨q, c⟩ := r
  rw [contains_requestedFor, contains_requestedFor]
  cases q with
  | none =>
    change (u.unqualified.insert c).contains n = true ∨ (u.qualified a).contains n = true ↔ _
    rw [ColumnRequest.contains_insert, @eq_comm _ n c]
    simp [or_right_comm]
  | some q =>
    change u.unqualified.contains n = true ∨
      ((u.update q (·.insert c)).qualified a).contains n = true ↔ _
    rw [qualified_update]
    by_cases h : q = a
    · rw [if_pos h, ColumnRequest.contains_insert, @eq_comm _ n c]
      simp [h, or_assoc]
    · simp [h]

theorem contains_addReferences {refs : List (Option String × String)} :
    ((u.addReferences refs).requestedFor a).contains n = true ↔
      (u.requestedFor a).contains n = true ∨ (none, n) ∈ refs ∨ (some a, n) ∈ refs := by
  unfold addReferences
  induction refs generalizing u with
  | nil => simp
  | cons r refs ih =>
    rw [List.foldl_cons, ih, contains_addReference, List.mem_cons, List.mem_cons]
    simp only [eq_comm, or_assoc, or_left_comm]

theorem contains_addItem {item : SelectItem} :
    ((u.addItem item).requestedFor a).contains n = true ↔
      (u.requestedFor a).contains n = true ∨ item.spreads a = true ∨
        (none, n) ∈ item.references ∨ (some a, n) ∈ item.references := by
  cases item with
  | expr e => simp [addItem, SelectItem.spreads, SelectItem.references, contains_addReferences]
  | aliased e _ => simp [addItem, SelectItem.spreads, SelectItem.references, contains_addReferences]
  | wildcard =>
    rw [contains_requestedFor]
    simp [addItem, SelectItem.spreads, ColumnRequest.contains_iff]
  | qualifiedWildcard q =>
    rw [contains_requestedFor, contains_requestedFor]
    change u.unqualified.contains n = true ∨
      ((u.update q fun r => { r with all := true }).qualified a).contains n = true ↔ _
    rw [qualified_update]
    by_cases h : q = a
    · simp [h, SelectItem.spreads, ColumnRequest.contains_iff]
    · simp [h, SelectItem.spreads, SelectItem.references]

theorem contains_addItems {items : List SelectItem} :
    ((items.foldl addItem u).requestedFor a).contains n = true ↔
      (u.requestedFor a).contains n = true ∨ items.any (·.spreads a) = true ∨
        (none, n) ∈ items.flatMap SelectItem.references ∨
        (some a, n) ∈ items.flatMap SelectItem.references := by
  induction items generalizing u with
  | nil => simp
  | cons item items ih =>
    rw [List.foldl_cons, ih, contains_addItem]
    simp only [List.any_cons, List.flatMap_cons, List.mem_append, Bool.or_eq_true, or_assoc,
      or_left_comm]

/-- What the usage of a block asks of an alias. -/
theorem contains_requestedFor_collect (w : WrittenBlock) (a n : String) :
    ((collect w.select w.orderBy).requestedFor a).contains n = true ↔ w.Asks a n := by
  have hempty : (empty.requestedFor a).contains n = false := rfl
  change (((w.select.projection.foldl addItem empty).addReferences
    w.clauseReferences).requestedFor a).contains n = true ↔ _
  rw [contains_addReferences, contains_addItems, hempty]
  simp only [WrittenBlock.Asks, WrittenBlock.references, List.mem_append, Bool.false_eq_true,
    false_or, or_assoc, or_left_comm]

end ColumnUsage

end SchemaQuery
