-- SUMMARY: When reads can be redirected to relations.
import SchemaQuery.Plan.Relation
import SchemaQuery.Proofs.Resolve.Layout

/-!
# Redirected reads

Redirecting the columns of a term succeeds when the relations at hand carry all
leaves that the term reads, and trimming a bound source gives columns of its leaves.
-/

namespace SchemaQuery

/-- A list of steps that all succeed. -/
theorem except_mapM_eq_map {ε α β : Type} {f : α → Except ε β} {g : α → β} {as : List α}
    (h : ∀ a ∈ as, f a = .ok (g a)) : as.mapM f = .ok (as.map g) := by
  rw [except_mapM_ok, List.forall₂_map_right_iff, List.forall₂_same]
  exact h

/-- Every step of a list that succeeds does. -/
theorem exists_of_except_mapM {ε α β : Type} {f : α → Except ε β} {as : List α} {bs : List β}
    (h : as.mapM f = .ok bs) {a : α} (ha : a ∈ as) : ∃ b, f a = .ok b := by
  rw [except_mapM_ok] at h
  induction h with
  | nil => cases ha
  | @cons _ b _ _ hf _ ih =>
    rcases List.mem_cons.1 ha with rfl | ha
    · exact ⟨b, hf⟩
    · exact ih ha

/-- The results of steps that can only succeed in one way. -/
theorem eq_map_of_except_mapM {ε α β : Type} {f : α → Except ε β} {g : α → β} {as : List α}
    {bs : List β} (hf : ∀ a b, f a = .ok b → b = g a) (h : as.mapM f = .ok bs) :
    bs = as.map g := by
  have hresults : List.Forall₂ (fun a b => b = g a) as bs := (except_mapM_ok.1 h).imp hf
  have heq : List.Forall₂ (· = ·) bs (as.map g) := List.forall₂_map_right_iff.2 hresults.flip
  rwa [List.forall₂_eq_eq_eq] at heq

theorem except_optionM_eq_map {ε α β : Type} {f : α → Except ε β} {g : α → β} {a : Option α}
    (h : ∀ x ∈ a, f x = .ok (g x)) : a.mapM f = .ok (a.map g) := by
  cases a with
  | none => rfl
  | some x =>
    change some <$> f x = _
    rw [h x rfl]
    rfl

theorem eq_map_of_except_optionM {ε α β : Type} {f : α → Except ε β} {g : α → β} {a : Option α}
    {b : Option β} (hf : ∀ x y, f x = .ok y → y = g x) (h : a.mapM f = .ok b) : b = a.map g := by
  cases a with
  | none =>
    cases h
    rfl
  | some x =>
    obtain ⟨y, hy, hpure⟩ := except_bind_ok.1 h
    cases hpure
    rw [hf x y hy]
    rfl

namespace Plan

/-! ## Relations -/

/-- The relations have the columns of all the leaves. -/
def Carried (relations : List Relation) (leaves : List (String × List Column)) : Prop :=
  ∀ l ∈ leaves, relations.any (·.carries l.1) = true

variable {relations : List Relation} {leaves : List (String × List Column)}

theorem relocate_of_reads {t : Term} (hreads : ∀ u ∈ t.subterms, u.ReadsFrom leaves)
    (hcarried : Carried relations leaves) :
    relocate relations t = .ok (t.mapUp (relocateNode relations)) := by
  have hnone : t.subterms.findSome? (detached? relations) = none := by
    rw [List.findSome?_eq_none_iff]
    intro u hu
    cases u with
    | column a n o q type =>
      obtain ⟨cs, hcs, -⟩ := hreads _ hu
      simp only [detached?, hcarried _ hcs, if_true]
    | _ => rfl
  simp only [relocate, hnone]

/-- A redirected term is never anything else. -/
theorem eq_of_relocate {t t' : Term} (h : relocate relations t = .ok t') :
    t' = t.mapUp (relocateNode relations) := by
  unfold relocate at h
  split at h
  · cases h
  · cases h
    rfl

/-- Some relation carries each column of a term. -/
def Located (relations : List Relation) (t : Term) : Prop :=
  ∀ u ∈ t.subterms, detached? relations u = none

theorem located_of_relocate {t t' : Term} (h : relocate relations t = .ok t') :
    Located relations t := by
  unfold relocate at h
  split at h
  · cases h
  · rename_i hnone
    exact List.findSome?_eq_none_iff.1 hnone

theorem eq_of_relocateAll {ts ts' : List Term} (h : relocateAll relations ts = .ok ts') :
    ts' = ts.map (·.mapUp (relocateNode relations)) :=
  eq_map_of_except_mapM (fun _ _ => eq_of_relocate) h

theorem eq_of_relocateOption {t t' : Option Term} (h : t.mapM (relocate relations) = .ok t') :
    t' = t.map (·.mapUp (relocateNode relations)) :=
  eq_map_of_except_optionM (fun _ _ => eq_of_relocate) h

theorem eq_of_relocateOrder {ks ks' : List SortKey} (h : relocateOrder relations ks = .ok ks') :
    ks' = ks.map fun k => { k with term := k.term.mapUp (relocateNode relations) } := by
  refine eq_map_of_except_mapM (fun k k' hk => ?_) h
  obtain ⟨t, ht, hpure⟩ := except_bind_ok.1 hk
  rw [← except_pure_ok.1 hpure, eq_of_relocate ht]

theorem relocateAll_of_reads {ts : List Term}
    (hreads : ∀ t ∈ ts, ∀ u ∈ t.subterms, u.ReadsFrom leaves)
    (hcarried : Carried relations leaves) :
    relocateAll relations ts = .ok (ts.map (·.mapUp (relocateNode relations))) :=
  except_mapM_eq_map fun t ht => relocate_of_reads (hreads t ht) hcarried

theorem relocateOption_of_reads {t : Option Term}
    (hreads : ∀ x ∈ t.toList, ∀ u ∈ x.subterms, u.ReadsFrom leaves)
    (hcarried : Carried relations leaves) :
    t.mapM (relocate relations) = .ok (t.map (·.mapUp (relocateNode relations))) :=
  except_optionM_eq_map fun x hx => relocate_of_reads (hreads x (Option.mem_toList.2 hx)) hcarried

theorem relocateOrder_of_reads {ks : List SortKey}
    (hreads : ∀ k ∈ ks, ∀ u ∈ k.term.subterms, u.ReadsFrom leaves)
    (hcarried : Carried relations leaves) :
    relocateOrder relations ks =
      .ok (ks.map fun k => { k with term := k.term.mapUp (relocateNode relations) }) := by
  refine except_mapM_eq_map fun k hk => ?_
  rw [relocate_of_reads (hreads k hk) hcarried]
  rfl

/-- The needed columns of the leaves of a source. -/
theorem trimmedColumns_of_leafTables {s : Scopes} (hs : s.Ordered) {id : Nat} {src : BoundSource}
    {tables : List TableSymbol} (ht : LeafTables s id src tables) (needs : ColumnNeeds) :
    trimmedColumns s id src.leafAliases needs = .ok (tables.flatMap fun t =>
      (needs.columnsOf t).map fun c => (t.aliasName, c)) := by
  have haliases : src.leafAliases = tables.map (·.aliasName) := by
    rw [← src.map_leaves, ← ht.leaves, List.map_map]
    rfl
  have hcolumns : src.leafAliases.mapM (fun a => do
      let table ← ofLookup (s.resolve .table a id)
      return (needs.columnsOf table).map fun c => (a, c)) =
      .ok (tables.map fun t => (needs.columnsOf t).map fun c => (t.aliasName, c)) := by
    rw [haliases, except_mapM_ok, List.forall₂_map_left_iff, List.forall₂_map_right_iff,
      List.forall₂_same]
    intro t hmem
    rw [Scopes.resolve_table_of_findIn? hs (ht.bound t hmem)]
    rfl
  unfold trimmedColumns
  rw [hcolumns]
  rfl

end Plan

end SchemaQuery
