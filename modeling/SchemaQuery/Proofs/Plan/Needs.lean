-- SUMMARY: The needs of a list of terms are what the nodes of these terms read.
import SchemaQuery.Plan.Needs
import SchemaQuery.Proofs.NameMap
import SchemaQuery.Proofs.Term.Subterms

/-!
# Covered nodes

Collecting needs only adds to them, so what a node reads is still needed after
all terms have been collected. Nothing else is needed then (`needs_addAll`).
-/

namespace SchemaQuery

namespace Term

/-- Whether a single node reads a column of an alias, by its name or with the whole row. -/
def readsColumn (aliasName column : String) : Term → Bool
  | .column a c _ _ _ => a = aliasName && c = column
  | .call method _ _ => method.sourceAlias = some aliasName
  | _ => false

/-- Whether a node of a term reads a column of an alias. -/
def refersTo (t : Term) (aliasName column : String) : Bool :=
  t.subterms.any (readsColumn aliasName column)

end Term

namespace Plan.ColumnNeeds

variable {n n' : ColumnNeeds}

/-- Every need of the first is one of the second. -/
structure Le (n n' : ColumnNeeds) : Prop where
  rows : ∀ a, n.needsRow a = true → n'.needsRow a = true
  columns : ∀ a c, n.needs a c = true → n'.needs a c = true

/-- What a node reads is needed. -/
def Covers (n : ColumnNeeds) : Term → Prop
  | .column aliasName name _ _ _ => n.needs aliasName name = true
  | .call method _ _ => ∀ a, method.sourceAlias = some a → n.needsRow a = true
  | _ => True

theorem Le.refl (n : ColumnNeeds) : n.Le n := ⟨fun _ h => h, fun _ _ h => h⟩

theorem Le.trans {n'' : ColumnNeeds} (h : n.Le n') (h' : n'.Le n'') : n.Le n'' :=
  ⟨fun a ha => h'.rows a (h.rows a ha), fun a c hc => h'.columns a c (h.columns a c hc)⟩

theorem Covers.mono {t : Term} (h : n.Covers t) (hle : n.Le n') : n'.Covers t := by
  cases t with
  | column => exact hle.columns _ _ h
  | call => exact fun a ha => hle.rows a (h a ha)
  | _ => trivial

theorem needs_iff {a c : String} : n.needs a c = true ↔
    n.needsRow a = true ∨ c ∈ (n.columns.get? a).getD [] := by
  simp [needs]

theorem needs_of_row {a : String} (h : n.needsRow a = true) (c : String) : n.needs a c = true :=
  needs_iff.2 (.inl h)

theorem le_addNode (n : ColumnNeeds) (t : Term) : n.Le (n.addNode t) := by
  cases t with
  | column a name o q type =>
    refine ⟨fun _ h => h, fun b c h => ?_⟩
    rcases needs_iff.1 h with hrow | hcolumn
    · exact needs_iff.2 (.inl hrow)
    · refine needs_iff.2 (.inr ?_)
      simp only [addNode, NameMap.get?_insert]
      split
      · rename_i heq
        subst heq
        exact NameSet.mem_insert.2 (.inr hcolumn)
      · exact hcolumn
  | call method args type =>
    simp only [addNode]
    cases method.sourceAlias with
    | none => exact .refl n
    | some a =>
      have hrows : ∀ b, n.needsRow b = true →
          needsRow { n with whole := NameSet.insert a n.whole } b = true := by
        intro b hb
        simp only [needsRow, List.contains_iff_mem] at hb ⊢
        exact NameSet.mem_insert.2 (.inr hb)
      refine ⟨hrows, fun b c h => ?_⟩
      rcases needs_iff.1 h with hrow | hcolumn
      · exact needs_of_row (hrows b hrow) c
      · exact needs_iff.2 (.inr hcolumn)
  | _ => exact .refl n

theorem covers_addNode (n : ColumnNeeds) (t : Term) : (n.addNode t).Covers t := by
  cases t with
  | column a name o q type =>
    refine needs_iff.2 (.inr ?_)
    simp only [addNode, NameMap.get?_insert, if_true, Option.getD_some]
    exact NameSet.mem_insert.2 (.inl rfl)
  | call method args type =>
    intro a ha
    simp only [addNode, ha, needsRow, List.contains_iff_mem]
    exact NameSet.mem_insert.2 (.inl rfl)
  | _ => trivial

theorem le_foldl_addNode (n : ColumnNeeds) (ts : List Term) : n.Le (ts.foldl addNode n) := by
  induction ts generalizing n with
  | nil => exact .refl n
  | cons t ts ih => exact (le_addNode n t).trans (ih _)

theorem covers_foldl_addNode {ts : List Term} {t : Term} (n : ColumnNeeds) (h : t ∈ ts) :
    (ts.foldl addNode n).Covers t := by
  induction ts generalizing n with
  | nil => cases h
  | cons t' ts ih =>
    rcases List.mem_cons.1 h with rfl | h
    · exact (covers_addNode n t).mono (le_foldl_addNode _ ts)
    · exact ih _ h

theorem le_add (n : ColumnNeeds) (t : Term) : n.Le (n.add t) := le_foldl_addNode n t.subterms

theorem covers_add (n : ColumnNeeds) {t u : Term} (h : u ∈ t.subterms) : (n.add t).Covers u :=
  covers_foldl_addNode n h

theorem le_addAll (n : ColumnNeeds) (ts : List Term) : n.Le (n.addAll ts) := by
  induction ts generalizing n with
  | nil => exact .refl n
  | cons t ts ih => exact (le_add n t).trans (ih _)

theorem covers_addAll (n : ColumnNeeds) {ts : List Term} {t u : Term} (ht : t ∈ ts)
    (hu : u ∈ t.subterms) : (n.addAll ts).Covers u := by
  induction ts generalizing n with
  | nil => cases ht
  | cons t' ts ih =>
    rcases List.mem_cons.1 ht with rfl | ht
    · exact (covers_add n hu).mono (le_addAll _ ts)
    · exact ih _ ht

/-! ## Exact needs -/

theorem needs_addNode (n : ColumnNeeds) (t : Term) (a c : String) :
    (n.addNode t).needs a c = true ↔ n.needs a c = true ∨ t.readsColumn a c = true := by
  cases t with
  | column a' name o q type =>
    simp only [needs_iff, addNode, NameMap.get?_insert, Term.readsColumn, needsRow,
      Bool.and_eq_true, decide_eq_true_eq]
    split
    · rename_i heq
      subst heq
      simp only [Option.getD_some, NameSet.mem_insert, true_and]
      grind
    · grind
  | call method args type =>
    simp only [addNode, Term.readsColumn, decide_eq_true_eq]
    cases method.sourceAlias with
    | none => simp
    | some a' =>
      simp only [needs_iff, needsRow, List.contains_iff_mem, NameSet.mem_insert, Option.some.injEq]
      grind
  | _ => simp [addNode, Term.readsColumn]

theorem needs_add (n : ColumnNeeds) (t : Term) (a c : String) :
    (n.add t).needs a c = true ↔ n.needs a c = true ∨ t.refersTo a c = true := by
  have hnodes : ∀ (ts : List Term) (n : ColumnNeeds), (ts.foldl addNode n).needs a c = true ↔
      n.needs a c = true ∨ ts.any (Term.readsColumn a c) = true := by
    intro ts
    induction ts with
    | nil => simp
    | cons t ts ih =>
      intro n
      rw [List.foldl_cons, ih, needs_addNode, List.any_cons, Bool.or_eq_true, or_assoc]
  exact hnodes t.subterms n

/-- After adding some terms a column is needed that was needed before or that a term refers to. -/
theorem needs_addAll (n : ColumnNeeds) (ts : List Term) (a c : String) :
    (n.addAll ts).needs a c = true ↔
      n.needs a c = true ∨ ts.any (fun t => t.refersTo a c) = true := by
  induction ts generalizing n with
  | nil => simp [addAll]
  | cons t ts ih =>
    rw [List.any_cons, Bool.or_eq_true, ← or_assoc, ← needs_add]
    exact ih (n.add t)

end Plan.ColumnNeeds

end SchemaQuery
