-- SUMMARY: The parts of a term: induction over them, and the aggregates among them.
import Mathlib.Data.List.Basic
import SchemaQuery.Bound.Term

/-!
# Parts of terms

`subterms` lists a term before its parts, so it is the term followed by the
subterms of its children. Proofs about a whole term go by `childInduction`: what
holds of a term when it holds of its children holds of every term.
-/

namespace SchemaQuery.Term

/-! ## Induction -/

theorem sizeOf_lt_of_mem_children {c t : Term} (h : c ∈ t.children) : sizeOf c < sizeOf t := by
  cases t with
  | literal | column | outputField | tableColumn | groupField => simp [children] at h
  | property e | unary _ e | cast e | nullAsFalse e =>
    simp only [children, List.mem_singleton] at h
    subst h
    simp
    omega
  | binary op left right =>
    simp only [children, List.mem_cons, List.not_mem_nil, or_false] at h
    rcases h with rfl | rfl <;> simp <;> omega
  | call _ args | aggregate _ args | list args =>
    simp only [children] at h
    have := List.sizeOf_lt_of_mem h
    simp
    omega
  | case branches otherwise =>
    simp only [children, List.mem_append, List.mem_flatMap, Option.mem_toList] at h
    rcases h with ⟨b, hb, hc⟩ | h
    · have hsize := List.sizeOf_lt_of_mem hb
      obtain ⟨x, y⟩ := b
      simp only [List.mem_cons, List.not_mem_nil, or_false] at hc
      rcases hc with rfl | rfl <;> simp at hsize ⊢ <;> omega
    · cases otherwise with
      | none => simp at h
      | some e =>
        simp only [Option.some.injEq] at h
        subst h
        simp
        omega

/-- What holds of a term whenever it holds of its children holds of every term. -/
theorem childInduction {P : Term → Prop} (step : ∀ t, (∀ c ∈ t.children, P c) → P t) (t : Term) :
    P t :=
  step t fun c _ => childInduction step c
termination_by sizeOf t
decreasing_by exact sizeOf_lt_of_mem_children (by assumption)

/-- The children of a `case` are its conditions, its results and its default. -/
theorem forall_children_case {P : Term → Prop} {branches : List (Term × Term)}
    {otherwise : Option Term} {type : DataType} (hbranches : ∀ b ∈ branches, P b.1 ∧ P b.2)
    (hother : ∀ e ∈ otherwise, P e) : ∀ c ∈ (case branches otherwise type).children, P c := by
  intro c hc
  rcases List.mem_append.1 hc with hc | hc
  · obtain ⟨⟨x, y⟩, hb, hc⟩ := List.mem_flatMap.1 hc
    simp only [List.mem_cons, List.not_mem_nil, or_false] at hc
    rcases hc with rfl | rfl
    · exact (hbranches _ hb).1
    · exact (hbranches _ hb).2
  · exact hother c (Option.mem_toList.1 hc)

/-! ## Subterms -/

theorem subtermsAll_eq (ts : List Term) : subtermsAll ts = ts.flatMap subterms := by
  induction ts with
  | nil => rfl
  | cons t ts ih => simp [subtermsAll, ih]

theorem subtermsBranches_eq (bs : List (Term × Term)) :
    subtermsBranches bs = (bs.flatMap fun (c, r) => [c, r]).flatMap subterms := by
  induction bs with
  | nil => rfl
  | cons b bs ih => simp [subtermsBranches, ih]

theorem subterms_eq (t : Term) : t.subterms = t :: t.children.flatMap subterms := by
  cases t with
  | case branches otherwise =>
    cases otherwise <;> simp [subterms, children, subtermsBranches_eq]
  | _ => simp [subterms, children, subtermsAll_eq]

theorem mem_subterms {u t : Term} :
    u ∈ t.subterms ↔ u = t ∨ ∃ c ∈ t.children, u ∈ c.subterms := by
  rw [subterms_eq]
  simp

theorem self_mem_subterms (t : Term) : t ∈ t.subterms := mem_subterms.2 (.inl rfl)

/-- A property of all subterms is one of the term and of all subterms of its children. -/
theorem forall_subterms {P : Term → Prop} {t : Term} :
    (∀ u ∈ t.subterms, P u) ↔ P t ∧ ∀ c ∈ t.children, ∀ u ∈ c.subterms, P u := by
  constructor
  · intro h
    exact ⟨h t (self_mem_subterms t), fun c hc u hu => h u (mem_subterms.2 (.inr ⟨c, hc, hu⟩))⟩
  · rintro ⟨ht, hc⟩ u hu
    rcases mem_subterms.1 hu with rfl | ⟨c, hmem, huc⟩
    · exact ht
    · exact hc c hmem u huc

theorem mem_subterms_trans {u v t : Term} (hu : u ∈ v.subterms) (hv : v ∈ t.subterms) :
    u ∈ t.subterms := by
  induction t using childInduction with
  | step t ih =>
    rcases mem_subterms.1 hv with rfl | ⟨c, hc, hvc⟩
    · exact hu
    · exact mem_subterms.2 (.inr ⟨c, hc, ih c hc hvc⟩)

/-! ## Aggregates -/

/-- The accumulator that an aggregate is read from. -/
def accumulator? : Term → Option String
  | .aggregate method _ _ => some method.accumulator
  | _ => none

/-- The aggregates that occur in a term. -/
def aggregates (t : Term) : List Term := t.subterms.filter isAggregate

theorem mem_aggregates {u t : Term} : u ∈ t.aggregates ↔ u ∈ t.subterms ∧ u.isAggregate := by
  simp [aggregates]

theorem containsAggregate_iff {t : Term} : t.containsAggregate ↔ t.aggregates ≠ [] := by
  simp [containsAggregate, aggregates, List.filter_eq_nil_iff]

/-- The aggregates of a term that is none itself are those of its children. -/
theorem aggregates_of_children {t : Term} (h : t.isAggregate = false) :
    t.aggregates = t.children.flatMap aggregates := by
  rw [aggregates, subterms_eq, List.filter_cons_of_neg (by simp [h]), List.filter_flatMap]
  rfl

theorem aggregates_aggregate {m : AggregateRef} {args : List Term} {type : DataType}
    (h : ∀ a ∈ args, a.aggregates = []) :
    (aggregate m args type).aggregates = [aggregate m args type] := by
  rw [aggregates, subterms_eq, List.filter_cons_of_pos (by rfl), List.filter_flatMap]
  have : args.flatMap aggregates = [] := List.flatMap_eq_nil_iff.2 h
  exact congrArg _ this

end SchemaQuery.Term
