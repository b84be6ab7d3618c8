-- SUMMARY: Redirecting a term moves its column reads and nothing else, and fails at the first column that is not carried.
import SchemaQuery.Proofs.Plan.Reading
import SchemaQuery.Proofs.Plan.Redirect
import SchemaQuery.Proofs.Term.Positions

/-!
# Redirected terms

`Redirected` says what redirecting does to a single node: a column of a transition
table is read from there, a column of a source at hand stays, and of any other node
nothing changes but its parts. A redirected term is its original node by node
(`relocate_ok_iff`), and a term that cannot be redirected is reported by the column
that comes first in it (`relocate_error_iff`).
-/

namespace SchemaQuery.Plan

variable {relations : List Relation} {t t' u : Term} {a n : String} {p : List Nat}

/-! ## Columns that are not carried -/

/-- A column stands at the position whose alias none of the relations carries. -/
def DetachedAt (relations : List Relation) (t : Term) (p : List Nat) (a n : String) : Prop :=
  (∃ o q type, t.at? p = some (.column a n o q type)) ∧ ∀ r ∈ relations, r.carries a = false

theorem detached?_eq_some {e : PlanError} : detached? relations u = some e ↔
    ∃ a n, e = .detachedColumn a n ∧ (∃ o q type, u = .column a n o q type) ∧
      ∀ r ∈ relations, r.carries a = false := by
  constructor
  · intro h
    cases u with
    | column a n o q type =>
      simp only [detached?] at h
      split at h
      · cases h
      · rename_i hcarried
        cases h
        exact ⟨a, n, rfl, ⟨o, q, type, rfl⟩, by simpa using hcarried⟩
    | _ => cases h
  · rintro ⟨a, n, rfl, ⟨o, q, type, rfl⟩, hcarried⟩
    have hnone : relations.any (·.carries a) = false := by simpa using hcarried
    simp only [detached?, hnone, Bool.false_eq_true, if_false]

theorem detachedAt_iff {e : PlanError} :
    (∃ u, t.at? p = some u ∧ detached? relations u = some e) ↔
      ∃ a n, e = .detachedColumn a n ∧ DetachedAt relations t p a n := by
  simp only [detached?_eq_some, DetachedAt]
  constructor
  · rintro ⟨_, hu, a, n, he, ⟨o, q, type, rfl⟩, hcarried⟩
    exact ⟨a, n, he, ⟨o, q, type, hu⟩, hcarried⟩
  · rintro ⟨a, n, he, ⟨o, q, type, hu⟩, hcarried⟩
    exact ⟨_, hu, a, n, he, ⟨o, q, type, rfl⟩, hcarried⟩

theorem not_detachedAt_iff :
    (∀ u, t.at? p = some u → detached? relations u = none) ↔
      ∀ a n, ¬ DetachedAt relations t p a n := by
  constructor
  · intro h a n hdetached
    obtain ⟨u, hu, he⟩ := detachedAt_iff.2 ⟨a, n, rfl, hdetached⟩
    cases he.symm.trans (h u hu)
  · intro h u hu
    by_contra hsome
    obtain ⟨e, he⟩ := Option.ne_none_iff_exists'.1 hsome
    obtain ⟨a, n, -, hdetached⟩ := detachedAt_iff.1 ⟨u, hu, he⟩
    exact h a n hdetached

theorem located_iff : Located relations t ↔ ∀ p a n, ¬ DetachedAt relations t p a n := by
  simp only [← not_detachedAt_iff, Located, Term.mem_subterms_iff_at?]
  exact ⟨fun h p u hp => h u ⟨p, hp⟩, fun h u ⟨p, hp⟩ => h p u hp⟩

theorem located_iff_carried : Located relations t ↔ ∀ p a n o q type,
    t.at? p = some (.column a n o q type) → ∃ r ∈ relations, r.carries a := by
  rw [located_iff]
  constructor
  · intro h p a n o q type hp
    by_contra hnone
    exact h p a n ⟨⟨o, q, type, hp⟩, by simpa using hnone⟩
  · rintro h p a n ⟨⟨o, q, type, hp⟩, hnone⟩
    obtain ⟨r, hr, hcarries⟩ := h p a n o q type hp
    cases hcarries.symm.trans (hnone r hr)

/-- Redirecting fails at the first column that no relation carries, and nowhere else. -/
theorem relocate_error_iff {e : PlanError} :
    relocate relations t = .error e ↔ ∃ p a n, e = .detachedColumn a n ∧
      DetachedAt relations t p a n ∧ ∀ q < p, ∀ b m, ¬ DetachedAt relations t q b m := by
  have hfirst : relocate relations t = .error e ↔ ∃ p, FirstAt t.at? (detached? relations) p e := by
    rw [← Term.findSome?_subterms_iff]
    unfold relocate
    cases t.subterms.findSome? (detached? relations) <;> simp
  simp only [hfirst, FirstAt, detachedAt_iff, not_detachedAt_iff]
  constructor
  · rintro ⟨p, ⟨a, n, he, hdetached⟩, hbefore⟩
    exact ⟨p, a, n, he, hdetached, hbefore⟩
  · rintro ⟨p, a, n, he, hdetached, hbefore⟩
    exact ⟨p, ⟨a, n, he, hdetached⟩, hbefore⟩

/-! ## Redirected nodes -/

/-- What redirecting makes of a node: the first relation that carries the alias of a column decides
    where the column is read, and all other nodes are the same up to their parts. -/
inductive Redirected (relations : List Relation) : Term → Term → Prop where
  | moved {a n : String} {o : Nat} {q : Bool} {type : DataType} {r : Relation} {table : String}
      (hfirst : relations.find? (·.carries a) = some r) (htable : r.table = some table) :
      Redirected relations (.column a n o q type) (.tableColumn table (a ++ "." ++ n) type)
  | direct {a n : String} {o : Nat} {q : Bool} {type : DataType} {r : Relation}
      (hfirst : relations.find? (·.carries a) = some r) (htable : r.table = none) :
      Redirected relations (.column a n o q type) (.column a n o q type)
  | other {t t' : Term} (hcolumn : t.columnAlias? = none) (hlabel : t'.label = t.label) :
      Redirected relations t t'

theorem column_or_other (t : Term) :
    (∃ a n o q type, t = .column a n o q type) ∨ t.columnAlias? = none := by
  cases t with
  | column a n o q type => exact .inl ⟨a, n, o, q, type, rfl⟩
  | _ => exact .inr rfl

theorem detached?_other (h : t.columnAlias? = none) : detached? relations t = none := by
  cases t with
  | column => cases h
  | _ => rfl

/-- A column is redirected if it is carried, and in one way. -/
theorem redirected_column_iff {o : Nat} {q : Bool} {type : DataType} :
    Redirected relations (.column a n o q type) t' ↔
      detached? relations (.column a n o q type) = none ∧
        t' = relocateNode relations (.column a n o q type) := by
  cases hfirst : relations.find? (·.carries a) with
  | none =>
    have hnone : relations.any (·.carries a) = false := by simpa using hfirst
    simp only [detached?, hnone, Bool.false_eq_true, if_false, reduceCtorEq, false_and, iff_false]
    intro h
    cases h with
    | moved hfirst' => cases hfirst.symm.trans hfirst'
    | direct hfirst' => cases hfirst.symm.trans hfirst'
    | other hcolumn => cases hcolumn
  | some r =>
    have hcarries : r.carries a = true := by simpa using List.find?_some hfirst
    have hany : relations.any (·.carries a) = true :=
      List.any_eq_true.2 ⟨r, List.mem_of_find?_eq_some hfirst, hcarries⟩
    simp only [detached?, hany, if_true, true_and, relocateNode, hfirst, Option.bind_some]
    constructor
    · intro h
      cases h with
      | moved hfirst' htable =>
        cases Option.some.inj (hfirst.symm.trans hfirst')
        rw [htable]
        rfl
      | direct hfirst' htable =>
        cases Option.some.inj (hfirst.symm.trans hfirst')
        rw [htable]
      | other hcolumn => cases hcolumn
    · rintro rfl
      cases htable : r.table with
      | none => exact .direct hfirst htable
      | some table => exact .moved hfirst htable

/-! ## Redirected terms -/

theorem alike_of_located (h : Located relations t) :
    Term.Alike (Redirected relations) t (t.mapUp (relocateNode relations)) := by
  induction t using Term.childInduction with
  | step t ih =>
    obtain ⟨hself, hparts⟩ := Term.forall_subterms.1 h
    rcases column_or_other t with ⟨a, n, o, q, type, rfl⟩ | hcolumn
    · have hleaf : (relocateNode relations (.column a n o q type)).children = [] := by
        unfold relocateNode
        split <;> split <;> rfl
      rw [Term.mapUp]
      refine .of_children (redirected_column_iff.2 ⟨hself, rfl⟩) ?_
      rw [hleaf]
      exact .nil
    · obtain ⟨hlabel, -, hchildren⟩ := @relocated_node relations t hcolumn
      refine .of_children (.other hcolumn hlabel) ?_
      rw [hchildren, List.forall₂_map_right_iff, List.forall₂_same]
      exact fun c hc => ih c hc (hparts c hc)

theorem eq_of_alike (h : Term.Alike (Redirected relations) t t') :
    Located relations t ∧ t' = t.mapUp (relocateNode relations) := by
  induction t using Term.childInduction generalizing t' with
  | step t ih =>
    rcases column_or_other t with ⟨a, n, o, q, type, rfl⟩ | hcolumn
    · obtain ⟨hself, rfl⟩ := redirected_column_iff.1 h.head
      exact ⟨Term.forall_subterms.2 ⟨hself, fun c hc => by cases hc⟩, by rw [Term.mapUp]⟩
    · have hparts : List.Forall₂ (fun c c' => Located relations c ∧
          c' = c.mapUp (relocateNode relations)) t.children t'.children :=
        List.forall₂_iff_zip.2 ⟨h.children.length_eq, fun hc =>
          ih _ (List.of_mem_zip hc).1 (List.forall₂_zip h.children hc)⟩
      obtain ⟨hlocated, hmapped⟩ := (List.forall₂_and_left ..).1 hparts
      refine ⟨Term.forall_subterms.2 ⟨detached?_other hcolumn, hlocated⟩, ?_⟩
      obtain ⟨hlabel, -, hchildren⟩ := @relocated_node relations t hcolumn
      have hlabel' : t'.label = t.label := by
        cases h.head with
        | moved => cases hcolumn
        | direct => cases hcolumn
        | other _ hlabel' => exact hlabel'
      refine Term.eq_of_label (hlabel'.trans hlabel.symm) ?_
      rw [hchildren, ← List.forall₂_eq_eq_eq, List.forall₂_map_right_iff]
      exact hmapped.flip

/-- A redirected term is its original node by node, and there is one if all columns are carried. -/
theorem relocate_ok_iff : relocate relations t = .ok t' ↔
    Term.Alike (Redirected relations) t t' := by
  constructor
  · intro h
    rw [eq_of_relocate h]
    exact alike_of_located (located_of_relocate h)
  · intro h
    obtain ⟨hlocated, rfl⟩ := eq_of_alike h
    have hnone : t.subterms.findSome? (detached? relations) = none :=
      List.findSome?_eq_none_iff.2 hlocated
    simp only [relocate, hnone]

/-- Redirecting succeeds if all columns of a term are carried, and fails at the first one that is
    not. What it gives is the term with its columns redirected and every other node as it was. -/
theorem relocate_movesColumns (relations : List Relation) (t : Term) :
    ((∃ t', relocate relations t = .ok t') ↔
        ∀ p a n o q type, t.at? p = some (.column a n o q type) →
          ∃ r ∈ relations, r.carries a) ∧
      (∀ e, relocate relations t = .error e ↔ ∃ p a n, e = .detachedColumn a n ∧
        DetachedAt relations t p a n ∧ ∀ q < p, ∀ b m, ¬ DetachedAt relations t q b m) ∧
      ∀ t', relocate relations t = .ok t' ↔ Term.Alike (Redirected relations) t t' := by
  refine ⟨?_, fun _ => relocate_error_iff, fun _ => relocate_ok_iff⟩
  rw [← located_iff_carried]
  constructor
  · rintro ⟨t', h⟩
    exact located_of_relocate h
  · intro h
    exact ⟨_, relocate_ok_iff.2 (alike_of_located h)⟩

-- The branches of a `case` come before its default, and a condition before its result.
example : relocate [.transition "a+b" "t" ["a", "b"]]
    (.case [(.column "a" "x" 0 true .boolean, .column "c" "y" 0 true .int)]
      (some (.column "d" "z" 0 true .int)) .int) = .error (.detachedColumn "c" "y") := by
  rfl

end SchemaQuery.Plan
