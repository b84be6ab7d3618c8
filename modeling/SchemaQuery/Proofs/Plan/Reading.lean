-- SUMMARY: A redirected term has on the rows at hand the value that the term has on a full row.
import SchemaQuery.Proofs.Plan.Needs
import SchemaQuery.Proofs.Plan.Semantics
import SchemaQuery.Proofs.Resolve.Binding

/-!
# Redirected values

Redirecting the columns of a term leaves the rest of it alone, so its value is the
same as soon as every column it reads and every row it hands on are the same
(`value_relocate`). `Provides` says this of a single column.
-/

namespace SchemaQuery

namespace Term

theorem mapUpAll_eq (f : Term → Term) (ts : List Term) : mapUpAll f ts = ts.map (·.mapUp f) := by
  induction ts with
  | nil => rfl
  | cons t ts ih => rw [mapUpAll, ih, List.map_cons]

theorem mapUpBranches_eq (f : Term → Term) (bs : List (Term × Term)) :
    mapUpBranches f bs = bs.map fun b => (b.1.mapUp f, b.2.mapUp f) := by
  induction bs with
  | nil => rfl
  | cons b bs ih =>
    obtain ⟨c, r⟩ := b
    rw [mapUpBranches, ih, List.map_cons]

end Term

namespace Plan

variable {V : Type} {I : Interpretation V} {relations : List Relation} {P F : Reader V}

/-! ## Terms -/

/-- Redirecting a term that is no column redirects its parts. -/
theorem relocated_node {t : Term} (h : t.columnAlias? = none) :
    (t.mapUp (relocateNode relations)).label = t.label ∧
      rowAlias? (t.mapUp (relocateNode relations)) = rowAlias? t ∧
      (t.mapUp (relocateNode relations)).children =
        t.children.map (·.mapUp (relocateNode relations)) := by
  cases t with
  | column => cases h
  | case branches otherwise =>
    cases otherwise <;>
      simp [Term.mapUp, relocateNode, Term.label, rowAlias?, Term.children, Term.mapUpBranches_eq,
        List.flatMap_map, List.map_flatMap]
  | _ => simp [Term.mapUp, relocateNode, Term.label, rowAlias?, Term.children, Term.mapUpAll_eq]

/-- The reader `P` gives for a redirected node what `F` gives for the node. -/
def Agrees (relations : List Relation) (P F : Reader V) : Term → Prop
  | .column a n o q type => P.read? (relocateNode relations (.column a n o q type)) =
      some (F.column a n)
  | .call m _ _ => ∀ a, m.sourceAlias = some a → P.row a = F.row a
  | .tableColumn .. => False
  | _ => True

theorem relocateNode_type (t : Term) : (relocateNode relations t).type = t.type := by
  unfold relocateNode
  split
  · split <;> rfl
  · rfl

/-- A redirected term looks to an evaluator as the term itself did. -/
theorem fill_relocate (t : Term) : (∀ u ∈ t.subterms, Agrees relations P F u) →
    P.read? (t.mapUp (relocateNode relations)) = F.read? t ∧
      P.fill (t.mapUp (relocateNode relations)) = F.fill t := by
  induction t using Term.childInduction with
  | step t ih =>
    intro h
    obtain ⟨hself, hparts⟩ := Term.forall_subterms.1 h
    cases hcolumn : t.columnAlias? with
    | some _ =>
      cases t with
      | column a n o q type =>
        have hread : P.read? (relocateNode relations (.column a n o q type)) =
          some (F.column a n) := hself
        refine ⟨hread, ?_⟩
        rw [Term.mapUp, Reader.fill_of_read hread, relocateNode_type, Reader.fill_of_read rfl]
      | _ => cases hcolumn
    | none =>
      have hnone (ρ : Reader V) : ρ.read? t = none := by
        cases t with
        | column => cases hcolumn
        | tableColumn => exact absurd hself id
        | _ => rfl
      obtain ⟨hlabel, hrow, hchildren⟩ := @relocated_node relations t hcolumn
      have hnone' : P.read? (t.mapUp (relocateNode relations)) = none := by
        cases t with
        | column => cases hcolumn
        | tableColumn => exact absurd hself id
        | case branches otherwise => cases otherwise <;> simp [Term.mapUp, relocateNode, Reader.read?]
        | _ => simp [Term.mapUp, relocateNode, Reader.read?]
      have hrows : (rowAlias? t).elim [] P.row = (rowAlias? t).elim [] F.row := by
        cases hra : rowAlias? t with
        | none => rfl
        | some a =>
          cases t with
          | call m args type => exact hself a hra
          | _ => cases hra
      refine ⟨hnone'.trans (hnone F).symm, ?_⟩
      rw [Reader.fill_of_parts hnone', Reader.fill_of_parts (hnone F), hlabel, hrow, hchildren,
        hrows, List.map_map]
      congr 1
      exact List.map_congr_left fun c hc => (ih c hc (hparts c hc)).2

theorem value_relocate {t : Term} (h : ∀ u ∈ t.subterms, Agrees relations P F u) :
    I.value P (t.mapUp (relocateNode relations)) = I.value F t := by
  obtain ⟨hread, hfill⟩ := fill_relocate t h
  rw [Interpretation.value, hread, hfill]
  rfl

/-- Without relations nothing is redirected. -/
theorem relocate_nil (t : Term) : t.mapUp (relocateNode []) = t := by
  have hnode (t : Term) : relocateNode [] t = t := by
    unfold relocateNode
    split <;> rfl
  have hall {ts : List Term} (h : ∀ c ∈ ts, c.mapUp (relocateNode []) = c) :
      Term.mapUpAll (relocateNode []) ts = ts := by
    rw [Term.mapUpAll_eq]
    exact (List.map_congr_left h).trans (List.map_id ts)
  have hbranches {bs : List (Term × Term)}
      (h : ∀ b ∈ bs, b.1.mapUp (relocateNode []) = b.1 ∧ b.2.mapUp (relocateNode []) = b.2) :
      Term.mapUpBranches (relocateNode []) bs = bs := by
    rw [Term.mapUpBranches_eq]
    refine (List.map_congr_left fun b hb => ?_).trans (List.map_id bs)
    rw [(h b hb).1, (h b hb).2]
    rfl
  induction t using Term.childInduction with
  | step t ih =>
    cases t with
    | call _ args | aggregate _ args | list args =>
      have hargs : Term.mapUpAll (relocateNode []) args = args := hall ih
      rw [Term.mapUp, hnode, hargs]
    | case branches otherwise type =>
      have hparts : ∀ b ∈ branches, b.1.mapUp (relocateNode []) = b.1 ∧
          b.2.mapUp (relocateNode []) = b.2 := by
        intro b hb
        constructor <;> refine ih _ (List.mem_append_left _ (List.mem_flatMap.2 ⟨b, hb, ?_⟩)) <;> simp
      cases otherwise with
      | none => rw [Term.mapUp, hnode, hbranches hparts]
      | some e =>
        rw [Term.mapUp, hnode, hbranches hparts, ih e (by simp [Term.children])]
    | binary op left right type =>
      rw [Term.mapUp, hnode, ih left (by simp [Term.children]), ih right (by simp [Term.children])]
    | property e | unary _ e | cast e | nullAsFalse e =>
      rw [Term.mapUp, hnode, ih e (by simp [Term.children])]
    | _ => rw [Term.mapUp, hnode]

/-! ## Columns -/

section Columns

variable (I) (leaves : List (String × List Column))

/-- The rows at hand have a value for a column of an alias, read through the relations or as part
    of a whole row. -/
structure Provides (relations : List Relation) (row : List (Binding V)) (a n : String)
    (value : V) : Prop where
  read : ∀ o q type, (I.planReader leaves row).read?
    (relocateNode relations (.column a n o q type)) = some value
  carried : row.findSome? (·.carried? a n) = some value

end Columns

variable {leaves : List (String × List Column)}

theorem columnNames_of_mem (hdistinct : (leaves.map (·.1)).Nodup) {a : String} {cs : List Column}
    (h : (a, cs) ∈ leaves) : columnNames leaves a = cs.map (·.name) := by
  have hlookup : leaves.lookup a = some cs := by
    obtain ⟨before, after, rfl⟩ := List.append_of_mem h
    refine List.lookup_eq_some_iff.2 ⟨before, after, rfl, fun p hp => ?_⟩
    rw [List.map_append, List.map_cons, List.nodup_append] at hdistinct
    have hne := hdistinct.2.2 p.1 (List.mem_map_of_mem hp) a (List.mem_cons_self ..)
    simpa using hne.symm
  rw [columnNames, hlookup]
  rfl

/-- A node whose columns are provided is read alike. -/
theorem agrees_of_provides (hdistinct : (leaves.map (·.1)).Nodup)
    {part : List (String × List Column)} (hsub : part ⊆ leaves) {needs : ColumnNeeds}
    {row : List (Binding V)} {ρ : FullRow V}
    (h : ∀ l ∈ part, ∀ c ∈ l.2, needs.needs l.1 c.name = true →
      Provides I leaves relations row l.1 c.name (ρ l.1 c.name))
    {u : Term} (hreads : u.ReadsFrom part) (hcovers : needs.Covers u) :
    Agrees relations (I.planReader leaves row) (I.fullReader leaves ρ) u := by
  cases u with
  | column a n o q type =>
    obtain ⟨cs, hcs, c, hc, rfl⟩ := hreads
    exact (h _ hcs c hc hcovers).read o q type
  | call m args type =>
    intro a ha
    obtain ⟨cs, hcs⟩ := hreads a ha
    change (columnNames leaves a).map _ = (columnNames leaves a).map _
    rw [columnNames_of_mem hdistinct (hsub hcs)]
    refine List.map_congr_left fun n hn => ?_
    obtain ⟨c, hc, rfl⟩ := List.mem_map.1 hn
    rw [(h _ hcs c hc (ColumnNeeds.needs_of_row (hcovers a ha) c.name)).carried]
    rfl
  | tableColumn => exact absurd hreads id
  | _ => trivial

end Plan

end SchemaQuery
