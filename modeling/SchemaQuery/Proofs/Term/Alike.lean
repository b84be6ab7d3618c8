-- SUMMARY: Terms with the same tree, compared node by node.
import Mathlib.Data.List.Forall2
import SchemaQuery.Proofs.Term.Subterms

/-!
# Terms compared node by node

Two terms are alike when their trees have the same form and corresponding nodes
are related. Comparisons of terms are comparisons of nodes in this sense:
`sameValue` compares the nodes without their parts (`sameValue_iff_alike`).
-/

namespace SchemaQuery.Term

/-- A node of a term without its parts. -/
def label : Term → Term
  | .property _ name type => .property default name type
  | .binary op _ _ type => .binary op default default type
  | .unary op _ type => .unary op default type
  | .call method _ type => .call method [] type
  | .aggregate method _ type => .aggregate method [] type
  | .case _ otherwise type => .case [] (otherwise.map fun _ => default) type
  | .cast _ target type => .cast default target type
  | .list _ type => .list [] type
  | .nullAsFalse _ type => .nullAsFalse default type
  | t => t

/-! ## Alike terms -/

/-- The trees of two terms have the same form, and corresponding nodes are related. -/
inductive Alike (R : Term → Term → Prop) : Term → Term → Prop where
  | node {t t' : Term} (hnode : R t t') (hlength : t.children.length = t'.children.length)
      (hchildren : ∀ c c', (c, c') ∈ t.children.zip t'.children → Alike R c c') : Alike R t t'

namespace Alike

variable {R S : Term → Term → Prop} {t t' : Term}

theorem of_children (hnode : R t t')
    (hchildren : List.Forall₂ (Alike R) t.children t'.children) : Alike R t t' :=
  .node hnode hchildren.length_eq fun _ _ h => List.forall₂_zip hchildren h

theorem head (h : Alike R t t') : R t t' := by
  cases h with
  | node hnode => exact hnode

theorem children (h : Alike R t t') : List.Forall₂ (Alike R) t.children t'.children := by
  cases h with
  | node _ hlength hchildren => exact List.forall₂_iff_zip.2 ⟨hlength, fun h => hchildren _ _ h⟩

/-- A relation that follows at every pair of nodes, given what holds of all subterms. -/
theorem map {P : Term → Prop} (h : Alike R t t') (hP : ∀ u ∈ t.subterms, P u)
    (hP' : ∀ u ∈ t'.subterms, P u) (hstep : ∀ u u', R u u' → P u → P u' → S u u') :
    Alike S t t' := by
  induction h with
  | node hnode hlength _ ih =>
    obtain ⟨hself, hparts⟩ := forall_subterms.1 hP
    obtain ⟨hself', hparts'⟩ := forall_subterms.1 hP'
    refine .node (hstep _ _ hnode hself hself') hlength fun c c' hc => ?_
    obtain ⟨hmem, hmem'⟩ := List.of_mem_zip hc
    exact ih c c' hc (hparts c hmem) (hparts' c' hmem')

theorem mono (h : Alike R t t') (hstep : ∀ u u', R u u' → S u u') : Alike S t t' :=
  h.map (P := fun _ => True) (fun _ _ => trivial) (fun _ _ => trivial)
    fun u u' hu _ _ => hstep u u' hu

theorem and (h : Alike R t t') (h' : Alike S t t') : Alike (fun u u' => R u u' ∧ S u u') t t' := by
  induction h with
  | node hnode hlength _ ih =>
    cases h' with
    | node hnode' _ hchildren' =>
      exact .node ⟨hnode, hnode'⟩ hlength fun c c' hc => ih c c' hc (hchildren' c c' hc)

/-- Corresponding nodes have equally many parts. -/
theorem lengths (h : Alike R t t') :
    Alike (fun u u' => R u u' ∧ u.children.length = u'.children.length) t t' := by
  induction h with
  | node hnode hlength _ ih => exact .node ⟨hnode, hlength⟩ hlength ih

end Alike

/-! ## Same values -/

/-- Nodes that are equal without their parts, up to the qualification of columns. -/
def SameNode (t t' : Term) : Prop := t.label.sameValue t'.label = true

theorem sameValues_iff {ts ts' : List Term} :
    sameValues ts ts' = true ↔ List.Forall₂ (fun t t' => t.sameValue t' = true) ts ts' := by
  induction ts generalizing ts' with
  | nil => cases ts' <;> simp [sameValues]
  | cons t ts ih =>
    cases ts' with
    | nil => simp [sameValues]
    | cons t' ts' => simp [sameValues, ih]

theorem sameBranches_iff {bs bs' : List (Term × Term)} :
    sameBranches bs bs' = true ↔ List.Forall₂ (fun t t' => t.sameValue t' = true)
      (bs.flatMap fun b => [b.1, b.2]) (bs'.flatMap fun b => [b.1, b.2]) := by
  induction bs generalizing bs' with
  | nil => cases bs' <;> simp [sameBranches]
  | cons b bs ih =>
    cases bs' with
    | nil => simp [sameBranches]
    | cons b' bs' => simp [sameBranches, ih, and_assoc]

theorem forall₂_concat {α β : Type} {R : α → β → Prop} {as : List α} {bs : List β} {a : α} {b : β} :
    List.Forall₂ R (as ++ [a]) (bs ++ [b]) ↔ List.Forall₂ R as bs ∧ R a b := by
  rw [← List.forall₂_reverse_iff]
  simp [and_comm]

theorem sameValue_default : (default : Term).sameValue default = true := by
  decide

theorem sameValue_case_iff {bs bs' : List (Term × Term)} {o o' : Option Term}
    {type type' : DataType} :
    (case bs o type).sameValue (case bs' o' type') = true ↔
      SameNode (case bs o type) (case bs' o' type') ∧
      List.Forall₂ (fun c c' => c.sameValue c' = true) (case bs o type).children
        (case bs' o' type').children := by
  cases o with
  | none =>
    cases o' with
    | none => simp [sameValue, SameNode, label, children, sameBranches_iff, and_comm]
    | some e' => simp [sameValue, SameNode, label]
  | some e =>
    cases o' with
    | none => simp [sameValue, SameNode, label]
    | some e' =>
      simp [sameValue, SameNode, label, children, sameBranches_iff, sameValue_default,
        forall₂_concat, and_comm]

/-- Terms have the same value when their nodes and their parts have. -/
theorem sameValue_iff {t t' : Term} :
    t.sameValue t' = true ↔ SameNode t t' ∧
      List.Forall₂ (fun c c' => c.sameValue c' = true) t.children t'.children := by
  cases t with
  | case bs o type =>
    cases t' with
    | case bs' o' type' => exact sameValue_case_iff
    | _ => simp [sameValue, SameNode, label]
  | _ =>
    -- Nodes of different kinds are told apart at once; those of one kind compare part by part.
    cases t' <;> first
      | exact iff_of_false Bool.false_ne_true fun h => Bool.false_ne_true h.1
      | simp [sameValue, SameNode, label, children, sameValues_iff, sameValue_default, and_assoc,
          and_comm, and_left_comm]

theorem sameValue_iff_alike {t t' : Term} : t.sameValue t' = true ↔ Alike SameNode t t' := by
  induction t using childInduction generalizing t' with
  | step t ih =>
    rw [sameValue_iff]
    constructor
    · rintro ⟨hnode, hchildren⟩
      refine .of_children hnode (List.forall₂_iff_zip.2 ⟨hchildren.length_eq, fun hc => ?_⟩)
      exact (ih _ (List.of_mem_zip hc).1).1 (List.forall₂_zip hchildren hc)
    · intro h
      refine ⟨h.head, List.forall₂_iff_zip.2 ⟨h.children.length_eq, fun hc => ?_⟩⟩
      exact (ih _ (List.of_mem_zip hc).1).2 (List.forall₂_zip h.children hc)

end SchemaQuery.Term
