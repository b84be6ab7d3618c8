-- SUMMARY: Positions in a term: subterms by address, the first of them in pre-order, and terms put together from parts.
import SchemaQuery.Proofs.First
import SchemaQuery.Proofs.Term.Alike

/-!
# Positions in terms

A position is a path of child numbers from the root. Paths compare as words do,
so a node comes before its parts and a part before those to its right: the order
of `subterms`. Searching that list finds what stands at the least position
(`findSome?_subterms_iff`).

No part of a term is left out: the node without its parts and the list of its
children give the term back (`rebuild_children`).
-/

namespace SchemaQuery.Term

variable {β : Type} {t u : Term} {f : Term → Option β} {b : β} {p : List Nat}

/-! ## Subterms by position -/

/-- The subterm at a position. -/
def at? (t : Term) : List Nat → Option Term
  | [] => some t
  | i :: p => t.children[i]?.bind (·.at? p)

theorem at?_cons_eq_some {i : Nat} :
    t.at? (i :: p) = some u ↔ ∃ c, t.children[i]? = some c ∧ c.at? p = some u :=
  Option.bind_eq_some_iff

theorem mem_subterms_of_at? (h : t.at? p = some u) : u ∈ t.subterms := by
  induction p generalizing t with
  | nil =>
    cases h
    exact self_mem_subterms _
  | cons i p ih =>
    obtain ⟨c, hc, hu⟩ := at?_cons_eq_some.1 h
    exact mem_subterms.2 (.inr ⟨c, List.mem_of_getElem? hc, ih hu⟩)

theorem mem_subterms_iff_at? : u ∈ t.subterms ↔ ∃ p, t.at? p = some u := by
  refine ⟨fun h => ?_, fun ⟨_, hp⟩ => mem_subterms_of_at? hp⟩
  induction t using childInduction with
  | step t ih =>
    rcases mem_subterms.1 h with rfl | ⟨c, hc, hu⟩
    · exact ⟨[], rfl⟩
    · obtain ⟨i, hi⟩ := List.mem_iff_getElem?.1 hc
      obtain ⟨p, hp⟩ := ih c hc hu
      exact ⟨i :: p, at?_cons_eq_some.2 ⟨c, hi, hp⟩⟩

/-! ## The first subterm of a kind -/

theorem findSome?_flatMap_subterms (ts : List Term) :
    (ts.flatMap subterms).findSome? f = ts.findSome? (·.subterms.findSome? f) := by
  induction ts with
  | nil => rfl
  | cons t ts ih =>
    rw [List.flatMap_cons, List.findSome?_append, ih, List.findSome?_cons]
    cases t.subterms.findSome? f <;> rfl

theorem firstAt_of_findSome? (h : t.subterms.findSome? f = some b) : ∃ p, FirstAt t.at? f p b := by
  induction t using childInduction with
  | step t ih =>
    rw [subterms_eq, List.findSome?_cons, findSome?_flatMap_subterms] at h
    cases ht : f t with
    | some c =>
      rw [ht] at h
      cases h
      exact ⟨[], ⟨t, rfl, ht⟩, fun q hq => absurd hq (List.not_lt_nil q)⟩
    | none =>
      simp only [ht] at h
      obtain ⟨left, c, right, hchildren, hc, hleft⟩ := List.findSome?_eq_some_iff.1 h
      have hmem : c ∈ t.children := hchildren ▸ List.mem_append_right _ List.mem_cons_self
      obtain ⟨p, ⟨u, hu, hb⟩, hbefore⟩ := ih c hmem hc
      have hposition : t.children[left.length]? = some c := by simp [hchildren]
      refine ⟨left.length :: p, ⟨u, at?_cons_eq_some.2 ⟨c, hposition, hu⟩, hb⟩, ?_⟩
      -- before that position there are the root, the children to the left, and a part of `c`
      rintro (_ | ⟨i, q⟩) hlt v hv
      · cases hv
        exact ht
      · obtain ⟨d, hd, hv⟩ := at?_cons_eq_some.1 hv
        rcases List.cons_lt_cons_iff.1 hlt with hi | ⟨rfl, hpart⟩
        · have hdleft : d ∈ left := by
            rw [hchildren, List.getElem?_append_left hi] at hd
            exact List.mem_of_getElem? hd
          exact List.findSome?_eq_none_iff.1 (hleft d hdleft) v (mem_subterms_of_at? hv)
        · obtain rfl := Option.some.inj (hposition.symm.trans hd)
          exact hbefore q hpart v hv

theorem findSome?_subterms_iff :
    t.subterms.findSome? f = some b ↔ ∃ p, FirstAt t.at? f p b :=
  findSome?_iff_firstAt (fun _ _ => mem_subterms_of_at?) fun _ => firstAt_of_findSome?

/-! ## Terms from nodes and parts -/

/-- The list in pairs; a last one that is left over is dropped. -/
def inPairs : List Term → List (Term × Term)
  | c :: r :: ts => (c, r) :: inPairs ts
  | _ => []

/-- The term with the node of the first one and the given parts. -/
def rebuild : Term → List Term → Term
  | .property e name type, parts => .property (parts.headD e) name type
  | .binary op left right type, parts => .binary op (parts.headD left) (parts.tail.headD right) type
  | .unary op e type, parts => .unary op (parts.headD e) type
  | .call method _ type, parts => .call method parts type
  | .aggregate method _ type, parts => .aggregate method parts type
  | .case _ none type, parts => .case (inPairs parts) none type
  | .case _ (some _) type, parts => .case (inPairs parts) parts.getLast? type
  | .cast e target type, parts => .cast (parts.headD e) target type
  | .list _ type, parts => .list parts type
  | .nullAsFalse e type, parts => .nullAsFalse (parts.headD e) type
  | t, _ => t

theorem inPairs_flatMap (bs : List (Term × Term)) {rest : List Term} (hrest : inPairs rest = []) :
    inPairs (bs.flatMap (fun (c, r) => [c, r]) ++ rest) = bs := by
  induction bs with
  | nil => exact hrest
  | cons b bs ih =>
    obtain ⟨c, r⟩ := b
    simp [inPairs, ih]

theorem rebuild_children (t : Term) : rebuild t.label t.children = t := by
  cases t with
  | case branches otherwise type =>
    cases otherwise with
    | none => exact congrArg (case · none type) (inPairs_flatMap branches rfl)
    | some e =>
      have hpairs : inPairs (branches.flatMap (fun (c, r) => [c, r]) ++ [e]) = branches :=
        inPairs_flatMap branches rfl
      simp only [label, children, rebuild, Option.map_some, Option.toList_some, hpairs,
        List.getLast?_concat]
  | _ => rfl

/-- Terms with the same node and the same parts are the same. -/
theorem eq_of_label (hlabel : t.label = u.label) (hchildren : t.children = u.children) : t = u := by
  rw [← rebuild_children t, hlabel, hchildren, rebuild_children]

end SchemaQuery.Term
