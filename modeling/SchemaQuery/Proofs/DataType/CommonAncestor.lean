-- SUMMARY: The common ancestor as least upper bound of two types, and the types of branches in any order.
import Mathlib.Data.List.Perm.Basic
import SchemaQuery.Resolve.Typing
import SchemaQuery.Proofs.DataType.Assignability

/-!
# Common ancestors

The common ancestor of two plain types is their least upper bound in the order
`Widens` (`commonAncestor_isJoin`). Where base links are acyclic this order is a
partial one, so the common ancestor is commutative and associative, and the type
of a `case` or of a list is the same whatever the order of the values
(`commonType_orderFree`).

Assignability has one rule more, from an array to the sequence of its elements.
`commonAncestor_narrowest_iff` says that this rule is all that keeps the common
ancestor from being the narrowest type that two types are assignable to.
-/

namespace SchemaQuery

namespace TypeRegistry

variable {r : TypeRegistry} {a b c d : DataType}

/-! ## Least upper bounds -/

/-- The third type is a narrowest plain type that the first two widen to. -/
structure IsJoin (r : TypeRegistry) (a b c : DataType) : Prop where
  plain : c.isNullable = false
  left : r.Widens a c
  right : r.Widens b c
  least : ∀ d, r.Widens a d → r.Widens b d → r.Widens c d

theorem IsJoin.symm (h : r.IsJoin a b c) : r.IsJoin b a c :=
  ⟨h.plain, h.right, h.left, fun d hb ha => h.least d ha hb⟩

theorem IsJoin.unique (hr : r.Acyclic) (hc : r.IsJoin a b c) (hd : r.IsJoin a b d) : c = d :=
  Widens.antisymm hr hc.plain hd.plain (hc.least d hd.left hd.right) (hd.least c hc.left hc.right)

theorem isJoin_self (ha : a.isNullable = false) : r.IsJoin a a a :=
  ⟨ha, .refl a, .refl a, fun _ h _ => h⟩

theorem isJoin_of_widens (hb : b.isNullable = false) (h : r.Widens a b) : r.IsJoin a b b :=
  ⟨hb, h, .refl b, fun _ _ h => h⟩

/-- Types of which `object` alone is wider than both. -/
theorem isJoin_object (h : ∀ d, r.Widens a d → r.Widens b d → d = .object) :
    r.IsJoin a b .object :=
  ⟨rfl, .object a, .object b, fun d ha hb => h d ha hb ▸ .refl _⟩

/-! ## The common ancestor -/

/-- What an entity type and another type both widen to is in the lineage of the first. -/
theorem eq_object_or_mem_lineage {name : String} (hne : .entity name ≠ b)
    (hname : r.Widens (.entity name) d) (hb : r.Widens b d) :
    d = .object ∨ ∃ e ∈ r.lineage name, d = .entity e.name := by
  cases hname with
  | refl =>
    cases hb with
    | refl => exact absurd rfl hne
    | numeric _ hentity => cases hentity
    | entity h =>
      obtain ⟨e, he, rfl⟩ := inLineage_iff.1 ⟨.refl, h.2⟩
      exact .inr ⟨e, he, rfl⟩
  | object => exact .inl rfl
  | numeric hentity => cases hentity
  | entity h =>
    obtain ⟨e, he, rfl⟩ := inLineage_iff.1 h
    exact .inr ⟨e, he, rfl⟩

/-- The first of a lineage that another type is assignable to joins the two. -/
theorem isJoin_entity {name : String} (hb : b.isNullable = false) (hne : .entity name ≠ b) :
    r.IsJoin (.entity name) b
      ((((r.lineage name).map fun e => .entity e.name).find? (r.isAssignable b)).getD .object) := by
  rw [List.find?_map]
  cases hfirst : (r.lineage name).find? (r.isAssignable b ∘ fun e => .entity e.name) with
  | none =>
    refine isJoin_object fun d hname hbd => ?_
    rcases eq_object_or_mem_lineage hne hname hbd with rfl | ⟨e, he, rfl⟩
    · rfl
    · exact absurd (hbd.isAssignable hb rfl) (List.find?_eq_none.1 hfirst e he)
  | some e =>
    refine ⟨rfl, .entity (inLineage_iff.2 ⟨e, List.mem_of_find?_eq_some hfirst, rfl⟩), ?_, ?_⟩
    · have hassignable : r.isAssignable b (.entity e.name) := by
        simpa using List.find?_some hfirst
      rcases (isAssignable_iff hb rfl).1 hassignable with h | ⟨_, _, hsequence⟩
      · exact h
      · cases hsequence
    · intro d hname hbd
      rcases eq_object_or_mem_lineage hne hname hbd with rfl | ⟨e', he', rfl⟩
      · exact .object _
      · exact .entity (inLineage_of_find? hfirst he' (hbd.isAssignable hb rfl))

/-- Of two numeric types the wider one joins them. -/
theorem isJoin_numeric {i j : Nat} (ha : a.isNullable = false) (hb : b.isNullable = false)
    (hai : a.numericRank = some i) (hbj : b.numericRank = some j) :
    r.IsJoin a b (if j ≤ i then a else b) := by
  split
  · rename_i hle
    exact (isJoin_of_widens ha (.numeric hbj hai hle)).symm
  · rename_i hlt
    exact isJoin_of_widens hb (.numeric hai hbj (Nat.le_of_not_le hlt))

/-- Of two types that differ, are not both numeric and of which the first is no entity type, only
    `object` is wider. -/
theorem isJoin_unrelated (hne : a ≠ b)
    (hrank : ∀ i j, a.numericRank = some i → b.numericRank = some j → False)
    (hentity : ∀ name, a ≠ .entity name) : r.IsJoin a b .object := by
  refine isJoin_object fun d had hbd => ?_
  cases had with
  | refl =>
    cases hbd with
    | refl => exact absurd rfl hne
    | object => rfl
    | numeric hb ha => exact (hrank _ _ ha hb).elim
    | entity => exact absurd rfl (hentity _)
  | object => rfl
  | numeric ha hd =>
    cases hbd with
    | refl => exact (hrank _ _ ha hd).elim
    | object => rfl
    | numeric hb => exact (hrank _ _ ha hb).elim
    | entity => cases hd
  | entity => exact absurd rfl (hentity _)

theorem commonAncestor_isJoin (ha : a.isNullable = false) (hb : b.isNullable = false) :
    r.IsJoin a b (r.commonAncestor a b) := by
  unfold commonAncestor
  simp only [DataType.nonNullable_plain ha, DataType.nonNullable_plain hb]
  split
  · rename_i heq
    exact heq ▸ isJoin_self ha
  · rename_i hne
    split
    · rename_i i j hi hj
      exact isJoin_numeric ha hb hi hj
    · rename_i hrank
      split
      · exact isJoin_entity hb hne
      · rename_i hentity
        exact isJoin_unrelated hne hrank hentity

/-! ## The narrowest type of two -/

theorem commonAncestor_self (r : TypeRegistry) (ha : a.isNullable = false) :
    r.commonAncestor a a = a := by
  simp [commonAncestor, DataType.nonNullable_plain ha]

theorem commonAncestor_array_sequence (r : TypeRegistry) (e : DataType) :
    r.commonAncestor (.array e) (.sequence e) = .object ∧
      r.commonAncestor (.sequence e) (.array e) = .object := by
  simp [commonAncestor, DataType.nonNullable, DataType.numericRank]

/-- A plain type that both types are assignable to takes their common ancestor too, as long as the
    array rule is not what leads there. -/
theorem isAssignable_commonAncestor_plain {t : DataType} (ha : a.isNullable = false)
    (hb : b.isNullable = false) (ht : t.isNullable = false)
    (harrays : ¬ ∃ e, a = .array e ∧ b = .sequence e ∨ a = .sequence e ∧ b = .array e)
    (hat : r.isAssignable a t) (hbt : r.isAssignable b t) :
    r.isAssignable (r.commonAncestor a b) t := by
  have hjoin := commonAncestor_isJoin ha hb (r := r)
  rcases (isAssignable_iff ha ht).1 hat with hat' | ⟨e, rfl, rfl⟩
  · rcases (isAssignable_iff hb ht).1 hbt with hbt' | ⟨e, rfl, rfl⟩
    · exact (hjoin.least t hat' hbt').isAssignable hjoin.plain ht
    · cases hat' with
      | refl => exact absurd ⟨e, .inr ⟨rfl, rfl⟩⟩ harrays
      | numeric _ hsequence => cases hsequence
  · rcases (isAssignable_iff hb ht).1 hbt with hbt' | ⟨e', rfl, hsequence⟩
    · cases hbt' with
      | refl => exact absurd ⟨e, .inl ⟨rfl, rfl⟩⟩ harrays
      | numeric _ hsequence => cases hsequence
    · cases hsequence
      rw [commonAncestor_self r ha]
      exact hat

/-- The common ancestor is assignable wherever both types are, unless one is an array and the other
    the sequence of the same elements: then it is `object`, though the array is assignable to the
    sequence. -/
theorem commonAncestor_narrowest_iff (r : TypeRegistry) (a b : DataType)
    (ha : a.isNullable = false) (hb : b.isNullable = false) :
    (∀ t, r.isAssignable a t → r.isAssignable b t → r.isAssignable (r.commonAncestor a b) t) ↔
      ¬ ∃ e, a = .array e ∧ b = .sequence e ∨ a = .sequence e ∧ b = .array e := by
  constructor
  · rintro hnarrow ⟨e, harrays⟩
    have hobject : r.commonAncestor a b = .object ∧ r.isAssignable a (.sequence e) ∧
        r.isAssignable b (.sequence e) := by
      rcases harrays with ⟨rfl, rfl⟩ | ⟨rfl, rfl⟩
      · exact ⟨(commonAncestor_array_sequence r e).1, by simp [isAssignable], by simp⟩
      · exact ⟨(commonAncestor_array_sequence r e).2, by simp, by simp [isAssignable]⟩
    have hwide := hnarrow (.sequence e) hobject.2.1 hobject.2.2
    rw [hobject.1] at hwide
    cases eq_object_of_isAssignable rfl hwide
  · intro harrays t hat hbt
    -- plain types look through the nullable wrappers of the target
    induction t with
    | null =>
      rw [isAssignable_null.1 hat] at ha
      cases ha
    | nullable t ih =>
      rw [isAssignable_nullable ha] at hat
      rw [isAssignable_nullable hb] at hbt
      rw [isAssignable_nullable (commonAncestor_isJoin ha hb).plain]
      exact ih hat hbt
    | _ => exact isAssignable_commonAncestor_plain ha hb rfl harrays hat hbt

/-- The narrowest type of an employee and a customer is `Person`. An array and its sequence are both
    assignable to the sequence, which is not their common ancestor. -/
theorem commonAncestor_narrowest_iff_staff :
    staff.commonAncestor (.entity "Employee") (.entity "Customer") = .entity "Person" ∧
    (∀ t, staff.isAssignable (.entity "Employee") t → staff.isAssignable (.entity "Customer") t →
      staff.isAssignable (staff.commonAncestor (.entity "Employee") (.entity "Customer")) t) ∧
    ¬ ∀ t, staff.isAssignable (.array .int) t → staff.isAssignable (.sequence .int) t →
      staff.isAssignable (staff.commonAncestor (.array .int) (.sequence .int)) t :=
  ⟨by decide +kernel,
    (commonAncestor_narrowest_iff staff (.entity "Employee") (.entity "Customer") rfl rfl).2
      (by simp),
    fun h => (commonAncestor_narrowest_iff staff (.array .int) (.sequence .int) rfl rfl).1 h
      ⟨.int, .inl ⟨rfl, rfl⟩⟩⟩

/-! ## Laws -/

theorem commonAncestor_comm (hr : r.Acyclic) (ha : a.isNullable = false) (hb : b.isNullable = false) :
    r.commonAncestor a b = r.commonAncestor b a :=
  (commonAncestor_isJoin ha hb).unique hr (commonAncestor_isJoin hb ha).symm

-- Two types that are the base of each other: the lineage of either one starts with itself.
example :
    let circle := ofList [⟨"A", some "B", [], []⟩, ⟨"B", some "A", [], []⟩]
    circle.commonAncestor (.entity "A") (.entity "B") = .entity "A" ∧
      circle.commonAncestor (.entity "B") (.entity "A") = .entity "B" := by decide +kernel

theorem commonAncestor_assoc (hr : r.Acyclic) (ha : a.isNullable = false)
    (hb : b.isNullable = false) (hc : c.isNullable = false) :
    r.commonAncestor (r.commonAncestor a b) c = r.commonAncestor a (r.commonAncestor b c) := by
  have hab := commonAncestor_isJoin ha hb (r := r)
  have hbc := commonAncestor_isJoin hb hc (r := r)
  have hleft := commonAncestor_isJoin hab.plain hc (r := r)
  have hright := commonAncestor_isJoin ha hbc.plain (r := r)
  -- both sides are least among the types wider than all three
  refine Widens.antisymm hr hleft.plain hright.plain (hleft.least _ ?_ ?_) (hright.least _ ?_ ?_)
  · exact hab.least _ hright.left (hbc.left.trans hright.right)
  · exact hbc.right.trans hright.right
  · exact hab.left.trans hleft.left
  · exact hbc.least _ (hab.right.trans hleft.left) hleft.right

/-! ## The type of several values -/

/-- A fold does not depend on the order of the list, if its steps commute on the values that it can
    come to. -/
theorem foldl_perm_of_commutes {α β : Type} {f : β → α → β} {P : β → Prop} {Q : α → Prop}
    (hkeeps : ∀ z x, P z → Q x → P (f z x))
    (hcommutes : ∀ z x y, P z → Q x → Q y → f (f z x) y = f (f z y) x) {l l' : List α}
    (hperm : l.Perm l') (hl : ∀ x ∈ l, Q x) {z : β} (hz : P z) : l.foldl f z = l'.foldl f z := by
  induction hperm generalizing z with
  | nil => rfl
  | cons x _ ih =>
    obtain ⟨hx, hl⟩ := List.forall_mem_cons.1 hl
    exact ih hl (hkeeps z x hz hx)
  | swap x y l =>
    obtain ⟨hy, hl⟩ := List.forall_mem_cons.1 hl
    obtain ⟨hx, -⟩ := List.forall_mem_cons.1 hl
    simp only [List.foldl_cons, hcommutes z y x hz hy hx]
  | trans hfirst _ ih ih' =>
    exact (ih hl hz).trans (ih' (fun x hx => hl x (hfirst.mem_iff.2 hx)) hz)

theorem commonAncestor_nonNullable {t : DataType} (r : TypeRegistry) (a : DataType)
    (ht : t.nonNullable.isNullable = false) :
    r.commonAncestor a t = r.commonAncestor a t.nonNullable := by
  simp only [commonAncestor, DataType.nonNullable_plain ht]

theorem commonType_eq_of_perm (hr : r.Acyclic) {ts ts' : List DataType}
    (hts : ∀ t ∈ ts, t.nullableOnce) (hperm : ts.Perm ts') :
    r.commonType ts = r.commonType ts' := by
  have hplain : ∀ t ∈ ts.filter (· ≠ .null), t.nonNullable.isNullable = false := by
    intro t ht
    obtain ⟨ht, hnull⟩ := List.mem_filter.1 ht
    exact DataType.plain_of_nullableOnce (hts t ht) (by simpa using hnull)
  unfold commonType
  rw [hperm.any_eq]
  refine congrArg (Option.map _) ?_
  -- what is known so far of the common type is plain
  refine foldl_perm_of_commutes (P := fun known => ∀ t, known = some t → t.isNullable = false)
    ?_ ?_ (hperm.filter _) hplain (by simp)
  · rintro (_ | current) t hcurrent ht _ ⟨⟩
    · exact ht
    · rw [commonAncestor_nonNullable r current ht]
      exact (commonAncestor_isJoin (hcurrent current rfl) ht).plain
  · rintro (_ | current) t u hcurrent ht hu
    · simp only [commonAncestor_nonNullable r _ ht, commonAncestor_nonNullable r _ hu,
        commonAncestor_comm hr ht hu]
    · have hc := hcurrent current rfl
      simp only [commonAncestor_nonNullable r _ ht, commonAncestor_nonNullable r _ hu,
        commonAncestor_assoc hr hc ht hu, commonAncestor_assoc hr hc hu ht,
        commonAncestor_comm hr ht hu]

/-- Where the base links are acyclic, the type of some values, of a `case` or of a list does not
    depend on the order in which they are written. It is found by a commutative, associative and
    idempotent join of types, which both types are assignable to. -/
theorem commonType_orderFree (r : TypeRegistry) (hr : r.Acyclic) :
    (∀ ts ts' : List DataType, (∀ t ∈ ts, t.nullableOnce) → ts.Perm ts' →
      r.commonType ts = r.commonType ts') ∧
    (∀ (branches branches' : List (Term × Term)) (otherwise : Option Term),
      (∀ t ∈ branches.map (·.2.type) ++ otherwise.toList.map (·.type), t.nullableOnce) →
      branches.Perm branches' →
      Resolve.caseType r branches otherwise = Resolve.caseType r branches' otherwise) ∧
    (∀ items items' : List Term, (∀ item ∈ items, item.type.nullableOnce) → items.Perm items' →
      Resolve.listType r items = Resolve.listType r items') ∧
    (∀ a : DataType, a.isNullable = false → r.commonAncestor a a = a) ∧
    (∀ a b : DataType, a.isNullable = false → b.isNullable = false →
      r.commonAncestor a b = r.commonAncestor b a) ∧
    (∀ a b c : DataType, a.isNullable = false → b.isNullable = false → c.isNullable = false →
      r.commonAncestor (r.commonAncestor a b) c = r.commonAncestor a (r.commonAncestor b c)) ∧
    (∀ a b : DataType, a.isNullable = false → b.isNullable = false →
      r.isAssignable a (r.commonAncestor a b) ∧ r.isAssignable b (r.commonAncestor a b)) := by
  refine ⟨fun ts ts' => commonType_eq_of_perm hr, ?_, ?_, fun a => commonAncestor_self r,
    fun a b => commonAncestor_comm hr, fun a b c => commonAncestor_assoc hr, ?_⟩
  · intro branches branches' otherwise hbranches hperm
    unfold Resolve.caseType
    rw [commonType_eq_of_perm hr hbranches ((hperm.map _).append_right _)]
  · intro items items' hitems hperm
    unfold Resolve.listType
    rw [commonType_eq_of_perm hr (by simpa using hitems) (hperm.map _)]
  · intro a b ha hb
    have hjoin := commonAncestor_isJoin ha hb (r := r)
    exact ⟨hjoin.left.isAssignable ha hjoin.plain, hjoin.right.isAssignable hb hjoin.plain⟩

/-- Two kinds of people and a null in another order, and a third type that joins them late or early. -/
theorem commonType_orderFree_staff :
    staff.Acyclic ∧
    staff.commonType [.entity "Employee", .null, .entity "Customer"] =
      some (.nullable (.entity "Person")) ∧
    staff.commonType [.entity "Employee", .null, .entity "Customer"] =
      staff.commonType [.null, .entity "Customer", .entity "Employee"] ∧
    staff.commonAncestor (staff.commonAncestor (.entity "Employee") (.entity "Customer"))
        (.entity "Person") =
      staff.commonAncestor (.entity "Employee")
        (staff.commonAncestor (.entity "Customer") (.entity "Person")) := by
  obtain ⟨hperm, -, -, -, -, hassoc, -⟩ := commonType_orderFree staff staff_acyclic
  exact ⟨staff_acyclic, by decide +kernel, hperm _ _ (by decide) (by decide),
    hassoc _ _ _ rfl rfl rfl⟩

end TypeRegistry

end SchemaQuery
