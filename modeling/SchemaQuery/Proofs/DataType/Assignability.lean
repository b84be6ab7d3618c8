-- SUMMARY: Assignability of types as an order: its rules by kind of type, transitivity, and the interfaces it keeps.
import SchemaQuery.Proofs.DataType.Lineage

/-!
# Assignability

A type is the null type, a nullable type or a plain one. Between plain types a
value moves along the numeric chain, up a lineage, to `object`, or from an array
to the sequence of its elements (`isAssignable_iff`). `Widens` is the part of this
that leaves arrays alone: an order, and a partial one where the base links are
acyclic. Nullable types add nothing but the place of null, so that assignability
is transitive on all types (`isAssignable_trans`), and what implements an interface
hands it down to the types that are assignable to it.
-/

namespace SchemaQuery

namespace DataType

variable {a b : DataType}

/-! ## Kinds of types -/

theorem kinds (t : DataType) : t = .null ∨ (∃ u, t = .nullable u) ∨ t.isNullable = false := by
  cases t <;> simp [isNullable]

/-- What the type makes nullable was not nullable before. -/
def nullableOnce : DataType → Bool
  | .nullable t => !t.isNullable
  | _ => true

theorem plain_of_nullableOnce (h : a.nullableOnce) (hnull : a ≠ .null) :
    a.nonNullable.isNullable = false := by
  cases a <;> simp_all [nullableOnce, nonNullable, isNullable]

theorem nonNullable_plain (h : a.isNullable = false) : a.nonNullable = a := by
  cases a <;> simp_all [isNullable, nonNullable]

theorem elementType_eq {e : DataType} (h : a.nonNullable = .array e ∨ a.nonNullable = .sequence e) :
    a.elementType = some e := by
  rcases h with h | h <;> simp [elementType, h]

/-- A rank has one plain type. -/
theorem eq_of_numericRank {i : Nat} (ha : a.isNullable = false) (hb : b.isNullable = false)
    (hai : a.numericRank = some i) (hbi : b.numericRank = some i) : a = b := by
  simp only [numericRank, nonNullable_plain ha] at hai
  simp only [numericRank, nonNullable_plain hb] at hbi
  split at hai <;> cases hai <;> split at hbi <;> simp_all

end DataType

namespace TypeRegistry

variable {r : TypeRegistry} {a b c t : DataType}

/-! ## Widening -/

/-- All values of the first type belong to the second: the two are the same, the second is `object`,
    both stand in the numeric chain, or the second is in the lineage of the first. -/
inductive Widens (r : TypeRegistry) : DataType → DataType → Prop where
  | refl (a : DataType) : Widens r a a
  | object (a : DataType) : Widens r a .object
  | numeric {a b : DataType} {i j : Nat} (ha : a.numericRank = some i) (hb : b.numericRank = some j)
      (hle : i ≤ j) : Widens r a b
  | entity {a b : String} (h : r.InLineage a b) : Widens r (.entity a) (.entity b)

theorem Widens.trans (hab : r.Widens a b) (hbc : r.Widens b c) : r.Widens a c := by
  cases hbc with
  | refl => exact hab
  | object => exact .object a
  | numeric hb hc hle =>
    cases hab with
    | refl => exact .numeric hb hc hle
    | object => cases hb
    | numeric ha hb' hle' =>
      cases Option.some.inj (hb'.symm.trans hb)
      exact .numeric ha hc (Nat.le_trans hle' hle)
    | entity => cases hb
  | entity h =>
    cases hab with
    | refl => exact .entity h
    | numeric _ hb => cases hb
    | entity h' => exact .entity (h'.trans h)

theorem Widens.antisymm (hr : r.Acyclic) (ha : a.isNullable = false) (hb : b.isNullable = false)
    (hab : r.Widens a b) (hba : r.Widens b a) : a = b := by
  cases hab with
  | refl => rfl
  | object =>
    cases hba with
    | refl | object => rfl
    | numeric hobject => cases hobject
  | numeric hai hbj hle =>
    cases hba with
    | refl => rfl
    | object => cases hai
    | numeric hbj' hai' hle' =>
      cases Option.some.inj (hai.symm.trans hai')
      cases Option.some.inj (hbj.symm.trans hbj')
      obtain rfl := Nat.le_antisymm hle hle'
      exact DataType.eq_of_numericRank ha hb hai hbj
    | entity => cases hai
  | entity h =>
    cases hba with
    | refl => rfl
    | numeric hentity => cases hentity
    | entity h' => rw [h.antisymm hr h']

section Rules

-- The rules below open the definition, whose equations are generated once, here.
attribute [local simp] isAssignable

/-! ## Plain types -/

@[simp] theorem isAssignable_refl (r : TypeRegistry) (t : DataType) : r.isAssignable t t := by
  unfold isAssignable
  simp

@[simp] theorem isAssignable_object (r : TypeRegistry) (t : DataType) : r.isAssignable t .object := by
  unfold isAssignable
  simp

theorem isAssignable_entity {x y : String} :
    r.isAssignable (.entity x) (.entity y) ↔ x = y ∨ r.InLineage x y := by
  rw [inLineage_iff]
  unfold isAssignable
  by_cases hxy : x = y <;> simp [hxy]

theorem Widens.isAssignable (h : r.Widens a b) (ha : a.isNullable = false)
    (hb : b.isNullable = false) : r.isAssignable a b := by
  cases h with
  | refl => exact isAssignable_refl r a
  | object => exact isAssignable_object r a
  | numeric hai hbj hle =>
    unfold TypeRegistry.isAssignable
    split
    · rfl
    · split <;> simp_all [widensTo, DataType.isNullable] <;> cases hai
  | entity h => exact isAssignable_entity.2 (.inr h)

theorem widens_of_widensTo (h : widensTo a b) : r.Widens a b := by
  unfold widensTo at h
  split at h
  · rename_i i j hi hj
    exact .numeric hi hj (by simpa using h)
  · cases h

/-- Between plain types: widening, and an array as a sequence. -/
theorem isAssignable_iff (ha : a.isNullable = false) (hb : b.isNullable = false) :
    r.isAssignable a b ↔ r.Widens a b ∨ ∃ e, a = .array e ∧ b = .sequence e := by
  constructor
  · intro h
    unfold TypeRegistry.isAssignable at h
    split at h
    · rename_i hcase
      simp only [Bool.or_eq_true, decide_eq_true_eq] at hcase
      rcases hcase with rfl | rfl
      · exact .inl (.refl a)
      · exact .inl (.object a)
    · split at h
      · cases ha
      · cases ha
      · cases ha
      · cases ha
      · cases ha
      · cases ha
      · cases hb
      · rename_i x _
        exact .inr ⟨x, by rw [of_decide_eq_true h], rfl⟩
      · refine .inl (.entity (inLineage_iff.2 ?_))
        simpa using h
      · exact .inl (widens_of_widensTo h)
  · rintro (h | ⟨e, rfl, rfl⟩)
    · exact h.isAssignable ha hb
    · simp [TypeRegistry.isAssignable]

theorem eq_object_of_isAssignable (hb : b.isNullable = false) (h : r.isAssignable .object b) :
    b = .object := by
  rcases (isAssignable_iff rfl hb).1 h with h | ⟨_, harray, _⟩
  · cases h with
    | refl | object => rfl
    | numeric hobject => cases hobject
  · cases harray

/-! ## Nullable types and the null type -/

theorem isAssignable_nullable_nullable :
    r.isAssignable (.nullable a) (.nullable b) = r.isAssignable a b := by
  rw [TypeRegistry.isAssignable]
  by_cases hab : a = b
  · subst hab
    simp
  · simp [hab]

theorem isAssignable_nullable (ha : a.isNullable = false) :
    r.isAssignable a (.nullable b) = r.isAssignable a b := by
  cases a <;> simp_all [TypeRegistry.isAssignable, DataType.isNullable]

theorem isAssignable_plain_of_nullable (hb : b.isNullable = false) :
    r.isAssignable (.nullable a) b ↔ b = .object := by
  cases b <;> simp_all [TypeRegistry.isAssignable, DataType.isNullable]

theorem isAssignable_null : r.isAssignable t .null ↔ t = .null := by
  cases t <;> simp [TypeRegistry.isAssignable, widensTo, DataType.numericRank, DataType.nonNullable]

theorem null_isAssignable : r.isAssignable .null t ↔
    t = .object ∨ t.isNullable ∨ ∃ name, t = .entity name := by
  cases t <;> simp [TypeRegistry.isAssignable, DataType.isNullable]

end Rules

/-! ## Transitivity -/

theorem isAssignable_trans_plain (ha : a.isNullable = false) (hb : b.isNullable = false)
    (hc : c.isNullable = false) (hab : r.isAssignable a b) (hbc : r.isAssignable b c) :
    r.isAssignable a c := by
  rw [isAssignable_iff ha hc]
  rcases (isAssignable_iff ha hb).1 hab with hab | ⟨e, rfl, rfl⟩
  · rcases (isAssignable_iff hb hc).1 hbc with hbc | ⟨e, rfl, rfl⟩
    · exact .inl (hab.trans hbc)
    · cases hab with
      | refl => exact .inr ⟨e, rfl, rfl⟩
      | numeric _ harray => cases harray
  · rcases (isAssignable_iff hb hc).1 hbc with hbc | ⟨_, hsequence, _⟩
    · cases hbc with
      | refl => exact .inr ⟨e, rfl, rfl⟩
      | object => exact .inl (.object _)
      | numeric hsequence => cases hsequence
    · cases hsequence

theorem null_isAssignable_trans (hb : b.isNullable = false) (hc : c.isNullable = false)
    (hnull : r.isAssignable .null b) (hbc : r.isAssignable b c) : r.isAssignable .null c := by
  rcases null_isAssignable.1 hnull with rfl | hnullable | ⟨name, rfl⟩
  · rw [eq_object_of_isAssignable hc hbc]
    exact hnull
  · rw [hb] at hnullable
    cases hnullable
  · rcases (isAssignable_iff hb hc).1 hbc with hbc | ⟨_, hentity, _⟩
    · cases hbc with
      | refl => exact hnull
      | object => exact isAssignable_object r _
      | numeric hentity => cases hentity
      | entity => exact null_isAssignable.2 (.inr (.inr ⟨_, rfl⟩))
    · cases hentity

theorem isAssignable_trans_to_plain (hc : c.isNullable = false) (hab : r.isAssignable a b)
    (hbc : r.isAssignable b c) : r.isAssignable a c := by
  rcases b.kinds with rfl | ⟨b, rfl⟩ | hb
  · rwa [isAssignable_null.1 hab]
  · obtain rfl := (isAssignable_plain_of_nullable hc).1 hbc
    exact isAssignable_object r a
  · rcases a.kinds with rfl | ⟨a, rfl⟩ | ha
    · exact null_isAssignable_trans hb hc hab hbc
    · obtain rfl := (isAssignable_plain_of_nullable hb).1 hab
      obtain rfl := eq_object_of_isAssignable hc hbc
      exact isAssignable_object r _
    · exact isAssignable_trans_plain ha hb hc hab hbc

/-- What is assignable to a type is assignable wherever values of that type are. -/
theorem isAssignable_trans (hab : r.isAssignable a b) (hbc : r.isAssignable b c) :
    r.isAssignable a c := by
  -- the target is peeled until it is plain or null
  induction c generalizing a b with
  | null =>
    obtain rfl := isAssignable_null.1 hbc
    exact hab
  | nullable c ih =>
    rcases a.kinds with rfl | ⟨a, rfl⟩ | ha
    · exact null_isAssignable.2 (.inr (.inl rfl))
    · rw [isAssignable_nullable_nullable]
      rcases b.kinds with rfl | ⟨b, rfl⟩ | hb
      · cases isAssignable_null.1 hab
      · rw [isAssignable_nullable_nullable] at hab hbc
        exact ih hab hbc
      · obtain rfl := (isAssignable_plain_of_nullable hb).1 hab
        rw [isAssignable_nullable rfl] at hbc
        exact ih (isAssignable_object r a) hbc
    · rw [isAssignable_nullable ha]
      rcases b.kinds with rfl | ⟨b, rfl⟩ | hb
      · rw [isAssignable_null.1 hab] at ha
        cases ha
      · rw [isAssignable_nullable ha] at hab
        rw [isAssignable_nullable_nullable] at hbc
        exact ih hab hbc
      · rw [isAssignable_nullable hb] at hbc
        exact ih hab hbc
  | _ => exact isAssignable_trans_to_plain rfl hab hbc

theorem isAssignable_wrapped (r : TypeRegistry) (t : DataType) : r.isAssignable t (.nullable t) := by
  induction t with
  | null => exact null_isAssignable.2 (.inr (.inl rfl))
  | nullable t ih => rwa [isAssignable_nullable_nullable]
  | _ =>
    rw [isAssignable_nullable rfl]
    exact isAssignable_refl r _

/-- A wrapper around the target shuts nothing out. -/
theorem isAssignable_of_nonNullable (h : r.isAssignable a t.nonNullable) : r.isAssignable a t := by
  cases t with
  | nullable t => exact isAssignable_trans h (isAssignable_wrapped r t)
  | _ => exact h

/-- Plain types look through the wrapper of the target. -/
theorem isAssignable_nonNullable (ha : a.isNullable = false) (h : r.isAssignable a t) :
    r.isAssignable a t.nonNullable := by
  cases t with
  | nullable t => rwa [isAssignable_nullable ha] at h
  | _ => exact h

/-! ## Interfaces -/

theorem implements_of_numericRank {i : Nat} (h : a.numericRank = some i) (interface : String) :
    r.implements a interface =
      (interface = numericInterface || interface = comparableInterface) := by
  simp only [DataType.numericRank] at h
  split at h <;> simp_all [implements]

/-- Only types that are plain below their wrapper implement an interface. -/
theorem plain_of_implements {interface : String} (h : r.implements t interface) :
    t.nonNullable.isNullable = false := by
  unfold implements at h
  split at h <;> simp_all [DataType.isNullable]

theorem implements_nullable (h : t.isNullable = false) (interface : String) :
    r.implements (.nullable t) interface = r.implements t interface := by
  have hsame : (DataType.nullable t).nonNullable = t.nonNullable :=
    (DataType.nonNullable_plain h).symm
  simp only [implements, hsame]

theorem Widens.implements {interface : String} (hab : r.Widens a b)
    (h : r.implements b interface) : r.implements a interface := by
  cases hab with
  | refl => exact h
  | object => cases h
  | numeric ha hb => rwa [implements_of_numericRank ha, ← implements_of_numericRank hb]
  | entity hlineage =>
    obtain ⟨e, he, hinterface⟩ := List.any_eq_true.1 h
    exact List.any_eq_true.2 ⟨e, lineage_subset hlineage he, hinterface⟩

theorem implements_of_isAssignable_plain {interface : String} (ha : a.isNullable = false)
    (hb : b.isNullable = false) (hab : r.isAssignable a b) (h : r.implements b interface) :
    r.implements a interface := by
  rcases (isAssignable_iff ha hb).1 hab with hab | ⟨_, _, rfl⟩
  · exact hab.implements h
  · cases h

/-- A type that is not null implements what a type does that it is assignable to. -/
theorem implements_of_isAssignable {interface : String} (hab : r.isAssignable a b)
    (ha : a.nonNullable ≠ .null) (h : r.implements b interface) : r.implements a interface := by
  rcases b.kinds with rfl | ⟨b, rfl⟩ | hb
  · cases h
  · have hb : b.isNullable = false := plain_of_implements h
    rw [implements_nullable hb] at h
    rcases a.kinds with rfl | ⟨a, rfl⟩ | ha'
    · exact absurd rfl ha
    · rw [isAssignable_nullable_nullable] at hab
      rcases a.kinds with rfl | ⟨a, rfl⟩ | ha'
      · exact absurd rfl ha
      · -- a value that is nullable twice fits `object` alone
        rw [(isAssignable_plain_of_nullable hb).1 hab] at h
        cases h
      · rw [implements_nullable ha']
        exact implements_of_isAssignable_plain ha' hb hab h
    · rw [isAssignable_nullable ha'] at hab
      exact implements_of_isAssignable_plain ha' hb hab h
  · rcases a.kinds with rfl | ⟨a, rfl⟩ | ha'
    · exact absurd rfl ha
    · rw [(isAssignable_plain_of_nullable hb).1 hab] at h
      cases h
    · exact implements_of_isAssignable_plain ha' hb hab h

end TypeRegistry

end SchemaQuery
