-- SUMMARY: Assignability as the preorder that single steps between types generate.
import Mathlib.Order.Defs.Unbundled
import SchemaQuery.Proofs.DataType.Assignability

/-!
# Assignability by steps

One step widens a number to the next type of the chain, an entity to its base, an
array to the sequence of its elements and anything to `object`, lets null stand
for what may be null, or adds a nullable wrapper; it may be taken below a wrapper.
Each step is assignable and assignability is transitive, so chains of steps are;
and what is assignable has such a chain (`steps_of_isAssignable`), whatever the
base links of the registry are.
-/

namespace SchemaQuery.TypeRegistry

variable {r : TypeRegistry} {a b : DataType}

/-- One step from a type to a wider one. -/
inductive Step (r : TypeRegistry) : DataType → DataType → Prop where
  | object (a : DataType) : Step r a .object
  | int : Step r .int .long
  | long : Step r .long .double
  | double : Step r .double .decimal
  | base {a b : String} (hlink : r.Links a b) (hb : (r.entity? b).isSome) :
      Step r (.entity a) (.entity b)
  | array (e : DataType) : Step r (.array e) (.sequence e)
  | nullEntity (name : String) : Step r .null (.entity name)
  | nullNullable (t : DataType) : Step r .null (.nullable t)
  | wrap (t : DataType) : Step r t (.nullable t)
  | nullable {a b : DataType} (h : Step r a b) : Step r (.nullable a) (.nullable b)

/-- A chain of steps. -/
abbrev Steps (r : TypeRegistry) : DataType → DataType → Prop := Relation.ReflTransGen r.Step

/-! ## Steps are assignable -/

theorem Step.isAssignable (h : r.Step a b) : r.isAssignable a b := by
  induction h with
  | object a => exact isAssignable_object r a
  | int => exact Widens.isAssignable (.numeric rfl rfl (Nat.le_succ 0)) rfl rfl
  | long => exact Widens.isAssignable (.numeric rfl rfl (Nat.le_succ 1)) rfl rfl
  | double => exact Widens.isAssignable (.numeric rfl rfl (Nat.le_succ 2)) rfl rfl
  | base hlink hb => exact isAssignable_entity.2 (.inr ⟨.single hlink, hb⟩)
  | array e => exact (isAssignable_iff rfl rfl).2 (.inr ⟨e, rfl, rfl⟩)
  | nullEntity name => exact null_isAssignable.2 (.inr (.inr ⟨name, rfl⟩))
  | nullNullable t => exact null_isAssignable.2 (.inr (.inl rfl))
  | wrap t => exact isAssignable_wrapped r t
  | nullable _ ih => rwa [isAssignable_nullable_nullable]

theorem Steps.isAssignable (h : r.Steps a b) : r.isAssignable a b := by
  induction h with
  | refl => exact isAssignable_refl r a
  | tail _ hstep ih => exact isAssignable_trans ih hstep.isAssignable

/-! ## What is assignable has a chain of steps -/

/-- Every numeric type but the first is one step from the one before it. -/
theorem exists_step_of_rank {i : Nat} (hb : b.isNullable = false)
    (hrank : b.numericRank = some (i + 1)) :
    ∃ c : DataType, c.isNullable = false ∧ c.numericRank = some i ∧ r.Step c b := by
  cases b with
  | long =>
    cases hrank
    exact ⟨.int, rfl, rfl, .int⟩
  | double =>
    cases hrank
    exact ⟨.long, rfl, rfl, .long⟩
  | decimal =>
    cases hrank
    exact ⟨.double, rfl, rfl, .double⟩
  | nullable => cases hb
  | _ => cases hrank

theorem steps_of_rank {i j : Nat} (ha : a.isNullable = false) (hb : b.isNullable = false)
    (hi : a.numericRank = some i) (hj : b.numericRank = some j) (hle : i ≤ j) : r.Steps a b := by
  induction hle generalizing b with
  | refl => exact DataType.eq_of_numericRank ha hb hi hj ▸ .refl
  | step _ ih =>
    obtain ⟨c, hc, hrank, hstep⟩ := exists_step_of_rank hb hj
    exact (ih hc hrank).tail hstep

/-- A lineage is walked from base to base, each of them registered. -/
theorem steps_of_inLineage {x y : String} (h : r.InLineage x y) :
    r.Steps (.entity x) (.entity y) := by
  obtain ⟨hlead, hy⟩ := h
  induction hlead using Relation.ReflTransGen.head_induction_on with
  | refl => exact .refl
  | head hlink hlead ih =>
    refine .head (.base hlink ?_) ih
    rcases hlead.cases_head with rfl | ⟨_, ⟨e, he, -⟩, -⟩
    · exact hy
    · rw [he]
      rfl

theorem Widens.steps (h : r.Widens a b) (ha : a.isNullable = false) (hb : b.isNullable = false) :
    r.Steps a b := by
  cases h with
  | refl => exact .refl
  | object => exact .single (.object a)
  | numeric hi hj hle => exact steps_of_rank ha hb hi hj hle
  | entity h => exact steps_of_inLineage h

theorem steps_of_isAssignable_plain (hb : b.isNullable = false) (h : r.isAssignable a b) :
    r.Steps a b := by
  rcases a.kinds with rfl | ⟨a, rfl⟩ | ha
  · rcases null_isAssignable.1 h with rfl | hnullable | ⟨name, rfl⟩
    · exact .single (.object .null)
    · rw [hb] at hnullable
      cases hnullable
    · exact .single (.nullEntity name)
  · rw [(isAssignable_plain_of_nullable hb).1 h]
    exact .single (.object _)
  · rcases (isAssignable_iff ha hb).1 h with h | ⟨e, rfl, rfl⟩
    · exact h.steps ha hb
    · exact .single (.array e)

theorem steps_of_isAssignable (h : r.isAssignable a b) : r.Steps a b := by
  -- the target is peeled until it is plain or null
  induction b generalizing a with
  | null =>
    rw [isAssignable_null.1 h]
  | nullable b ih =>
    rcases a.kinds with rfl | ⟨a, rfl⟩ | ha
    · exact .single (.nullNullable b)
    · rw [isAssignable_nullable_nullable] at h
      exact (ih h).lift _ fun _ _ => .nullable
    · rw [isAssignable_nullable ha] at h
      exact (ih h).tail (.wrap b)
  | _ => exact steps_of_isAssignable_plain rfl h

/-- Assignability is a preorder on all types, the one that the steps generate. -/
theorem isAssignable_preorder (r : TypeRegistry) :
    IsPreorder DataType (fun a b => r.isAssignable a b) ∧
      ∀ a b, r.isAssignable a b ↔ r.Steps a b := by
  refine ⟨{ refl := isAssignable_refl r, trans := ?_ }, fun a b => ?_⟩
  · intro a b c hab hbc
    exact isAssignable_trans hab hbc
  · exact ⟨steps_of_isAssignable, Steps.isAssignable⟩

end SchemaQuery.TypeRegistry
