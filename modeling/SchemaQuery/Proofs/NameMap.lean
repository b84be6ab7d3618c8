-- SUMMARY: Lookups after insertions into maps and sets of names.
import Mathlib.Data.List.Basic
import SchemaQuery.NameMap

/-!
# Lookups in maps and sets of names

A map gives back what was stored last under a name, and a set has the names that
were put into it.
-/

namespace SchemaQuery

namespace NameMap

theorem get?_insert {α : Type} (m : NameMap α) (k : String) (v : α) (k' : String) :
    (m.insert k v).get? k' = if k = k' then some v else m.get? k' := by
  induction m with
  | nil => rfl
  | cons e rest ih =>
    obtain ⟨key, old⟩ := e
    simp only [insert]
    split
    · rfl
    · split
      · rename_i heq
        subst heq
        by_cases h : k = k' <;> simp [get?, h]
      · rename_i hne
        simp only [get?, ih]
        by_cases hkey : key = k'
        · subst hkey
          simp [hne]
        · simp [hkey]

theorem mem_values_of_get? {α : Type} {m : NameMap α} {k : String} {v : α}
    (h : m.get? k = some v) : v ∈ m.values := by
  induction m with
  | nil => cases h
  | cons e rest ih =>
    obtain ⟨key, old⟩ := e
    simp only [get?] at h
    split at h
    · cases h
      exact List.mem_cons_self ..
    · exact List.mem_cons_of_mem _ (ih h)

end NameMap

namespace NameSet

theorem mem_insert {s : NameSet} {name x : String} :
    x ∈ NameSet.insert name s ↔ x = name ∨ x ∈ s := by
  induction s with
  | nil => simp [NameSet.insert]
  | cons key rest ih =>
    simp only [NameSet.insert]
    split
    · exact List.mem_cons
    · split
      · rename_i heq
        subst heq
        simp
      · simp only [List.mem_cons, ih]
        exact or_left_comm

theorem mem_union {s t : NameSet} {x : String} : x ∈ s.union t ↔ x ∈ s ∨ x ∈ t := by
  unfold union
  induction t generalizing s with
  | nil => simp
  | cons name t ih =>
    rw [List.foldl_cons, ih, mem_insert, List.mem_cons, or_assoc, or_left_comm]

end NameSet

end SchemaQuery
