-- SUMMARY: The lineage of an entity type as what its base links lead to.
import Mathlib.Logic.Relation
import SchemaQuery.DataType.Registry

/-!
# Lineages

A registry links the name of an entity type to the name of its base. The lineage
of a name holds the entity types that these links lead to (`mem_lineage_iff`), be
there a circle of links or not, and lists each of them before those that its own
links lead to (`lineage_pairwise`). Where the links are acyclic, two names that
lead to each other are one.
-/

namespace SchemaQuery.TypeRegistry

variable {r : TypeRegistry} {a b c name : String} {e : EntityType}

/-! ## Links -/

/-- The entity type of the first name has the second name as its base. -/
def Links (r : TypeRegistry) (a b : String) : Prop :=
  ∃ e, r.entity? a = some e ∧ e.base = some b

/-- The base links never lead from a name back to it. -/
def Acyclic (r : TypeRegistry) : Prop := ∀ name, ¬ Relation.TransGen r.Links name name

/-- The base links lead from the first name to the second, which is the name of an entity type. -/
def InLineage (r : TypeRegistry) (a b : String) : Prop :=
  Relation.ReflTransGen r.Links a b ∧ (r.entity? b).isSome

theorem InLineage.trans (hab : r.InLineage a b) (hbc : r.InLineage b c) : r.InLineage a c :=
  ⟨hab.1.trans hbc.1, hbc.2⟩

theorem InLineage.antisymm (hr : r.Acyclic) (hab : r.InLineage a b) (hba : r.InLineage b a) :
    a = b := by
  rcases Relation.reflTransGen_iff_eq_or_transGen.1 hab.1 with heq | hlead
  · exact heq.symm
  · exact absurd (hlead.trans_left hba.1) (hr a)

theorem name_of_find? {es : List EntityType} (h : es.find? (·.name = name) = some e) :
    e.name = name := by
  simpa using List.find?_some h

/-- Links that go down by some measure are acyclic. -/
theorem acyclic_of_rank (rank : String → Nat)
    (h : ∀ e ∈ r.entities, ∀ base ∈ e.base, rank base < rank e.name) : r.Acyclic := by
  have hlink : ∀ a b, r.Links a b → rank b < rank a := by
    rintro a b ⟨e, he, hbase⟩
    exact name_of_find? he ▸ h e (List.mem_of_find?_eq_some he) b hbase
  have hlead : ∀ a b, Relation.TransGen r.Links a b → rank b < rank a := by
    intro a b hab
    induction hab with
    | single hab => exact hlink _ _ hab
    | tail _ hbc ih => exact Nat.lt_trans (hlink _ _ hbc) ih
  intro name hcircle
  exact Nat.lt_irrefl _ (hlead name name hcircle)

/-! ## The walk along the links

The walk looks names up among the definitions not met before. `Agrees r unmet` says that it finds
there what the registry has. -/

/-- What is found among the definitions is what the registry has under the name. -/
def Agrees (r : TypeRegistry) (unmet : List EntityType) : Prop :=
  ∀ name e, unmet.find? (·.name = name) = some e → r.entity? name = some e

theorem find?_without (es : List EntityType) (met name : String) :
    (without es met).find? (·.name = name) =
      if name = met then none else es.find? (·.name = name) := by
  unfold without
  rw [List.find?_filter]
  split
  · simp_all
  · rename_i hne
    congr
    funext e
    by_cases he : e.name = name <;> simp_all

theorem Agrees.without {unmet : List EntityType} (h : Agrees r unmet) (met : String) :
    Agrees r (without unmet met) := by
  intro name e hfind
  rw [find?_without] at hfind
  split at hfind
  · cases hfind
  · exact h name e hfind

theorem Agrees.self (r : TypeRegistry) : Agrees r r.entities := fun _ _ h => h

theorem Agrees.found {unmet : List EntityType} (hunmet : Agrees r unmet)
    (h : unmet.find? (·.name = name) = some e) : r.entity? e.name = some e := by
  rw [name_of_find? h]
  exact hunmet name e h

/-- The walk meets definitions of the registry that the links lead to. -/
theorem lead_of_mem_walk {unmet : List EntityType} (hunmet : Agrees r unmet)
    (h : e ∈ lineageWithin unmet name) :
    Relation.ReflTransGen r.Links name e.name ∧ r.entity? e.name = some e := by
  fun_induction lineageWithin unmet name with
  | case1 => cases h
  | case2 unmet name first hfound =>
    obtain rfl := List.mem_singleton.1 h
    exact ⟨name_of_find? hfound ▸ .refl, hunmet.found hfound⟩
  | case3 unmet name first hfound base hbase ih =>
    rcases List.mem_cons.1 h with rfl | h
    · exact ⟨name_of_find? hfound ▸ .refl, hunmet.found hfound⟩
    · have hlink : r.Links name base := ⟨first, hunmet name first hfound, hbase⟩
      obtain ⟨hlead, hfound⟩ := ih (hunmet.without _) h
      exact ⟨.head hlink hlead, hfound⟩

theorem mem_walk_of_find? {unmet : List EntityType} (h : unmet.find? (·.name = name) = some e) :
    e ∈ lineageWithin unmet name := by
  rw [lineageWithin]
  split
  · simp_all
  · rename_i first hfound
    obtain rfl : first = e := Option.some.inj (hfound.symm.trans h)
    split
    · exact List.mem_singleton_self _
    · exact List.mem_cons_self

/-- A base that was not met before the walk is met by it. -/
theorem mem_walk_of_base {unmet : List EntityType} {d : EntityType}
    (hd : d ∈ lineageWithin unmet name) (hbase : d.base = some b)
    (hb : unmet.find? (·.name = b) = some e) : e ∈ lineageWithin unmet name := by
  fun_induction lineageWithin unmet name with
  | case1 => cases hd
  | case2 unmet name first hfound hnone =>
    obtain rfl := List.mem_singleton.1 hd
    rw [hnone] at hbase
    cases hbase
  | case3 unmet name first hfound base hfirst ih =>
    by_cases hmet : b = first.name
    · -- the link leads back to where this walk set out
      have hsame : e = first := by
        rw [hmet, name_of_find? hfound, hfound] at hb
        exact (Option.some.inj hb).symm
      exact hsame ▸ List.mem_cons_self
    · have hb' : (without unmet first.name).find? (·.name = b) = some e := by
        rw [find?_without, if_neg hmet, hb]
      refine List.mem_cons_of_mem _ ?_
      rcases List.mem_cons.1 hd with rfl | hd
      · obtain rfl : base = b := Option.some.inj (hfirst.symm.trans hbase)
        exact mem_walk_of_find? hb'
      · exact ih hd hb'

/-! ## Lineages -/

theorem mem_lineage_of_lead (hlead : Relation.ReflTransGen r.Links a b)
    (hb : r.entity? b = some e) : e ∈ r.lineage a := by
  induction hlead generalizing e with
  | refl => exact mem_walk_of_find? hb
  | tail _ hlink ih =>
    obtain ⟨d, hd, hbase⟩ := hlink
    exact mem_walk_of_base (ih hd) hbase hb

/-- The lineage of a name holds exactly the definitions that the base links lead to. -/
theorem mem_lineage_iff : e ∈ r.lineage a ↔
    Relation.ReflTransGen r.Links a e.name ∧ r.entity? e.name = some e :=
  ⟨lead_of_mem_walk (.self r), fun ⟨hlead, he⟩ => mem_lineage_of_lead hlead he⟩

theorem inLineage_iff : r.InLineage a b ↔ ∃ e ∈ r.lineage a, e.name = b := by
  constructor
  · rintro ⟨hlead, hregistered⟩
    obtain ⟨e, he⟩ := Option.isSome_iff_exists.1 hregistered
    exact ⟨e, mem_lineage_of_lead hlead he, name_of_find? he⟩
  · rintro ⟨e, he, rfl⟩
    obtain ⟨hlead, he⟩ := mem_lineage_iff.1 he
    exact ⟨hlead, by rw [he]; rfl⟩

theorem lineage_subset (h : r.InLineage a b) : r.lineage b ⊆ r.lineage a := by
  intro e he
  obtain ⟨hlead, he⟩ := mem_lineage_iff.1 he
  exact mem_lineage_iff.2 ⟨h.1.trans hlead, he⟩

theorem walk_pairwise {unmet : List EntityType} (hunmet : Agrees r unmet) (name : String) :
    (lineageWithin unmet name).Pairwise fun d e => r.InLineage d.name e.name := by
  fun_induction lineageWithin unmet name with
  | case1 => exact .nil
  | case2 unmet name first hfound => exact List.pairwise_singleton ..
  | case3 unmet name first hfound base hbase ih =>
    refine .cons ?_ (ih (hunmet.without _))
    intro e he
    have hlink : r.Links first.name base := ⟨first, hunmet.found hfound, hbase⟩
    obtain ⟨hlead, he⟩ := lead_of_mem_walk (hunmet.without _) he
    exact ⟨.head hlink hlead, by rw [he]; rfl⟩

/-- An entity type stands in a lineage before those that its own links lead to. -/
theorem lineage_pairwise (r : TypeRegistry) (name : String) :
    (r.lineage name).Pairwise fun d e => r.InLineage d.name e.name :=
  walk_pairwise (.self r) name

/-- The first of a lineage that passes a test has all others that pass it in its own lineage. -/
theorem inLineage_of_find? {p : EntityType → Bool} {d : EntityType}
    (hfirst : (r.lineage name).find? p = some d) (he : e ∈ r.lineage name) (hpe : p e) :
    r.InLineage d.name e.name := by
  obtain ⟨-, before, after, hlineage, hbefore⟩ := List.find?_eq_some_iff_append.1 hfirst
  have hpairwise := r.lineage_pairwise name
  rw [hlineage] at he hpairwise
  rcases List.mem_append.1 he with he | he
  · exact absurd hpe (by simpa using hbefore e he)
  · rcases List.mem_cons.1 he with rfl | he
    · have hmem : e ∈ r.lineage name := hlineage ▸ List.mem_append_right _ List.mem_cons_self
      exact ⟨.refl, by rw [(mem_lineage_iff.1 hmem).2]; rfl⟩
    · exact List.rel_of_pairwise_cons (List.pairwise_append.1 hpairwise).2.1 he

/-! ## A sample -/

/-- Employees and customers are people; invoices stand alone. -/
def staff : TypeRegistry := .ofList [
  ⟨"Person", none, [comparableInterface], []⟩,
  ⟨"Employee", some "Person", ["Payable"], []⟩,
  ⟨"Customer", some "Person", [], []⟩,
  ⟨"Invoice", none, [], []⟩]

theorem staff_acyclic : staff.Acyclic :=
  acyclic_of_rank (fun name => if name = "Person" then 0 else 1) (by decide)

end SchemaQuery.TypeRegistry
