-- SUMMARY: Searches by place: the first answer is the one at the least place that has one.
import Mathlib.Data.List.Basic

/-!
# First answers

Things stand at places that are ordered: entity types at their distance, subterms
at their position. A search answers first at the least place where it answers at
all. A list that has what stands at the places is searched in their order as soon
as what it finds is such a first answer (`findSome?_iff_firstAt`).
-/

namespace SchemaQuery

variable {ι α β : Type} [LT ι] {place : ι → Option α} {f : α → Option β} {i j : ι} {b c : β}

/-- The search answers at the place, and at no place before it. -/
def FirstAt (place : ι → Option α) (f : α → Option β) (i : ι) (b : β) : Prop :=
  (∃ u, place i = some u ∧ f u = some b) ∧ ∀ j < i, ∀ u, place j = some u → f u = none

variable [Std.Trichotomous fun i j : ι => i < j]

theorem FirstAt.unique (hi : FirstAt place f i b) (hj : FirstAt place f j c) : b = c := by
  obtain ⟨⟨u, hu, hb⟩, hbefore⟩ := hi
  obtain ⟨⟨v, hv, hc⟩, hbefore'⟩ := hj
  rcases Std.lt_trichotomy i j with hlt | rfl | hlt
  · cases hb.symm.trans (hbefore' i hlt u hu)
  · obtain rfl := Option.some.inj (hu.symm.trans hv)
    exact Option.some.inj (hb.symm.trans hc)
  · cases hc.symm.trans (hbefore j hlt v hv)

theorem findSome?_iff_firstAt {as : List α} (hplaced : ∀ i u, place i = some u → u ∈ as)
    (hfirst : ∀ b, as.findSome? f = some b → ∃ i, FirstAt place f i b) :
    as.findSome? f = some b ↔ ∃ i, FirstAt place f i b := by
  refine ⟨hfirst b, ?_⟩
  rintro ⟨i, hi⟩
  obtain ⟨u, hu, hb⟩ := hi.1
  have hsome : (as.findSome? f).isSome :=
    List.findSome?_isSome_iff.2 ⟨u, hplaced i u hu, by rw [hb]; rfl⟩
  obtain ⟨c, hc⟩ := Option.isSome_iff_exists.1 hsome
  obtain ⟨j, hj⟩ := hfirst c hc
  rw [hc, hi.unique hj]

end SchemaQuery
