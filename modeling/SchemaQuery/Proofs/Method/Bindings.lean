-- SUMMARY: What one unification may change in the bindings, and what type a match leaves with a type parameter.
import SchemaQuery.Proofs.Method.Unification

/-!
# Bindings

All unifications of a match share the bindings. A single one that fails leaves them
as they were, and one that succeeds stores at most one type, which is wider than the
type it replaces (`Rebinds`).

So a type parameter ends with the greatest of the types that the arguments bring to
its occurrences. Null is brought too but counts for nothing: a type parameter to
which the arguments bring nothing else stays free (`tryMatch_bindsGreatest`).
-/

namespace SchemaQuery

namespace Shape

variable {types : TypeRegistry} {b b' : Bindings} {actual t : DataType} {param : String}

/-! ## Single unifications -/

/-- What one unification does to the bindings: nothing, or it stores a type that the type it replaces,
    if any, is assignable to. -/
inductive Rebinds (types : TypeRegistry) (b : Bindings) : Bindings → Prop where
  | kept : Rebinds types b b
  | stored {param : String} {t : DataType}
      (hwider : ∀ old, b.get? param = some old → types.isAssignable old t) :
      Rebinds types b (b.insert param t)

namespace Rebinds

theorem unique {p q : String} (h : Rebinds types b b') (hp : b'.get? p ≠ b.get? p)
    (hq : b'.get? q ≠ b.get? q) : p = q := by
  cases h with
  | kept => exact absurd rfl hp
  | @stored param t hwider =>
    have hparam {k : String} (hk : (b.insert param t).get? k ≠ b.get? k) : param = k := by
      by_contra hne
      exact hk (by rw [NameMap.get?_insert, if_neg hne])
    exact (hparam hp).symm.trans (hparam hq)

theorem wider (h : Rebinds types b b') (hparam : b'.get? param ≠ b.get? param) :
    ∃ t, b'.get? param = some t ∧ ∀ old, b.get? param = some old → types.isAssignable old t := by
  cases h with
  | kept => exact absurd rfl hparam
  | @stored stored t hwider =>
    rw [NameMap.get?_insert] at hparam ⊢
    split
    · rename_i heq
      subst heq
      exact ⟨t, rfl, hwider⟩
    · rename_i hne
      exact absurd (if_neg hne) hparam

end Rebinds

theorem bindParam_rebinds (types : TypeRegistry) (param : String) (t : DataType) (b : Bindings) :
    Rebinds types b (bindParam types param t b).2 := by
  unfold bindParam
  split
  · exact .kept
  · split
    · rename_i hfree
      exact .stored (by simp [hfree])
    · rename_i bound hbound
      split
      · exact .kept
      · split
        · rename_i hwider
          refine .stored fun old hold => ?_
          cases hbound.symm.trans hold
          exact hwider
        · exact .kept

theorem bindParam_failed (h : (bindParam types param t b).1 = none) :
    (bindParam types param t b).2 = b := by
  unfold bindParam at h ⊢
  split
  · rfl
  · split
    · simp_all
    · split
      · rfl
      · split
        · simp_all
        · rfl

theorem unify_rebinds (types : TypeRegistry) (shape : Shape) (actual : DataType) (b : Bindings) :
    Rebinds types b (shape.unify types actual b).2 := by
  rcases unify_meets types shape actual b with ⟨hkept, -⟩ | ⟨w, -, -, -, hbind⟩
  · rw [hkept]
    exact .kept
  · rw [hbind]
    exact bindParam_rebinds types w.param w.type b

/-- A unification that fails leaves the bindings as they were. -/
theorem unify_failed {shape : Shape} (h : (shape.unify types actual b).1 = none) :
    (shape.unify types actual b).2 = b := by
  rcases unify_meets types shape actual b with ⟨hkept, -⟩ | ⟨w, -, -, -, hbind⟩
  · exact hkept
  · rw [hbind] at h ⊢
    exact bindParam_failed h

/-! ## Occurrences of a type parameter -/

/-- The type that an argument brings to the occurrence of a type parameter in a shape: its own, or
    that of its elements below arrays and sequences, without the nullable wrapper. -/
def brings? (param : String) : Shape → DataType → Option DataType
  | .generic p, t | .constrained p _, t => if p = param then some t.nonNullable else none
  | .arrayOf inner, t =>
    match t.nonNullable with
    | .array e => inner.brings? param e
    | _ => none
  | .sequenceOf inner, t =>
    match t.nonNullable with
    | .array e | .sequence e => inner.brings? param e
    | _ => none
  | _, _ => none

/-- A meeting is what is brought and is not null. -/
theorem meeting?_iff_brings? {shape : Shape} {u : DataType} :
    (∃ w, shape.meeting? t = some w ∧ w.param = param ∧ w.type = u) ↔
      shape.brings? param t = some u ∧ u ≠ .null := by
  induction shape generalizing t with
  | generic p | constrained p interface =>
    simp only [meeting?, brings?]
    constructor
    · rintro ⟨w, hw, rfl, rfl⟩
      split at hw
      · cases hw
      · rename_i hnull
        cases hw
        exact ⟨if_pos rfl, hnull⟩
    · rintro ⟨hbrings, hnull⟩
      split at hbrings
      · rename_i hparam
        cases hbrings
        exact ⟨_, if_neg hnull, hparam, rfl⟩
      · cases hbrings
  | arrayOf inner ih =>
    cases ht : t.nonNullable with
    | array e => simpa only [meeting?, brings?, ht] using ih
    | _ => simp [meeting?, brings?, ht]
  | sequenceOf inner ih =>
    cases ht : t.nonNullable with
    | array e | sequence e => simpa only [meeting?, brings?, ht] using ih
    | _ => simp [meeting?, brings?, ht]
  | _ => simp [meeting?, brings?]

end Shape

/-! ## Matches -/

namespace Method

variable {m : Method} {args : List DataType} {mode : SourceMode} {types : TypeRegistry}
  {found : Nat × ResolvedMethod} {param : String} {t : DataType}

/-- The types that the arguments of a match bring to the occurrences of a type parameter. -/
def typesMet (m : Method) (args : List DataType) (mode : SourceMode) (param : String) :
    List DataType :=
  (m.unified args mode).filterMap fun p => p.1.brings? param p.2

theorem mem_meetings_iff : (∃ w ∈ m.meetings args mode, w.param = param ∧ w.type = t) ↔
    t ∈ m.typesMet args mode param ∧ t ≠ .null := by
  simp only [meetings, Shape.meetings, typesMet, List.mem_filterMap]
  constructor
  · rintro ⟨w, ⟨p, hp, hw⟩, hparam, htype⟩
    obtain ⟨hbrings, hnull⟩ := Shape.meeting?_iff_brings?.1 ⟨w, hw, hparam, htype⟩
    exact ⟨⟨p, hp, hbrings⟩, hnull⟩
  · rintro ⟨⟨p, hp, hbrings⟩, hnull⟩
    obtain ⟨w, hw, hparam, htype⟩ := Shape.meeting?_iff_brings?.2 ⟨hbrings, hnull⟩
    exact ⟨w, ⟨p, hp, hw⟩, hparam, htype⟩

theorem tryMatch_settles (h : m.tryMatch args mode types = some found) :
    Shape.Settles types (m.meetings args mode) found.2.bindings := by
  obtain ⟨-, hrun, -⟩ := tryMatch_runs h
  have hsettles := Shape.unifyAll_settles (Shape.settles_nil types) hrun
  rwa [List.nil_append] at hsettles

/-- The type of a type parameter was brought to it. -/
theorem mem_typesMet_of_bound (h : m.tryMatch args mode types = some found)
    (ht : found.2.bindings.get? param = some t) : t ∈ m.typesMet args mode param ∧ t ≠ .null :=
  mem_meetings_iff.1 ((tryMatch_settles h).met param t ht)

/-- What is brought to a type parameter and is not null binds it to a type at least as wide. -/
theorem bound_of_mem_typesMet (h : m.tryMatch args mode types = some found)
    (ht : t ∈ m.typesMet args mode param) (hnull : t ≠ .null) :
    ∃ x, found.2.bindings.get? param = some x ∧ types.isAssignable t x := by
  obtain ⟨w, hw, rfl, rfl⟩ := mem_meetings_iff.2 ⟨ht, hnull⟩
  exact (tryMatch_settles h).reaches w hw

/-- A match leaves a type parameter free exactly if only null was brought to it. Otherwise it has one
    of the types that were brought to it, and all others but null are assignable to that. On the way a
    unification that fails changes nothing, and one that succeeds changes at most one type parameter,
    which was free or had a type that is assignable to its new one. -/
theorem tryMatch_bindsGreatest (types : TypeRegistry) :
    (∀ (m : Method) (args : List DataType) (mode : SourceMode) (found : Nat × ResolvedMethod),
      m.tryMatch args mode types = some found → ∀ param,
        (found.2.bindings.get? param = none ↔ ∀ t ∈ m.typesMet args mode param, t = .null) ∧
        ∀ x, found.2.bindings.get? param = some x → x ∈ m.typesMet args mode param ∧
          ∀ t ∈ m.typesMet args mode param, t ≠ .null → types.isAssignable t x) ∧
    ∀ (shape : Shape) (actual : DataType) (b : Bindings) (score : Option Nat) (b' : Bindings),
      shape.unify types actual b = (score, b') →
        (score = none → b' = b) ∧
        (∀ p q, b'.get? p ≠ b.get? p → b'.get? q ≠ b.get? q → p = q) ∧
        ∀ p, b'.get? p ≠ b.get? p →
          ∃ x, b'.get? p = some x ∧ ∀ old, b.get? p = some old → types.isAssignable old x := by
  refine ⟨fun m args mode found h param => ⟨⟨?_, ?_⟩, ?_⟩, fun shape actual b score b' h => ?_⟩
  · intro hfree t ht
    by_contra hnull
    obtain ⟨x, hx, -⟩ := bound_of_mem_typesMet h ht hnull
    rw [hfree] at hx
    cases hx
  · intro hnull
    by_contra hbound
    obtain ⟨x, hx⟩ := Option.ne_none_iff_exists'.1 hbound
    obtain ⟨hmem, hne⟩ := mem_typesMet_of_bound h hx
    exact hne (hnull x hmem)
  · intro x hx
    refine ⟨(mem_typesMet_of_bound h hx).1, fun t ht hnull => ?_⟩
    obtain ⟨y, hy, hfits⟩ := bound_of_mem_typesMet h ht hnull
    cases hx.symm.trans hy
    exact hfits
  · obtain ⟨rfl, rfl⟩ := Prod.mk.inj h
    have hrebinds := Shape.unify_rebinds types shape actual b
    exact ⟨Shape.unify_failed, fun p q => hrebinds.unique, fun p => hrebinds.wider⟩

/-- The first value of a sequence or another one, kept under a key. -/
def firstOr : Method :=
  (((scalar "FirstOr" (.generic "T")).param "values" (.sequenceOf (.generic "T"))).param
    "other" (.generic "T")).param "key" (.generic "K")

/-- A `long` widens the elements of an `int?[]`, and a null as key leaves the type of the keys free.
    A string does not fit then, and the type parameters stay as they are. -/
theorem tryMatch_bindsGreatest_firstOr :
    ∃ found, firstOr.tryMatch [.array (.nullable .int), .long, .null] .raw .empty = some found ∧
      found.2.bindings.get? "K" = none ∧ found.2.bindings.get? "T" = some .long ∧
      TypeRegistry.empty.isAssignable .int .long ∧
      (Shape.generic "T").unify .empty .string found.2.bindings = (none, found.2.bindings) := by
  have hmatch : (firstOr.tryMatch [.array (.nullable .int), .long, .null] .raw .empty).map
      (·.2.bindings) = some [("T", .long)] := by decide +kernel
  obtain ⟨found, hfound, hbindings⟩ := Option.map_eq_some_iff.1 hmatch
  obtain ⟨hmatches, hsteps⟩ := tryMatch_bindsGreatest .empty
  have hgreatest := hmatches firstOr _ .raw found hfound
  have hlong : found.2.bindings.get? "T" = some .long := by
    rw [hbindings]
    rfl
  refine ⟨found, hfound, (hgreatest "K").1.2 (by decide +kernel), hlong, ?_, ?_⟩
  · exact ((hgreatest "T").2 .long hlong).2 .int (by decide +kernel) (by decide)
  · rw [hbindings]
    have hfails : ((Shape.generic "T").unify .empty .string [("T", .long)]).1 = none := by
      decide +kernel
    exact Prod.ext hfails ((hsteps _ _ _ _ _ rfl).1 hfails)

end Method

end SchemaQuery
