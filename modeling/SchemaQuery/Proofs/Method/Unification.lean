-- SUMMARY: What the type parameters of a matched method meet, and what their final types say about it.
import SchemaQuery.Method.Registry
import SchemaQuery.Proofs.DataType.Assignability
import SchemaQuery.Proofs.NameMap

/-!
# Unification

Matching a method goes through its parameters from left to right. In each argument
the shape of the parameter meets at most one type with a type parameter, and the
bindings follow these meetings: a type parameter ends with a type that it has met
and that all others it has met are assignable to (`unifyAll_settles`).

From this follows what a match says about the arguments. Every argument is taken
by the shape of its parameter under the final bindings (`Takes`), whatever was
widened after it was seen. And the final type of a parameter implements an
interface exactly if all types do that the parameter met where the interface is
not asked for (`tryMatch_implements_iff`).
-/

namespace SchemaQuery

namespace Shape

variable {types : TypeRegistry} {b b' final : Bindings} {actual t : DataType} {score : Nat}

/-! ## Meetings -/

/-- A type that meets a type parameter, with the interface that is asked of it there. -/
structure Meeting where
  param : String
  interface : Option String
  type : DataType
deriving DecidableEq, Repr

/-- Where an argument of a type meets the type parameter of a shape. A null meets nothing. -/
def meeting? : Shape → DataType → Option Meeting
  | .generic param, t =>
    if t.nonNullable = .null then none else some ⟨param, none, t.nonNullable⟩
  | .constrained param interface, t =>
    if t.nonNullable = .null then none else some ⟨param, some interface, t.nonNullable⟩
  | .arrayOf inner, t =>
    match t.nonNullable with
    | .array e => inner.meeting? e
    | _ => none
  | .sequenceOf inner, t =>
    match t.nonNullable with
    | .array e | .sequence e => inner.meeting? e
    | _ => none
  | _, _ => none

/-- One unification does with the bindings what its meeting says. It leaves them alone if nothing is
    met or if it fails before. -/
theorem unify_meets (types : TypeRegistry) (shape : Shape) (actual : DataType) (b : Bindings) :
    ((shape.unify types actual b).2 = b ∧
      (shape.meeting? actual = none ∨ (shape.unify types actual b).1 = none)) ∨
      ∃ w, shape.meeting? actual = some w ∧ w.type ≠ .null ∧
        (∀ interface, w.interface = some interface → types.implements w.type interface) ∧
        shape.unify types actual b = bindParam types w.param w.type b := by
  induction shape generalizing actual with
  | concrete expected =>
    simp only [unify]
    split
    · exact .inl ⟨rfl, .inl rfl⟩
    · split <;> exact .inl ⟨rfl, .inl rfl⟩
  | generic param =>
    by_cases hnull : actual.nonNullable = .null
    · exact .inl ⟨by simp [unify, bindParam, hnull], .inl (by simp [meeting?, hnull])⟩
    · refine .inr ⟨⟨param, none, actual.nonNullable⟩, if_neg hnull, hnull, ?_, rfl⟩
      rintro _ ⟨⟩
  | constrained param interface =>
    by_cases hnull : actual.nonNullable = .null
    · exact .inl ⟨by simp [unify, bindParam, hnull], .inl (by simp [meeting?, hnull])⟩
    · simp only [unify, hnull, decide_false, Bool.false_or]
      split
      · rename_i himplements
        refine .inr ⟨⟨param, some interface, actual.nonNullable⟩, if_neg hnull, hnull, ?_, rfl⟩
        rintro _ ⟨⟩
        exact himplements
      · exact .inl ⟨rfl, .inr rfl⟩
  | arrayOf inner ih =>
    cases ha : actual.nonNullable with
    | array e => simpa only [unify, meeting?, ha] using ih e
    | _ => exact .inl (by simp [unify, ha])
  | sequenceOf inner ih =>
    cases ha : actual.nonNullable with
    | array e | sequence e => simpa only [unify, meeting?, ha] using ih e
    | _ => exact .inl (by simp [unify, ha])
  | implements interface =>
    simp only [unify]
    split <;> exact .inl ⟨rfl, .inl rfl⟩
  | any => exact .inl ⟨rfl, .inl rfl⟩

/-- A unification that succeeds meets nothing, or it binds what it meets. -/
theorem unify_cases {shape : Shape} (h : shape.unify types actual b = (some score, b')) :
    (shape.meeting? actual = none ∧ b' = b) ∨
      ∃ w, shape.meeting? actual = some w ∧ w.type ≠ .null ∧
        (∀ interface, w.interface = some interface → types.implements w.type interface) ∧
        bindParam types w.param w.type b = (some score, b') := by
  have hmeets := unify_meets types shape actual b
  rw [h] at hmeets
  rcases hmeets with ⟨hkept, hnone | hfailed⟩ | ⟨w, hw, hnull, hasked, hbind⟩
  · exact .inl ⟨hnone, hkept⟩
  · cases hfailed
  · exact .inr ⟨w, hw, hnull, hasked, hbind.symm⟩

/-- Binding a parameter leaves it with the wider of its old type and the one it meets. -/
theorem bindParam_widest {param : String} (hnull : actual ≠ .null)
    (h : bindParam types param actual b = (some score, b')) :
    ∃ x, (∀ other, b'.get? other = if param = other then some x else b.get? other) ∧
      types.isAssignable actual x ∧ (x = actual ∨ b.get? param = some x) ∧
      ∀ old, b.get? param = some old → types.isAssignable old x := by
  simp only [bindParam, if_neg hnull] at h
  split at h
  · rename_i hfresh
    cases h
    refine ⟨actual, NameMap.get?_insert b param actual, by simp, .inl rfl, ?_⟩
    simp [hfresh]
  · rename_i bound hbound
    split at h
    · rename_i hfits
      cases h
      refine ⟨bound, ?_, ?_, .inr hbound, ?_⟩
      · intro other
        split
        · rename_i heq
          exact heq ▸ hbound
        · rfl
      · simp only [Bool.or_eq_true, decide_eq_true_eq] at hfits
        rcases hfits with rfl | hfits
        · exact TypeRegistry.isAssignable_refl types bound
        · exact hfits
      · intro old hold
        cases hbound.symm.trans hold
        exact TypeRegistry.isAssignable_refl types bound
    · split at h
      · rename_i hwiden
        cases h
        refine ⟨actual, NameMap.get?_insert b param actual, by simp, .inl rfl, ?_⟩
        intro old hold
        cases hbound.symm.trans hold
        exact hwiden
      · cases h

/-! ## Runs -/

/-- The bindings are those of the meetings: each parameter that was met has a type, which it has met
    and which all types it has met are assignable to. -/
structure Settles (types : TypeRegistry) (meetings : List Meeting) (b : Bindings) : Prop where
  reaches : ∀ w ∈ meetings, ∃ x, b.get? w.param = some x ∧ types.isAssignable w.type x
  met : ∀ param x, b.get? param = some x → ∃ w ∈ meetings, w.param = param ∧ w.type = x

theorem settles_nil (types : TypeRegistry) : Settles types [] [] :=
  ⟨by simp, by rintro param x ⟨⟩⟩

theorem Settles.bindParam {meetings : List Meeting} {w : Meeting} (h : Settles types meetings b)
    (hnull : w.type ≠ .null) (hbind : bindParam types w.param w.type b = (some score, b')) :
    Settles types (meetings ++ [w]) b' := by
  obtain ⟨x, hget, hfits, horigin, hwider⟩ := bindParam_widest hnull hbind
  constructor
  · simp only [List.forall_mem_append, List.forall_mem_singleton]
    refine ⟨fun v hv => ?_, ⟨x, by rw [hget, if_pos rfl], hfits⟩⟩
    obtain ⟨old, hold, hv'⟩ := h.reaches v hv
    by_cases hsame : w.param = v.param
    · -- what was assignable to the old type is assignable to the wider one
      refine ⟨x, by rw [hget, if_pos hsame], ?_⟩
      exact TypeRegistry.isAssignable_trans hv' (hwider old (hsame ▸ hold))
    · exact ⟨old, by rw [hget, if_neg hsame, hold], hv'⟩
  · intro param y hy
    rw [hget] at hy
    split at hy
    · rename_i heq
      cases hy
      rcases horigin with rfl | hold
      · exact ⟨w, by simp, heq, rfl⟩
      · obtain ⟨v, hv, hparam, htype⟩ := h.met w.param x hold
        exact ⟨v, List.mem_append_left _ hv, hparam.trans heq, htype⟩
    · obtain ⟨v, hv, hparam, htype⟩ := h.met param y hy
      exact ⟨v, List.mem_append_left _ hv, hparam, htype⟩

/-- What is met when shapes are unified with argument types. -/
def meetings (pairs : List (Shape × DataType)) : List Meeting :=
  pairs.filterMap fun p => p.1.meeting? p.2

theorem Settles.unify {shape : Shape} {met : List Meeting} (h : Settles types met b)
    (hunify : shape.unify types actual b = (some score, b')) :
    Settles types (met ++ meetings [(shape, actual)]) b' := by
  rcases unify_cases hunify with ⟨hnone, rfl⟩ | ⟨w, hw, hnull, -, hbind⟩
  · simpa [meetings, hnone] using h
  · simpa [meetings, hw] using h.bindParam hnull hbind

/-- The bindings of a run are those of its meetings. -/
theorem unifyAll_settles {pairs : List (Shape × DataType)} {met : List Meeting}
    (hb : Settles types met b) (h : unifyAll types pairs b = some (score, b')) :
    Settles types (met ++ meetings pairs) b' := by
  induction pairs generalizing b met score with
  | nil =>
    cases h
    simpa [meetings] using hb
  | cons p pairs ih =>
    obtain ⟨first, b₁, scores, hfirst, hrest⟩ := unifyAll_cons h
    have hsettles := ih (hb.unify hfirst) hrest
    rwa [List.append_assoc, meetings, meetings, ← List.filterMap_append] at hsettles

/-- Every pair of a run was unified at some point of it. -/
theorem unify_of_unifyAll {pairs : List (Shape × DataType)}
    (h : unifyAll types pairs b = some (score, b')) :
    ∀ p ∈ pairs, ∃ before score after, p.1.unify types p.2 before = (some score, after) := by
  induction pairs generalizing b score with
  | nil => simp
  | cons p pairs ih =>
    obtain ⟨first, b₁, scores, hfirst, hrest⟩ := unifyAll_cons h
    exact List.forall_mem_cons.2 ⟨⟨b, first, b₁, hfirst⟩, ih hrest⟩

/-- Where an interface is asked for, it was checked. -/
theorem implements_of_asked {pairs : List (Shape × DataType)}
    (h : unifyAll types pairs b = some (score, b')) {w : Meeting} (hw : w ∈ meetings pairs)
    {interface : String} (hasked : w.interface = some interface) :
    types.implements w.type interface := by
  obtain ⟨p, hp, hmeeting⟩ := List.mem_filterMap.1 hw
  obtain ⟨before, _, after, hunify⟩ := unify_of_unifyAll h p hp
  rcases unify_cases hunify with ⟨hnone, -⟩ | ⟨w', hw', -, hchecked, -⟩
  · rw [hnone] at hmeeting
    cases hmeeting
  · cases hw'.symm.trans hmeeting
    exact hchecked interface hasked

/-! ## Arguments that shapes take -/

/-- The arguments that a shape takes under bindings. Arrays and sequences are taken by their elements,
    a type parameter takes null besides what is assignable to its type, and any other shape takes what
    is assignable to its type. -/
def Takes (types : TypeRegistry) (b : Bindings) : Shape → DataType → Prop
  | .arrayOf inner, t => ∃ e, t.nonNullable = .array e ∧ inner.Takes types b e
  | .sequenceOf inner, t =>
    ∃ e, (t.nonNullable = .array e ∨ t.nonNullable = .sequence e) ∧ inner.Takes types b e
  | .generic param, t | .constrained param _, t =>
    t.nonNullable = .null ∨ types.isAssignable t.nonNullable ((b.get? param).getD .object)
  | shape, t => types.isAssignable t.nonNullable (shape.instantiate b)

/-- The shape of the elements, for an array or a sequence. -/
def element? : Shape → Option Shape
  | .arrayOf inner | .sequenceOf inner => some inner
  | _ => none

/-- A type parameter takes what it has met, once its type has been widened enough. -/
theorem takes_param {param : String}
    (hfinal : actual.nonNullable ≠ .null →
      ∃ x, final.get? param = some x ∧ types.isAssignable actual.nonNullable x) :
    actual.nonNullable = .null ∨
      types.isAssignable actual.nonNullable ((final.get? param).getD .object) := by
  by_cases hnull : actual.nonNullable = .null
  · exact .inl hnull
  · obtain ⟨x, hx, hfits⟩ := hfinal hnull
    exact .inr (by rwa [hx])

/-- What a shape was unified with it takes under all bindings that its meeting reaches. -/
theorem takes_of_unify {shape : Shape} (h : shape.unify types actual b = (some score, b'))
    (hfinal : ∀ w, shape.meeting? actual = some w →
      ∃ x, final.get? w.param = some x ∧ types.isAssignable w.type x) :
    shape.Takes types final actual := by
  induction shape generalizing actual with
  | concrete expected =>
    refine TypeRegistry.isAssignable_of_nonNullable ?_
    simp only [unify] at h
    split at h
    · rename_i hsame
      rw [hsame]
      exact TypeRegistry.isAssignable_refl types _
    · split at h
      · assumption
      · cases h
  | generic param =>
    exact takes_param fun hnull => hfinal ⟨param, none, actual.nonNullable⟩ (if_neg hnull)
  | constrained param interface =>
    exact takes_param fun hnull =>
      hfinal ⟨param, some interface, actual.nonNullable⟩ (if_neg hnull)
  | arrayOf inner ih =>
    simp only [unify] at h
    split at h
    · rename_i e he
      exact ⟨e, he, ih h (by simpa only [meeting?, he] using hfinal)⟩
    · cases h
  | sequenceOf inner ih =>
    simp only [unify] at h
    split at h
    · rename_i e he
      exact ⟨e, .inl he, ih h (by simpa only [meeting?, he] using hfinal)⟩
    · rename_i e he
      exact ⟨e, .inr he, ih h (by simpa only [meeting?, he] using hfinal)⟩
    · cases h
  | implements | any => exact TypeRegistry.isAssignable_object types _

/-- A run of unification ends with bindings under which all its arguments are taken. -/
theorem takes_of_unifyAll {pairs : List (Shape × DataType)}
    (h : unifyAll types pairs [] = some (score, b)) : ∀ p ∈ pairs, p.1.Takes types b p.2 := by
  intro p hp
  obtain ⟨before, _, after, hunify⟩ := unify_of_unifyAll h p hp
  refine takes_of_unify hunify fun w hw => ?_
  exact (unifyAll_settles (settles_nil types) h).reaches w (List.mem_filterMap.2 ⟨p, hp, hw⟩)

/-- What a shape takes is assignable to its type, if elements have the type of theirs. -/
theorem isAssignable_of_takes {shape : Shape} (h : shape.Takes types b t) (hnull : t ≠ .null)
    (honce : t.nullableOnce)
    (helement : ∀ inner, shape.element? = some inner → t.elementType = some (inner.instantiate b)) :
    types.isAssignable t.nonNullable (shape.instantiate b).nonNullable := by
  have hplain := DataType.plain_of_nullableOnce honce hnull
  refine TypeRegistry.isAssignable_nonNullable hplain ?_
  cases shape with
  | concrete | implements | any => exact h
  | generic | constrained =>
    refine h.resolve_left fun hnull' => ?_
    rw [hnull'] at hplain
    cases hplain
  | arrayOf inner =>
    obtain ⟨e, he, -⟩ := h
    obtain rfl : e = inner.instantiate b :=
      Option.some.inj ((DataType.elementType_eq (.inl he)).symm.trans (helement inner rfl))
    rw [he]
    exact TypeRegistry.isAssignable_refl types _
  | sequenceOf inner =>
    obtain ⟨e, he, -⟩ := h
    obtain rfl : e = inner.instantiate b :=
      Option.some.inj ((DataType.elementType_eq he).symm.trans (helement inner rfl))
    rcases he with he | he
    · rw [he]
      exact (TypeRegistry.isAssignable_iff rfl rfl).2 (.inr ⟨_, rfl, rfl⟩)
    · rw [he]
      exact TypeRegistry.isAssignable_refl types _

end Shape

/-! ## Matches -/

namespace Method

variable {m : Method} {args : List DataType} {mode : SourceMode} {types : TypeRegistry}
  {found : Nat × ResolvedMethod}

/-- The shapes that a match unifies, each with the type of its argument. -/
def unified (m : Method) (args : List DataType) (mode : SourceMode) : List (Shape × DataType) :=
  (m.injectedArgument? mode).getD [] ++ ((m.writtenParams mode).map (·.shape)).zip args

/-- A match is a run of unification from empty bindings. -/
theorem tryMatch_runs (h : m.tryMatch args mode types = some found) :
    (m.writtenParams mode).length = args.length ∧
    Shape.unifyAll types (m.unified args mode) [] = some (found.1, found.2.bindings) ∧
    found.2.paramTypes = (m.writtenParams mode).map (·.shape.instantiate found.2.bindings) := by
  unfold tryMatch at h
  simp only at h
  split at h
  · cases h
  · rename_i hlength
    obtain ⟨injected, hinjected, h⟩ := Option.bind_eq_some_iff.1 h
    obtain ⟨⟨score, b⟩, hunify, h⟩ := Option.bind_eq_some_iff.1 h
    cases h
    refine ⟨not_not.1 hlength, ?_, rfl⟩
    rw [unified, hinjected]
    exact hunify

/-- Each written argument of a match is taken by the shape of its parameter under the final bindings,
    also if these were widened after it was seen. Its type is then assignable to the reported type of
    the parameter, except that arrays and sequences are compared by their elements: for them it takes
    elements of the reported type. -/
theorem tryMatch_takes (h : m.tryMatch args mode types = some found) {i : Nat} {t : DataType}
    (ht : args[i]? = some t) :
    ∃ p, (m.writtenParams mode)[i]? = some p ∧
      found.2.paramTypes[i]? = some (p.shape.instantiate found.2.bindings) ∧
      p.shape.Takes types found.2.bindings t ∧
      (t ≠ .null → t.nullableOnce →
        (∀ inner, p.shape.element? = some inner →
          t.elementType = some (inner.instantiate found.2.bindings)) →
        types.isAssignable t.nonNullable (p.shape.instantiate found.2.bindings).nonNullable) := by
  obtain ⟨hlength, hrun, hparams⟩ := tryMatch_runs h
  have hi : i < (m.writtenParams mode).length :=
    hlength ▸ (List.getElem?_eq_some_iff.1 ht).1
  have hp := List.getElem?_eq_getElem hi
  have htakes : (m.writtenParams mode)[i].shape.Takes types found.2.bindings t := by
    refine Shape.takes_of_unifyAll hrun (_, t) (List.mem_append_right _ ?_)
    refine List.mem_of_getElem? (i := i) ?_
    simp [List.getElem?_zip_eq_some, hp, ht]
  refine ⟨_, hp, by simp [hparams, hp], htakes, ?_⟩
  exact Shape.isAssignable_of_takes htakes

/-- Whether a sequence holds a value. -/
def holdsValue : Method :=
  ((scalar "Contains" (.concrete .boolean)).param "values" (.sequenceOf (.generic "T"))).param
    "value" (.generic "T")

/-- A value of type `long` widens the elements of a sequence that was given as an `int[]`. -/
theorem tryMatch_takes_holdsValue :
    ∃ found, holdsValue.tryMatch [.array .int, .long] .raw .empty = some found ∧
      found.2.paramTypes = [.sequence .long, .long] ∧
      (Shape.sequenceOf (.generic "T")).Takes .empty found.2.bindings (.array .int) ∧
      TypeRegistry.empty.isAssignable .long
        ((Shape.generic "T").instantiate found.2.bindings).nonNullable := by
  have hmatch : (holdsValue.tryMatch [.array .int, .long] .raw .empty).map (·.2.paramTypes) =
      some [.sequence .long, .long] := by decide +kernel
  obtain ⟨found, hfound, htypes⟩ := Option.map_eq_some_iff.1 hmatch
  obtain ⟨p, hp, -, htakes, -⟩ := tryMatch_takes hfound (i := 0) (t := .array .int) rfl
  obtain ⟨q, hq, -, -, hassignable⟩ := tryMatch_takes hfound (i := 1) (t := .long) rfl
  cases hp
  cases hq
  exact ⟨found, hfound, htypes, htakes, hassignable (by decide) rfl (by rintro inner ⟨⟩)⟩

/-- The size of an array of any elements. -/
def arraySize : Method := (scalar "Size" (.concrete .int)).param "values" (.arrayOf .any)

/-- Open shapes stand for `object`, also as elements, and an `int[]` is not assignable to an
    `object[]`. -/
theorem not_forall_tryMatch_isAssignable :
    ¬ ∀ (m : Method) (types : TypeRegistry) (args : List DataType) (mode : SourceMode)
        (found : Nat × ResolvedMethod), m.tryMatch args mode types = some found →
      ∀ (i : Nat) (t u : DataType), args[i]? = some t → found.2.paramTypes[i]? = some u →
        t ≠ .null → types.isAssignable t.nonNullable u.nonNullable := by
  intro hall
  have hmatch : (arraySize.tryMatch [.array .int] .raw .empty).map (·.2.paramTypes) =
      some [.array .object] := by decide +kernel
  obtain ⟨found, hfound, htypes⟩ := Option.map_eq_some_iff.1 hmatch
  have hassignable := hall arraySize .empty [.array .int] .raw found hfound 0 (.array .int)
    (.array .object) rfl (by rw [htypes]; rfl) (by decide)
  exact absurd hassignable (by decide +kernel)

/-- What the type parameters of a method meet when it is matched. -/
def meetings (m : Method) (args : List DataType) (mode : SourceMode) : List Shape.Meeting :=
  Shape.meetings (m.unified args mode)

/-- The type that a match leaves with a type parameter implements an interface exactly if all types
    do that the parameter met in places where the interface is not asked for. A `null?` that was
    widened counts for nothing. -/
theorem tryMatch_implements_iff (h : m.tryMatch args mode types = some found) {param : String}
    {x : DataType} (hx : found.2.bindings.get? param = some x) (interface : String) :
    types.implements x interface ↔
      ∀ w ∈ m.meetings args mode, w.param = param → w.interface ≠ some interface →
        w.type = x ∨ w.type.nonNullable ≠ .null → types.implements w.type interface := by
  obtain ⟨-, hrun, -⟩ := tryMatch_runs h
  have hsettles := Shape.unifyAll_settles (Shape.settles_nil types) hrun
  rw [List.nil_append] at hsettles
  constructor
  · rintro himplements w hw rfl - (rfl | hnull)
    · exact himplements
    · obtain ⟨y, hy, hfits⟩ := hsettles.reaches w hw
      cases hx.symm.trans hy
      exact TypeRegistry.implements_of_isAssignable hfits hnull himplements
  · intro hall
    obtain ⟨w, hw, hparam, rfl⟩ := hsettles.met param x hx
    by_cases hasked : w.interface = some interface
    · exact Shape.implements_of_asked hrun hw hasked
    · exact hall w hw hparam hasked (.inl rfl)

/-- One of two values, of which the first can be paid. -/
def payableOr : Method :=
  ((scalar "PayableOr" (.generic "T")).param "first" (.constrained "T" "Payable")).param
    "second" (.generic "T")

/-- With two employees the type parameter can be paid; a person as second value widens it to a type
    that cannot. -/
theorem tryMatch_implements_iff_payableOr :
    (∃ found, payableOr.tryMatch [.entity "Employee", .entity "Employee"] .raw .staff = some found ∧
      found.2.bindings.get? "T" = some (.entity "Employee") ∧
      TypeRegistry.staff.implements (.entity "Employee") "Payable") ∧
    ∃ found, payableOr.tryMatch [.entity "Employee", .entity "Person"] .raw .staff = some found ∧
      found.2.bindings.get? "T" = some (.entity "Person") ∧
      ¬ TypeRegistry.staff.implements (.entity "Person") "Payable" := by
  have hsame : (payableOr.tryMatch [.entity "Employee", .entity "Employee"] .raw .staff).map
      (·.2.bindings.get? "T") = some (some (.entity "Employee")) := by decide +kernel
  have hwidened : (payableOr.tryMatch [.entity "Employee", .entity "Person"] .raw .staff).map
      (·.2.bindings.get? "T") = some (some (.entity "Person")) := by decide +kernel
  obtain ⟨same, hsame, hemployee⟩ := Option.map_eq_some_iff.1 hsame
  obtain ⟨widened, hwidened, hperson⟩ := Option.map_eq_some_iff.1 hwidened
  refine ⟨⟨same, hsame, hemployee, ?_⟩, widened, hwidened, hperson, fun himplements => ?_⟩
  · exact (tryMatch_implements_iff hsame hemployee "Payable").2 (by decide +kernel)
  · have hall := (tryMatch_implements_iff hwidened hperson "Payable").1 himplements
    have hmet := hall ⟨"T", none, .entity "Person"⟩ (by decide) rfl (by decide) (.inl rfl)
    exact absurd hmet (by decide +kernel)

end Method

end SchemaQuery
