-- SUMMARY: Types in which nothing is nullable twice, and the operations on types that keep to them.
import SchemaQuery.DataType.Parser
import SchemaQuery.Method.Shape
import SchemaQuery.Proofs.NameMap
import SchemaQuery.Proofs.Run

/-!
# Normal types

A type is normal if what it makes nullable was not nullable before, at any depth.
The operations on types keep to normal ones: adding and dropping nullability,
reading a type name, finding the narrowest type of some values, looking up a
property, and instantiating the shape of a result with the types of arguments.
-/

namespace SchemaQuery

namespace DataType

/-- Nothing in the type is made nullable that is so already. -/
def isNormal : DataType → Bool
  | .nullable t => !t.isNullable && t.isNormal
  | .array e | .sequence e => e.isNormal
  | _ => true

variable {t : DataType}

/-! ## Nullability -/

theorem isNormal_toNullable (h : t.isNormal) : t.toNullable.isNormal := by
  cases t <;> simp_all [toNullable, isNormal, isNullable]

theorem isNormal_nonNullable (h : t.isNormal) : t.nonNullable.isNormal := by
  cases t <;> simp_all [nonNullable, isNormal]

theorem isNormal_element {e : DataType} (h : t.isNormal)
    (he : t.nonNullable = .array e ∨ t.nonNullable = .sequence e) : e.isNormal := by
  have hplain := isNormal_nonNullable h
  rcases he with he | he
  · simpa only [he, isNormal] using hplain
  · simpa only [he, isNormal] using hplain

theorem isNormal_nullableIf (b : Bool) (h : t.isNormal) : (t.nullableIf b).isNormal := by
  unfold nullableIf
  split
  · exact isNormal_toNullable h
  · exact h

theorem isBoolean_nullableIf (b : Bool) (t : DataType) :
    (t.nullableIf b).isBoolean = t.isBoolean := by
  cases b with
  | false => rfl
  | true => cases t <;> rfl

theorem isBoolean_of_isNumeric (h : t.isNumeric) : t.isBoolean = false := by
  simp only [isNumeric, numericRank] at h
  simp only [isBoolean, decide_eq_false_iff_not]
  intro hboolean
  simp [hboolean] at h

theorem isNumeric_nonNullable (h : t.isNumeric) : t.nonNullable.isNumeric := by
  cases t with
  | nullable u => cases u <;> simp_all [isNumeric, numericRank, nonNullable]
  | _ => exact h

theorem isBoolean_of_isString (h : t.isString) : t.isBoolean = false := by
  simp_all [isString, isBoolean]

/-! ## Type names -/

/-- The type is plain, an array of a type with a name, or such a type made nullable once. -/
def isNamed : DataType → Bool
  | .boolean | .int | .long | .double | .decimal | .string | .dateTime | .guid | .object => true
  | .array e => e.isNamed
  | .nullable t => !t.isNullable && t.isNamed
  | .null | .sequence _ | .entity _ => false

theorem isNamed_toNullable (h : t.isNamed) : t.toNullable.isNamed := by
  cases t <;> simp_all [toNullable, isNamed, isNullable]

theorem isNamed_plain {name : String} (h : plain? name = some t) : t.isNamed := by
  unfold plain? at h
  split at h <;> cases h <;> rfl

/-- Reading a type name gives a type with a name. -/
theorem isNamed_parseChars {name : List Char} (h : parseChars name = .ok t) : t.isNamed := by
  fun_induction parseChars name generalizing t with
  | case1 name inner _ ih =>
    obtain ⟨u, hu, rfl⟩ := except_map_ok.1 h
    exact isNamed_toNullable (ih hu)
  | case2 name _ inner _ ih =>
    obtain ⟨u, hu, rfl⟩ := except_map_ok.1 h
    have hnamed : u.isNamed := ih hu
    exact hnamed
  | case3 name _ _ u hplain =>
    cases h
    exact isNamed_plain hplain
  | case4 => cases h

theorem isNormal_of_isNamed (h : t.isNamed) : t.isNormal := by
  induction t with
  | array e ih => exact ih h
  | nullable t ih =>
    obtain ⟨hplain, hnamed⟩ := Bool.and_eq_true_iff.1 h
    exact Bool.and_eq_true_iff.2 ⟨hplain, ih hnamed⟩
  | sequence => cases h
  | _ => rfl

theorem isNormal_parseChars {name : List Char} (h : parseChars name = .ok t) : t.isNormal :=
  isNormal_of_isNamed (isNamed_parseChars h)

end DataType

/-! ## Entity types -/

namespace TypeRegistry

variable {r : TypeRegistry}

/-- All properties of entity types have normal types. -/
def hasNormalTypes (r : TypeRegistry) : Bool :=
  r.entities.all fun e => e.properties.all (·.type.isNormal)

theorem lineageWithin_subset (unmet : List EntityType) (name : String) :
    lineageWithin unmet name ⊆ unmet := by
  fun_induction lineageWithin unmet name with
  | case1 => exact List.nil_subset _
  | case2 unmet name e hfound =>
    intro e' he'
    obtain rfl := List.mem_singleton.1 he'
    exact List.mem_of_find?_eq_some hfound
  | case3 unmet name e hfound base _ ih =>
    intro e' he'
    rcases List.mem_cons.1 he' with rfl | he'
    · exact List.mem_of_find?_eq_some hfound
    · exact List.mem_of_mem_filter (ih he')

theorem isNormal_property (hr : r.hasNormalTypes) {entity name : String} {t : DataType}
    (h : r.property? entity name = some t) : t.isNormal := by
  obtain ⟨p, hfind, rfl⟩ := Option.map_eq_some_iff.1 h
  obtain ⟨e, he, hp⟩ := List.mem_flatMap.1 (List.mem_of_find?_eq_some hfind)
  have hall := List.all_eq_true.1 hr e (lineageWithin_subset _ _ he)
  exact List.all_eq_true.1 hall p hp

theorem isNormal_commonAncestor {a b : DataType} (ha : a.isNormal) (hb : b.isNormal) :
    (r.commonAncestor a b).isNormal := by
  have ha' := DataType.isNormal_nonNullable ha
  have hb' := DataType.isNormal_nonNullable hb
  unfold commonAncestor
  simp only
  split
  · exact ha'
  · split
    · split
      · exact ha'
      · exact hb'
    · split
      · rename_i name _
        cases hfind : ((r.lineage name).map fun e => DataType.entity e.name).find?
            (r.isAssignable b.nonNullable) with
        | none => rfl
        | some t =>
          obtain ⟨e, -, rfl⟩ := List.mem_map.1 (List.mem_of_find?_eq_some hfind)
          rfl
      · rfl

theorem isBoolean_commonAncestor {a b : DataType} (ha : a.isNumeric) (hb : b.isNumeric) :
    (r.commonAncestor a b).isBoolean = false := by
  have ha' := DataType.isNumeric_nonNullable ha
  have hb' := DataType.isNumeric_nonNullable hb
  obtain ⟨ra, hra⟩ := Option.isSome_iff_exists.1 ha'
  obtain ⟨rb, hrb⟩ := Option.isSome_iff_exists.1 hb'
  unfold commonAncestor
  simp only [hra, hrb]
  split
  · exact DataType.isBoolean_of_isNumeric ha'
  · split
    · exact DataType.isBoolean_of_isNumeric ha'
    · exact DataType.isBoolean_of_isNumeric hb'

theorem isNormal_commonType {ts : List DataType} (hts : ∀ t ∈ ts, t.isNormal) {t : DataType}
    (h : r.commonType ts = some t) : t.isNormal := by
  obtain ⟨known, hfold, rfl⟩ := Option.map_eq_some_iff.1 h
  refine DataType.isNormal_nullableIf _ ?_
  -- what is known so far of the common type is normal
  refine List.foldlRecOn (motive := fun acc => ∀ u, acc = some u → u.isNormal) _ _ ?_ ?_ known hfold
  · rintro u ⟨⟩
  · intro acc hacc u hu
    have hnormal := hts u (List.mem_of_mem_filter hu)
    cases acc with
    | none =>
      rintro v ⟨⟩
      exact DataType.isNormal_nonNullable hnormal
    | some current =>
      rintro v ⟨⟩
      exact isNormal_commonAncestor (hacc current rfl) hnormal

end TypeRegistry

/-! ## Shapes of results -/

/-- The type of the shape is normal when those of its parameters are. -/
def Shape.isNormal : Shape → Bool
  | .concrete t => t.isNormal
  | .arrayOf inner | .sequenceOf inner => inner.isNormal
  | _ => true

/-- All type parameters have normal types. -/
def Bindings.Normal (b : Bindings) : Prop := ∀ param t, b.get? param = some t → t.isNormal

theorem Bindings.Normal.insert {b : Bindings} (h : b.Normal) {param : String} {t : DataType}
    (ht : t.isNormal) : Bindings.Normal (b.insert param t) := by
  intro param' t' hget
  rw [NameMap.get?_insert] at hget
  split at hget
  · cases hget
    exact ht
  · exact h param' t' hget

namespace Shape

variable {types : TypeRegistry} {b b' : Bindings} {actual : DataType} {score : Nat}

theorem bindParam_normal {param : String} (hb : b.Normal) (ha : actual.isNormal) :
    Bindings.Normal (bindParam types param actual b).2 := by
  unfold bindParam
  split
  · exact hb
  · split
    · exact hb.insert ha
    · split
      · exact hb
      · split
        · exact hb.insert ha
        · exact hb

theorem unify_normal {shape : Shape} (hb : b.Normal) (ha : actual.isNormal) :
    Bindings.Normal (shape.unify types actual b).2 := by
  induction shape generalizing actual with
  | concrete expected =>
    simp only [unify]
    split
    · exact hb
    · split <;> exact hb
  | generic param => exact bindParam_normal hb (DataType.isNormal_nonNullable ha)
  | constrained param interface =>
    simp only [unify]
    split
    · exact bindParam_normal hb (DataType.isNormal_nonNullable ha)
    · exact hb
  | arrayOf inner ih =>
    simp only [unify]
    split
    · rename_i e he
      exact ih (DataType.isNormal_element ha (.inl he))
    · exact hb
  | sequenceOf inner ih =>
    simp only [unify]
    split
    · rename_i e he
      exact ih (DataType.isNormal_element ha (.inl he))
    · rename_i e he
      exact ih (DataType.isNormal_element ha (.inr he))
    · exact hb
  | implements interface =>
    simp only [unify]
    split <;> exact hb
  | any => exact hb

theorem unifyAll_normal {pairs : List (Shape × DataType)} (hb : b.Normal)
    (hpairs : ∀ p ∈ pairs, p.2.isNormal) (h : unifyAll types pairs b = some (score, b')) :
    b'.Normal := by
  induction pairs generalizing b score with
  | nil =>
    cases h
    exact hb
  | cons p pairs ih =>
    obtain ⟨first, b₁, scores, hfirst, hrest⟩ := unifyAll_cons h
    obtain ⟨hp, hpairs⟩ := List.forall_mem_cons.1 hpairs
    have hb₁ : Bindings.Normal (p.1.unify types p.2 b).2 := unify_normal hb hp
    rw [hfirst] at hb₁
    exact ih hb₁ hpairs hrest

theorem isNormal_instantiate {shape : Shape} (hb : b.Normal) (h : shape.isNormal) :
    (shape.instantiate b).isNormal := by
  induction shape with
  | concrete t => exact h
  | generic param | constrained param =>
    simp only [instantiate]
    cases hget : b.get? param with
    | none => rfl
    | some t => exact hb param t hget
  | arrayOf inner ih | sequenceOf inner ih => exact ih h
  | implements | any => rfl

end Shape

end SchemaQuery
