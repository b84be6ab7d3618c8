-- SUMMARY: Type shapes of method parameters, and their unification with argument types.
import SchemaQuery.NameMap
import SchemaQuery.DataType.Registry

/-!
# Type shapes

A shape is what a method asks of an argument: a given type, a type parameter, an
interface, an array or sequence of some shape, or nothing at all. Unifying a
shape with an argument type may bind a type parameter, and gives a score that is
higher the more the shape says. A parameter met again is widened to a type that
its old one is assignable to.
-/

namespace SchemaQuery

inductive Shape where
  | concrete (type : DataType)
  | generic (param : String)
  /-- A type parameter that must implement an interface. -/
  | constrained (param : String) (interface : String)
  | arrayOf (inner : Shape)
  | sequenceOf (inner : Shape)
  | implements (interface : String)
  | any
deriving DecidableEq, Repr, Inhabited

/-- The types of the type parameters. -/
abbrev Bindings := NameMap DataType

namespace Shape

def exactScore : Nat := 3
def widenedScore : Nat := 2
def genericScore : Nat := 1
def anyScore : Nat := 0

/-- Meets a type parameter with a type. The null type fits without binding anything. -/
def bindParam (types : TypeRegistry) (param : String) (actual : DataType) (b : Bindings) :
    Option Nat × Bindings :=
  if actual = .null then (some genericScore, b)
  else
    match b.get? param with
    | none => (some genericScore, b.insert param actual)
    | some bound =>
      if bound = actual || types.isAssignable actual bound then (some genericScore, b)
      else if types.isAssignable bound actual then (some genericScore, b.insert param actual)
      else (none, b)

/-- Unifies a shape with an argument type, nullability ignored. The bindings are shared by all calls,
    and the answer has them as the call leaves them, whether it gives a score or fails. -/
def unify (types : TypeRegistry) : Shape → DataType → Bindings → Option Nat × Bindings
  | .concrete expected, actual, b =>
    if actual.nonNullable = expected.nonNullable then (some exactScore, b)
    else if types.isAssignable actual.nonNullable expected.nonNullable then (some widenedScore, b)
    else (none, b)
  | .generic param, actual, b => bindParam types param actual.nonNullable b
  | .constrained param interface, actual, b =>
    if actual.nonNullable = .null || types.implements actual.nonNullable interface then
      bindParam types param actual.nonNullable b
    else (none, b)
  | .arrayOf inner, actual, b =>
    match actual.nonNullable with
    | .array e => inner.unify types e b
    | _ => (none, b)
  | .sequenceOf inner, actual, b =>
    match actual.nonNullable with
    | .array e | .sequence e => inner.unify types e b
    | _ => (none, b)
  | .implements interface, actual, b =>
    if types.implements actual.nonNullable interface then (some genericScore, b) else (none, b)
  | .any, _, b => (some anyScore, b)

/-- The type of a shape under bindings; an unbound parameter is an `object`. -/
def instantiate (b : Bindings) : Shape → DataType
  | .concrete t => t
  | .generic param | .constrained param _ => (b.get? param).getD .object
  | .arrayOf inner => .array (inner.instantiate b)
  | .sequenceOf inner => .sequence (inner.instantiate b)
  | .implements _ | .any => .object

def render : Shape → String
  | .concrete t => t.render
  | .generic param => param
  | .constrained param interface => param ++ ": " ++ interface
  | .arrayOf inner => inner.render ++ "[]"
  | .sequenceOf inner => "seq<" ++ inner.render ++ ">"
  | .implements interface => "impl " ++ interface
  | .any => "any"

/-- Unifies shapes with argument types from left to right and adds up the scores. The first failure
    ends it, and the bindings are given up. -/
def unifyAll (types : TypeRegistry) : List (Shape × DataType) → Bindings → Option (Nat × Bindings)
  | [], b => some (0, b)
  | (shape, actual) :: rest, b =>
    match shape.unify types actual b with
    | (none, _) => none
    | (some score, b) => (unifyAll types rest b).map fun (scores, b) => (score + scores, b)

theorem unifyAll_cons {types : TypeRegistry} {p : Shape × DataType} {rest : List (Shape × DataType)}
    {b b' : Bindings} {score : Nat} (h : unifyAll types (p :: rest) b = some (score, b')) :
    ∃ first b₁ scores, p.1.unify types p.2 b = (some first, b₁) ∧
      unifyAll types rest b₁ = some (scores, b') := by
  rw [unifyAll] at h
  split at h
  · cases h
  · rename_i first b₁ hfirst
    obtain ⟨⟨scores, b₂⟩, hrest, h⟩ := Option.map_eq_some_iff.1 h
    cases h
    exact ⟨first, b₁, scores, hfirst, hrest⟩

end Shape

end SchemaQuery
