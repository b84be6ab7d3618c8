-- SUMMARY: Entity types: lineage, properties, interfaces, assignability and common ancestors.
import SchemaQuery.DataType.Basic

/-!
# Entity types

An entity type has a name, at most one base type, interfaces and properties. A
registry holds one definition per name. The lineage of a name follows the base
links as long as they lead to definitions not met before, so it is finite
whatever the links are.

`isAssignable` says when a value of one type may stand where another type is
expected, and `commonAncestor` gives the narrowest type of two values.
-/

namespace SchemaQuery

structure Property where
  name : String
  type : DataType
deriving DecidableEq, Repr

structure EntityType where
  name : String
  base : Option String
  interfaces : List String
  properties : List Property
deriving DecidableEq, Repr

/-- The definitions of entity types, one per name. -/
structure TypeRegistry where
  entities : List EntityType
deriving DecidableEq, Repr

instance : Inhabited TypeRegistry := ⟨⟨[]⟩⟩

/-- Interface of every numeric type. -/
def numericInterface : String := "Numeric"

/-- Interface of every type with a total order. -/
def comparableInterface : String := "Comparable"

namespace TypeRegistry

def empty : TypeRegistry := ⟨[]⟩

/-- The definitions of all other names. -/
def without (es : List EntityType) (name : String) : List EntityType :=
  es.filter (·.name ≠ name)

theorem length_without_lt {es : List EntityType} {e : EntityType} (h : e ∈ es) :
    (without es e.name).length < es.length := by
  refine Nat.lt_of_le_of_ne (List.length_filter_le ..) fun hlen => ?_
  simpa using List.length_filter_eq_length_iff.1 hlen e h

/-- The registry with a definition in place of any earlier one of its name. -/
def register (r : TypeRegistry) (e : EntityType) : TypeRegistry :=
  ⟨without r.entities e.name ++ [e]⟩

def ofList (es : List EntityType) : TypeRegistry :=
  es.foldl register empty

def entity? (r : TypeRegistry) (name : String) : Option EntityType :=
  r.entities.find? (·.name = name)

/-- The definitions met along the base links from a name, out of those not met before. -/
def lineageWithin (unmet : List EntityType) (name : String) : List EntityType :=
  match _found : unmet.find? (·.name = name) with
  | none => []
  | some e =>
    match e.base with
    | none => [e]
    | some base => e :: lineageWithin (without unmet e.name) base
termination_by unmet.length
decreasing_by exact length_without_lt (List.mem_of_find?_eq_some _found)

/-- An entity and its base types, nearest first. -/
def lineage (r : TypeRegistry) (name : String) : List EntityType :=
  lineageWithin r.entities name

/-- The type of a property, own ones before inherited ones. -/
def property? (r : TypeRegistry) (entity name : String) : Option DataType :=
  (((r.lineage entity).flatMap (·.properties)).find? (·.name = name)).map (·.type)

/-- The names of all visible properties, own ones first. -/
def propertyNames (r : TypeRegistry) (entity : String) : List String :=
  ((r.lineage entity).flatMap (·.properties)).map (·.name)

/-- Whether a type implements an interface, nullability ignored. -/
def implements (r : TypeRegistry) (t : DataType) (interface : String) : Bool :=
  match t.nonNullable with
  | .int | .long | .double | .decimal =>
    interface = numericInterface || interface = comparableInterface
  | .string | .dateTime | .guid | .boolean => interface = comparableInterface
  | .entity name => (r.lineage name).any fun e => e.interfaces.contains interface
  | _ => false

/-- Whether both types are numeric and the first is not wider than the second. -/
def widensTo (source target : DataType) : Bool :=
  match source.numericRank, target.numericRank with
  | some a, some b => a ≤ b
  | _, _ => false

/-- Whether a value of type `source` may stand where `target` is expected. -/
def isAssignable (r : TypeRegistry) (source target : DataType) : Bool :=
  if source = target || target = .object then true
  else
    match source, target with
    | .null, .nullable _ | .null, .null | .null, .entity _ => true
    | .null, _ => false
    | .nullable a, .nullable b => r.isAssignable a b
    | .nullable _, _ => false
    | a, .nullable b => r.isAssignable a b
    | .array a, .sequence b => a = b
    | .entity a, .entity b => (r.lineage a).any (·.name = b)
    | a, b => widensTo a b

/-- The narrowest type that both values belong to, nullability ignored. -/
def commonAncestor (r : TypeRegistry) (a b : DataType) : DataType :=
  let a := a.nonNullable
  let b := b.nonNullable
  if a = b then a
  else
    match a.numericRank, b.numericRank with
    | some ra, some rb => if rb ≤ ra then a else b
    | _, _ =>
      match a with
      | .entity name =>
        let ancestors := (r.lineage name).map fun e => DataType.entity e.name
        (ancestors.find? (r.isAssignable b)).getD .object
      | _ => .object

/-- The narrowest type of some values, nullable if any of them may be null. Null literals add
    nothing else; `none` when there is no other value. -/
def commonType (r : TypeRegistry) (ts : List DataType) : Option DataType :=
  let known := (ts.filter (· ≠ .null)).foldl (fun (acc : Option DataType) t =>
    match acc with
    | none => some t.nonNullable
    | some current => some (r.commonAncestor current t)) none
  known.map (DataType.nullableIf (ts.any (·.isNullable)))

end TypeRegistry

end SchemaQuery
