-- SUMMARY: JSON values and the access to their parts.

/-!
# JSON values

Numbers written without point and exponent that fit 64 bits are integers, all
others doubles. An object keeps its members as written, repeated names included;
of repeated members the last one counts.

The parts of a value come with the fact that they are smaller than the value, so
a reader of nested data recurses on them directly.
-/

namespace SchemaQuery

inductive Json where
  | null
  | bool (value : Bool)
  | int (value : Int)
  | float (value : Float)
  | str (value : String)
  | arr (items : List Json)
  | obj (members : List (String × Json))
deriving Inhabited

namespace Json

/-- A part of `j`. -/
abbrev Part (j : Json) := { v : Json // sizeOf v < sizeOf j }

-- ---------------------------------------------------------------------------
-- Scalars
-- ---------------------------------------------------------------------------

def bool? : Json → Option Bool
  | .bool b => some b
  | _ => none

def str? : Json → Option String
  | .str s => some s
  | _ => none

/-- An unsigned 64-bit integer. -/
def nat? : Json → Option Nat
  | .int i => if 0 ≤ i && i < 18446744073709551616 then some i.toNat else none
  | _ => none

/-- A signed 64-bit integer. -/
def int64? : Json → Option Int
  | .int i => if -9223372036854775808 ≤ i && i < 9223372036854775808 then some i else none
  | _ => none

/-- Any number, as the nearest double. -/
def float? : Json → Option Float
  | .int i => some (if i < 0 then -Float.ofNat i.natAbs else Float.ofNat i.natAbs)
  | .float x => some x
  | _ => none

-- ---------------------------------------------------------------------------
-- Parts
-- ---------------------------------------------------------------------------

/-- The last member of a name. -/
def lastMember (name : String) :
    (members : List (String × Json)) → Option { v : Json // sizeOf v < sizeOf members }
  | [] => none
  | (key, value) :: rest =>
    match lastMember name rest with
    | some ⟨v, h⟩ => some ⟨v, by simp only [List.cons.sizeOf_spec]; omega⟩
    | none =>
      if key = name then
        some ⟨value, by simp only [List.cons.sizeOf_spec, Prod.mk.sizeOf_spec]; omega⟩
      else none

/-- A member of an object; `none` also when the member is absent or the value is no object. -/
def part? (j : Json) (name : String) : Option (Part j) :=
  match j with
  | .obj members =>
    (lastMember name members).map fun ⟨v, h⟩ => ⟨v, by simp only [obj.sizeOf_spec]; omega⟩
  | _ => none

/-- A member of an object, absence and the value `null` being the same. -/
def optPart? (j : Json) (name : String) : Option (Part j) :=
  match j.part? name with
  | some ⟨.null, _⟩ => none
  | p => p

/-- The items of an array. -/
def items? (j : Json) : Option (List (Part j)) :=
  match j with
  | .arr items =>
    some (items.attach.map fun ⟨v, h⟩ =>
      ⟨v, by have := List.sizeOf_lt_of_mem h; simp only [arr.sizeOf_spec]; omega⟩)
  | _ => none

/-- The members of an object. -/
def members? : Json → Option (List (String × Json))
  | .obj members => some members
  | _ => none

/-- A tagged value: the bare tag, or an object with the tag as its one member. -/
def variant? (j : Json) : Option (String × Option (Part j)) :=
  match j with
  | .str tag => some (tag, none)
  | .obj [(tag, .null)] => some (tag, none)
  | .obj [(tag, value)] =>
    some (tag, some ⟨value, by
      simp only [obj.sizeOf_spec, List.cons.sizeOf_spec, Prod.mk.sizeOf_spec]; omega⟩)
  | _ => none

/-- A member that must be present, read by `f`. -/
def field? (j : Json) (name : String) (f : Json → Option α) : Option α :=
  j.part? name >>= fun v => f v.1

/-- A member that may be absent or `null`, read by `f` otherwise. -/
def optField? (j : Json) (name : String) (f : Json → Option α) : Option (Option α) :=
  match j.optPart? name with
  | none => some none
  | some v => (f v.1).map some

/-- The items of an array, each read by `f` as a part of the array. -/
def itemParts? (j : Json) (f : Part j → Option α) : Option (List α) := do
  (← j.items?).mapM f

/-- The items of a member that is an array, each read by `f` as a part of the object. -/
def memberItems? (j : Json) (name : String) (f : Part j → Option α) : Option (List α) := do
  let ⟨v, h⟩ ← j.part? name
  (← v.items?).mapM fun ⟨w, h'⟩ => f ⟨w, Nat.lt_trans h' h⟩

/-- A member that must be present, read by `f` as a part of the object. -/
def member? (j : Json) (name : String) (f : Part j → Option α) : Option α := j.part? name >>= f

/-- A member that may be absent or `null`, read by `f` otherwise. -/
def optMember? (j : Json) (name : String) (f : Part j → Option α) : Option (Option α) :=
  match j.optPart? name with
  | none => some none
  | some v => (f v).map some

/-- A bare tag out of a list of tags with their values. -/
def choice? (options : List (String × α)) (j : Json) : Option α :=
  match j.variant? with
  | some (tag, none) => options.lookup tag
  | _ => none

/-- An array with every item read by `f`. -/
def list? (f : Json → Option α) : Json → Option (List α)
  | .arr items => items.mapM f
  | _ => none

/-- A pair written as an array of two. -/
def pair? {α β : Type} (f : Json → Option α) (g : Json → Option β) : Json → Option (α × β)
  | .arr [a, b] => do return (← f a, ← g b)
  | _ => none

/-- An object read as a list of names with values. -/
def entries? (f : Json → Option α) : Json → Option (List (String × α))
  | .obj members => members.mapM fun (name, value) => (f value).map (name, ·)
  | _ => none

-- ---------------------------------------------------------------------------
-- Construction
-- ---------------------------------------------------------------------------

/-- The encoded value, or `null` for none. -/
def ofOption (f : α → Json) : Option α → Json
  | none => .null
  | some a => f a

def ofList (f : α → Json) (items : List α) : Json := .arr (items.map f)

def ofNat (n : Nat) : Json := .int n

def strings (items : List String) : Json := ofList .str items

/-- An object with strings for its members. -/
def ofTexts (entries : List (String × String)) : Json :=
  .obj (entries.map fun (name, text) => (name, .str text))

/-- An object with one member. -/
def tagged (tag : String) (value : Json) : Json := .obj [(tag, value)]

end Json

end SchemaQuery
