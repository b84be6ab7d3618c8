-- SUMMARY: Finite maps and sets keyed by names, kept in the order of the names.

/-!
# Maps and sets of names

A `NameMap` lists its entries by ascending key, and a `NameSet` its members, in
the order of code points. Two maps with the same entries built by insertions are
equal as lists.
-/

namespace SchemaQuery

/-- A finite map from names, by ascending name. -/
abbrev NameMap (α : Type) := List (String × α)

namespace NameMap

/-- The value stored under a name. -/
def get? (name : String) : NameMap α → Option α
  | [] => none
  | (key, value) :: rest => if key = name then some value else get? name rest

/-- The map with a value stored under a name, in place of any earlier one. -/
def insert (name : String) (value : α) : NameMap α → NameMap α
  | [] => [(name, value)]
  | (key, old) :: rest =>
    if name < key then (name, value) :: (key, old) :: rest
    else if name = key then (name, value) :: rest
    else (key, old) :: insert name value rest

def keys (m : NameMap α) : List String := m.map (·.1)

def values (m : NameMap α) : List α := m.map (·.2)

/-- The map of a list of entries; of entries with one name the last counts. -/
def ofList (entries : List (String × α)) : NameMap α :=
  entries.foldl (fun m (name, value) => m.insert name value) []

end NameMap

/-- A finite set of names, in ascending order. -/
abbrev NameSet := List String

namespace NameSet

def insert (name : String) : NameSet → NameSet
  | [] => [name]
  | key :: rest =>
    if name < key then name :: key :: rest
    else if name = key then key :: rest
    else key :: insert name rest

def union (s t : NameSet) : NameSet :=
  t.foldl (fun acc name => NameSet.insert name acc) s

def ofList (names : List String) : NameSet :=
  union [] names

end NameSet

end SchemaQuery
