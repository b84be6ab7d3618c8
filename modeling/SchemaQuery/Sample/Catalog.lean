-- SUMMARY: A sample catalog of people and their orders.
import SchemaQuery.Catalog.Basic

/-!
# A sample catalog

The schema `A` offers people and the schema `B` their orders. A table `recent` is
kept in memory.
-/

namespace SchemaQuery.Sample

def types : TypeRegistry := .ofList [
  ⟨"Person", none, [comparableInterface],
    [⟨"Name", .string⟩, ⟨"Age", .int⟩, ⟨"Address", .entity "Address"⟩]⟩,
  ⟨"Address", none, [], [⟨"City", .string⟩, ⟨"Street", .string⟩]⟩,
  ⟨"Order", none, [], [⟨"Amount", .decimal⟩]⟩]

def peopleMethods : List Method := [
  ((Method.scalar "Describe" (.concrete .string)).injectSource
    (.concrete (.entity "Person"))).describe "Describe the current person",
  (Method.scalar "Tax" (.concrete .decimal)).param "amount" (.concrete .decimal),
  (Method.aggregate "Dominant" (.concrete .string)).param "value" (.concrete .string),
  (Method.setter "Dominant").param "value" (.concrete .string)]

def people : StaticSchema where
  name := "A"
  tables := [
    { name := "entities"
      parameters := []
      columns := [("Name", .string), ("City", .string), ("Country", .string), ("Population", .long),
        ("Money", .decimal), ("Id", .int), ("Self", .entity "Person")]
      rowType := some (.entity "Person") },
    { name := "items"
      parameters := [.int]
      columns := [("Value", .int), ("Label", .string)]
      rowType := none }]
  methods := ⟨Method.builtins ++ peopleMethods⟩
  types := types

def orders : StaticSchema where
  name := "B"
  tables := [
    { name := "orders"
      parameters := []
      columns := [("Id", .int), ("PersonId", .int), ("Amount", .decimal),
        ("IsPaid", .nullable .boolean)]
      rowType := some (.entity "Order") }]
  methods := .builtin
  types := types

def catalog : Catalog :=
  (({ Catalog.empty with types := types }.register people.toSchema).register
    orders.toSchema).withMemoryTable "recent" [⟨"Name", 0, .string⟩, ⟨"Seen", 1, .dateTime⟩]

end SchemaQuery.Sample
