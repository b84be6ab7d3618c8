-- SUMMARY: Schemas: tables with parameters, columns and row types, and the methods they offer.
import SchemaQuery.Column
import SchemaQuery.Method.Builtin
import SchemaQuery.Catalog.Error
import SchemaQuery.Catalog.Request

/-!
# Schemas

A schema offers tables and methods under one name. It describes a table for each
use of it, and chooses the method for a call. Most schemas list their tables: a
table is asked for by its name, letter case ignored, with arguments that must fit
its parameters.
-/

namespace SchemaQuery

/-- What a schema answers with. The setter that it chooses for an aggregate is named after the
    aggregate. -/
structure Schema where
  name : String
  /-- The columns of a table, for one use of it with some arguments. -/
  columnsOf : String → TableContext → List Argument → Except CatalogError (List Column)
  /-- The type of the rows of a table. -/
  rowType : String → DataType := fun _ => .object
  /-- The tables that can be suggested. -/
  tableNames : List String := []
  methods : MethodRegistry
  /-- The method for a call with the current row injected. -/
  resolveMethod : String → List DataType → Option DataType → TypeRegistry →
    Option ResolvedMethod := methods.resolveMethod
  /-- The method for a call that passes the row itself. -/
  resolveRaw : String → List DataType → TypeRegistry → Option ResolvedMethod := methods.resolveRaw
  resolveAggregate : String → List DataType → TypeRegistry → Option ResolvedAggregate :=
    methods.resolveAggregate
  setter_named : ∀ aggregate args types r, resolveAggregate aggregate args types = some r →
    Text.eqIgnoreAsciiCase r.setter.name (setterName r.method.name) = true

-- ---------------------------------------------------------------------------
-- Listed tables
-- ---------------------------------------------------------------------------

structure TableDef where
  name : String
  parameters : List DataType
  columns : List (String × DataType)
  rowType : Option DataType
deriving DecidableEq, Repr

/-- A schema that lists its tables and methods. -/
structure StaticSchema where
  name : String
  tables : List TableDef
  methods : MethodRegistry
  /-- The entity types that arguments are checked with. -/
  types : TypeRegistry
deriving DecidableEq, Repr

namespace StaticSchema

/-- A schema of tables with the builtin methods. -/
def ofTables (name : String) (tables : List TableDef) : StaticSchema :=
  ⟨name, tables, .builtin, .empty⟩

def table? (s : StaticSchema) (name : String) : Option TableDef :=
  s.tables.find? fun t => Text.eqIgnoreAsciiCase t.name name

/-- The first argument that does not fit its parameter, counted from `position`. -/
def firstMisfit? (types : TypeRegistry) (position : Nat) :
    List (DataType × DataType) → Option String
  | [] => none
  | (expected, actual) :: rest =>
    if types.isAssignable actual expected then firstMisfit? types (position + 1) rest
    else some ("argument " ++ toString position ++ " is " ++ actual.render ++ ", expected "
      ++ expected.render)

/-- Why the arguments do not fit a table, if they do not. -/
def misfit? (s : StaticSchema) (t : TableDef) (args : List Argument) : Option String :=
  if t.parameters.length ≠ args.length then
    some ("expected " ++ toString t.parameters.length ++ " argument(s), got "
      ++ toString args.length)
  else firstMisfit? s.types 1 (t.parameters.zip (args.map (·.type)))

/-- The columns of a table for given arguments. -/
def columnsOf (s : StaticSchema) (table : String) (args : List Argument) :
    Except CatalogError (List Column) :=
  match s.table? table with
  | none => .error (.tableNotFound table s.name)
  | some t =>
    match s.misfit? t args with
    | some reason => .error (.invalidArguments t.name reason)
    | none => .ok (Column.number t.columns)

/-- The type of the rows of a table; `object` when nothing else is declared. -/
def rowType (s : StaticSchema) (table : String) : DataType :=
  ((s.table? table).bind (·.rowType)).getD .object

/-- Every use of a table is described alike. -/
def toSchema (s : StaticSchema) : Schema where
  name := s.name
  columnsOf table _ args := s.columnsOf table args
  rowType := s.rowType
  tableNames := s.tables.map (·.name)
  methods := s.methods
  resolveAggregate := s.methods.resolveAggregate
  setter_named _ _ _ _ := MethodRegistry.resolveAggregate_setter

end StaticSchema

end SchemaQuery
