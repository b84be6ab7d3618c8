-- SUMMARY: Bound queries: the result of resolution and the input of planning.
import SchemaQuery.Column
import SchemaQuery.Query.Basic
import SchemaQuery.Bound.Term

/-!
# Bound queries

A bound query has the structure of the query it comes from, with terms for
expressions and a scope for every block. The columns of its result are given by
`output`, in the order of the fields.
-/

namespace SchemaQuery

/-- An update of an accumulator, made for every row of a group. -/
structure RefreshCall where
  setter : String
  schema : Option String
  accumulator : String
  args : List Term

def RefreshCall.render (c : RefreshCall) : String :=
  c.setter ++ "('" ++ c.accumulator ++ "'"
    ++ String.join (c.args.map fun a => ", " ++ a.render) ++ ")"

structure Field where
  name : String
  term : Term

structure SortKey where
  term : Term
  direction : Direction

/-- Where a table kept in memory comes from. -/
inductive MemoryOrigin where
  | cte
  | host
deriving DecidableEq, Repr

/-- How a select block groups its rows. -/
inductive Grouping where
  | none
  /-- By written keys. -/
  | explicit
  /-- Into one group, because of aggregates without keys. -/
  | implicit
  /-- By all fields. -/
  | distinct
deriving DecidableEq, Repr

mutual

structure BoundQuery where
  scope : Nat
  ctes : List BoundCte
  body : BoundBody
  orderBy : List SortKey
  skip : Option Nat
  take : Option Nat
  output : List Column

structure BoundCte where
  name : String
  query : BoundQuery

inductive BoundBody where
  | select (select : BoundSelect)
  | setOperation (operator : SetOperator) (keys : List String) (left right : BoundQuery)

structure BoundSelect where
  scope : Nat
  source : BoundSource
  filter : Option Term
  groupBy : List Term
  grouping : Grouping
  having : Option Term
  fields : List Field

inductive BoundSource where
  | schema (aliasName schema method : String) (args : List Term) (columns : List Column)
      (rowType : DataType)
  | inMemory (aliasName table : String) (origin : MemoryOrigin) (columns : List Column)
  | subquery (aliasName : String) (query : BoundQuery) (columns : List Column)
  | join (aliasName : String) (kind : JoinKind) (left right : BoundSource) (condition : Term)
  | apply (aliasName : String) (kind : ApplyKind) (left right : BoundSource)

end

def BoundSelect.isGrouped (s : BoundSelect) : Bool := s.grouping ≠ .none

namespace BoundSource

/-- The alias of the symbol bound for a source. -/
def aliasName : BoundSource → String
  | .schema a _ _ _ _ _ | .inMemory a _ _ _ | .subquery a _ _ | .join a _ _ _ _ | .apply a _ _ _ =>
    a

/-- The aliases of the sources that are no join or apply, in the order of declaration. -/
def leafAliases : BoundSource → List String
  | .join _ _ left right _ | .apply _ _ left right => left.leafAliases ++ right.leafAliases
  | .schema a _ _ _ _ _ | .inMemory a _ _ _ | .subquery a _ _ => [a]

/-- The arguments of all schema tables in a source. -/
def arguments : BoundSource → List Term
  | .schema _ _ _ args _ _ => args
  | .join _ _ left right _ | .apply _ _ left right => left.arguments ++ right.arguments
  | .inMemory .. | .subquery .. => []

end BoundSource

-- ---------------------------------------------------------------------------
-- Renaming the output
-- ---------------------------------------------------------------------------

/-- Replaces names one by one until one of the two lists ends. -/
def renameColumns : List Column → List String → List Column
  | c :: cs, n :: ns => { c with name := n } :: renameColumns cs ns
  | cs, _ => cs

def renameFields : List Field → List String → List Field
  | f :: fs, n :: ns => { f with name := n } :: renameFields fs ns
  | fs, _ => fs

/-- A sort by a field of the output follows the new name of the field. -/
def SortKey.renameOutput (k : SortKey) (names : List String) : SortKey :=
  match k.term with
  | .outputField _ index t =>
    match names[index]? with
    | some n => { k with term := .outputField n index t }
    | none => k
  | _ => k

/-- The new name of a key column: that of the first output column it named. -/
def renameKey (output : List Column) (names : List String) (key : String) : String :=
  match ((output.map (·.name)).zip names).find? (·.1 = key) with
  | some (_, n) => n
  | none => key

mutual

/-- Renames the columns of the output by position, in all operands of set operators too. -/
def BoundQuery.renameOutput (names : List String) : BoundQuery → BoundQuery
  | ⟨scope, ctes, body, orderBy, skip, take, output⟩ =>
    ⟨scope, ctes, body.renameOutput names output, orderBy.map (·.renameOutput names), skip, take,
      renameColumns output names⟩

def BoundBody.renameOutput (names : List String) (output : List Column) : BoundBody → BoundBody
  | .select s => .select { s with fields := renameFields s.fields names }
  | .setOperation operator keys left right =>
    .setOperation operator (keys.map (renameKey output names)) (left.renameOutput names)
      (right.renameOutput names)

end

end SchemaQuery
