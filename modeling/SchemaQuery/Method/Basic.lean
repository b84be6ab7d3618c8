-- SUMMARY: Methods, their parameters and their signatures.
import SchemaQuery.Method.Shape

/-!
# Methods

A method has parameters in several roles. The ordinary ones are written by the
caller; the others are supplied: the current row, the current group, statistics
of the query, or the name of an accumulator. An aggregate reads an accumulator
and is paired with a setter that updates it.
-/

namespace SchemaQuery

inductive MethodKind where
  | scalar
  | aggregate
  | aggregateSetter
deriving DecidableEq, Repr, Inhabited

inductive ParamRole where
  | ordinary
  | injectSource
  | injectGroup
  | injectQueryStats
  | accumulatorName
deriving DecidableEq, Repr, Inhabited

structure Parameter where
  name : String
  role : ParamRole
  shape : Shape
deriving DecidableEq, Repr

structure Method where
  name : String
  kind : MethodKind
  params : List Parameter
  returns : Shape
  description : Option String
deriving DecidableEq, Repr

/-- The name of the setter of an aggregate. -/
def setterName (aggregate : String) : String := "Set" ++ aggregate

namespace Method

def addParam (m : Method) (name : String) (role : ParamRole) (shape : Shape) : Method :=
  { m with params := m.params ++ [⟨name, role, shape⟩] }

def param (m : Method) (name : String) (shape : Shape) : Method := m.addParam name .ordinary shape

def injectSource (m : Method) (shape : Shape) : Method := m.addParam "source" .injectSource shape

def injectGroup (m : Method) : Method := m.addParam "group" .injectGroup .any

def injectStats (m : Method) : Method := m.addParam "stats" .injectQueryStats .any

def describe (m : Method) (text : String) : Method := { m with description := some text }

def scalar (name : String) (returns : Shape) : Method := ⟨name, .scalar, [], returns, none⟩

/-- An aggregate takes the group and the name of its accumulator before anything else. -/
def aggregate (name : String) (returns : Shape) : Method :=
  (Method.injectGroup ⟨name, .aggregate, [], returns, none⟩).addParam "name" .accumulatorName .any

/-- The setter of an aggregate of the given name. -/
def setter (name : String) : Method :=
  (Method.injectGroup ⟨setterName name, .aggregateSetter, [], .any, none⟩).addParam
    "name" .accumulatorName .any

/-- The parameters a caller writes. -/
def ordinaryParams (m : Method) : List Parameter := m.params.filter (·.role = .ordinary)

/-- The parameter that takes the current row. -/
def sourceParam? (m : Method) : Option Parameter := m.params.find? (·.role = .injectSource)

def signature (m : Method) : String :=
  let params := m.ordinaryParams.map fun p => p.name ++ ": " ++ p.shape.render
  m.name ++ "(" ++ ", ".intercalate params ++ ") -> " ++ m.returns.render

end Method

end SchemaQuery
