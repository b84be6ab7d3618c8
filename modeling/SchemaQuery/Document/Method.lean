-- SUMMARY: Shapes, methods and the outcome of method resolution as JSON.
import SchemaQuery.Document.Type
import SchemaQuery.Method.Registry

/-!
# Methods as JSON
-/

namespace SchemaQuery

namespace Shape

def toJson : Shape → Json
  | .concrete t => .tagged "Concrete" t.toJson
  | .generic p => .tagged "Generic" (.str p)
  | .constrained p i => .tagged "Constrained" (.ofTexts [("param", p), ("interface", i)])
  | .arrayOf s => .tagged "ArrayOf" s.toJson
  | .sequenceOf s => .tagged "SequenceOf" s.toJson
  | .implements i => .tagged "Implements" (.str i)
  | .any => .str "Any"

def ofJson? (j : Json) : Option Shape :=
  match j.variant? with
  | none => none
  | some (tag, none) => if tag = "Any" then some .any else none
  | some (tag, some ⟨v, _h⟩) =>
    match tag with
    | "Concrete" => (DataType.ofJson? v).map .concrete
    | "Generic" => v.str?.map .generic
    | "Constrained" => do
      return .constrained (← v.field? "param" Json.str?) (← v.field? "interface" Json.str?)
    | "ArrayOf" => (ofJson? v).map .arrayOf
    | "SequenceOf" => (ofJson? v).map .sequenceOf
    | "Implements" => v.str?.map .implements
    | _ => none
termination_by sizeOf j

end Shape

def Bindings.toJson (b : Bindings) : Json :=
  .obj (b.map fun (param, type) => (param, type.toJson))

namespace ParamRole

def toJson : ParamRole → Json
  | .ordinary => .str "Ordinary"
  | .injectSource => .str "InjectSource"
  | .injectGroup => .str "InjectGroup"
  | .injectQueryStats => .str "InjectQueryStats"
  | .accumulatorName => .str "AccumulatorName"

def ofJson? (j : Json) : Option ParamRole :=
  j.choice? [("Ordinary", .ordinary), ("InjectSource", .injectSource),
    ("InjectGroup", .injectGroup), ("InjectQueryStats", .injectQueryStats),
    ("AccumulatorName", .accumulatorName)]

end ParamRole

namespace MethodKind

def toJson : MethodKind → Json
  | .scalar => .str "Scalar"
  | .aggregate => .str "Aggregate"
  | .aggregateSetter => .str "AggregateSetter"

def ofJson? (j : Json) : Option MethodKind :=
  j.choice? [("Scalar", .scalar), ("Aggregate", .aggregate), ("AggregateSetter", .aggregateSetter)]

end MethodKind

namespace Parameter

def toJson (p : Parameter) : Json :=
  .obj [("name", .str p.name), ("role", p.role.toJson), ("shape", p.shape.toJson)]

def ofJson? (j : Json) : Option Parameter := do
  return {
    name := ← j.field? "name" Json.str?
    role := ← j.field? "role" ParamRole.ofJson?
    shape := ← j.field? "shape" Shape.ofJson? }

end Parameter

namespace Method

def toJson (m : Method) : Json :=
  .obj [("name", .str m.name), ("kind", m.kind.toJson),
    ("params", .ofList Parameter.toJson m.params), ("returns", m.returns.toJson),
    ("description", .ofOption .str m.description)]

def ofJson? (j : Json) : Option Method := do
  return {
    name := ← j.field? "name" Json.str?
    kind := ← j.field? "kind" MethodKind.ofJson?
    params := ← j.field? "params" (Json.list? Parameter.ofJson?)
    returns := ← j.field? "returns" Shape.ofJson?
    description := ← j.optField? "description" Json.str? }

end Method

def ResolvedMethod.toJson (m : ResolvedMethod) : Json :=
  .obj [("name", .str m.name), ("kind", m.kind.toJson), ("roles", .ofList ParamRole.toJson m.roles),
    ("param_types", .ofList DataType.toJson m.paramTypes), ("return_type", m.returnType.toJson),
    ("bindings", Bindings.toJson m.bindings), ("signature", .str m.signature)]

def ResolvedAggregate.toJson (a : ResolvedAggregate) : Json :=
  .obj [("method", a.method.toJson), ("setter", a.setter.toJson)]

end SchemaQuery
