-- SUMMARY: Errors as JSON.
import SchemaQuery.Compiler
import SchemaQuery.Json.Basic

/-!
# Errors as JSON

An error is an object with its tag under `error`, its text under `message` and
what else belongs to its kind.
-/

namespace SchemaQuery

namespace CatalogError

def tag : CatalogError → String
  | .tableNotFound .. => "TableNotFound"
  | .schemaNotFound _ => "SchemaNotFound"
  | .invalidArguments .. => "InvalidArguments"

def detail : CatalogError → Json
  | .tableNotFound table schema => .strings [table, schema]
  | .schemaNotFound name => .str name
  | .invalidArguments method reason => .ofTexts [("method", method), ("reason", reason)]

def toJson (e : CatalogError) : Json :=
  .obj [("error", .str ("Catalog." ++ e.tag)), ("message", .str e.message),
    ("detail", .tagged e.tag e.detail)]

end CatalogError

def ErrorKind.toJson : ErrorKind → Json
  | .resolution => .str "Resolution"
  | .methodResolution => .str "MethodResolution"
  | .setOperator => .str "SetOperator"
  | .structural => .str "Structural"
  | .schema => .str "Schema"

namespace ResolveError

def tag : ResolveError → String
  | .unknownColumnOrAlias .. => "UnknownColumnOrAlias"
  | .unknownProperty .. => "UnknownProperty"
  | .aliasAlreadyUsed _ => "AliasAlreadyUsed"
  | .tableNotDefined .. => "TableNotDefined"
  | .unknownSchema .. => "UnknownSchema"
  | .unknownType _ => "UnknownType"
  | .ambiguousColumn .. => "AmbiguousColumn"
  | .methodNotFound .. => "MethodNotFound"
  | .aggregateNotAllowed .. => "AggregateNotAllowed"
  | .setOperatorMustHaveKeyColumns _ => "SetOperatorMustHaveKeyColumns"
  | .setOperatorMustHaveSameQuantityOfColumns .. => "SetOperatorMustHaveSameQuantityOfColumns"
  | .setOperatorMustHaveSameTypesOfColumns .. => "SetOperatorMustHaveSameTypesOfColumns"
  | .setOperatorKeyColumnNotFound .. => "SetOperatorKeyColumnNotFound"
  | .cteColumnCountMismatch .. => "CteColumnCountMismatch"
  | .unexpectedSymbolKind .. => "UnexpectedSymbolKind"
  | .nullFrom => "NullFrom"
  | .fieldLinkIndexOutOfRange .. => "FieldLinkIndexOutOfRange"
  | .unsupportedConstruct _ => "UnsupportedConstruct"
  | .invalidOperandTypes .. => "InvalidOperandTypes"
  | .expectedBoolean .. => "ExpectedBoolean"
  | .columnMustBeGrouped _ => "ColumnMustBeGrouped"
  | .catalog e => "Catalog." ++ e.tag
  | .invalidScope _ => "InvalidScope"

def members (e : ResolveError) : List (String × Json) :=
  [("error", .str e.tag), ("kind", e.kind.toJson), ("message", .str e.message),
    ("suggestions", .strings e.suggestions)]

def toJson (e : ResolveError) : Json := .obj e.members

end ResolveError

namespace PlanError

def tag : PlanError → String
  | .symbol _ => "Symbol"
  | .detachedColumn .. => "DetachedColumn"
  | .unsupportedConstruct _ => "UnsupportedConstruct"
  | .recursionLimitExceeded .. => "RecursionLimitExceeded"

def detail : PlanError → Json
  | .symbol text => .str text
  | .detachedColumn aliasName column => .ofTexts [("alias", aliasName), ("column", column)]
  | .unsupportedConstruct text => .str text
  | .recursionLimitExceeded context depth limit =>
    .obj [("context", .str context), ("depth", .ofNat depth), ("limit", .ofNat limit)]

def members (e : PlanError) : List (String × Json) :=
  [("error", .str ("Lowering." ++ e.tag)), ("message", .str e.message),
    ("detail", .tagged e.tag e.detail)]

def toJson (e : PlanError) : Json := .obj e.members

end PlanError

namespace ConfigError

def members : ConfigError → List (String × Json)
  | .json => [("error", .str "Config.Json")]
  | .yaml => [("error", .str "Config.Yaml")]
  | .invalid field reason =>
    [("error", .str "Config.Invalid"), ("field", .str field),
      ("message", .str (invalidMessage field reason))]
  | .logFilter filter => [("error", .str "Config.LogFilter"), ("filter", .str filter)]

def toJson (e : ConfigError) : Json := .obj e.members

end ConfigError

/-- The members of an error of compilation; all have a kind, which may be `null`. -/
def CompileError.members : CompileError → List (String × Json)
  | .config e => ("kind", .null) :: e.members
  | .resolve e => e.members
  | .plan e => ("kind", .null) :: e.members

end SchemaQuery
