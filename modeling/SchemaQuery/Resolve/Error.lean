-- SUMMARY: Why a query does not resolve.
import SchemaQuery.Catalog.Error
import SchemaQuery.Text.Quoted

/-!
# Resolution errors

Resolution stops at its first error. Errors about unknown names carry the near
misses among the names that would have been valid.
-/

namespace SchemaQuery

/-- The broad classes of errors. -/
inductive ErrorKind where
  | resolution
  | methodResolution
  | setOperator
  | structural
  | schema
deriving DecidableEq, Repr

inductive ResolveError where
  | unknownColumnOrAlias (name : String) (suggestions : List String)
  | unknownProperty (property typeName : String) (suggestions : List String)
  | aliasAlreadyUsed (aliasName : String)
  | tableNotDefined (name : String) (suggestions : List String)
  | unknownSchema (name : String) (suggestions : List String)
  | unknownType (name : String)
  | ambiguousColumn (name : String) (tables : List String)
  | methodNotFound (name : String) (args : List String) (suggestions : List String)
  | aggregateNotAllowed (name clause : String)
  | setOperatorMustHaveKeyColumns (operator : String)
  | setOperatorMustHaveSameQuantityOfColumns (left right : Nat)
  | setOperatorMustHaveSameTypesOfColumns (index : Nat) (left right : String)
  | setOperatorKeyColumnNotFound (key : String) (suggestions : List String)
  | cteColumnCountMismatch (cte : String) (defined returned : Nat)
  | unexpectedSymbolKind (aliasName expected : String)
  | nullFrom
  | fieldLinkIndexOutOfRange (index count : Nat)
  | unsupportedConstruct (what : String)
  | invalidOperandTypes (op left right : String)
  | expectedBoolean (clause found : String)
  | columnMustBeGrouped (column : String)
  | catalog (error : CatalogError)
  | invalidScope (what : String)
deriving DecidableEq, Repr

namespace ResolveError

/-- The sentence that offers suggestions, if there are any. -/
def didYouMean (suggestions : List String) : String :=
  if suggestions.isEmpty then ""
  else ". Did you mean: " ++ ", ".intercalate suggestions ++ "?"

def message : ResolveError → String
  | .unknownColumnOrAlias name s => "Unknown column or alias '" ++ name ++ "'" ++ didYouMean s
  | .unknownProperty property typeName s =>
    "Type '" ++ typeName ++ "' has no property '" ++ property ++ "'" ++ didYouMean s
  | .aliasAlreadyUsed aliasName => "Alias '" ++ aliasName ++ "' is already used"
  | .tableNotDefined name s => "Table '" ++ name ++ "' is not defined" ++ didYouMean s
  | .unknownSchema name s => "Schema '" ++ name ++ "' is not registered" ++ didYouMean s
  | .unknownType name => "Unknown type '" ++ name ++ "'"
  | .ambiguousColumn name tables =>
    "Ambiguous column reference: " ++ name ++ " (found in " ++ Text.quoteList tables ++ ")"
  | .methodNotFound name args s =>
    "Method '" ++ name ++ "(" ++ ", ".intercalate args ++ ")' not found" ++ didYouMean s
  | .aggregateNotAllowed name clause =>
    "Aggregate '" ++ name ++ "' cannot be used in " ++ clause
  | .setOperatorMustHaveKeyColumns operator => operator ++ " must have key columns"
  | .setOperatorMustHaveSameQuantityOfColumns left right =>
    "Set operator operands must have the same quantity of columns: left has " ++ toString left
      ++ ", right has " ++ toString right
  | .setOperatorMustHaveSameTypesOfColumns index left right =>
    "Set operator operands must have the same types of columns: column " ++ toString index
      ++ " is " ++ left ++ " on the left and " ++ right ++ " on the right"
  | .setOperatorKeyColumnNotFound key s =>
    "Key column '" ++ key ++ "' is not a column of the set operator" ++ didYouMean s
  | .cteColumnCountMismatch cte defined returned =>
    "CTE '" ++ cte ++ "' defines " ++ toString defined ++ " columns but query returns "
      ++ toString returned ++ " columns"
  | .unexpectedSymbolKind aliasName expected => "Symbol '" ++ aliasName ++ "' is not a " ++ expected
  | .nullFrom => "Query has no FROM clause"
  | .fieldLinkIndexOutOfRange index count =>
    "Field link ::" ++ toString index ++ " is out of range, GROUP BY has " ++ toString count
      ++ " expressions"
  | .unsupportedConstruct what => "Unsupported construct: " ++ what
  | .invalidOperandTypes op left right =>
    "Operator '" ++ op ++ "' cannot be applied to " ++ left ++ " and " ++ right
  | .expectedBoolean clause found => clause ++ " condition must be boolean, found " ++ found
  | .columnMustBeGrouped column =>
    "Column '" ++ column ++ "' must appear in GROUP BY or be used in an aggregate"
  | .catalog e => e.message
  | .invalidScope what => "Invalid scope reference: " ++ what

def kind : ResolveError → ErrorKind
  | .unknownColumnOrAlias .. | .unknownProperty .. | .aliasAlreadyUsed _ | .tableNotDefined ..
  | .unknownSchema .. | .unknownType _ | .ambiguousColumn .. | .unexpectedSymbolKind .. =>
    .resolution
  | .methodNotFound .. => .methodResolution
  | .setOperatorMustHaveKeyColumns _ | .setOperatorMustHaveSameQuantityOfColumns ..
  | .setOperatorMustHaveSameTypesOfColumns .. | .setOperatorKeyColumnNotFound .. => .setOperator
  | .aggregateNotAllowed .. | .cteColumnCountMismatch .. | .nullFrom
  | .fieldLinkIndexOutOfRange .. | .unsupportedConstruct _ | .invalidOperandTypes ..
  | .expectedBoolean .. | .columnMustBeGrouped _ | .invalidScope _ => .structural
  | .catalog _ => .schema

/-- The near misses an error offers. -/
def suggestions : ResolveError → List String
  | .unknownColumnOrAlias _ s | .unknownProperty _ _ s | .tableNotDefined _ s | .unknownSchema _ s
  | .methodNotFound _ _ s | .setOperatorKeyColumnNotFound _ s => s
  | _ => []

end ResolveError

end SchemaQuery
