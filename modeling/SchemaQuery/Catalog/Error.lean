-- SUMMARY: What a catalog or schema can refuse.

/-!
# Catalog errors
-/

namespace SchemaQuery

inductive CatalogError where
  | tableNotFound (table schema : String)
  | schemaNotFound (name : String)
  | invalidArguments (method reason : String)
deriving DecidableEq, Repr

def CatalogError.message : CatalogError → String
  | .tableNotFound table schema => "Table '" ++ table ++ "' not found in schema '" ++ schema ++ "'"
  | .schemaNotFound name => "Schema '" ++ name ++ "' is not registered"
  | .invalidArguments method reason => "Invalid arguments for '" ++ method ++ "': " ++ reason

end SchemaQuery
