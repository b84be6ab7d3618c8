-- SUMMARY: Why a bound query has no plan.

/-!
# Errors of planning

A bound query comes from resolution, so an error of planning mostly says that
the query and the scopes do not belong together.
-/

namespace SchemaQuery

inductive PlanError where
  /-- A lookup in the scopes failed. -/
  | symbol (text : String)
  /-- A column belongs to no source at hand. -/
  | detachedColumn (aliasName column : String)
  | unsupportedConstruct (text : String)
  /-- Queries are nested too deeply. -/
  | recursionLimitExceeded (context : String) (depth limit : Nat)
deriving DecidableEq, Repr

def PlanError.message : PlanError → String
  | .symbol text => "Symbol table error: " ++ text
  | .detachedColumn aliasName column =>
    "Column '" ++ column ++ "' references alias '" ++ aliasName ++ "' outside the FROM clause"
  | .unsupportedConstruct text => "Unsupported construct: " ++ text
  | .recursionLimitExceeded context depth limit =>
    "Recursion limit exceeded: " ++ context ++ " (depth: " ++ toString depth ++ ", limit: "
      ++ toString limit ++ ")"

end SchemaQuery
