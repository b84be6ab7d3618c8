-- SUMMARY: Resolution of expressions.
import SchemaQuery.DataType.Parser
import SchemaQuery.Resolve.Call
import SchemaQuery.Resolve.Name
import SchemaQuery.Resolve.Typing

/-!
# Expressions

Expressions are bound from left to right, parts before the whole. The branches
of a `case` are bound in pairs: each condition right before its result.
-/

namespace SchemaQuery.Resolve

/-- A branch of a `case` from the steps that bind its condition and its result. -/
def bindBranch (ctx : Context) (condition result : Context → Resolver Term) :
    Resolver (Term × Term) := do
  let c ← condition ctx
  let c ← ofExcept (predicateTerm "CASE WHEN" c)
  return (c, ← result ctx)

def bindCase (env : Env) (branches : List ((Context → Resolver Term) × (Context → Resolver Term)))
    (otherwise : Option (Context → Resolver Term)) (ctx : Context) : Resolver Term := do
  let branches ← branches.mapM fun (c, r) => bindBranch ctx c r
  let otherwise ← otherwise.mapM fun e => e ctx
  return .case branches otherwise (caseType env.catalog.types branches otherwise)

/-- A cast of a bound operand; a nullable operand gives a nullable result. -/
def castTerm (operand : Term) (typeName : String) : Except ResolveError Term :=
  match DataType.parse typeName with
  | .ok target => .ok (.cast operand target (target.nullableIf operand.type.isNullable))
  | .error _ => .error (.unknownType typeName)

/-- The grouping key that a field link points to, counted from one. -/
def fieldLinkTerm (groupBy : List Term) (index : Nat) : Except ResolveError Term :=
  if groupBy.isEmpty then
    .error (.unsupportedConstruct
      ("field link ::" ++ toString index ++ " outside a grouped query"))
  else
    let key := if index = 0 then none else groupBy[index - 1]?
    match key with
    | some t => .ok t
    | none => .error (.fieldLinkIndexOutOfRange index groupBy.length)

mutual

/-- The step that binds an expression in a context. -/
def bindExpr (env : Env) : Expr → Context → Resolver Term
  | .literal v => fun _ => return .literal v v.type
  | .identifier name => fun ctx => readScopes fun scopes => bindIdentifier env scopes ctx name
  | .column table name => fun ctx => readScopes fun scopes => bindColumn env scopes ctx table name
  | .property base name => fun ctx => do
    ofExcept (bindProperty env (← bindExpr env base ctx) name)
  | .binary op left right => fun ctx => do
    let left ← bindExpr env left ctx
    let right ← bindExpr env right ctx
    ofExcept (binaryTerm env.catalog.types op left right)
  | .unary op operand => fun ctx => do
    ofExcept (unaryTerm op (← bindExpr env operand ctx))
  | .call qualifier name args => bindCall env qualifier name (bindAll env args)
  | .case conditions results none =>
    bindCase env ((bindAll env conditions).zip (bindAll env results)) none
  | .case conditions results (some e) =>
    bindCase env ((bindAll env conditions).zip (bindAll env results)) (some (bindExpr env e))
  | .cast operand typeName => fun ctx => do
    ofExcept (castTerm (← bindExpr env operand ctx) typeName)
  | .paren inner => bindExpr env inner
  | .list items => fun ctx => do
    let items ← (bindAll env items).mapM fun bind => bind ctx
    return .list items (listType env.catalog.types items)
  | .fieldLink index => fun ctx => ofExcept (fieldLinkTerm ctx.groupBy index)

/-- The steps that bind some expressions, one by one. -/
def bindAll (env : Env) : List Expr → List (Context → Resolver Term)
  | [] => []
  | e :: es => bindExpr env e :: bindAll env es

end

/-- Binds a condition of the clause of the context. -/
def bindPredicate (env : Env) (e : Expr) (ctx : Context) : Resolver Term := do
  ofExcept (predicateTerm ctx.clause.render (← bindExpr env e ctx))

end SchemaQuery.Resolve
