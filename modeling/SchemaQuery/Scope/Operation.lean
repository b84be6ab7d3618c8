-- SUMMARY: The operations on scopes, performed one after the other on the scopes at hand.
import SchemaQuery.Scope.Basic

/-!
# Operations on scopes

Everything that changes scopes is one of a few operations. Each is performed on
the scopes that the operations before it have left, and answers or fails.
-/

namespace SchemaQuery

/-- What can be done to scopes. -/
inductive ScopeOperation where
  | enter (kind : ScopeKind) (name : String)
  | leave
  | create (kind : ScopeKind) (name : String) (parent : Option Nat)
  | add (id : Nat) (aliasName : String) (symbol : Symbol)
  | update (aliasName : String) (id : Nat) (symbol : Symbol)
  | modifyTable (aliasName : String) (id : Nat) (f : TableSymbol → TableSymbol)
  | modifyRefresh (aliasName : String) (id : Nat) (f : List RefreshCall → List RefreshCall)
  | move (id : Nat) (source target : String)
  | setAttribute (id : Nat) (key value : String)

namespace ScopeOperation

/-- Performs an operation. It answers with the scope that it opens or comes back to, if there is
    one. -/
def run : ScopeOperation → ScopeStep (Option Nat)
  | .enter kind name => return some (← ScopeStep.enter kind name)
  | .leave => ScopeStep.leave
  | .create kind name parent => return some (← ScopeStep.create kind name parent)
  | .add id aliasName symbol => do
    ScopeStep.add id aliasName symbol
    return none
  | .update aliasName id symbol => do
    ScopeStep.update aliasName id symbol
    return none
  | .modifyTable aliasName id f => do
    ScopeStep.modify .table aliasName id f
    return none
  | .modifyRefresh aliasName id f => do
    ScopeStep.modify .refresh aliasName id f
    return none
  | .move id source target => do
    ScopeStep.move id source target
    return none
  | .setAttribute id key value => do
    ScopeStep.setAttribute id key value
    return none

/-- The scopes after an operation, whether it succeeds or fails. -/
def after (op : ScopeOperation) (s : Scopes) : Scopes :=
  match op.run s with
  | .ok _ s' | .error _ s' => s'

end ScopeOperation

/-- The scopes after some operations, one after the other. -/
def Scopes.afterAll (s : Scopes) (ops : List ScopeOperation) : Scopes :=
  ops.foldl (fun s op => op.after s) s

end SchemaQuery
