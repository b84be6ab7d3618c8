-- SUMMARY: The tree of scopes: opening and closing, binding, lookup and attributes.
import SchemaQuery.NameMap
import SchemaQuery.Scope.Symbol
import SchemaQuery.Resolve.Error

/-!
# Scopes

Scopes form a tree: each knows its parent by number. A lookup walks from a scope
outward and takes the nearest binding; an alias may be bound in a scope only if
it is free in the whole chain seen from there. A cursor marks the scope being
worked on.

Scopes are changed by steps that check and write one thing after the other.
-/

namespace SchemaQuery

inductive ScopeKind where
  | query
  | cte
  | setOperator
  | subquery
deriving DecidableEq, Repr

structure Scope where
  id : Nat
  parent : Option Nat
  kind : ScopeKind
  name : String
  attributes : NameMap String
  /-- The bindings, in the order they were made. -/
  symbols : List (String × Symbol)

namespace Scope

/-- The symbol of an alias in this scope alone. -/
def find? (s : Scope) (aliasName : String) : Option Symbol :=
  (s.symbols.find? (·.1 = aliasName)).map (·.2)

def binds (s : Scope) (aliasName : String) : Bool := (s.find? aliasName).isSome

def aliases (s : Scope) : List String := s.symbols.map (·.1)

/-- The place of an alias among the bindings. -/
def place? (s : Scope) (aliasName : String) : Option Nat :=
  s.symbols.findIdx? (·.1 = aliasName)

end Scope

/-- All scopes in the order of their creation, and the one being worked on. -/
structure Scopes where
  all : List Scope
  current : Option Nat

namespace Scopes

def empty : Scopes := ⟨[], none⟩

def unknownScope (id : Nat) : ResolveError := .invalidScope ("scope " ++ toString id)

def scope (s : Scopes) (id : Nat) : Except ResolveError Scope :=
  match s.all[id]? with
  | some sc => .ok sc
  | none => .error (unknownScope id)

/-- The current scope, or the reason why there must be one. -/
def currentOr (s : Scopes) (reason : String) : Except ResolveError Nat :=
  match s.current with
  | some id => .ok id
  | none => .error (.invalidScope reason)

def requireCurrent (s : Scopes) : Except ResolveError Nat := s.currentOr "no open scope"

-- ---------------------------------------------------------------------------
-- Lookup
-- ---------------------------------------------------------------------------

/-- Walks from a scope outward for at most `steps` scopes. A longer walk has no answer yet. -/
def walk (s : Scopes) : Nat → Nat → Option (Except ResolveError (List Nat))
  | 0, _ => none
  | steps + 1, id => do
    match s.scope id with
    | .error e => return .error e
    | .ok sc =>
      match sc.parent with
      | none => return .ok [id]
      | some parent => return (← s.walk steps parent).map (id :: ·)

/-- Walks from a scope outward to the end. Parents that lead in a circle have none, and the walk
    goes on forever. -/
def walkOn (s : Scopes) (id : Nat) : Option (Except ResolveError (List Nat)) := do
  match s.scope id with
  | .error e => return .error e
  | .ok sc =>
    match sc.parent with
    | none => return .ok [id]
    | some parent => return (← s |>.walkOn parent).map (id :: ·)
partial_fixpoint

/-- A scope and the scopes around it, nearest first. A walk over distinct scopes is never longer
    than their number; a longer one goes round in a circle, and goes on. -/
def chain (s : Scopes) (id : Nat) : Except ResolveError (List Nat) :=
  match s.walk (s.all.length + 1) id with
  | some answer => answer
  | none => (s.walkOn id).getD (.error (unknownScope id))

/-- The symbol of an alias in one scope. -/
def findIn? (s : Scopes) (aliasName : String) (id : Nat) : Option Symbol :=
  s.all[id]?.bind (·.find? aliasName)

/-- The symbol of an alias, nearest scope first. -/
def lookup (s : Scopes) (aliasName : String) (id : Nat) : Except ResolveError (Option Symbol) := do
  return (← s.chain id).findSome? (s.findIn? aliasName)

def unbound (aliasName : String) : ResolveError := .unknownColumnOrAlias aliasName []

/-- The part of a symbol that a kind gives access to. -/
def cast (view : SymbolView α) (aliasName : String) (symbol : Symbol) : Except ResolveError α :=
  match view.get? symbol with
  | some a => .ok a
  | none => .error (.unexpectedSymbolKind aliasName view.kind)

/-- The symbol of an alias, if it is bound; it must be of the expected kind. -/
def tryResolve (s : Scopes) (view : SymbolView α) (aliasName : String) (id : Nat) :
    Except ResolveError (Option α) := do
  match ← s.lookup aliasName id with
  | some symbol => return some (← cast view aliasName symbol)
  | none => return none

/-- The symbol of an alias, which must be bound and of the expected kind. -/
def resolve (s : Scopes) (view : SymbolView α) (aliasName : String) (id : Nat) :
    Except ResolveError α := do
  match ← s.lookup aliasName id with
  | some symbol => cast view aliasName symbol
  | none => throw (unbound aliasName)

/-- The tables bound in a scope and the scopes around it, nearest first. -/
def visibleTables (s : Scopes) (id : Nat) : Except ResolveError (List TableSymbol) := do
  let symbols := (← s.chain id).flatMap fun i =>
    match s.all[i]? with
    | some sc => sc.symbols.map (·.2)
    | none => []
  return symbols.filterMap SymbolView.table.get?

def attribute? (s : Scopes) (id : Nat) (key : String) : Option String :=
  s.all[id]?.bind (·.attributes.get? key)

/-- Changes the bindings of one scope. -/
def mapSymbols (s : Scopes) (id : Nat) (f : List (String × Symbol) → List (String × Symbol)) :
    Scopes :=
  { s with all := s.all.modify id fun sc => { sc with symbols := f sc.symbols } }

/-- A symbol under a new alias; a table knows its alias itself. -/
def renamed (target : String) : Symbol → Symbol
  | .table t => .table { t with aliasName := target }
  | symbol => symbol

end Scopes

-- ---------------------------------------------------------------------------
-- Steps
-- ---------------------------------------------------------------------------

/-- Steps on scopes. What a step has written before it fails stays written. -/
abbrev ScopeStep := EStateM ResolveError Scopes

namespace ScopeStep

/-- The scopes that a step leaves where it succeeds. -/
def result (step : ScopeStep α) (s : Scopes) : Except ResolveError Scopes :=
  match step s with
  | .ok _ s' => .ok s'
  | .error e _ => .error e

/-- Reads from the scopes, and fails where there is nothing to read. -/
def read (f : Scopes → Except ResolveError α) : ScopeStep α := do
  match f (← get) with
  | .ok a => return a
  | .error e => throw e

def write (f : Scopes → Scopes) : ScopeStep Unit := modify f

/-- Adds a scope without moving the cursor. -/
def create (kind : ScopeKind) (name : String) (parent : Option Nat) : ScopeStep Nat := do
  let id := (← get).all.length
  write fun s => { s with all := s.all ++ [⟨id, parent, kind, name, [], []⟩] }
  return id

/-- Opens a child of the current scope and makes it current. -/
def enter (kind : ScopeKind) (name : String) : ScopeStep Nat := do
  let id ← create kind name (← get).current
  write fun s => { s with current := some id }
  return id

/-- Returns to the parent of the current scope, and answers with it. -/
def leave : ScopeStep (Option Nat) := do
  let id ← read (·.currentOr "no scope to leave")
  let sc ← read (·.scope id)
  write fun s => { s with current := sc.parent }
  return (← get).current

/-- Changes one scope, which must exist. -/
def writeScope (id : Nat) (f : Scope → Scope) : ScopeStep Unit := do
  let _ ← read (·.scope id)
  write fun s => { s with all := s.all.modify id f }

/-- Binds an alias that is free in the chain seen from the scope. -/
def add (id : Nat) (aliasName : String) (symbol : Symbol) : ScopeStep Unit := do
  match ← read (·.lookup aliasName id) with
  | some _ => throw (.aliasAlreadyUsed aliasName)
  | none => writeScope id fun sc => { sc with symbols := sc.symbols ++ [(aliasName, symbol)] }

/-- Changes one entry of a scope. -/
def writeEntry (id place : Nat) (f : String × Symbol → String × Symbol) : ScopeStep Unit :=
  write (·.mapSymbols id (·.modify place f))

/-- Works on the entry of an alias, in the first of some scopes that binds it. -/
def onEntry (aliasName : String) (work : Nat → Nat → ScopeStep Unit) : List Nat → ScopeStep Unit
  | [] => throw (Scopes.unbound aliasName)
  | id :: ids => do
    let sc ← read (·.scope id)
    match sc.place? aliasName with
    | some place => work id place
    | none => onEntry aliasName work ids

/-- Replaces the symbol of a bound alias. -/
def update (aliasName : String) (id : Nat) (symbol : Symbol) : ScopeStep Unit := do
  let ids ← read (·.chain id)
  onEntry aliasName (fun i place => writeEntry i place fun e => (e.1, symbol)) ids

/-- Changes the symbol of a bound alias of the expected kind. -/
def modify (view : SymbolView α) (aliasName : String) (id : Nat) (f : α → α) :
    ScopeStep Unit := do
  let a ← read (·.resolve view aliasName id)
  update aliasName id (view.put (f a))

/-- Gives the symbol of an alias another alias that is free, in the same place. -/
def move (id : Nat) (source target : String) : ScopeStep Unit := do
  match ← read (·.lookup target id) with
  | some _ => throw (.aliasAlreadyUsed target)
  | none =>
    let ids ← read (·.chain id)
    let work (i place : Nat) : ScopeStep Unit := do
      writeEntry i place fun e => (target, e.2)
      writeEntry i place fun e => (e.1, Scopes.renamed target e.2)
    onEntry source work ids

def setAttribute (id : Nat) (key value : String) : ScopeStep Unit :=
  writeScope id fun sc => { sc with attributes := sc.attributes.insert key value }

end ScopeStep

-- ---------------------------------------------------------------------------
-- Results of steps
-- ---------------------------------------------------------------------------

namespace Scopes

def enter (s : Scopes) (kind : ScopeKind) (name : String) : Except ResolveError Scopes :=
  (ScopeStep.enter kind name).result s

def leave (s : Scopes) : Except ResolveError Scopes := ScopeStep.leave.result s

def add (s : Scopes) (id : Nat) (aliasName : String) (symbol : Symbol) :
    Except ResolveError Scopes :=
  (ScopeStep.add id aliasName symbol).result s

def update (s : Scopes) (aliasName : String) (id : Nat) (symbol : Symbol) :
    Except ResolveError Scopes :=
  (ScopeStep.update aliasName id symbol).result s

def modify (s : Scopes) (view : SymbolView α) (aliasName : String) (id : Nat) (f : α → α) :
    Except ResolveError Scopes :=
  (ScopeStep.modify view aliasName id f).result s

def move (s : Scopes) (id : Nat) (source target : String) : Except ResolveError Scopes :=
  (ScopeStep.move id source target).result s

def setAttribute (s : Scopes) (id : Nat) (key value : String) : Except ResolveError Scopes :=
  (ScopeStep.setAttribute id key value).result s

end Scopes

end SchemaQuery
