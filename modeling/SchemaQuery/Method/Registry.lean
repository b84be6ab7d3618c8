-- SUMMARY: Resolution of calls against a registry of overloaded methods.
import SchemaQuery.Method.Basic
import SchemaQuery.Text.Lowercase

/-!
# Method resolution

A registry lists methods in the order of their registration. A call is resolved
among the methods of its name, letter case ignored, by unifying their parameter
shapes with the argument types; the highest score wins, and the first of equal
ones. The current row is either injected or passed as an ordinary argument.
-/

namespace SchemaQuery

/-- A method as chosen for a call. -/
structure ResolvedMethod where
  name : String
  kind : MethodKind
  roles : List ParamRole
  paramTypes : List DataType
  returnType : DataType
  bindings : Bindings
  signature : String
deriving DecidableEq, Repr

def ResolvedMethod.injectsSource (m : ResolvedMethod) : Bool := m.roles.contains .injectSource

/-- An aggregate with the setter that updates its accumulator. -/
structure ResolvedAggregate where
  method : ResolvedMethod
  setter : ResolvedMethod
deriving DecidableEq, Repr

/-- How a method gets the current row: injected, if a row of some type is at hand, or raw as one
    of the written arguments. -/
inductive SourceMode where
  | injected (source : Option DataType)
  | raw
deriving DecidableEq, Repr

namespace SourceMode

/-- Whether parameters of a role are filled by written arguments. -/
def isWritten : SourceMode → ParamRole → Bool
  | _, .ordinary => true
  | .raw, .injectSource => true
  | _, _ => false

/-- The role a parameter plays for the call. -/
def effectiveRole : SourceMode → ParamRole → ParamRole
  | .raw, .injectSource => .ordinary
  | _, role => role

end SourceMode

namespace Method

/-- The parameter of the injected row with the type of that row. `none` when the method asks for
    a row and there is none. -/
def injectedArgument? (m : Method) : SourceMode → Option (List (Shape × DataType))
  | .raw => some []
  | .injected source =>
    match m.sourceParam? with
    | none => some []
    | some p => source.map fun row => [(p.shape, row)]

/-- The parameters filled by written arguments. -/
def writtenParams (m : Method) (mode : SourceMode) : List Parameter :=
  m.params.filter fun p => mode.isWritten p.role

/-- Matches a method with argument types, giving the score and the method as chosen. -/
def tryMatch (m : Method) (args : List DataType) (mode : SourceMode) (types : TypeRegistry) :
    Option (Nat × ResolvedMethod) :=
  let written := m.writtenParams mode
  if written.length ≠ args.length then none
  else do
    let injected ← m.injectedArgument? mode
    let (score, b) ← Shape.unifyAll types (injected ++ (written.map (·.shape)).zip args) []
    return (score,
      { name := m.name
        kind := m.kind
        roles := m.params.map fun p => mode.effectiveRole p.role
        paramTypes := written.map fun p => p.shape.instantiate b
        returnType := m.returns.instantiate b
        bindings := b
        signature := m.signature })

end Method

structure MethodRegistry where
  methods : List Method
deriving DecidableEq, Repr

namespace MethodRegistry

def empty : MethodRegistry := ⟨[]⟩

def register (r : MethodRegistry) (m : Method) : MethodRegistry := ⟨r.methods ++ [m]⟩

/-- The methods of a name, letter case ignored. -/
def candidates (r : MethodRegistry) (name : String) : List Method :=
  r.methods.filter fun m => Text.eqIgnoreAsciiCase m.name name

def hasMethod (r : MethodRegistry) (name : String) : Bool := !(r.candidates name).isEmpty

/-- The distinct names of the methods a query can call. -/
def names (r : MethodRegistry) : List String :=
  r.methods.foldl (fun names m =>
    if m.kind = .aggregateSetter || names.contains m.name then names else names ++ [m.name]) []

/-- The better of two matches; an earlier one gives way to a strictly higher score only. -/
def better (best : Option (Nat × ResolvedMethod)) (next : Nat × ResolvedMethod) :
    Option (Nat × ResolvedMethod) :=
  match best with
  | some (score, m) => if next.1 > score then some next else some (score, m)
  | none => some next

/-- The best match of a kind. -/
def bestMatch (r : MethodRegistry) (name : String) (kind : MethodKind) (args : List DataType)
    (mode : SourceMode) (types : TypeRegistry) : Option ResolvedMethod :=
  let matching := ((r.candidates name).filter (·.kind = kind)).filterMap fun m =>
    m.tryMatch args mode types
  (matching.foldl better none).map (·.2)

/-- Resolves a call with the current row injected. -/
def resolveMethod (r : MethodRegistry) (name : String) (args : List DataType)
    (source : Option DataType) (types : TypeRegistry) : Option ResolvedMethod :=
  r.bestMatch name .scalar args (.injected source) types

/-- Resolves a call that passes the row itself. -/
def resolveRaw (r : MethodRegistry) (name : String) (args : List DataType) (types : TypeRegistry) :
    Option ResolvedMethod :=
  r.bestMatch name .scalar args .raw types

/-- Resolves an aggregate together with its setter; both must match. -/
def resolveAggregate (r : MethodRegistry) (name : String) (args : List DataType)
    (types : TypeRegistry) : Option ResolvedAggregate := do
  let method ← r.bestMatch name .aggregate args (.injected none) types
  let setter ← r.bestMatch (setterName method.name) .aggregateSetter args (.injected none) types
  return ⟨method, setter⟩

-- ---------------------------------------------------------------------------
-- Setters
-- ---------------------------------------------------------------------------

theorem mem_of_foldl_better {ms : List (Nat × ResolvedMethod)} {best : Option (Nat × ResolvedMethod)}
    {m : Nat × ResolvedMethod} (h : ms.foldl better best = some m) : best = some m ∨ m ∈ ms := by
  induction ms generalizing best with
  | nil => exact .inl h
  | cons next ms ih =>
    rcases ih h with hbest | hmem
    · cases best with
      | none =>
        simp only [better, Option.some.injEq] at hbest
        exact .inr (by simp [hbest])
      | some b =>
        simp only [better] at hbest
        split at hbest
        · simp only [Option.some.injEq] at hbest
          exact .inr (by simp [hbest])
        · exact .inl hbest
    · exact .inr (List.mem_cons_of_mem _ hmem)

theorem tryMatch_name {m : Method} {args : List DataType} {mode : SourceMode} {types : TypeRegistry}
    {r : Nat × ResolvedMethod} (h : m.tryMatch args mode types = some r) : r.2.name = m.name := by
  unfold Method.tryMatch at h
  simp only at h
  split at h
  · cases h
  · obtain ⟨injected, -, h⟩ := Option.bind_eq_some_iff.1 h
    obtain ⟨⟨score, b⟩, -, h⟩ := Option.bind_eq_some_iff.1 h
    cases h
    rfl

/-- The best match of a name has that name, letter case ignored. -/
theorem bestMatch_name {r : MethodRegistry} {name : String} {kind : MethodKind}
    {args : List DataType} {mode : SourceMode} {types : TypeRegistry} {m : ResolvedMethod}
    (h : r.bestMatch name kind args mode types = some m) :
    Text.eqIgnoreAsciiCase m.name name = true := by
  obtain ⟨best, hfold, rfl⟩ := Option.map_eq_some_iff.1 h
  rcases mem_of_foldl_better hfold with hnone | hmem
  · cases hnone
  · obtain ⟨m', hm', hmatch⟩ := List.mem_filterMap.1 hmem
    have hcandidate := (List.mem_filter.1 hm').1
    rw [tryMatch_name hmatch]
    exact (List.mem_filter.1 hcandidate).2

theorem resolveAggregate_setter {r : MethodRegistry} {name : String} {args : List DataType}
    {types : TypeRegistry} {a : ResolvedAggregate}
    (h : r.resolveAggregate name args types = some a) :
    Text.eqIgnoreAsciiCase a.setter.name (setterName a.method.name) = true := by
  obtain ⟨method, -, h⟩ := Option.bind_eq_some_iff.1 h
  obtain ⟨setter, hsetter, h⟩ := Option.bind_eq_some_iff.1 h
  cases h
  exact bestMatch_name hsetter

end MethodRegistry

end SchemaQuery
