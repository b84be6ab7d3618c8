-- SUMMARY: Queries described by the steps that build them.
import SchemaQuery.Document.Query
import SchemaQuery.Query.Builder

/-!
# Building steps as JSON

A step is an array: the name of the step, then its arguments. Expressions,
sources and queries are all described in this way.
-/

namespace SchemaQuery

/-- The name of a step and its arguments. -/
def Json.step? (j : Json) : Option (String × List j.Part) := do
  match ← j.items? with
  | ⟨.str name, _⟩ :: args => return (name, args)
  | _ => none

/-- The two expressions of a branch. -/
def branch? (j : Json) (f : j.Part → Option Expr) : Option (Expr × Expr) := do
  match ← j.itemParts? f with
  | [c, r] => return (c, r)
  | _ => none

/-- An optional argument, absent when it is `null`. -/
def Json.unlessNull (j : Json) (f : Option α) : Option (Option α) :=
  match j with
  | .null => some none
  | _ => f.map some

def Expr.build? (j : Json) : Option Expr :=
  match j.step? with
  | some (name, []) => if name = "null" then some .ofNull else none
  | some (name, [⟨a, _h⟩]) =>
    match name with
    | "ident" => a.str?.map .identifier
    | "colref" => a.str?.map (.column none)
    | "not" => (build? a).map .negate
    | "int" => a.int64?.map .ofInt
    | "string" => a.str?.map .ofString
    | "bool" => a.bool?.map .ofBool
    | _ => none
  | some (name, [⟨a, _ha⟩, ⟨b, _hb⟩]) =>
    match name with
    | "column" => do return .ofColumn (← a.str?) (← b.str?)
    | "property" => do return .property (← build? a) (← b.str?)
    | "call" => do return .ofCall (← a.str?) (← b.itemParts? fun ⟨e, _h⟩ => build? e)
    | "eq" => do return .equals (← build? a) (← build? b)
    | "and" => do return .conj (← build? a) (← build? b)
    | "case" => do
      return .ofBranches (← a.itemParts? fun ⟨c, _h⟩ => branch? c fun ⟨e, _h⟩ => build? e)
        (← b.unlessNull (build? b))
    | "cast" => do return .cast (← build? a) (← b.str?)
    | _ => none
  | some (name, [⟨a, _ha⟩, ⟨b, _hb⟩, ⟨c, _hc⟩]) =>
    match name with
    | "qcall" => do
      return .ofQualifiedCall (← a.str?) (← b.str?) (← c.itemParts? fun ⟨e, _h⟩ => build? e)
    | "binary" => do return .binary (← BinaryOp.ofJson? b) (← build? a) (← build? c)
    | _ => none
  | _ => none
termination_by sizeOf j
decreasing_by all_goals omega

def Expr.buildAll? (j : Json) : Option (List Expr) := j.list? Expr.build?

def OrderItem.build? (j : Json) : Option OrderItem :=
  match j.step? with
  | some ("asc", [e]) => do return ⟨← Expr.build? e.1, .asc⟩
  | some ("desc", [e]) => do return ⟨← Expr.build? e.1, .desc⟩
  | _ => none

mutual

def Query.build? (j : Json) : Option Query :=
  match j.step? with
  | some (name, [⟨steps, _h⟩]) => do
    if name ≠ "select" then none
    let steps ← steps.itemParts? fun ⟨s, _h⟩ => Select.buildStep? s
    return .ofSelect (steps.foldl (fun s step => step s) .empty)
  | some (name, [⟨q, _hq⟩, ⟨a, _ha⟩]) =>
    match name with
    | "skip" => do return (← Query.build? q).withSkip (← a.nat?)
    | "take" => do return (← Query.build? q).withTake (← a.nat?)
    | "order" => do return (← Query.build? q).withOrder (← a.list? OrderItem.build?)
    | "ctes" => do
      return (← Query.build? q).withCtes (← a.itemParts? fun ⟨c, _h⟩ => Cte.build? c)
    | _ => none
  | some (name, [⟨l, _hl⟩, ⟨r, _hr⟩, ⟨keys, _hk⟩]) =>
    match name with
    | "intersect" => do
      return .combine .intersect (← Query.build? l) (← Query.build? r) (← keys.list? Json.str?)
    | "except" => do
      return .combine .except (← Query.build? l) (← Query.build? r) (← keys.list? Json.str?)
    | _ => none
  | some (name, [⟨l, _hl⟩, ⟨r, _hr⟩, ⟨all, _hall⟩, ⟨keys, _hk⟩]) => do
    if name ≠ "union" then none
    return .combine (if ← all.bool? then .unionAll else .union) (← Query.build? l)
      (← Query.build? r) (← keys.list? Json.str?)
  | _ => none
termination_by sizeOf j
decreasing_by all_goals omega

def Cte.build? (j : Json) : Option Cte :=
  match j.step? with
  | some (name, [⟨q, _h⟩]) => do return ⟨name, [], ← Query.build? q⟩
  | some (name, [⟨q, _h⟩, columns]) => do
    return ⟨name, ← columns.1.list? Json.str?, ← Query.build? q⟩
  | _ => none
termination_by sizeOf j

/-- One step in the building of a select block. -/
def Select.buildStep? (j : Json) : Option (Select → Select) :=
  match j.step? with
  | some (name, []) =>
    match name with
    | "all" => some Select.addAll
    | "distinct" => some Select.withDistinct
    | _ => none
  | some (name, [⟨a, _h⟩]) =>
    match name with
    | "from" => do
      let source ← Source.build? a
      return fun s => s.withSource source
    | "select" => do
      let e ← Expr.build? a
      return fun s => s.addExpr e
    | "projection" => do
      let items ← a.list? SelectItem.ofJson?
      return fun s => s.withProjection items
    | "where" => do
      let e ← Expr.build? a
      return fun s => s.withFilter e
    | "group_by" => do
      let keys ← Expr.buildAll? a
      return fun s => s.withGroupBy keys
    | "having" => do
      let e ← Expr.build? a
      return fun s => s.withHaving e
    | _ => none
  | some (name, [e, aliasName]) => do
    if name ≠ "select_as" then none
    let e ← Expr.build? e.1
    let aliasName ← aliasName.1.str?
    return fun s => s.addAliased e aliasName
  | _ => none
termination_by sizeOf j

def Source.build? (j : Json) : Option Source :=
  match j.step? with
  | some (name, [⟨a, _h⟩]) =>
    match name with
    | "memory" => a.str?.map .ofMemory
    | "subquery" => (Query.build? a).map .ofQuery
    | _ => none
  | some (name, [⟨f, _hf⟩, ⟨a, _ha⟩]) => do
    if name ≠ "alias" then none
    return (← Source.build? f).withAlias (← a.str?)
  | some (name, [⟨a, _ha⟩, ⟨b, _hb⟩, ⟨c, _hc⟩]) =>
    match name with
    | "schema" => do return .ofSchema (← a.str?) (← b.str?) (← Expr.buildAll? c)
    | "apply" => do
      return .apply (← ApplyKind.ofJson? c) (← Source.build? a) (← Source.build? b)
    | _ => none
  | some (name, [⟨l, _hl⟩, ⟨r, _hr⟩, ⟨kind, _hk⟩, ⟨condition, _ho⟩]) => do
    if name ≠ "join" then none
    return .join (← JoinKind.ofJson? kind) (← Source.build? l) (← Source.build? r)
      (← Expr.build? condition)
  | _ => none
termination_by sizeOf j
decreasing_by all_goals omega

end

end SchemaQuery
