-- SUMMARY: Bound expressions: typed terms over columns, tables, groups and resolved methods.
import SchemaQuery.Expr.Basic
import SchemaQuery.Method.Basic

/-!
# Terms

A term is an expression after resolution. Every node carries its type, every
column the alias that owns it, and every call the method it stands for.

The traversals are given once: `children` and `subterms` list the parts of a
term, `mapUp` changes it from the leaves, and `sameValue` compares two terms up
to the way their columns are written.
-/

namespace SchemaQuery

/-- The method behind a call on every row. -/
structure MethodRef where
  name : String
  /-- The schema that offers the method; none for a builtin. -/
  schema : Option String
  /-- The alias whose current row is injected. -/
  sourceAlias : Option String
  roles : List ParamRole
  signature : String
deriving DecidableEq, Repr

/-- The aggregate behind a read of an accumulator. -/
structure AggregateRef where
  name : String
  schema : Option String
  /-- The name of the accumulator: the rendered call. -/
  accumulator : String
  signature : String
deriving DecidableEq, Repr

inductive Term where
  | literal (value : Literal) (type : DataType)
  /-- A column of the source bound to `alias`; `qualify` says how it renders. -/
  | column (aliasName name : String) (ordinal : Nat) (qualify : Bool) (type : DataType)
  /-- A field of the result of a set operator. -/
  | outputField (name : String) (index : Nat) (type : DataType)
  /-- A column of a transition table. -/
  | tableColumn (table name : String) (type : DataType)
  /-- The value of a key of the current group. -/
  | groupField (index : Nat) (type : DataType)
  | property (base : Term) (name : String) (type : DataType)
  | binary (op : BinaryOp) (left right : Term) (type : DataType)
  | unary (op : UnaryOp) (operand : Term) (type : DataType)
  | call (method : MethodRef) (args : List Term) (type : DataType)
  | aggregate (method : AggregateRef) (args : List Term) (type : DataType)
  | case (branches : List (Term × Term)) (otherwise : Option Term) (type : DataType)
  | cast (operand : Term) (target : DataType) (type : DataType)
  | list (items : List Term) (type : DataType)
  /-- A nullable truth value, read as false when it is null. -/
  | nullAsFalse (operand : Term) (type : DataType)
deriving Inhabited

namespace Term

def type : Term → DataType
  | .literal _ t | .column _ _ _ _ t | .outputField _ _ t | .tableColumn _ _ t | .groupField _ t
  | .property _ _ t | .binary _ _ _ t | .unary _ _ t | .call _ _ t | .aggregate _ _ t
  | .case _ _ t | .cast _ _ t | .list _ t | .nullAsFalse _ t => t

-- ---------------------------------------------------------------------------
-- Rendering
-- ---------------------------------------------------------------------------

mutual

def render : Term → String
  | .literal v _ => v.render
  | .column aliasName name _ qualify _ => if qualify then aliasName ++ "." ++ name else name
  | .outputField name _ _ => name
  | .tableColumn table name _ => table ++ "[" ++ name ++ "]"
  | .groupField index _ => "group[" ++ toString index ++ "]"
  | .property base name _ => base.render ++ "." ++ name
  | .binary op left right _ => left.render ++ " " ++ op.symbol ++ " " ++ right.render
  | .unary op operand _ => op.apply operand.render
  | .call method args _ => method.name ++ "(" ++ ", ".intercalate (renderAll args) ++ ")"
  | .aggregate method _ _ => method.accumulator
  | .case branches none _ => renderCase (renderBranches branches) none
  | .case branches (some e) _ => renderCase (renderBranches branches) (some e.render)
  | .cast operand target _ => "cast(" ++ operand.render ++ " as " ++ target.render ++ ")"
  | .list items _ => "(" ++ ", ".intercalate (renderAll items) ++ ")"
  | .nullAsFalse operand _ => operand.render

def renderAll : List Term → List String
  | [] => []
  | t :: ts => t.render :: renderAll ts

def renderBranches : List (Term × Term) → List (String × String)
  | [] => []
  | (c, r) :: bs => (c.render, r.render) :: renderBranches bs

end

-- ---------------------------------------------------------------------------
-- Parts
-- ---------------------------------------------------------------------------

/-- The direct parts of a term, in the order of evaluation. -/
def children : Term → List Term
  | .literal .. | .column .. | .outputField .. | .tableColumn .. | .groupField .. => []
  | .property e _ _ | .unary _ e _ | .cast e _ _ | .nullAsFalse e _ => [e]
  | .binary _ left right _ => [left, right]
  | .call _ args _ | .aggregate _ args _ | .list args _ => args
  | .case branches otherwise _ =>
    branches.flatMap (fun (c, r) => [c, r]) ++ otherwise.toList

mutual

/-- The term and all its parts, a term before its parts. -/
def subterms : Term → List Term
  | t@(.literal ..) | t@(.column ..) | t@(.outputField ..) | t@(.tableColumn ..)
  | t@(.groupField ..) => [t]
  | t@(.property e _ _) | t@(.unary _ e _) | t@(.cast e _ _) | t@(.nullAsFalse e _) =>
    t :: e.subterms
  | t@(.binary _ left right _) => t :: (left.subterms ++ right.subterms)
  | t@(.call _ args _) | t@(.aggregate _ args _) | t@(.list args _) => t :: subtermsAll args
  | t@(.case branches none _) => t :: subtermsBranches branches
  | t@(.case branches (some e) _) => t :: (subtermsBranches branches ++ e.subterms)

def subtermsAll : List Term → List Term
  | [] => []
  | t :: ts => t.subterms ++ subtermsAll ts

def subtermsBranches : List (Term × Term) → List Term
  | [] => []
  | (c, r) :: bs => c.subterms ++ (r.subterms ++ subtermsBranches bs)

end

def isAggregate : Term → Bool
  | .aggregate .. => true
  | _ => false

/-- Whether an aggregate occurs anywhere in the term. -/
def containsAggregate (t : Term) : Bool := t.subterms.any isAggregate

/-- The alias of a column. -/
def columnAlias? : Term → Option String
  | .column aliasName _ _ _ _ => some aliasName
  | _ => none

/-- The aliases of all columns in the term, in the order of their first use. -/
def referencedAliases (t : Term) : List String :=
  (t.subterms.filterMap columnAlias?).foldl
    (fun acc a => if acc.contains a then acc else acc ++ [a]) []

-- ---------------------------------------------------------------------------
-- Changing every node
-- ---------------------------------------------------------------------------

mutual

/-- Applies a function at every node from the leaves: to a node after its parts. -/
def mapUp (f : Term → Term) : Term → Term
  | t@(.literal ..) | t@(.column ..) | t@(.outputField ..) | t@(.tableColumn ..)
  | t@(.groupField ..) => f t
  | .property e name t => f (.property (e.mapUp f) name t)
  | .binary op left right t => f (.binary op (left.mapUp f) (right.mapUp f) t)
  | .unary op e t => f (.unary op (e.mapUp f) t)
  | .call method args t => f (.call method (mapUpAll f args) t)
  | .aggregate method args t => f (.aggregate method (mapUpAll f args) t)
  | .case branches none t => f (.case (mapUpBranches f branches) none t)
  | .case branches (some e) t => f (.case (mapUpBranches f branches) (some (e.mapUp f)) t)
  | .cast e target t => f (.cast (e.mapUp f) target t)
  | .list items t => f (.list (mapUpAll f items) t)
  | .nullAsFalse e t => f (.nullAsFalse (e.mapUp f) t)

def mapUpAll (f : Term → Term) : List Term → List Term
  | [] => []
  | t :: ts => t.mapUp f :: mapUpAll f ts

def mapUpBranches (f : Term → Term) : List (Term × Term) → List (Term × Term)
  | [] => []
  | (c, r) :: bs => (c.mapUp f, r.mapUp f) :: mapUpBranches f bs

end

-- ---------------------------------------------------------------------------
-- Equality of values
-- ---------------------------------------------------------------------------

mutual

/-- Whether two terms compute the same value: they are equal up to the qualification of their
    columns, and doubles compare as numbers. -/
def sameValue : Term → Term → Bool
  | .literal v t, .literal v' t' => v.same v' && t = t'
  | .column a n o _ t, .column a' n' o' _ t' => a = a' && n = n' && o = o' && t = t'
  | .outputField n i t, .outputField n' i' t' => n = n' && i = i' && t = t'
  | .tableColumn b n t, .tableColumn b' n' t' => b = b' && n = n' && t = t'
  | .groupField i t, .groupField i' t' => i = i' && t = t'
  | .property e n t, .property e' n' t' => e.sameValue e' && n = n' && t = t'
  | .binary op l r t, .binary op' l' r' t' =>
    op = op' && l.sameValue l' && r.sameValue r' && t = t'
  | .unary op e t, .unary op' e' t' => op = op' && e.sameValue e' && t = t'
  | .call m args t, .call m' args' t' => m = m' && sameValues args args' && t = t'
  | .aggregate m args t, .aggregate m' args' t' => m = m' && sameValues args args' && t = t'
  | .case bs none t, .case bs' none t' => sameBranches bs bs' && t = t'
  | .case bs (some e) t, .case bs' (some e') t' =>
    sameBranches bs bs' && e.sameValue e' && t = t'
  | .cast e s t, .cast e' s' t' => e.sameValue e' && s = s' && t = t'
  | .list items t, .list items' t' => sameValues items items' && t = t'
  | .nullAsFalse e t, .nullAsFalse e' t' => e.sameValue e' && t = t'
  | _, _ => false

def sameValues : List Term → List Term → Bool
  | [], [] => true
  | t :: ts, t' :: ts' => t.sameValue t' && sameValues ts ts'
  | _, _ => false

def sameBranches : List (Term × Term) → List (Term × Term) → Bool
  | [], [] => true
  | (c, r) :: bs, (c', r') :: bs' => c.sameValue c' && r.sameValue r' && sameBranches bs bs'
  | _, _ => false

end

/-- Turns a condition into a definite one: a nullable truth value counts as false when it is null.
    Binary operators already give plain truth values. -/
def asPredicate (t : Term) : Term :=
  match t with
  | .binary .. => t
  | _ => if t.type.isNullable && t.type.isBoolean then .nullAsFalse t .boolean else t

end Term

end SchemaQuery
