-- SUMMARY: The rows that joins compute, in a bound query and in its plan, for any content of the sources.
import Mathlib.Logic.Function.Basic
import SchemaQuery.Plan.Query
import SchemaQuery.Proofs.Query.Shape
import SchemaQuery.Proofs.Term.Alike

/-!
# Semantics of joins

Two readings of the source of a block are given here. `fullRows` is the nested
loop over the source as it was bound, where a row has all columns of all leaves.
`run` carries out the nodes of a plan on a `Store`, where a row has the columns of
the transition table it stands in. Both leave open what the schemas and the host
provide and how terms are evaluated: an `Interpretation` says so, and an evaluator
sees a term only after its reads have been replaced by values (`Filled`).
-/

namespace SchemaQuery.Plan

variable {V : Type}

/-! ## Evaluation -/

/-- The alias whose row a node hands to a method. -/
def rowAlias? : Term → Option String
  | .call method _ _ => method.sourceAlias
  | _ => none

/-- A term as an evaluator sees it: a column is the value read from it, and a call that is handed a
    row has the values of that row. -/
inductive Filled (V : Type) where
  | read (value : V) (type : DataType)
  | node (label : Term) (row : List V) (parts : List (Filled V))

/-- A way to read values: of a column of a source, of a column of a transition table, and of all
    columns of an alias. -/
structure Reader (V : Type) where
  column : String → String → V
  cell : String → String → V
  row : String → List V

namespace Reader

/-- The value of a term that reads a single column. -/
def read? (ρ : Reader V) : Term → Option V
  | .column aliasName name _ _ _ => some (ρ.column aliasName name)
  | .tableColumn table name _ => some (ρ.cell table name)
  | _ => none

def fill (ρ : Reader V) (t : Term) : Filled V :=
  match ρ.read? t with
  | some value => .read value t.type
  | none => .node t.label ((rowAlias? t).elim [] ρ.row)
      (t.children.attach.map fun c => ρ.fill c.1)
termination_by sizeOf t
decreasing_by exact Term.sizeOf_lt_of_mem_children c.2

theorem fill_of_read {ρ : Reader V} {t : Term} {value : V} (h : ρ.read? t = some value) :
    ρ.fill t = .read value t.type := by
  rw [fill, h]

theorem fill_of_parts {ρ : Reader V} {t : Term} (h : ρ.read? t = none) :
    ρ.fill t = .node t.label ((rowAlias? t).elim [] ρ.row) (t.children.map ρ.fill) := by
  rw [fill, h]
  simp only [List.map_attach_eq_pmap, List.pmap_eq_map]

end Reader

/-! ## Tables -/

/-- A transition table: a row has one value for every column. -/
structure Table (V : Type) where
  columns : List Column
  rows : List (List V)

/-- A row by the names of the columns; of columns with one name the first counts. -/
def Table.row (t : Table V) (values : List V) : String → Option V :=
  fun name => ((t.columns.map (·.name)).zip values).lookup name

def Table.append (t : Table V) (rows : List (List V)) : Table V := ⟨t.columns, t.rows ++ rows⟩

/-- The transition tables during a run. -/
abbrev Store (V : Type) := String → Option (Table V)

namespace Store

def create (σ : Store V) (table : String) (columns : List Column) : Store V :=
  Function.update σ table (some ⟨columns, []⟩)

def append (σ : Store V) (table : String) (rows : List (List V)) : Store V :=
  Function.update σ table ((σ table).map (·.append rows))

/-- Gives a table another name, in place of the table that had it. -/
def expose (σ : Store V) (table name : String) : Store V := Function.update σ name (σ table)

/-- The rows of a table, by the names of its columns. -/
def rows (σ : Store V) (table : String) : List (String → Option V) :=
  (σ table).elim [] fun t => t.rows.map t.row

variable (σ : Store V) {table other : String}

@[simp] theorem create_self (columns : List Column) :
    σ.create table columns table = some ⟨columns, []⟩ := Function.update_self ..

@[simp] theorem create_of_ne (h : other ≠ table) (columns : List Column) :
    σ.create table columns other = σ other := Function.update_of_ne h ..

@[simp] theorem append_self (rows : List (List V)) :
    σ.append table rows table = (σ table).map (·.append rows) := Function.update_self ..

@[simp] theorem append_of_ne (h : other ≠ table) (rows : List (List V)) :
    σ.append table rows other = σ other := Function.update_of_ne h ..

@[simp] theorem expose_of_ne {name : String} (h : other ≠ name) :
    σ.expose table name other = σ other := Function.update_of_ne h ..

end Store

/-- The table that a node writes. -/
def Node.written : Node → String
  | .create table _ _ => table
  | .populate step => step.target
  | .aggregate step => step.target
  | .setMatch step => step.target
  | .rename _ name => name

/-- Nodes that are carried out one after the other change no table but those that they write. -/
theorem foldl_of_unwritten {step : Store V → Node → Store V}
    (hstep : ∀ σ n t, n.written ≠ t → step σ n t = σ t) {ns : List Node} {t : String}
    (h : ∀ n ∈ ns, n.written ≠ t) (σ : Store V) : ns.foldl step σ t = σ t := by
  induction ns generalizing σ with
  | nil => rfl
  | cons n ns ih =>
    rw [List.foldl_cons, ih fun n' hn' => h n' (List.mem_cons_of_mem _ hn'),
      hstep σ n t (h n (List.mem_cons_self ..))]

/-! ## Interpretations -/

/-- A row of a source. -/
abbrev Row (V : Type) := String → V

/-- Sources with content, and a meaning for terms. -/
structure Interpretation (V : Type) where
  null : V
  /-- Whether a value counts as true. -/
  holds : V → Bool
  /-- The value of a term that is no column. -/
  eval : Filled V → V
  /-- The rows of a table of a schema, for given arguments. -/
  schemaRows : String → String → List V → List (Row V)
  /-- The rows of a table of the host. -/
  hostRows : String → List (Row V)
  /-- The rows that a node appends to its table, where these are left open. -/
  appended : Store V → Node → List (List V)

namespace Interpretation

variable (I : Interpretation V)

/-- The row of a source that is a row of a transition table. -/
def sourceRow (row : String → Option V) : Row V := fun name => (row name).getD I.null

def value (ρ : Reader V) (t : Term) : V := (ρ.read? t).getD (I.eval (ρ.fill t))

/-- The values of some terms on every row. -/
def tuples {R : Type} (rows : List R) (reader : R → Reader V) (ts : List Term) : List (List V) :=
  rows.map fun row => ts.map (I.value (reader row))

end Interpretation

/-! ## Nested loops -/

/-- The nested loop over two sides. A row of the preserved side that matches nothing gives one row
    of its own. `alone` are the rows of the right side without a left row. -/
def nestedLoop {L R T : Type} (preserved : Option JoinSide) (lefts : List L) (rights : L → List R)
    (alone : List R) (matching : L → R → Bool) (pair : L → R → T) (ofLeft : L → T)
    (ofRight : R → T) : List T :=
  match preserved with
  | none => lefts.flatMap fun l => ((rights l).filter (matching l)).map (pair l)
  | some .left => lefts.flatMap fun l =>
    if (rights l).any (matching l) then ((rights l).filter (matching l)).map (pair l)
    else [ofLeft l]
  | some .right => lefts.flatMap (fun l => ((rights l).filter (matching l)).map (pair l))
    ++ (alone.filter fun r => !lefts.any fun l => matching l r).map ofRight

/-- The side whose rows a join keeps. -/
def keptByJoin : JoinKind → Option JoinSide
  | .inner => none
  | .leftOuter => some .left
  | .rightOuter => some .right

/-- The side whose rows an apply keeps. -/
def keptByApply : ApplyKind → Option JoinSide
  | .cross => none
  | .outer => some .left

/-! ## Bound sources -/

/-- The names of the columns of an alias. -/
def columnNames (leaves : List (String × List Column)) (aliasName : String) : List String :=
  ((leaves.lookup aliasName).getD []).map (·.name)

/-- A row with all columns of all leaves, by alias. -/
abbrev FullRow (V : Type) := String → Row V

namespace Interpretation

variable (I : Interpretation V) (leaves : List (String × List Column))

def nulls : FullRow V := fun _ _ => I.null

/-- The row of a single source. -/
def single (aliasName : String) (row : Row V) : FullRow V := Function.update I.nulls aliasName row

/-- Reads from a full row. -/
def fullReader (ρ : FullRow V) : Reader V where
  column := ρ
  cell := I.nulls
  row aliasName := (columnNames leaves aliasName).map (ρ aliasName)

end Interpretation

/-- The columns of the right source from one row, all others from another. -/
def FullRow.merge (right : BoundSource) (ρ ρ' : FullRow V) : FullRow V :=
  fun aliasName => if aliasName ∈ right.leafAliases then ρ' aliasName else ρ aliasName

/-- The rows of common table expressions and subqueries, by the alias of the leaf. -/
abbrev Contents (V : Type) := String → List (String → Option V)

/-- The rows of a source as it was bound. The arguments of its schema tables read `outer`. -/
def fullRows (I : Interpretation V) (contents : Contents V)
    (leaves : List (String × List Column)) : BoundSource → FullRow V → List (FullRow V)
  | .schema a schema method args _ _, outer =>
    (I.schemaRows schema method (args.map (I.value (I.fullReader leaves outer)))).map (I.single a)
  | .inMemory a table .host _, _ => (I.hostRows table).map (I.single a)
  | .inMemory a _ .cte _, _ | .subquery a _ _, _ =>
    (contents a).map fun row => I.single a (I.sourceRow row)
  | .join _ kind left right condition, outer =>
    nestedLoop (keptByJoin kind) (fullRows I contents leaves left outer)
      (fun _ => fullRows I contents leaves right outer) (fullRows I contents leaves right outer)
      (fun l r => I.holds (I.value (I.fullReader leaves (l.merge right r)) condition))
      (FullRow.merge right) id id
  | .apply _ kind left right, outer =>
    nestedLoop (keptByApply kind) (fullRows I contents leaves left outer)
      (fun l => fullRows I contents leaves right l) (fullRows I contents leaves right outer)
      (fun _ _ => true) (FullRow.merge right) id id

/-! ## Plans -/

/-- A row at hand while a step runs: one of a source, or one of a transition table, which has a
    value for each of its columns. -/
inductive Binding (V : Type) where
  | source (aliasName : String) (row : Row V)
  | table (name : String) (row : String → Option V)

namespace Binding

/-- A column of a source that is read directly. -/
def column? (aliasName name : String) : Binding V → Option V
  | .source a row => if a = aliasName then some (row name) else none
  | .table .. => none

/-- A column of a transition table. -/
def cell? (table name : String) : Binding V → Option V
  | .source .. => none
  | .table t row => if t = table then row name else none

/-- A column of an alias, wherever it stands. -/
def carried? (aliasName name : String) : Binding V → Option V
  | .source a row => if a = aliasName then some (row name) else none
  | .table _ row => row (qualifiedName aliasName name)

variable {a t n : String}

@[simp] theorem column?_source (b : String) (row : Row V) :
    (source b row).column? a n = if b = a then some (row n) else none := rfl

@[simp] theorem column?_table (row : String → Option V) : (table t row).column? a n = none := rfl

@[simp] theorem cell?_table (row : String → Option V) : (table t row).cell? t n = row n :=
  if_pos rfl

@[simp] theorem carried?_source (b : String) (row : Row V) :
    (source b row).carried? a n = if b = a then some (row n) else none := rfl

@[simp] theorem carried?_table (row : String → Option V) :
    (table t row).carried? a n = row (qualifiedName a n) := rfl

end Binding

namespace Interpretation

variable (I : Interpretation V) (leaves : List (String × List Column))

/-- Reads from the rows at hand. -/
def planReader (row : List (Binding V)) : Reader V where
  column aliasName name := (row.findSome? (·.column? aliasName name)).getD I.null
  cell table name := (row.findSome? (·.cell? table name)).getD I.null
  row aliasName := (columnNames leaves aliasName).map fun name =>
    (row.findSome? (·.carried? aliasName name)).getD I.null

/-- The rows of a scan that is no loop. Under the alias of a leaf, a row of a transition table is
    the row of a source. -/
def scanRows (σ : Store V) (outer : List (Binding V)) : Scan → List (List (Binding V))
  | .schema a schema method args =>
    (I.schemaRows schema method (args.map (I.value (I.planReader leaves outer)))).map
      fun row => [.source a row]
  | .inMemory a table => (I.hostRows table).map fun row => [.source a row]
  | .transition a table => (σ.rows table).map fun row =>
    if a ∈ leaves.map (·.1) then [.source a (I.sourceRow row)] else [.table table row]
  | .loop .. => []

/-- The values for a row that matches nothing. -/
def padded (columns nulls : List Column) (select : List Term) (row : List (Binding V)) : List V :=
  (columns.zip select).map fun p =>
    if p.1 ∈ nulls then I.null else I.value (I.planReader leaves row) p.2

/-- The rows that a loop appends to a table with the given columns. -/
def loopRows (σ : Store V) (columns : List Column) (left right : Scan) (predicate : Option Term)
    (padding : Option Padding) (select : List Term) : List (List V) :=
  let nulls := (padding.map (·.nulls)).getD []
  nestedLoop (padding.map (·.preserved)) (I.scanRows leaves σ [] left)
    (fun l => I.scanRows leaves σ l right) (I.scanRows leaves σ [] right)
    (fun l r => predicate.all fun p => I.holds (I.value (I.planReader leaves (l ++ r)) p))
    (fun l r => select.map (I.value (I.planReader leaves (l ++ r))))
    (I.padded leaves columns nulls select) (I.padded leaves columns nulls select)

/-- The rows that a step of a join appends to its table. -/
def joined (σ : Store V) : Populate → List (List V)
  | ⟨target, .loop _ left right predicate padding, none, none, none, select, []⟩ =>
    (σ target).elim [] fun t => I.loopRows leaves σ t.columns left right predicate padding select
  | _ => []

/-- Carries out a node. The joins of the block are given by `own`. All other steps belong to queries
    below the leaves, so that what they append is left open. -/
def runNode (own : Populate → Bool) (σ : Store V) : Node → Store V
  | .create table columns _ => σ.create table columns
  | .populate step => σ.append step.target
      (if own step then I.joined leaves σ step else I.appended σ (.populate step))
  | .aggregate step => σ.append step.target (I.appended σ (.aggregate step))
  | .setMatch step => σ.append step.target (I.appended σ (.setMatch step))
  | .rename table name => σ.expose table name

def run (own : Populate → Bool) (σ : Store V) (nodes : List Node) : Store V :=
  nodes.foldl (I.runNode leaves own) σ

variable {own : Populate → Bool}

theorem run_append (σ : Store V) (ns ns' : List Node) :
    I.run leaves own σ (ns ++ ns') = I.run leaves own (I.run leaves own σ ns) ns' :=
  List.foldl_append

/-- A table that no node writes stays as it is. -/
theorem run_of_unwritten {ns : List Node} {table : String} (h : ∀ n ∈ ns, n.written ≠ table)
    (σ : Store V) : I.run leaves own σ ns table = σ table := by
  refine foldl_of_unwritten (fun σ n t hne => ?_) h σ
  cases n with
  | create => exact σ.create_of_ne (Ne.symm hne) _
  | populate | aggregate | setMatch => exact σ.append_of_ne (Ne.symm hne) _
  | rename => exact σ.expose_of_ne (Ne.symm hne)

end Interpretation

/-! ## Clauses -/

/-- The terms that a block evaluates on the rows of its source: the filter, and then the fields and
    the order, or for a grouped block the keys and the arguments of its aggregates. -/
def sourceTerms (b : BoundSelect) (orderBy : List SortKey) : List Term :=
  if b.isGrouped then b.filter.toList ++ groupKeys b
    ++ (distinctAggregates (groupOutputs b orderBy)).flatMap (·.1.args)
  else b.filter.toList ++ b.fields.map (·.term) ++ orderBy.map (·.term)

/-- The scan of a step, and the terms it evaluates on the rows of that scan. -/
def Node.evaluates? : Node → Option (Scan × List Term)
  | .populate step => some (step.source,
      step.filter.toList ++ step.select ++ step.orderBy.map (·.term))
  | .aggregate step => some (step.source,
      step.filter.toList ++ step.keys ++ step.aggregates.flatMap (·.args))
  | _ => none

/-- The transition tables in a scan, each with the alias it is read under. -/
def Scan.tables : Scan → List (String × String)
  | .transition aliasName table => [(aliasName, table)]
  | .loop _ left right _ _ => left.tables ++ right.tables
  | .schema .. | .inMemory .. => []

/-- The transition tables that a step scans, each with the alias it is read under. -/
def Node.scans (n : Node) : List (String × String) :=
  n.evaluates?.elim [] fun (scan, _) => scan.tables

end SchemaQuery.Plan
