-- SUMMARY: Carrying out the nodes of a plan, for any evaluation of terms and any content of the sources.
import Mathlib.Data.List.Sort
import Mathlib.Logic.Function.Basic
import SchemaQuery.Proofs.Plan.Filled
import SchemaQuery.Proofs.Plan.Semantics

/-!
# Engines

An `Engine` carries out all nodes of a plan. The tables that were created are
filled as the nodes say, and a rename puts a table in the place of whatever had
the name before. Everything else is up to the engine: the rows of other sources,
the values of terms, how values compare, and how groups are made.
-/

namespace SchemaQuery.Plan

variable {V : Type}

/-! ## Rows -/

/-- The values of some columns in a row. -/
def Table.key (t : Table V) (names : List String) (values : List V) : List V :=
  names.filterMap (t.row values)

theorem lookup_zip {name : String} {names : List String} (h : name ∈ names) (values : List V) :
    (names.zip values).lookup name = values[names.idxOf name]? := by
  induction names generalizing values with
  | nil => cases h
  | cons n names ih =>
    cases values with
    | nil => simp
    | cons v values =>
      rw [List.zip_cons_cons]
      by_cases hn : name = n
      · subst hn
        simp
      · rw [List.lookup_cons, List.idxOf_cons_ne _ (Ne.symm hn), beq_eq_false_iff_ne.2 hn,
          List.getElem?_cons_succ]
        exact ih ((List.mem_cons.1 h).resolve_left hn) values

theorem Table.row_eq {t : Table V} {name : String} (h : name ∈ t.columns.map (·.name))
    (values : List V) : t.row values name = values[(t.columns.map (·.name)).idxOf name]? :=
  lookup_zip h values

/-- With distinct names, a column is found at its own position. -/
theorem Table.row_getElem {t : Table V} (hnames : (t.columns.map (·.name)).Nodup) {i : Nat}
    {c : Column} (hc : t.columns[i]? = some c) (values : List V) :
    t.row values c.name = values[i]? := by
  have hname : (t.columns.map (·.name))[i]? = some c.name := by rw [List.getElem?_map, hc]; rfl
  rw [t.row_eq (List.mem_of_getElem? hname)]
  obtain ⟨hi, hget⟩ := List.getElem?_eq_some_iff.1 hname
  rw [← hget, hnames.idxOf_getElem]

/-! ## Steps -/

/-- A row at hand, by the values that terms have on it. -/
abbrev Valuation (V : Type) := Term → V

/-- What a plan leaves open. -/
structure Engine (V : Type) where
  /-- The rows of a scan that reads no created table. -/
  scan : Store V → Scan → List (Valuation V)
  /-- The value of a term on a row of a created table, except for the columns of that table. -/
  eval : (String → Option V) → Valuation V
  /-- Whether a value counts as true. -/
  holds : V → Bool
  compare : V → V → Ordering
  /-- Whether two values of a key are equal. -/
  same : V → V → Bool
  /-- The rows of the groups of a grouping step. -/
  groups : Store V → Aggregate → List (List V)

/-- The rows left after some were skipped and the next were taken. -/
def page {R : Type} (skip take : Option Nat) (rows : List R) : List R :=
  take.elim (rows.drop (skip.getD 0)) fun n => (rows.drop (skip.getD 0)).take n

theorem map_page {R S : Type} (f : R → S) (skip take : Option Nat) (rows : List R) :
    (page skip take rows).map f = page skip take (rows.map f) := by
  cases take <;> simp [page, List.map_drop, List.map_take]

theorem mem_of_mem_page {R : Type} {skip take : Option Nat} {rows : List R} {r : R}
    (h : r ∈ page skip take rows) : r ∈ rows := by
  cases take with
  | none => exact List.mem_of_mem_drop h
  | some n => exact List.mem_of_mem_drop (List.mem_of_mem_take h)

/-- An order read in a direction. -/
def towards : Direction → Ordering → Ordering
  | .asc, o => o
  | .desc, o => o.swap

namespace Engine

variable (E : Engine V)

/-- Whether a row with the first values may stand before one with the second. -/
def mayPrecede : List Direction → List V → List V → Bool
  | d :: ds, v :: vs, w :: ws =>
    match towards d (E.compare v w) with
    | .lt => true
    | .eq => mayPrecede ds vs ws
    | .gt => false
  | _, _, _ => true

/-- Rows sorted by some values. Rows with equal values keep their order. -/
def sorted {R : Type} (directions : List Direction) (values : R → List V) (rows : List R) :
    List R :=
  rows.insertionSort fun r r' => E.mayPrecede directions (values r) (values r')

/-- A row of a created table. -/
def valuation (table : String) (row : String → Option V) : Valuation V
  | .tableColumn t name type =>
    if t = table then (row name).getD (E.eval row (.tableColumn t name type))
    else E.eval row (.tableColumn t name type)
  | t => E.eval row t

/-- The rows that a scan gives. -/
def scanned (m : Store V) : Scan → List (Valuation V)
  | .transition aliasName table =>
    match m table with
    | some t => t.rows.map fun values => E.valuation table (t.row values)
    | none => E.scan m (.transition aliasName table)
  | s => E.scan m s

/-- The rows that a step appends to its target. -/
def populated (m : Store V) (s : Populate) : List (List V) :=
  let passing := (E.scanned m s.source).filter fun ρ => s.filter.all fun p => E.holds (ρ p)
  let ordered := E.sorted (s.orderBy.map (·.direction)) (fun ρ => s.orderBy.map (ρ ·.term)) passing
  (page s.skip s.take ordered).map fun ρ => s.select.map ρ

/-- Whether two keys are equal, value by value. -/
def sameKey (ks ks' : List V) : Bool :=
  ks.length == ks'.length && (ks.zip ks').all fun p => E.same p.1 p.2

/-- Whether the key of a row is found in the probed table. -/
def found (m : Store V) (s : SetMatch) (source : Table V) (row : List V) : Bool :=
  (m s.probe).any fun probe => probe.rows.any fun r =>
    E.sameKey (probe.key s.keyColumns r) (source.key s.keyColumns row)

/-- Appends a row if its key is found, or not found, as expected. -/
def matchRow (s : SetMatch) (source : Table V) (m : Store V) (row : List V) : Store V :=
  if E.found m s source row = (s.expected == .present) then m.append s.target [row] else m

/-- Goes through the rows of the source. Rows that are appended to the probed table take part in
    later probes. -/
def matched (m : Store V) (s : SetMatch) : Store V :=
  match m s.source with
  | some source => source.rows.foldl (E.matchRow s source) m
  | none => m

/-- Carries out a node. -/
def step (m : Store V) : Node → Store V
  | .create table columns _ => m.create table columns
  | .populate s => m.append s.target (E.populated m s)
  | .aggregate s => m.append s.target (E.groups m s)
  | .setMatch s => E.matched m s
  | .rename table name => m.expose table name

def run (m : Store V) (ns : List Node) : Store V := ns.foldl E.step m

variable {E} {m : Store V} {t : String}

@[simp] theorem run_nil : E.run m [] = m := rfl

@[simp] theorem run_cons (n : Node) (ns : List Node) :
    E.run m (n :: ns) = E.run (E.step m n) ns := rfl

@[simp] theorem run_append (ns ns' : List Node) : E.run m (ns ++ ns') = E.run (E.run m ns) ns' :=
  List.foldl_append

/-! ## Values and order -/

/-- The value of a column in a row of a table with distinct names. -/
theorem valuation_column {table : String} {t : Table V} (hnames : (t.columns.map (·.name)).Nodup)
    {i : Nat} {c : Column} (hc : t.columns[i]? = some c) {values : List V} {v : V}
    (hv : values[i]? = some v) (type : DataType) :
    E.valuation table (t.row values) (.tableColumn table c.name type) = v := by
  simp [valuation, t.row_getElem hnames hc, hv]

/-- The columns of a row, one after the other, are the row. -/
theorem map_valuation_columns {table : String} {t : Table V}
    (hnames : (t.columns.map (·.name)).Nodup) {values : List V}
    (hwidth : values.length = t.columns.length) :
    t.columns.map (fun c => E.valuation table (t.row values) (.tableColumn table c.name c.type)) =
      values := by
  refine List.ext_getElem (by simp [hwidth]) fun i hi hi' => ?_
  rw [List.getElem_map]
  exact valuation_column hnames (List.getElem?_eq_getElem _) (List.getElem?_eq_getElem hi') _

theorem map_sorted {R S : Type} {f : R → S} {ds : List Direction} {values : S → List V}
    {values' : R → List V} {rows : List R} (h : ∀ r ∈ rows, values (f r) = values' r) :
    (E.sorted ds values' rows).map f = E.sorted ds values (rows.map f) :=
  List.map_insertionSort _ _ _ _ fun r hr r' hr' => by rw [h r hr, h r' hr']

theorem sorted_nil {R : Type} (values : R → List V) (rows : List R) :
    E.sorted [] values rows = rows :=
  List.Pairwise.insertionSort_eq (List.pairwise_of_forall fun _ _ => rfl)

/-! ## What stays as it is -/

theorem matchRow_of_ne {s : SetMatch} (h : t ≠ s.target) (source : Table V) (row : List V) :
    E.matchRow s source m row t = m t := by
  unfold matchRow
  split
  · exact m.append_of_ne h _
  · rfl

theorem matchRows_of_ne {s : SetMatch} (h : t ≠ s.target) (source : Table V)
    (rows : List (List V)) : rows.foldl (E.matchRow s source) m t = m t := by
  induction rows generalizing m with
  | nil => rfl
  | cons row rows ih => rw [List.foldl_cons, ih, matchRow_of_ne h]

/-- A table that no node writes keeps its rows. -/
theorem run_of_unwritten {ns : List Node} (h : ∀ n ∈ ns, n.written ≠ t) :
    E.run m ns t = m t := by
  refine foldl_of_unwritten (fun m n t hne => ?_) h m
  cases n with
  | create => exact m.create_of_ne (Ne.symm hne) _
  | populate | aggregate => exact m.append_of_ne (Ne.symm hne) _
  | setMatch s =>
    simp only [step, matched]
    cases m s.source with
    | some source => exact matchRows_of_ne (Ne.symm hne) _ _
    | none => rfl
  | rename => exact m.expose_of_ne (Ne.symm hne)

end Engine

end SchemaQuery.Plan
