-- SUMMARY: The values of grouped outputs: read from the row of a group they are those of its rows.
import SchemaQuery.Proofs.Plan.Regroup
import SchemaQuery.Proofs.Term.Alike

/-!
# Values of groups

An output of a grouped block is written over the rows of the source and read from
the single row of the group. `onRow` gives it a value on a row of the group,
`onGroup` gives the term that `regroup` makes of it a value without any row. The
two agree for every way to evaluate nodes (`regroup_value`), as long as terms with
the same value are evaluated alike.
-/

namespace SchemaQuery

namespace Term

/-- Whether a node stands for something that neither its parts nor a column give: it is handed a
    row, or belongs to a result, a table or a group. -/
def isForeign : Term → Bool
  | .outputField .. | .tableColumn .. | .groupField .. => true
  | .call method _ _ => method.sourceAlias.isSome
  | _ => false

/-- Whether the value of a node depends on the row at hand. -/
def readsRow (t : Term) : Bool := t.columnAlias?.isSome || t.isForeign

theorem readsRow_of_label {t t' : Term} (h : t.label = t'.label) : t.readsRow = t'.readsRow := by
  have hlabel (u : Term) : u.label.readsRow = u.readsRow := by cases u <;> rfl
  rw [← hlabel t, h, hlabel]

theorem isAggregate_of_label {t t' : Term} (h : t.label = t'.label) :
    t.isAggregate = t'.isAggregate := by
  have hlabel (u : Term) : u.label.isAggregate = u.isAggregate := by cases u <;> rfl
  rw [← hlabel t, h, hlabel]

theorem accumulator?_eq_none {t : Term} : t.accumulator? = none ↔ t.isAggregate = false := by
  cases t <;> simp [accumulator?, isAggregate]

/-- Nodes that are the same read the row or not alike, and share their accumulator. -/
theorem SameNode.readsRow_accumulator {t t' : Term} (h : SameNode t t') :
    t.readsRow = t'.readsRow ∧ t.accumulator? = t'.accumulator? := by
  cases t <;> cases t' <;> first
    | exact ⟨rfl, rfl⟩
    | exact absurd h Bool.false_ne_true
    | simp_all [SameNode, label, sameValue, readsRow, columnAlias?, isForeign, accumulator?]

end Term

namespace Plan

/-! ## Evaluators -/

/-- A way to evaluate terms node by node, over rows and over groups of them. -/
structure Evaluator (Row Group V : Type) where
  /-- The value of a node from the values of its parts. -/
  node : Term → List V → V
  /-- The value of a node that depends on a row as well. -/
  reading : Row → Term → List V → V
  /-- The value of an accumulator for a group. -/
  accumulated : Group → String → V

namespace Evaluator

variable {Row Group V : Type}

/-- The value of a term on a row of a group; aggregates have the value of the group. -/
def onRow (E : Evaluator Row Group V) (group : Group) (row : Row) (t : Term) : V :=
  match t.accumulator? with
  | some name => E.accumulated group name
  | none =>
    let parts := t.children.attach.map fun c => E.onRow group row c.1
    if t.readsRow then E.reading row t.label parts else E.node t.label parts
termination_by sizeOf t
decreasing_by exact Term.sizeOf_lt_of_mem_children c.2

/-- A value that stands in the row of a group in the given table, where `keys` are the values of its
    keys. -/
def cell? (E : Evaluator Row Group V) (group : Group) (table : String) (keys : List V) :
    Term → Option V
  | .groupField index _ => keys[index]?
  | .tableColumn t name _ => if t = table then some (E.accumulated group name) else none
  | _ => none

/-- The value of a term on the row of a group. There is none when the term needs a row of the
    source. -/
def onGroup (E : Evaluator Row Group V) (group : Group) (table : String) (keys : List V)
    (t : Term) : Option V :=
  if t.readsRow || t.isAggregate then E.cell? group table keys t
  else (t.children.attach.mapM fun c => E.onGroup group table keys c.1).map (E.node t.label)
termination_by sizeOf t
decreasing_by exact Term.sizeOf_lt_of_mem_children c.2

/-- Terms with the same value are evaluated alike. -/
def KeepsSameValue (E : Evaluator Row Group V) : Prop :=
  ∀ group row t t', Term.sameValue t t' = true → E.onRow group row t = E.onRow group row t'

variable {E : Evaluator Row Group V} {group : Group} {row : Row} {table : String} {keys : List V}
  {t : Term}

theorem onRow_aggregate {name : String} (h : t.accumulator? = some name) :
    E.onRow group row t = E.accumulated group name := by
  rw [onRow, h]

theorem onRow_of_parts (h : t.accumulator? = none) :
    E.onRow group row t =
      if t.readsRow then E.reading row t.label (t.children.map (E.onRow group row))
      else E.node t.label (t.children.map (E.onRow group row)) := by
  rw [onRow, h]
  simp only [List.map_attach_eq_pmap, List.pmap_eq_map]

theorem onGroup_of_cell (h : t.readsRow = true) :
    E.onGroup group table keys t = E.cell? group table keys t := by
  rw [onGroup, h]
  rfl

theorem option_mapM_of_forall₂ {α β : Type} {f : α → Option β} {as : List α} {bs : List β}
    (h : List.Forall₂ (fun a b => f a = some b) as bs) : as.mapM f = some bs := by
  induction h with
  | nil => rfl
  | cons ha _ ih => simp [List.mapM_cons, ha, ih]

/-- A node whose parts have values on the row of a group has one there as well. -/
theorem onGroup_of_parts (h : t.readsRow = false) (hagg : t.isAggregate = false) {values : List V}
    (hparts : List.Forall₂ (fun c v => E.onGroup group table keys c = some v) t.children values) :
    E.onGroup group table keys t = some (E.node t.label values) := by
  have hvalues : (t.children.attach.mapM fun c => E.onGroup group table keys c.1) = some values := by
    refine option_mapM_of_forall₂ ?_
    rw [← List.attach_map_subtype_val t.children, List.forall₂_map_left_iff] at hparts
    exact hparts
  rw [onGroup, h, hagg, hvalues]
  rfl

/-- Terms with the same value are evaluated alike when nodes are. -/
theorem keepsSameValue_of_nodes
    (hnode : ∀ t t' parts, Term.SameNode t t' → E.node t.label parts = E.node t'.label parts)
    (hreading : ∀ row t t' parts, Term.SameNode t t' →
      E.reading row t.label parts = E.reading row t'.label parts) : E.KeepsSameValue := by
  intro group row t t' h
  rw [Term.sameValue_iff_alike] at h
  induction h with
  | @node t t' hsame hlength _ ih =>
    have hparts : t.children.map (E.onRow group row) = t'.children.map (E.onRow group row) := by
      rw [← List.forall₂_eq_eq_eq, List.forall₂_map_left_iff, List.forall₂_map_right_iff]
      exact List.forall₂_iff_zip.2 ⟨hlength, fun h => ih _ _ h⟩
    obtain ⟨hreads, haccumulator⟩ := Term.SameNode.readsRow_accumulator hsame
    cases hname : t.accumulator? with
    | some name => rw [onRow_aggregate hname, onRow_aggregate (haccumulator ▸ hname)]
    | none =>
      rw [onRow_of_parts hname, onRow_of_parts (haccumulator ▸ hname), hreads, hparts,
        hnode t t' _ hsame, hreading row t t' _ hsame]

end Evaluator

/-! ## Regrouped terms -/

/-- A term that is neither a key nor an aggregate keeps its node. -/
theorem label_regroupTerm {keys : List Term} (table : String) {t : Term}
    (h : Resolve.isKey keys t = false) (hagg : t.isAggregate = false) :
    (regroupTerm keys table t).label = t.label := by
  unfold regroupTerm
  rw [findIdx?_not_key h]
  cases t with
  | aggregate => cases hagg
  | case branches otherwise => cases otherwise <;> rfl
  | _ => rfl

section

variable {Row Group V : Type} {E : Evaluator Row Group V} {keys : List Term} {table : String}
  {group : Group} {values : List V}

/-- Read from the row of its group, a term has the value it has on a row of the group. The induction
    stops at keys, whose value is that of the field, and at aggregates. -/
theorem onGroup_regroupTerm {row : Row} (hsame : E.KeepsSameValue)
    (hvalues : keys.map (E.onRow group row) = values) (t : Term) :
    Resolve.checkGrouped keys t = .ok () → (∀ u ∈ t.subterms, u.isForeign = false) →
    E.onGroup group table values (regroupTerm keys table t) = some (E.onRow group row t) := by
  induction t using Term.childInduction with
  | step t ih =>
    intro hchecked hplain
    obtain ⟨hself, hparts⟩ := Term.forall_subterms.1 hplain
    cases hkey : Resolve.isKey keys t with
    | true =>
      obtain ⟨i, k, hk, hkt, hread⟩ : ∃ i k, keys[i]? = some k ∧ k.sameValue t = true ∧
          regroupTerm keys table t = .groupField i t.type := regroupTerm_key hkey
      have hi : values[i]? = some (E.onRow group row k) := by simp [← hvalues, hk]
      rw [hread, E.onGroup_of_cell rfl, ← hsame group row k t hkt]
      exact hi
    | false =>
      cases hname : t.accumulator? with
      | some name =>
        obtain ⟨m, args, type, rfl⟩ : ∃ m args type, t = .aggregate m args type := by
          cases t with
          | aggregate m args type => exact ⟨m, args, type, rfl⟩
          | _ => cases hname
        rw [regroupTerm_aggregate hkey, E.onGroup_of_cell rfl, E.onRow_aggregate rfl]
        exact if_pos rfl
      | none =>
        have hagg : t.isAggregate = false := Term.accumulator?_eq_none.1 hname
        obtain ⟨hcolumn, hchecked⟩ := (Resolve.checkGrouped_children hkey hagg).1 hchecked
        have hreads : t.readsRow = false := by simp [Term.readsRow, hcolumn, hself]
        have hlabel := label_regroupTerm table hkey hagg
        obtain ⟨-, hchildren⟩ : _ ∧ (regroupTerm keys table t).children = _ :=
          regroupTerm_children hkey hagg
        rw [E.onRow_of_parts hname, hreads, ← hlabel]
        refine E.onGroup_of_parts ?_ ?_ ?_
        · rw [Term.readsRow_of_label hlabel, hreads]
        · rw [Term.isAggregate_of_label hlabel, hagg]
        · rw [hchildren, List.forall₂_map_left_iff, List.forall₂_map_right_iff, List.forall₂_same]
          exact fun c hc => ih c hc (hchecked c hc) (hparts c hc)

/-- The outputs of a grouped block keep their values: an output that was accepted is read from the
    row of its group, for every way to evaluate terms, with the value it has on any row of the
    group. -/
theorem regroup_value [Membership Row Group] (hsame : E.KeepsSameValue) {t : Term}
    (hchecked : Resolve.checkGrouped keys t = .ok ())
    (hplain : ∀ u ∈ t.subterms, u.isForeign = false)
    (hvalues : ∀ row ∈ group, keys.map (E.onRow group row) = values) :
    (∃ grouped, regroup keys table t = .ok grouped ∧
      ∀ row ∈ group, E.onGroup group table values grouped = some (E.onRow group row t)) ∧
    ∀ row ∈ group, ∀ row' ∈ group, E.onRow group row t = E.onRow group row' t := by
  have hread : ∀ row ∈ group, E.onGroup group table values (regroupTerm keys table t) =
      some (E.onRow group row t) :=
    fun row hrow => onGroup_regroupTerm hsame (hvalues row hrow) t hchecked hplain
  refine ⟨⟨_, regroup_of_grouped hchecked, hread⟩, fun row hrow row' hrow' => ?_⟩
  exact Option.some.inj ((hread row hrow).symm.trans (hread row' hrow'))

end

/-! ## A census -/

/-- Rows with a district and a head count, where operators add and aggregates total the counts. -/
def census : Evaluator (Int × Int) (List (Int × Int)) Int where
  node _ parts := parts.foldr (· + ·) 0
  reading row t _ := match t with
    | .column _ name _ _ _ => if name = "District" then row.1 else row.2
    | _ => 0
  accumulated group _ := group.foldr (·.2 + ·) 0

theorem census_keepsSameValue : census.KeepsSameValue := by
  refine Evaluator.keepsSameValue_of_nodes (fun _ _ _ _ => rfl) fun row t t' parts h => ?_
  cases t <;> cases t' <;> first
    | rfl
    | exact absurd h Bool.false_ne_true
    | simp_all [Term.SameNode, Term.label, Term.sameValue, census]

/-- The column `a.District`. -/
def district (qualify : Bool) : Term := .column "a" "District" 0 qualify .int

/-- The aggregate `Sum(a.Heads)`. -/
def totalHeads : Term :=
  .aggregate ⟨"Sum", none, "Sum(a.Heads)", "Sum(int)"⟩ [.column "a" "Heads" 1 true .int] .int

/-- Two rows of district 3, grouped by `a.District`; the output is `District + Sum(a.Heads)`. -/
theorem regroup_value_census :
    (∃ grouped, regroup [district true] "__t0_group" (.binary .add (district false) totalHeads .int)
        = .ok grouped ∧
      ∀ row ∈ [(3, 5), (3, 7)], census.onGroup [(3, 5), (3, 7)] "__t0_group" [3] grouped =
        some (census.onRow [(3, 5), (3, 7)] row (.binary .add (district false) totalHeads .int))) ∧
    ∀ row ∈ [(3, 5), (3, 7)], ∀ row' ∈ [(3, 5), (3, 7)],
      census.onRow [(3, 5), (3, 7)] row (.binary .add (district false) totalHeads .int) =
        census.onRow [(3, 5), (3, 7)] row' (.binary .add (district false) totalHeads .int) := by
  refine regroup_value census_keepsSameValue (by decide) (by decide) fun row hrow => ?_
  have hdistrict : row.1 = 3 := by simp at hrow; rcases hrow with rfl | rfl <;> rfl
  rw [List.map_singleton, Evaluator.onRow_of_parts rfl]
  exact congrArg (fun v => [v]) hdistrict

end Plan

end SchemaQuery
