-- SUMMARY: A resolved query with a renamed output is as well formed as before, in all its operands.
import SchemaQuery.Proofs.Resolve.Output
import SchemaQuery.Sample.Catalog
import SchemaQuery.Sample.Query

/-!
# Renamed outputs of resolved queries

The declared columns of a common table expression rename the output of its query
by position. The names of an output are repeated in the fields of a select block,
in the keys of a set operator and in its order, and a set operator hands the new
names on to its operands, whose own names may be different ones. `RenamedAs` says
what has to agree in one query after all this. Main statement: it holds of the
renamed query and of each of its operands (`analyze_renamedOutput`).
-/

namespace SchemaQuery

/-! ## Renamed queries -/

/-- A body under new names: fields keep their terms, and keys are columns of the left operand, the
    same ones as before if the names are distinct. -/
def BoundBody.RenamedAs (names : List String) : BoundBody → BoundBody → Prop
  | .select s, .select s' =>
    s'.fields.map (·.name) = names ∧ s'.fields.map (·.term) = s.fields.map (·.term)
  | .setOperation _ keys left _, .setOperation _ keys' left' _ =>
    (∀ k ∈ keys', k ∈ left'.output.map (·.name)) ∧
      (names.Nodup → left'.positions keys' = left.positions keys)
  | _, _ => False

/-- The second query is the first under new names. -/
structure BoundQuery.RenamedAs (names : List String) (q q' : BoundQuery) : Prop where
  named : q'.output.map (·.name) = names
  columns : q'.output.map (fun c => (c.ordinal, c.type)) = q.output.map fun c => (c.ordinal, c.type)
  body : q.body.RenamedAs names q'.body
  /-- What the order reads from the output has the name it is read by. -/
  order : ∀ k ∈ q'.orderBy, ∀ name i type, .outputField name i type ∈ k.term.subterms →
    ∃ c, q'.output[i]? = some c ∧ c.name = name

/-! ## Keys -/

theorem renameKey_cons (c : Column) (cs : List Column) (n : String) (ns : List String)
    (key : String) :
    renameKey (c :: cs) (n :: ns) key = if c.name = key then n else renameKey cs ns key := by
  by_cases h : c.name = key <;> simp [renameKey, h]

/-- A key gets the new name at its position. -/
theorem renameKey_eq_getElem {cs : List Column} {names : List String} {key : String}
    (hlength : names.length = cs.length) (h : key ∈ cs.map (·.name)) :
    names[(cs.map (·.name)).idxOf key]? = some (renameKey cs names key) := by
  induction cs generalizing names with
  | nil => cases h
  | cons c cs ih =>
    cases names with
    | nil => cases hlength
    | cons n ns =>
      rw [renameKey_cons, List.map_cons, List.idxOf_cons]
      by_cases hc : c.name = key
      · simp [hc]
      · have hmem : key ∈ cs.map (·.name) := by simpa [Ne.symm hc] using h
        rw [if_neg hc, beq_false_of_ne hc, cond_false, List.getElem?_cons_succ]
        exact ih (Nat.succ.inj hlength) hmem

/-- Distinct new names keep the position of a key. -/
theorem idxOf_renameKey {cs : List Column} {names : List String} {key : String}
    (hlength : names.length = cs.length) (hnodup : names.Nodup) (h : key ∈ cs.map (·.name)) :
    names.idxOf (renameKey cs names key) = (cs.map (·.name)).idxOf key := by
  obtain ⟨hi, hkey⟩ := List.getElem?_eq_some_iff.1 (renameKey_eq_getElem hlength h)
  rw [← hkey, hnodup.idxOf_getElem]

/-! ## One query -/

theorem map_column_renameColumns (cs : List Column) (names : List String) :
    (renameColumns cs names).map (fun c => (c.ordinal, c.type)) =
      cs.map fun c => (c.ordinal, c.type) := by
  refine List.ext_getElem? fun i => ?_
  simp [getElem?_renameColumns, Function.comp_def, Column.rename]

theorem map_name_renameFields {fs : List Field} {names : List String}
    (h : names.length = fs.length) : (renameFields fs names).map (·.name) = names := by
  induction fs generalizing names with
  | nil =>
    obtain rfl := List.length_eq_zero_iff.1 h
    rfl
  | cons f fs ih =>
    cases names with
    | nil => cases h
    | cons n ns => rw [renameFields, List.map_cons, ih (Nat.succ.inj h)]

/-- A renamed set operator finds its keys in its left operand, where they stood before. -/
theorem Combines.renamedAs {keys names : List String} {left right : BoundQuery}
    {order : List SortKey} {output : List Column} (h : Combines keys left right order output)
    (hlength : names.length = output.length) (operator : SetOperator) :
    (BoundBody.setOperation operator keys left right).RenamedAs names
      ((BoundBody.setOperation operator keys left right).renameOutput names output) := by
  obtain rfl := h.columns
  have hnames : (left.renameOutput names).output.map (·.name) = names := by
    rw [BoundQuery.output_renameOutput, map_name_renameColumns hlength]
  rw [BoundBody.renameOutput]
  refine ⟨fun k hk => ?_, fun hnodup => ?_⟩
  · obtain ⟨key, hkey, rfl⟩ := List.mem_map.1 hk
    rw [hnames]
    exact renameKey_mem hlength (h.keys key hkey)
  · rw [BoundQuery.positions, BoundQuery.positions, hnames, List.map_map]
    exact List.map_congr_left fun key hkey => idxOf_renameKey hlength hnodup (h.keys key hkey)

theorem BoundQuery.Formed.renamedAs {q : BoundQuery} {names : List String} (h : q.Formed)
    (hlength : names.length = q.output.length)
    (hplain : ∀ s, q.body = .select s →
      ∀ k ∈ q.orderBy, ∀ u ∈ k.term.subterms, u.NotOutputField) :
    q.RenamedAs names (q.renameOutput names) := by
  obtain ⟨scope, ctes, body, orderBy, skip, take, output⟩ := q
  have hcolumns := map_column_renameColumns output names
  have hnamed : (renameColumns output names).map (·.name) = names := map_name_renameColumns hlength
  cases body with
  | select s =>
    have hfields : names.length = s.fields.length := by
      rw [hlength, show output = Resolve.outputColumns s.fields from h.gives]
      simp [Resolve.outputColumns, Column.number]
    refine ⟨hnamed, hcolumns, ⟨map_name_renameFields hfields, map_term_renameFields _ _⟩, ?_⟩
    -- the order of a block reads no output
    intro k hk name i type hread
    obtain ⟨k', hk', rfl⟩ := List.mem_map.1 hk
    have hnot := hplain s rfl k' hk'
    rw [SortKey.renameOutput_term names (hnot _ (Term.self_mem_subterms _))] at hread
    exact absurd rfl (hnot _ hread name i type)
  | setOperation operator keys left right =>
    have hcombines : Combines keys left right orderBy output := h.gives
    refine ⟨hnamed, hcolumns, hcombines.renamedAs hlength operator, ?_⟩
    intro k hk name i type hread
    obtain ⟨k', hk', rfl⟩ := List.mem_map.1 hk
    obtain ⟨c, hc, hterm⟩ := (hcombines.order k' hk').rename hlength
    rw [hterm] at hread
    cases List.mem_singleton.1 hread
    exact ⟨c, hc, rfl⟩

/-! ## Resolved queries -/

namespace Resolve

variable {env : Env} {q : Query} {a : Analysis} {requests : List TableRequest}

/-- The order of a select block reads no output of a set operator. -/
theorem analyze_order_plain (h : analyze env q = (.ok a, requests)) {p : BoundQuery}
    (hp : p ∈ a.query.queries) {s : BoundSelect} (hs : p.body = .select s) :
    ∀ k ∈ p.orderBy, ∀ u ∈ k.term.subterms, u.NotOutputField := by
  rintro k hk u hu name i type rfl
  have hsealed : Sealed (fun _ => True) a.scopes 0 a.scopes.all.length a.query.queries :=
    (analyze_sealed (fun _ => trivial) (fun _ _ => trivial) h).2.1
  have hmem : s.block p.orderBy ∈ BoundQuery.blocksOf a.query.queries :=
    List.mem_filterMap.2 ⟨p, hp, by rw [hs]; rfl⟩
  have hterm : k.term ∈ (s.block p.orderBy).outputs :=
    List.mem_append_right _ (List.mem_map_of_mem hk)
  exact (hsealed.blocks _ hmem).2.2.reads _ (List.mem_append_right _ hterm) _ hu

/-- Renaming the output of any query in a resolved one, by as many names as it has columns, gives
    the query and each of its operands under these names. -/
theorem analyze_renamedOutput (h : analyze env q = (.ok a, requests)) {p : BoundQuery}
    (hp : p ∈ a.query.queries) {names : List String} (hlength : names.length = p.output.length) :
    List.Forall₂ (BoundQuery.RenamedAs names) (p :: p.operands)
      (p.renameOutput names :: (p.renameOutput names).operands) := by
  have hqueries : p.queries ⊆ a.query.queries := a.query.queries_closed p hp
  have hformed := analyze_formed h
  have hrenamed {o : BoundQuery} (ho : o ∈ p.queries) (hcolumns : names.length = o.output.length) :
      o.RenamedAs names (o.renameOutput names) :=
    (hformed o (hqueries ho)).renamedAs hcolumns fun s hs => analyze_order_plain h (hqueries ho) hs
  rw [BoundQuery.operands_renameOutput]
  refine .cons (hrenamed p.self_mem_queries hlength) ?_
  rw [List.forall₂_map_right_iff, List.forall₂_same]
  intro o ho
  refine hrenamed (p.operands_subset_queries ho) (hlength.trans ?_)
  exact (p.length_output_operands (fun q' hq' => hformed q' (hqueries hq')) o ho).symm

/-- Stands for `select Name, City from #A.entities() a union (Name) select Name, City from
    #A.entities() b except (City) select Country, Name from #A.entities() c order by Name` -/
def unlikeOperands : Query :=
  (Query.combine .except (Sample.combined .union) (.ofSelect (((Select.empty.addExpr
    (.identifier "Country")).addExpr (.identifier "Name")).withSource (Sample.entitiesAs "c")))
      ["City"]).withOrder [⟨.identifier "Name", .asc⟩]

/-- The two names of the output change places, in four operands with other names and keys. -/
theorem analyze_renamedOutput_unlikeOperands :
    ∃ a requests, analyze ⟨Sample.catalog, default⟩ unlikeOperands = (.ok a, requests) ∧
      a.query.output.map (·.name) = ["Name", "City"] ∧ a.query.operands.length = 4 ∧
      List.Forall₂ (BoundQuery.RenamedAs ["City", "Name"]) (a.query :: a.query.operands)
        (a.query.renameOutput ["City", "Name"] ::
          (a.query.renameOutput ["City", "Name"]).operands) := by
  obtain ⟨a, requests, h, hcheck⟩ := exists_ok_of_check
    (analyze ⟨Sample.catalog, default⟩ unlikeOperands)
    (fun a => decide (a.query.output.map (fun c => c.name) = ["Name", "City"] ∧
      a.query.operands.length = 4)) (by decide +kernel)
  obtain ⟨hnames, hoperands⟩ := of_decide_eq_true hcheck
  have hlength : ["City", "Name"].length = a.query.output.length := by
    simpa using (congrArg List.length hnames).symm
  exact ⟨a, requests, h, hnames, hoperands,
    analyze_renamedOutput h a.query.self_mem_queries hlength⟩

end Resolve

end SchemaQuery
