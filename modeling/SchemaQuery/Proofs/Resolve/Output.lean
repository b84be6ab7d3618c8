-- SUMMARY: The outputs of resolved queries: numbered columns, operands of equal types, keys and order found in the output.
import SchemaQuery.Proofs.Resolve.Query

/-!
# Outputs of resolved queries

The columns of a result are numbered by position. The output of a select block is
that of its fields. A set operator has the output of its left operand; the types
of the right one are the same, the keys are columns of the output, and so is all
that the result is ordered by. Renaming the output by declared columns keeps these
facts, so they hold of every query in a resolved one (`analyze_formed`).
-/

namespace SchemaQuery

/-! ## Formed queries -/

/-- Every column stands at the position it names. -/
def Numbered (columns : List Column) : Prop :=
  ∀ (i : Nat) (c : Column), columns[i]? = some c → c.ordinal = i

/-- A sort key that reads a column of the output. -/
def SortKey.ReadsOutput (output : List Column) (k : SortKey) : Prop :=
  ∃ c : Column, output[c.ordinal]? = some c ∧ k.term = .outputField c.name c.ordinal c.type

/-- What a set operator asks of its operands and keys, with the output and the order it gives. -/
structure Combines (keys : List String) (left right : BoundQuery) (order : List SortKey)
    (output : List Column) : Prop where
  columns : output = left.output
  types : right.output.map (·.type) = left.output.map (·.type)
  hasKeys : keys ≠ []
  keys : ∀ k ∈ keys, k ∈ left.output.map (·.name)
  order : ∀ k ∈ order, k.ReadsOutput output

theorem Combines.length_eq {keys : List String} {left right : BoundQuery} {order : List SortKey}
    {output : List Column} (h : Combines keys left right order output) :
    left.output.length = output.length ∧ right.output.length = output.length := by
  have htypes := congrArg List.length h.types
  rw [List.length_map, List.length_map, ← h.columns] at htypes
  exact ⟨h.columns ▸ rfl, htypes⟩

/-- The output that a body gives. -/
def BoundBody.Gives (order : List SortKey) (output : List Column) : BoundBody → Prop
  | .select s => output = Resolve.outputColumns s.fields
  | .setOperation _ keys left right => Combines keys left right order output

structure BoundQuery.Formed (q : BoundQuery) : Prop where
  numbered : Numbered q.output
  gives : q.body.Gives q.orderBy q.output

theorem Numbered.number (defs : List (String × DataType)) : Numbered (Column.number defs) := by
  intro i c h
  simp only [Column.number, List.getElem?_map, List.getElem?_zipIdx, Option.map_map,
    Option.map_eq_some_iff, Nat.zero_add] at h
  obtain ⟨d, -, rfl⟩ := h
  rfl

/-! ## Renamed outputs -/

/-- A column under another name, if there is one. -/
def Column.rename (c : Column) (name : Option String) : Column :=
  { c with name := name.getD c.name }

theorem getElem?_renameColumns (cs : List Column) (names : List String) (i : Nat) :
    (renameColumns cs names)[i]? = cs[i]?.map fun c => c.rename names[i]? := by
  induction cs generalizing names i with
  | nil => simp [renameColumns]
  | cons c cs ih =>
    cases names with
    | nil => simp [renameColumns, Column.rename]
    | cons n ns =>
      cases i with
      | zero => rfl
      | succ i => simpa [renameColumns] using ih ns i

theorem getElem?_renameFields (fs : List Field) (names : List String) (i : Nat) :
    (renameFields fs names)[i]? = fs[i]?.map fun f => ⟨names[i]?.getD f.name, f.term⟩ := by
  induction fs generalizing names i with
  | nil => simp [renameFields]
  | cons f fs ih =>
    cases names with
    | nil => simp [renameFields]
    | cons n ns =>
      cases i with
      | zero => rfl
      | succ i => simpa [renameFields] using ih ns i

theorem map_type_renameColumns (cs : List Column) (names : List String) :
    (renameColumns cs names).map (·.type) = cs.map (·.type) := by
  refine List.ext_getElem? fun i => ?_
  simp [getElem?_renameColumns, Function.comp_def, Column.rename]

theorem map_name_renameColumns {cs : List Column} {names : List String}
    (h : names.length = cs.length) : (renameColumns cs names).map (·.name) = names := by
  refine List.ext_getElem? fun i => ?_
  rw [List.getElem?_map, getElem?_renameColumns]
  cases hn : names[i]? with
  | none =>
    have hc : cs[i]? = none := by
      rw [List.getElem?_eq_none_iff] at hn ⊢
      omega
    rw [hc]
    rfl
  | some n =>
    obtain ⟨hi, -⟩ := List.getElem?_eq_some_iff.1 hn
    rw [List.getElem?_eq_getElem (h ▸ hi)]
    rfl

theorem outputColumns_renameFields (fs : List Field) (names : List String) :
    Resolve.outputColumns (renameFields fs names) =
      renameColumns (Resolve.outputColumns fs) names := by
  refine List.ext_getElem? fun i => ?_
  simp [Resolve.outputColumns, Column.number, getElem?_renameFields, getElem?_renameColumns,
    Function.comp_def, Column.rename]

theorem Numbered.rename {cs : List Column} (h : Numbered cs) (names : List String) :
    Numbered (renameColumns cs names) := by
  intro i c hc
  rw [getElem?_renameColumns, Option.map_eq_some_iff] at hc
  obtain ⟨d, hd, rfl⟩ := hc
  exact h i d hd

/-- A renamed key is a renamed column. -/
theorem renameKey_mem {cs : List Column} {names : List String} {key : String}
    (hlength : names.length = cs.length) (h : key ∈ cs.map (·.name)) :
    renameKey cs names key ∈ names := by
  obtain ⟨i, hi, hkey⟩ := List.mem_iff_getElem.1 h
  have hin : i < names.length := by simpa [hlength] using hi
  have hpair : (key, names[i]) ∈ (cs.map (·.name)).zip names := by
    refine List.mem_iff_getElem.2 ⟨i, ?_, ?_⟩
    · simpa [hlength] using hi
    · simp [← hkey]
  unfold renameKey
  split
  · rename_i k n hfind
    exact (List.of_mem_zip (List.mem_of_find?_eq_some hfind)).2
  · rename_i hfind
    simpa using List.find?_eq_none.1 hfind _ hpair

theorem SortKey.ReadsOutput.rename {cs : List Column} {k : SortKey} (h : k.ReadsOutput cs)
    {names : List String} (hlength : names.length = cs.length) :
    (k.renameOutput names).ReadsOutput (renameColumns cs names) := by
  obtain ⟨c, hc, hterm⟩ := h
  obtain ⟨hi, -⟩ := List.getElem?_eq_some_iff.1 hc
  have hn : names[c.ordinal]? = some (names[c.ordinal]) := List.getElem?_eq_getElem (hlength ▸ hi)
  refine ⟨c.rename names[c.ordinal]?, ?_, ?_⟩
  · change (renameColumns cs names)[c.ordinal]? = _
    rw [getElem?_renameColumns, hc]
    rfl
  · simp only [SortKey.renameOutput, hterm, hn, Column.rename, Option.getD_some]

namespace BoundQuery

@[simp] theorem output_renameOutput (names : List String) (q : BoundQuery) :
    (q.renameOutput names).output = renameColumns q.output names := by
  cases q
  rfl

theorem formed_renameOutput (names : List String) : ∀ q : BoundQuery,
    (∀ q' ∈ q.queries, q'.Formed) → names.length = q.output.length →
    ∀ q' ∈ (q.renameOutput names).queries, q'.Formed
  | ⟨scope, ctes, .select s, orderBy, skip, take, output⟩, h, hlength => by
    rw [queries_eq, List.forall_mem_cons] at h
    rw [renameOutput, BoundBody.renameOutput, queries_eq, List.forall_mem_cons]
    refine ⟨⟨h.1.numbered.rename names, ?_⟩, ?_⟩
    · have hgives : output = Resolve.outputColumns s.fields := h.1.gives
      simp only [BoundBody.Gives, hgives, outputColumns_renameFields]
    · simpa [BoundBody.queries_select] using h.2
  | ⟨scope, ctes, .setOperation operator keys left right, orderBy, skip, take, output⟩, h,
      hlength => by
    rw [queries_eq, List.forall_mem_cons] at h
    obtain ⟨⟨hnumbered, hgives⟩, h⟩ := h
    have hcombines : Combines keys left right orderBy output := hgives
    simp only [BoundBody.queries_setOperation, List.forall_mem_append] at h
    obtain ⟨hctes, hleft, hright⟩ := h
    have houtput : output = left.output := hcombines.columns
    have hlengthl : names.length = left.output.length := hlength.trans hcombines.length_eq.1.symm
    have hlengthr : names.length = right.output.length := hlength.trans hcombines.length_eq.2.symm
    rw [renameOutput, BoundBody.renameOutput, queries_eq, List.forall_mem_cons]
    refine ⟨⟨hnumbered.rename names, ?_⟩, ?_⟩
    · change Combines _ _ _ _ _
      refine ⟨?_, ?_, ?_, ?_, ?_⟩
      · rw [output_renameOutput, houtput]
      · simp only [output_renameOutput, map_type_renameColumns, hcombines.types]
      · simpa using hcombines.hasKeys
      · intro k hk
        obtain ⟨key, hkey, rfl⟩ := List.mem_map.1 hk
        rw [output_renameOutput, map_name_renameColumns hlengthl, houtput]
        exact renameKey_mem hlengthl (hcombines.keys key hkey)
      · intro k hk
        obtain ⟨k', hk', rfl⟩ := List.mem_map.1 hk
        exact (hcombines.order k' hk').rename hlength
    · simp only [BoundBody.queries_setOperation, List.forall_mem_append]
      exact ⟨hctes, formed_renameOutput names left hleft hlengthl,
        formed_renameOutput names right hright hlengthr⟩

/-- The operands of formed set operators have as many columns as the query. -/
theorem length_output_operands : ∀ q : BoundQuery, (∀ q' ∈ q.queries, q'.Formed) →
    ∀ o ∈ q.operands, o.output.length = q.output.length
  | ⟨scope, ctes, .select s, orderBy, skip, take, output⟩, _ => by
    simp [operands, BoundBody.operands]
  | ⟨scope, ctes, .setOperation operator keys left right, orderBy, skip, take, output⟩, h => by
    have hcombines : Combines keys left right orderBy output := (h _ (self_mem_queries _)).gives
    obtain ⟨hlength, hlength'⟩ := hcombines.length_eq
    rw [queries_eq, List.forall_mem_cons, BoundBody.queries_setOperation, List.forall_mem_append,
      List.forall_mem_append] at h
    obtain ⟨-, -, hleft, hright⟩ := h
    have hl := length_output_operands left hleft
    have hr := length_output_operands right hright
    simp only [operands, BoundBody.operands, List.forall_mem_cons, List.forall_mem_append]
    exact ⟨hlength, hlength', fun o ho => (hl o ho).trans hlength,
      fun o ho => (hr o ho).trans hlength'⟩

end BoundQuery

/-! ## Resolution -/

namespace Resolve

variable {env : Env}

theorem typeMismatch?_eq_none {index : Nat} {left right : List Column}
    (hlength : left.length = right.length) (h : typeMismatch? index left right = none) :
    right.map (·.type) = left.map (·.type) := by
  induction left generalizing index right with
  | nil =>
    obtain rfl := List.length_eq_zero_iff.1 hlength.symm
    rfl
  | cons l ls ih =>
    cases right with
    | nil => cases hlength
    | cons r rs =>
      simp only [typeMismatch?] at h
      split at h
      · rename_i htype
        rw [List.map_cons, List.map_cons, htype, ih (Nat.succ.inj hlength) h]
      · cases h

/-- Operands that are accepted have columns of the same types, and the keys among them. -/
theorem operandError?_eq_none {keys : List String} {left right : List Column}
    (h : operandError? env keys left right = none) :
    right.map (·.type) = left.map (·.type) ∧ ∀ k ∈ keys, k ∈ left.map (·.name) := by
  unfold operandError? at h
  split at h
  · cases h
  · rename_i hlength
    cases htypes : typeMismatch? 0 left right with
    | some e => rw [htypes] at h; cases h
    | none =>
      rw [htypes] at h
      refine ⟨typeMismatch?_eq_none (not_not.1 hlength) htypes, fun k hk => ?_⟩
      simpa using List.find?_eq_none.1 (Option.map_eq_none_iff.1 h) k hk

theorem bindOutputKey_readsOutput {output : List Column} {item : OrderItem} {k : SortKey}
    (hnumbered : Numbered output) (h : bindOutputKey env output item = .ok k) :
    k.ReadsOutput output := by
  obtain ⟨expr, direction⟩ := item
  have hname (name : String)
      (h : bindOutputKey env output ⟨.identifier name, direction⟩ = .ok k) :
      k.ReadsOutput output := by
    simp only [bindOutputKey, pure_bind] at h
    split at h
    · rename_i c hfind
      cases h
      obtain ⟨i, hi⟩ := List.mem_iff_getElem?.1 (List.mem_of_find?_eq_some hfind)
      obtain rfl : c.name = name := by simpa using List.find?_some hfind
      obtain rfl := hnumbered i c hi
      exact ⟨c, hi, rfl⟩
    · cases h
  -- a key is looked up by its name, however that is written
  cases expr with
  | identifier name => exact hname name h
  | column table name => exact hname (qualifiedColumn table name) h
  | _ => cases h

/-! ## The induction -/

variable (env)

-- The statements of the induction, one for each kind of node.

def FormsQuery (q : Query) : Prop :=
  ∀ {s s' : State} {b : BoundQuery}, bindQuery env q s = .ok b s' → ∀ q' ∈ b.queries, q'.Formed

def FormsCtes (ctes : List Cte) : Prop :=
  ∀ {scope : Nat} {s s' : State} {bs : List BoundCte}, bindCtes env scope ctes s = .ok bs s' →
    ∀ q' ∈ BoundQuery.queriesOfCtes bs, q'.Formed

def FormsBody (body : QueryBody) : Prop :=
  ∀ {scope : Nat} {orderBy : List OrderItem} {s s' : State} {b : BoundBody} {order : List SortKey}
    {output : List Column}, bindBody env scope orderBy body s = .ok (b, order, output) s' →
    Numbered output ∧ b.Gives order output ∧ ∀ q' ∈ b.queries, q'.Formed

def FormsSource (src : Source) : Prop :=
  ∀ {ctx : Context} {usage : ColumnUsage} {s s' : State} {b : BoundSource},
    bindSource env usage src ctx s = .ok b s' → ∀ q' ∈ b.queries, q'.Formed

variable {env}

theorem renameCte_formed {name : String} {columns : List String} {q q' : BoundQuery}
    (hq : ∀ p ∈ q.queries, p.Formed) (h : renameCte name columns q = .ok q') :
    ∀ p ∈ q'.queries, p.Formed := by
  unfold renameCte at h
  split at h
  · cases h
    exact hq
  · split at h
    · cases h
    · rename_i hlength
      cases h
      exact q.formed_renameOutput columns hq (not_not.1 hlength)

theorem formsCtes_nil : FormsCtes env [] := by
  intro scope s s' bs h
  simp only [bindCtes, run_pure_ok] at h
  obtain ⟨rfl, -⟩ := h
  simp [BoundQuery.queriesOfCtes]

theorem formsCtes_cons {name : String} {columns : List String} {q : Query} {rest : List Cte}
    (hq : FormsQuery env q) (hrest : FormsCtes env rest) :
    FormsCtes env (⟨name, columns, q⟩ :: rest) := by
  intro scope s s' bs h
  simp only [bindCtes, run_bind_ok, run_ofExcept_ok, run_pure_ok] at h
  obtain ⟨_, s₁, -, b, s₂, hbind, _, s₃, -, b', _, ⟨hrename, rfl⟩, _, s₄, -, bs', s₅, hctes, rfl,
    rfl⟩ := h
  rw [BoundQuery.queriesOfCtes, List.forall_mem_append]
  exact ⟨renameCte_formed (hq hbind) hrename, hrest hctes⟩

theorem formsBody_nullSource {distinct : Bool} {projection : List SelectItem}
    {filter : Option Expr} {groupBy : List Expr} {having : Option Expr} :
    FormsBody env (.select ⟨distinct, projection, none, filter, groupBy, having⟩) := by
  intro scope orderBy s s' b order output h
  simp [bindBody] at h

theorem formsBody_select {distinct : Bool} {projection : List SelectItem} {source : Source}
    {filter : Option Expr} {groupBy : List Expr} {having : Option Expr}
    (hsource : FormsSource env source) :
    FormsBody env (.select ⟨distinct, projection, some source, filter, groupBy, having⟩) := by
  intro scope orderBy s s' b order output h
  simp only [bindBody, run_bind_ok, run_pure_ok, Prod.mk.injEq] at h
  obtain ⟨src, s₁, hsrc, ⟨sel, order'⟩, s₂, hblock, ⟨rfl, rfl, rfl⟩, rfl⟩ := h
  refine ⟨.number _, rfl, ?_⟩
  obtain ⟨-, -, -, -, -, -, -, -, -, -, -, -, hsame, -⟩ := run_bindBlock_ok hblock
  rw [BoundBody.queries_select, hsame]
  exact hsource hsrc

theorem formsBody_setOperation {operator : SetOperator} {keys : List String} {left right : Query}
    (hl : FormsQuery env left) (hr : FormsQuery env right) :
    FormsBody env (.setOperation operator left right keys) := by
  intro scope orderBy s s' b order output h
  simp only [bindBody] at h
  cases hkeys : keys.isEmpty with
  | true => simp [hkeys, run_bind_ok] at h
  | false =>
    simp only [hkeys, Bool.false_eq_true, if_false, run_bind_ok, run_pure_ok, Prod.mk.injEq,
      run_ofExcept_ok] at h
    obtain ⟨_, s₁, -, _, s₂, -, bl, s₃, hleft, _, s₄, -, _, s₅, -, br, s₆, hright, _, s₇, -, _, s₈, -,
      _, s₉, hcheck, order', _, ⟨horder, rfl⟩, ⟨rfl, rfl, rfl⟩, rfl⟩ := h
    have hformed := hl hleft
    have hnumbered : Numbered bl.output := (hformed bl bl.self_mem_queries).numbered
    obtain ⟨htypes, hmem⟩ := operandError?_eq_none (checkOperands_run hcheck).2
    refine ⟨hnumbered, ⟨rfl, htypes, ?_, hmem, fun k hk => ?_⟩, ?_⟩
    · rintro rfl
      cases hkeys
    · obtain ⟨item, -, hitem⟩ := mem_of_except_mapM horder hk
      exact bindOutputKey_readsOutput hnumbered hitem
    · rw [BoundBody.queries_setOperation, List.forall_mem_append]
      exact ⟨hformed, hr hright⟩

theorem formsSource_schema (schema method : String) (args : List Expr) (a : Option String) :
    FormsSource env (.schema schema method args a) := by
  intro ctx usage s s' b h
  simp only [bindSource] at h
  obtain ⟨_, _, _, _, _, _, rfl⟩ := bindSchemaSource_shape h
  simp [BoundSource.queries]

theorem formsSource_inMemory (name : String) (a : Option String) :
    FormsSource env (.inMemory name a) := by
  intro ctx usage s s' b h
  simp only [bindSource, bindMemorySource, run_bind_ok, run_pure_ok] at h
  obtain ⟨_, _, -, _, _, -, rfl, -⟩ := h
  simp [BoundSource.queries]

theorem formsSource_subquery {q : Query} (a : Option String) (hq : FormsQuery env q) :
    FormsSource env (.subquery q a) := by
  intro ctx usage s s' b h
  simp only [bindSource, bindSubquerySource, run_bind_ok, run_pure_ok] at h
  obtain ⟨_, s₁, -, bq, s₂, hbind, _, s₃, -, r, s₄, -, _, s₅, -, rfl, rfl⟩ := h
  simpa [BoundSource.queries] using hq hbind

theorem formsSource_join {kind : JoinKind} {left right : Source} {condition : Expr}
    (hl : FormsSource env left) (hr : FormsSource env right) :
    FormsSource env (.join kind left right condition) := by
  intro ctx usage s s' b h
  simp only [bindSource, run_bind_ok] at h
  obtain ⟨bl, s₁, hleft, br, s₂, hright, h⟩ := h
  obtain ⟨-, -, a, -, c, -, -, rfl⟩ := run_bindJoin_ok h
  simp only [BoundSource.queries, List.forall_mem_append]
  exact ⟨hl hleft, hr hright⟩

theorem formsSource_apply {kind : ApplyKind} {left right : Source}
    (hl : FormsSource env left) (hr : FormsSource env right) :
    FormsSource env (.apply kind left right) := by
  intro ctx usage s s' b h
  simp only [bindSource, run_bind_ok] at h
  obtain ⟨bl, s₁, hleft, br, s₂, hright, h⟩ := h
  obtain ⟨-, -, a, -, rfl⟩ := run_bindApply_ok h
  simp only [BoundSource.queries, List.forall_mem_append]
  exact ⟨hl hleft, hr hright⟩

theorem formsQuery_mk {body : QueryBody} {orderBy : List OrderItem} {skip take : Option Nat}
    {ctes : List Cte} (hctes : FormsCtes env ctes) (hbody : FormsBody env body) :
    FormsQuery env ⟨body, orderBy, skip, take, ctes⟩ := by
  intro s s' b h
  simp only [bindQuery, run_bind_ok, run_pure_ok] at h
  obtain ⟨scope, _, -, bctes, s₁, hbctes, ⟨bbody, order, output⟩, s₂, hbbody, rfl, rfl⟩ := h
  obtain ⟨hnumbered, hgives, hqueries⟩ := hbody hbbody
  rw [BoundQuery.queries_eq, List.forall_mem_cons, List.forall_mem_append]
  exact ⟨⟨hnumbered, hgives⟩, hctes hbctes, hqueries⟩

mutual

theorem bindQuery_formed : ∀ q : Query, FormsQuery env q
  | ⟨body, _, _, _, ctes⟩ => formsQuery_mk (bindCtes_formed ctes) (bindBody_formed body)

theorem bindCtes_formed : ∀ ctes : List Cte, FormsCtes env ctes
  | [] => formsCtes_nil
  | ⟨_, _, query⟩ :: rest => formsCtes_cons (bindQuery_formed query) (bindCtes_formed rest)

theorem bindBody_formed : ∀ body : QueryBody, FormsBody env body
  | .select ⟨_, _, none, _, _, _⟩ => formsBody_nullSource
  | .select ⟨_, _, some source, _, _, _⟩ => formsBody_select (bindSource_formed source)
  | .setOperation _ left right _ =>
    formsBody_setOperation (bindQuery_formed left) (bindQuery_formed right)

theorem bindSource_formed : ∀ source : Source, FormsSource env source
  | .schema schema method args a => formsSource_schema schema method args a
  | .inMemory name a => formsSource_inMemory name a
  | .subquery query a => formsSource_subquery a (bindQuery_formed query)
  | .join _ left right _ => formsSource_join (bindSource_formed left) (bindSource_formed right)
  | .apply _ left right => formsSource_apply (bindSource_formed left) (bindSource_formed right)

end

/-- Every query in a resolved one is formed. -/
theorem analyze_formed {q : Query} {a : Analysis} {requests : List TableRequest}
    (h : analyze env q = (.ok a, requests)) : ∀ q' ∈ a.query.queries, q'.Formed := by
  obtain ⟨s, hbind, -⟩ := run_analyze_ok h
  exact bindQuery_formed q hbind

end Resolve

end SchemaQuery
