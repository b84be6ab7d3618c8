-- SUMMARY: Bound terms have normal types, and what they use as conditions are definite truth values.
import SchemaQuery.Proofs.DataType.Normal
import SchemaQuery.Proofs.Resolve.TermRules
import SchemaQuery.Proofs.Scope.Tables

/-!
# Typed terms

Over a catalog of normal types and tables of normal types all bound terms have
normal types, and what is used as a condition is a plain truth value or the null
literal. A condition is made definite only if it is no binary operation. That is
enough because no binary operation gives a nullable truth value: arithmetic gives
none at all, and comparisons and logic give plain ones. `typeRules` says so for
every step that binds a term.
-/

namespace SchemaQuery

/-! ## Catalogs of normal types -/

namespace MethodRegistry

/-- All results of methods have normal types. -/
def hasNormalTypes (r : MethodRegistry) : Bool := r.methods.all (·.returns.isNormal)

variable {r : MethodRegistry} {types : TypeRegistry} {args : List DataType}

theorem tryMatch_normal {m : Method} {mode : SourceMode} {found : Nat × ResolvedMethod}
    (hreturns : m.returns.isNormal) (hargs : ∀ t ∈ args, t.isNormal)
    (hrow : ∀ row, mode = .injected (some row) → row.isNormal)
    (h : m.tryMatch args mode types = some found) : found.2.returnType.isNormal := by
  unfold Method.tryMatch at h
  simp only at h
  split at h
  · cases h
  · obtain ⟨injected, hinjected, h⟩ := Option.bind_eq_some_iff.1 h
    obtain ⟨⟨score, b⟩, hunify, h⟩ := Option.bind_eq_some_iff.1 h
    cases h
    refine Shape.isNormal_instantiate (Shape.unifyAll_normal ?_ ?_ hunify) hreturns
    · rintro param t ⟨⟩
    · simp only [List.forall_mem_append]
      refine ⟨?_, fun p hp => hargs p.2 (List.of_mem_zip hp).2⟩
      unfold Method.injectedArgument? at hinjected
      split at hinjected
      · cases hinjected
        simp
      · split at hinjected
        · cases hinjected
          simp
        · obtain ⟨row, rfl, rfl⟩ := Option.map_eq_some_iff.1 hinjected
          simpa using hrow row rfl

theorem bestMatch_normal {name : String} {kind : MethodKind} {mode : SourceMode}
    {m : ResolvedMethod} (hr : r.hasNormalTypes) (hargs : ∀ t ∈ args, t.isNormal)
    (hrow : ∀ row, mode = .injected (some row) → row.isNormal)
    (h : r.bestMatch name kind args mode types = some m) : m.returnType.isNormal := by
  obtain ⟨best, hfold, rfl⟩ := Option.map_eq_some_iff.1 h
  rcases mem_of_foldl_better hfold with hnone | hmem
  · cases hnone
  · obtain ⟨method, hmethod, hmatch⟩ := List.mem_filterMap.1 hmem
    have hlisted : method ∈ r.methods := List.mem_of_mem_filter (List.mem_of_mem_filter hmethod)
    exact tryMatch_normal (List.all_eq_true.1 hr method hlisted) hargs hrow hmatch

theorem resolveAggregate_normal {name : String} {a : ResolvedAggregate} (hr : r.hasNormalTypes)
    (hargs : ∀ t ∈ args, t.isNormal) (h : r.resolveAggregate name args types = some a) :
    a.method.returnType.isNormal := by
  obtain ⟨method, hmethod, h⟩ := Option.bind_eq_some_iff.1 h
  obtain ⟨setter, -, h⟩ := Option.bind_eq_some_iff.1 h
  cases h
  exact bestMatch_normal hr hargs (by simp) hmethod

end MethodRegistry

/-- A schema describes tables with columns and rows of normal types, and chooses methods whose
    results have normal types for arguments of normal types. -/
structure Schema.NormalTypes (s : Schema) : Prop where
  columns : ∀ table context args columns, s.columnsOf table context args = .ok columns →
    ∀ c ∈ columns, c.type.isNormal
  row : ∀ table, (s.rowType table).isNormal
  method : ∀ name args source types m, (∀ t ∈ args, t.isNormal) →
    (∀ row, source = some row → row.isNormal) →
    s.resolveMethod name args source types = some m → m.returnType.isNormal
  raw : ∀ name args types m, (∀ t ∈ args, t.isNormal) →
    s.resolveRaw name args types = some m → m.returnType.isNormal
  aggregate : ∀ name args types r, (∀ t ∈ args, t.isNormal) →
    s.resolveAggregate name args types = some r → r.method.returnType.isNormal

/-- The types of the catalog in use are normal. -/
structure Catalog.NormalTypes (c : Catalog) : Prop where
  entities : c.types.hasNormalTypes
  builtins : c.builtins.hasNormalTypes
  schemas : ∀ s ∈ c.schemas.values, s.NormalTypes
  inMemory : ∀ columns ∈ c.inMemory.values, ∀ col ∈ columns, col.type.isNormal

theorem Column.type_of_mem_number {defs : List (String × DataType)} {c : Column}
    (h : c ∈ number defs) : ∃ d ∈ defs, c.type = d.2 := by
  obtain ⟨⟨d, i⟩, hd, rfl⟩ := List.mem_map.1 h
  exact ⟨d, List.fst_mem_of_mem_zipIdx hd, rfl⟩

namespace StaticSchema

variable {s : StaticSchema} {name : String}

/-- All columns and rows of the tables and all results of methods have normal types. -/
def hasNormalTypes (s : StaticSchema) : Bool :=
  s.methods.hasNormalTypes &&
    s.tables.all fun t => t.columns.all (·.2.isNormal) && t.rowType.all (·.isNormal)

theorem columnsOf_normal (hs : s.hasNormalTypes) {args : List Argument} {columns : List Column}
    (h : s.columnsOf name args = .ok columns) : ∀ c ∈ columns, c.type.isNormal := by
  simp only [hasNormalTypes, Bool.and_eq_true, List.all_eq_true] at hs
  unfold columnsOf at h
  split at h
  · cases h
  · rename_i t htable
    split at h
    · cases h
    · cases h
      intro c hc
      obtain ⟨d, hd, htype⟩ := Column.type_of_mem_number hc
      exact htype ▸ (hs.2 t (List.mem_of_find?_eq_some htable)).1 d hd

theorem rowType_normal (hs : s.hasNormalTypes) (name : String) : (s.rowType name).isNormal := by
  simp only [hasNormalTypes, Bool.and_eq_true, List.all_eq_true] at hs
  unfold rowType
  cases hrow : (s.table? name).bind (·.rowType) with
  | none => rfl
  | some t =>
    obtain ⟨table, htable, hrow⟩ := Option.bind_eq_some_iff.1 hrow
    have hall := (hs.2 table (List.mem_of_find?_eq_some htable)).2
    rw [hrow] at hall
    exact hall

theorem normalTypes (hs : s.hasNormalTypes) : s.toSchema.NormalTypes where
  columns _ _ _ _ h := columnsOf_normal hs h
  row := rowType_normal hs
  method _ _ _ _ _ hargs hrow h :=
    MethodRegistry.bestMatch_normal ((Bool.and_eq_true ..).mp hs).1 hargs
      (fun row hmode => hrow row (SourceMode.injected.inj hmode)) h
  raw _ _ _ _ hargs h :=
    MethodRegistry.bestMatch_normal ((Bool.and_eq_true ..).mp hs).1 hargs (by simp) h
  aggregate _ _ _ _ hargs h :=
    MethodRegistry.resolveAggregate_normal ((Bool.and_eq_true ..).mp hs).1 hargs h

end StaticSchema

/-! ## Tables in scope -/

/-- The columns of a table and the rows it hands to methods have normal types. -/
structure TableSymbol.NormalTypes (t : TableSymbol) : Prop where
  columns : ∀ c ∈ t.columns, c.type.isNormal
  row : t.rowType.isNormal

theorem TableSymbol.NormalTypes.visible {t : TableSymbol} (h : t.NormalTypes) {c : Column}
    (hc : c ∈ t.visibleColumns) : c.type.isNormal := by
  obtain ⟨c', hc', rfl⟩ := List.mem_map.1 hc
  unfold view
  split
  · exact DataType.isNormal_toNullable (h.columns c' hc')
  · exact h.columns c' hc'

/-! ## Typed terms -/

namespace Term

/-- A truth value that is not nullable, or a null literal. -/
def IsCondition (t : Term) : Prop := t.type = .boolean ∨ t.type = .null

/-- The operands that a node uses as conditions are conditions, and a binary operation gives no
    nullable truth value. -/
def Definite : Term → Prop
  | .binary op left right type =>
    type ≠ .nullable .boolean ∧ (op.isLogical = true → left.IsCondition ∧ right.IsCondition)
  | .unary .not operand _ => operand.IsCondition
  | .case branches _ _ => ∀ b ∈ branches, b.1.IsCondition
  | _ => True

/-- All nodes have normal types and definite operands. -/
def Typed (t : Term) : Prop := ∀ u ∈ t.subterms, u.type.isNormal ∧ u.Definite

variable {t : Term}

theorem Typed.normal (h : t.Typed) : t.type.isNormal := (h t t.self_mem_subterms).1

theorem Typed.node (htype : t.type.isNormal) (hnode : t.Definite)
    (hchildren : ∀ c ∈ t.children, c.Typed) : t.Typed :=
  forall_subterms.2 ⟨⟨htype, hnode⟩, hchildren⟩

/-- What is used as a condition is made definite, unless it is no nullable truth value. -/
theorem Typed.asPredicate_cases (h : t.Typed) :
    t.asPredicate = .nullAsFalse t .boolean ∨
      t.asPredicate = t ∧ t.type ≠ .nullable .boolean := by
  unfold Term.asPredicate
  split
  · exact .inr ⟨rfl, (h _ (self_mem_subterms _)).2.1⟩
  · split
    · exact .inl rfl
    · rename_i hplain
      refine .inr ⟨rfl, fun htype => hplain ?_⟩
      rw [htype]
      rfl

theorem Typed.asPredicate (h : t.Typed) : t.asPredicate.Typed := by
  rcases h.asPredicate_cases with heq | ⟨heq, -⟩
  · rw [heq]
    exact .node rfl trivial fun c hc => List.mem_singleton.1 hc ▸ h
  · rwa [heq]

end Term

namespace Resolve

open Term (Typed)

variable {types : TypeRegistry}

theorem eq_of_isBoolLike {t : DataType} (h : isBoolLike t) :
    t = .boolean ∨ t = .nullable .boolean ∨ t = .null := by
  cases t with
  | boolean => exact .inl rfl
  | null => exact .inr (.inr rfl)
  | nullable u =>
    simp only [isBoolLike, DataType.isBoolean, Bool.or_eq_true, decide_eq_true_eq, reduceCtorEq,
      or_false] at h
    obtain rfl : u = .boolean := h
    exact .inr (.inl rfl)
  | _ => simp [isBoolLike, DataType.isBoolean, DataType.nonNullable] at h

theorem isBoolLike_of_nonNullable {t : DataType} (ht : t.isNormal)
    (h : isBoolLike t.nonNullable) : isBoolLike t := by
  cases t with
  | nullable u =>
    rcases eq_of_isBoolLike h with hu | hu | hu
    · obtain rfl : u = .boolean := hu
      rfl
    · obtain rfl : u = .nullable .boolean := hu
      cases ht
    · obtain rfl : u = .null := hu
      cases ht
  | _ => exact h

/-- A truth value that was made definite is a condition. -/
theorem isCondition_asPredicate {t : Term} (ht : t.Typed) (h : isBoolLike t.asPredicate.type) :
    t.asPredicate.IsCondition := by
  rcases ht.asPredicate_cases with heq | ⟨heq, hplain⟩
  · rw [heq]
    exact .inl rfl
  · rw [heq] at h ⊢
    rcases eq_of_isBoolLike h with htype | htype | htype
    · exact .inl htype
    · exact absurd htype hplain
    · exact .inr htype

/-! ## Types of operators -/

theorem isNormal_listType {items : List Term} (h : ∀ t ∈ items, t.type.isNormal) :
    (listType types items).isNormal := by
  unfold listType
  rw [DataType.isNormal]
  cases hcommon : types.commonType (items.map (·.type)) with
  | none => rfl
  | some t =>
    exact DataType.isNormal_nonNullable
      (TypeRegistry.isNormal_commonType (by simpa using h) hcommon)

theorem isNormal_caseType {branches : List (Term × Term)} {otherwise : Option Term}
    (hbranches : ∀ b ∈ branches, b.2.type.isNormal) (hother : ∀ e ∈ otherwise, e.type.isNormal) :
    (caseType types branches otherwise).isNormal := by
  have hall : ∀ t ∈ branches.map (·.2.type) ++ otherwise.toList.map (·.type), t.isNormal := by
    simp only [List.forall_mem_append, List.forall_mem_map, Option.mem_toList]
    exact ⟨hbranches, hother⟩
  unfold caseType
  split
  · rename_i t hcommon
    exact DataType.isNormal_nullableIf _ (TypeRegistry.isNormal_commonType hall hcommon)
  · rfl

/-- Arithmetic gives a normal type other than that of truth values. -/
theorem arithmeticType?_normal {op : BinaryOp} {l r t : DataType} (hl : l.isNormal)
    (hr : r.isNormal) (h : arithmeticType? types op l r = some t) :
    t.isNormal ∧ t.isBoolean = false := by
  have hplain {u : DataType} (h : (u.isNumeric || u.isString) = true) : u.isBoolean = false := by
    rcases (Bool.or_eq_true ..).mp h with h | h
    · exact DataType.isBoolean_of_isNumeric h
    · exact DataType.isBoolean_of_isString h
  unfold arithmeticType? at h
  split at h
  · rename_i hnumeric
    obtain ⟨hnl, hnr⟩ := (Bool.and_eq_true ..).mp hnumeric
    cases h
    exact ⟨TypeRegistry.isNormal_commonAncestor hl hr,
      TypeRegistry.isBoolean_commonAncestor hnl hnr⟩
  · split at h
    · cases h
      exact ⟨rfl, rfl⟩
    · split at h
      · rename_i hnull
        cases h
        exact ⟨hr, hplain ((Bool.and_eq_true ..).mp hnull).2⟩
      · split at h
        · rename_i hnull
          cases h
          exact ⟨hl, hplain ((Bool.and_eq_true ..).mp hnull).2⟩
        · cases h

/-- A binary operator gives a normal type, which is never that of nullable truth values. -/
theorem binaryType_normal {op : BinaryOp} {left right : Term} {t : DataType}
    (hl : left.type.isNormal) (hr : right.type.isNormal)
    (h : binaryType types op left right = .ok t) : t.isNormal ∧ t ≠ .nullable .boolean := by
  unfold binaryType at h
  simp only at h
  split at h
  · split at h
    · rename_i u harith
      cases h
      obtain ⟨hnormal, hboolean⟩ := arithmeticType?_normal (DataType.isNormal_nonNullable hl)
        (DataType.isNormal_nonNullable hr) harith
      refine ⟨DataType.isNormal_nullableIf _ hnormal, fun hnullable => ?_⟩
      rw [← DataType.isBoolean_nullableIf, hnullable] at hboolean
      cases hboolean
    · cases h
  · split at h
    · cases h
      exact ⟨rfl, by decide⟩
    · cases h

/-- The operands of logic are truth values. -/
theorem binaryType_logical {op : BinaryOp} {left right : Term} {t : DataType}
    (hop : op.isLogical = true) (h : binaryType types op left right = .ok t) :
    isBoolLike left.type.nonNullable ∧ isBoolLike right.type.nonNullable := by
  have hfits : fits types op left.type.nonNullable right = true := by
    unfold binaryType at h
    simp only at h
    split at h
    · cases op <;> simp_all [BinaryOp.isLogical, BinaryOp.isArithmetic]
    · split at h
      · assumption
      · cases h
  cases op with
  | and | or => exact (Bool.and_eq_true ..).mp hfits
  | _ => cases hop

theorem isLogical_of_nullSafe {op : BinaryOp} {left right : Term}
    (h : (nullSafe op left right).isLogical = true) : op.isLogical = true := by
  unfold nullSafe at h
  split at h
  · split at h
    · cases h
    · cases h
    · exact h
  · exact h

/-! ## Bound terms -/

variable {env : Env} {ctx : Context} {s s' : State} {t : Term}

theorem columnTerm_typed {c : Column} (h : c.type.isNormal) (a : String) (qualify : Bool) :
    (columnTerm a c qualify).Typed :=
  .node h trivial (by simp [columnTerm, Term.children])

theorem binaryTerm_typed {op : BinaryOp} {left right : Term} (hl : left.Typed) (hr : right.Typed)
    (h : binaryTerm types op left right = .ok t) : t.Typed := by
  obtain ⟨type, htype, h⟩ := except_bind_ok.1 h
  obtain rfl := except_pure_ok.1 h
  have hoperand {u : Term} (hu : u.Typed) :
      (if op.isLogical then u.asPredicate else u).Typed := by
    split
    · exact hu.asPredicate
    · exact hu
  have hcondition {u : Term} (hu : u.Typed) (hop : op.isLogical = true)
      (h : isBoolLike (if op.isLogical then u.asPredicate else u).type.nonNullable) :
      (if op.isLogical then u.asPredicate else u).IsCondition := by
    rw [if_pos hop] at h ⊢
    exact isCondition_asPredicate hu (isBoolLike_of_nonNullable hu.asPredicate.normal h)
  obtain ⟨hnormal, hplain⟩ := binaryType_normal (hoperand hl).normal (hoperand hr).normal htype
  refine .node hnormal ⟨hplain, fun hlogical => ?_⟩ fun c hc => ?_
  · have hop := isLogical_of_nullSafe hlogical
    obtain ⟨hbl, hbr⟩ := binaryType_logical hlogical htype
    exact ⟨hcondition hl hop hbl, hcondition hr hop hbr⟩
  · simp only [Term.children, List.mem_cons, List.not_mem_nil, or_false] at hc
    rcases hc with rfl | rfl
    · exact hoperand hl
    · exact hoperand hr

theorem unaryTerm_typed {op : UnaryOp} {operand : Term} (ho : operand.Typed)
    (h : unaryTerm op operand = .ok t) : t.Typed := by
  cases op with
  | not =>
    simp only [unaryTerm] at h
    split at h
    · rename_i hbool
      cases h
      have hdefinite : isBoolLike operand.asPredicate.type := by
        rcases ho.asPredicate_cases with heq | ⟨heq, -⟩
        · rw [heq]
          rfl
        · rwa [heq]
      exact .node rfl (isCondition_asPredicate ho hdefinite) fun c hc =>
        List.mem_singleton.1 hc ▸ ho.asPredicate
    · cases h
  | neg =>
    simp only [unaryTerm] at h
    split at h <;> cases h
    exact .node ho.normal trivial fun c hc => List.mem_singleton.1 hc ▸ ho

theorem castTerm_typed {operand : Term} {typeName : String} (ho : operand.Typed)
    (h : castTerm operand typeName = .ok t) : t.Typed := by
  unfold castTerm at h
  split at h
  · rename_i target htarget
    cases h
    refine .node ?_ trivial fun c hc => List.mem_singleton.1 hc ▸ ho
    exact DataType.isNormal_nullableIf _ (DataType.isNormal_parseChars htarget)
  · cases h

theorem predicateTerm_typed {clause : String} {p : Term} (ht : t.Typed)
    (h : predicateTerm clause t = .ok p) : p.Typed ∧ p.IsCondition := by
  unfold predicateTerm at h
  simp only at h
  split at h
  · rename_i hbool
    cases h
    exact ⟨ht.asPredicate, isCondition_asPredicate ht hbool⟩
  · cases h

theorem bindProperty_typed (hc : env.catalog.NormalTypes) {base : Term} {name : String}
    (hbase : base.Typed) (h : bindProperty env base name = .ok t) : t.Typed := by
  unfold bindProperty at h
  simp only at h
  split at h
  · split at h
    · rename_i type hproperty
      cases h
      refine .node ?_ trivial fun c hc => List.mem_singleton.1 hc ▸ hbase
      exact DataType.isNormal_nullableIf _ (TypeRegistry.isNormal_property hc.entities hproperty)
    · cases h
  · cases h

/-! ## Tables in scope -/

/-- All tables in scope have normal types. -/
def NormalTables (s : State) : Prop := s.scopes.AllTables TableSymbol.NormalTypes

theorem NormalTables.sourceTables (hs : NormalTables s) {tables : List TableSymbol}
    (h : sourceTables s.scopes ctx = .ok tables) : ∀ t ∈ tables, t.NormalTypes := by
  unfold Resolve.sourceTables at h
  split at h
  · cases h
    simp
  · obtain ⟨source, -, h⟩ := except_bind_ok.1 h
    intro t ht
    obtain ⟨a, -, hresolve⟩ := mem_of_except_mapM h ht
    exact hs.of_resolve hresolve

theorem NormalTables.registers (hs : NormalTables s) {scope : Nat} {key : String}
    {call : RefreshCall} {scopes : Scopes}
    (h : registerRefresh s.scopes scope key call = .ok scopes) :
    NormalTables { s with scopes } := by
  unfold registerRefresh at h
  split at h
  · exact hs.modifyRefresh h
  · have hsat : (Symbol.refresh (addRefresh [] call).1).Satisfies TableSymbol.NormalTypes := trivial
    exact hs.add hsat h

theorem bindName_typed {tables : List TableSymbol} (htables : ∀ t ∈ tables, t.NormalTypes)
    {name : String} (h : bindName env tables name = .ok t) : t.Typed := by
  unfold bindName at h
  split at h
  · cases h
  · rename_i owner c howners
    cases h
    have hmem : (owner, c) ∈ owners tables name := by simp [howners]
    obtain ⟨t', ht', hc⟩ := List.mem_filterMap.1 hmem
    obtain ⟨c', hcolumn, hpair⟩ := Option.map_eq_some_iff.1 hc
    cases hpair
    exact columnTerm_typed ((htables _ ht').visible (TableSymbol.column?_mem hcolumn)) _ _
  · cases h

theorem bindQualified_typed (hc : env.catalog.NormalTypes) {scopes : Scopes}
    {tables : List TableSymbol} (htables : ∀ t ∈ tables, t.NormalTypes) {qualifier name : String}
    (h : bindQualified env scopes ctx tables qualifier name = .ok t) : t.Typed := by
  unfold bindQualified at h
  split at h
  · rename_i owner howner
    split at h
    · rename_i c hcolumn
      cases h
      have hnormal := htables _ (List.mem_of_find?_eq_some howner)
      exact columnTerm_typed (hnormal.visible (TableSymbol.column?_mem hcolumn)) _ _
    · cases h
  · split at h
    · obtain ⟨base, hbase, hproperty⟩ := except_bind_ok.1 h
      exact bindProperty_typed hc (bindName_typed htables hbase) hproperty
    · obtain ⟨found, -, h⟩ := except_bind_ok.1 h
      split at h <;> cases h

theorem nameRules_typed (hc : env.catalog.NormalTypes) (names : List (Option String × String)) :
    NameRules env NormalTables Typed names := by
  intro table name _ ctx s t hs h
  cases table with
  | none =>
    obtain ⟨tables, htables, h⟩ := except_bind_ok.1 h
    exact bindName_typed (hs.sourceTables htables) h
  | some q =>
    obtain ⟨tables, htables, h⟩ := except_bind_ok.1 h
    exact bindQualified_typed hc (hs.sourceTables htables) h

theorem spreadRules_typed (item : SelectItem) : SpreadRules NormalTables Typed item :=
  fun _ _ _ hs htables t ht _ _ hcolumn =>
    columnTerm_typed ((hs.sourceTables htables t ht).visible hcolumn) _ _

/-! ## Calls -/

theorem provider_normal (hc : env.catalog.NormalTypes) {sources : List TableSymbol}
    {p : TableSymbol × Schema} (hp : p ∈ providers env.catalog sources) : p.2.NormalTypes := by
  obtain ⟨-, name, hschema⟩ := mem_of_mem_providers hp
  exact hc.schemas p.2 (NameMap.mem_values_of_get? hschema)

theorem aggregate_normal (hc : env.catalog.NormalTypes) {sources : List TableSymbol} {name : String}
    {args : List DataType} (hargs : ∀ t ∈ args, t.isNormal) {r : ResolvedAggregate}
    (h : OffersAggregate env (providers env.catalog sources) name args r) :
    r.method.returnType.isNormal := by
  rcases h with ⟨p, hp, h⟩ | h
  · exact (provider_normal hc hp).aggregate _ _ _ _ hargs h
  · exact MethodRegistry.resolveAggregate_normal hc.builtins hargs h

theorem method_normal (hc : env.catalog.NormalTypes) {sources : List TableSymbol}
    (hsources : ∀ t ∈ sources, t.NormalTypes) {name : String} {args : List DataType}
    (hargs : ∀ t ∈ args, t.isNormal) {m : ResolvedMethod} {source : Option String}
    (h : OffersMethod env (providers env.catalog sources) sources name args m source) :
    m.returnType.isNormal := by
  cases h with
  | provider hp h =>
    refine (provider_normal hc hp).method _ _ _ _ _ hargs ?_ h
    rintro row ⟨⟩
    exact (hsources _ (mem_of_mem_providers hp).1).row
  | builtin h =>
    refine MethodRegistry.bestMatch_normal hc.builtins hargs (fun row hmode => ?_) h
    obtain ⟨t, ht, rfl⟩ := Option.map_eq_some_iff.1 (SourceMode.injected.inj hmode)
    exact (hsources t (List.mem_of_mem_head? ht)).row
  | providerRaw hp h => exact (provider_normal hc hp).raw _ _ _ _ hargs h
  | builtinRaw h => exact MethodRegistry.bestMatch_normal hc.builtins hargs (by simp) h

theorem target_typed (hc : env.catalog.NormalTypes) {sources : List TableSymbol}
    (hsources : ∀ t ∈ sources, t.NormalTypes) {name : String} {args : List Term}
    (hargs : ∀ t ∈ args, t.Typed) {target : Target}
    (h : target? env (providers env.catalog sources) sources name (args.map (·.type)) =
      some target) : (target.term args).Typed := by
  have htypes : ∀ t ∈ args.map (·.type), t.isNormal :=
    List.forall_mem_map.2 fun t ht => (hargs t ht).normal
  obtain ⟨schema, r, rfl, -, hr⟩ | ⟨schema, source, m, rfl, hm⟩ := target?_cases h
  · exact .node (aggregate_normal hc htypes hr) trivial hargs
  · exact .node (method_normal hc hsources htypes hm) trivial hargs

/-- Over a catalog of normal types all terms are typed, and conditions are conditions. -/
theorem typeRules (hc : env.catalog.NormalTypes) :
    TermRules env NormalTables Typed (fun p => p.Typed ∧ p.IsCondition) where
  registers hs h := hs.registers h
  literal v := by
    refine .node ?_ trivial (by simp [Term.children])
    cases v with
    | integer i =>
      change (if _ then DataType.int else DataType.long).isNormal = true
      split <;> rfl
    | _ => rfl
  property := bindProperty_typed hc
  binary := binaryTerm_typed
  unary := unaryTerm_typed
  cast := castTerm_typed
  predicate := predicateTerm_typed
  case hbranches hother :=
    .node (isNormal_caseType (fun b hb => (hbranches b hb).2.normal) fun e he =>
        (hother e he).normal)
      (fun b hb => (hbranches b hb).1.2)
      (Term.forall_children_case (fun b hb => ⟨(hbranches b hb).1.1, (hbranches b hb).2⟩) hother)
  list h := .node (isNormal_listType fun t ht => (h t ht).normal) trivial h
  call hs htables hsources hargs htarget :=
    target_typed hc (fun t ht => hs.sourceTables htables t (hsources ht)) hargs htarget

end Resolve

end SchemaQuery
