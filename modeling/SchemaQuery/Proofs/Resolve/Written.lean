-- SUMMARY: The terms of a block read only columns that the block has written in some way.
import SchemaQuery.Proofs.Resolve.TermRules

/-!
# Read and written columns

Binding keeps to what is written. A column that a term reads was written bare, or
qualified by the alias of its table, or covered by a wildcard, or it stands before
a dot, because a name such as `Self.Name` can turn out to be a property of a
column. A term that is no column reads what its parts read (`readRules`), so this
holds of all terms of a select block (`bindBlock_reads`). None of the steps that
bind them asks a schema for a table.
-/

namespace SchemaQuery

/-! ## Read columns -/

namespace Term

/-- The column that a node reads, with the alias of its table. -/
def column? : Term → Option (String × String)
  | .column a n _ _ _ => some (a, n)
  | _ => none

/-- The columns that a term reads. -/
def reads (t : Term) : List (String × String) := t.subterms.filterMap column?

theorem reads_eq (t : Term) : t.reads = t.column?.toList ++ t.children.flatMap reads := by
  have hparts (ts : List Term) :
      (ts.flatMap subterms).filterMap column? = ts.flatMap reads := by
    rw [List.filterMap_flatMap]
    rfl
  rw [reads, subterms_eq, List.filterMap_cons, hparts]
  cases t.column? <;> rfl

/-- Every column that a term reads has a property. -/
def ReadsOnly (P : String → String → Prop) (t : Term) : Prop := ∀ a n, (a, n) ∈ t.reads → P a n

variable {P : String → String → Prop} {t : Term}

theorem readsOnly_column {a n : String} {o : Nat} {q : Bool} {type : DataType} (h : P a n) :
    (column a n o q type).ReadsOnly P := by
  intro a' n' hmem
  cases List.mem_singleton.1 hmem
  exact h

theorem readsOnly_of_children (hnode : t.column? = none) (h : ∀ c ∈ t.children, c.ReadsOnly P) :
    t.ReadsOnly P := by
  intro a n hmem
  rw [reads_eq, hnode, Option.toList_none, List.nil_append] at hmem
  obtain ⟨c, hc, hmem⟩ := List.mem_flatMap.1 hmem
  exact h c hc a n hmem

theorem readsOnly_asPredicate (h : t.ReadsOnly P) : t.asPredicate.ReadsOnly P := by
  unfold asPredicate
  split
  · exact h
  · split
    · exact readsOnly_of_children rfl fun c hc => List.mem_singleton.1 hc ▸ h
    · exact h

end Term

/-- The terms in a source: the arguments of tables and the conditions of joins. -/
def BoundSource.clauses : BoundSource → List Term
  | .schema _ _ _ args _ _ => args
  | .inMemory .. | .subquery .. => []
  | .join _ _ left right condition => left.clauses ++ right.clauses ++ [condition]
  | .apply _ _ left right => left.clauses ++ right.clauses

/-- The terms of a block: those in its source and those of its clauses. -/
def BoundSelect.clauses (s : BoundSelect) (orderBy : List SortKey) : List Term :=
  s.source.clauses ++ s.filter.toList ++ s.groupBy ++ s.fields.map (·.term) ++ s.having.toList
    ++ orderBy.map (·.term)

/-! ## Written columns -/

/-- A column that a block can read by what it has written. -/
def WrittenBlock.MayRead (w : WrittenBlock) (a n : String) : Prop := w.Asks a n ∨ w.Qualifies n

/-- All columns that can be read through some references have a property. -/
def Admits (P : String → String → Prop) (refs : List (Option String × String)) : Prop :=
  (∀ n, (none, n) ∈ refs → ∀ a, P a n) ∧
    ∀ q n, (some q, n) ∈ refs → P q n ∧ ∀ a, P a q

theorem Admits.of_subset {P : String → String → Prop} {refs refs' : List (Option String × String)}
    (h : Admits P refs') (hle : refs ⊆ refs') : Admits P refs :=
  ⟨fun n hn => h.1 n (hle hn), fun q n hn => h.2 q n (hle hn)⟩

theorem Admits.left {P : String → String → Prop} {refs refs' : List (Option String × String)}
    (h : Admits P (refs ++ refs')) : Admits P refs :=
  h.of_subset (List.subset_append_left _ _)

theorem Admits.right {P : String → String → Prop} {refs refs' : List (Option String × String)}
    (h : Admits P (refs ++ refs')) : Admits P refs' :=
  h.of_subset (List.subset_append_right _ _)

namespace WrittenBlock

theorem admits (w : WrittenBlock) : Admits w.MayRead w.references :=
  ⟨fun _ hn _ => .inl (.inr (.inl hn)),
    fun _ _ hn => ⟨.inl (.inr (.inr hn)), fun _ => .inr ⟨_, hn, rfl⟩⟩⟩

theorem mayRead_of_spreads (w : WrittenBlock) {item : SelectItem} {a : String}
    (h : item ∈ w.select.projection) (hspreads : item.spreads a = true) (n : String) :
    w.MayRead a n :=
  .inl (.inl (List.any_eq_true.2 ⟨item, h, hspreads⟩))

end WrittenBlock

namespace Resolve

/-! ## Names -/

variable {P : String → String → Prop} {env : Env} {ctx : Context} {s s' : State}

theorem bindName_reads {tables : List TableSymbol} {name : String} {t : Term}
    (hP : ∀ a, P a name) (h : bindName env tables name = .ok t) : t.ReadsOnly P := by
  unfold bindName at h
  split at h
  · cases h
  · rename_i owner c howners
    cases h
    have hmem : (owner, c) ∈ owners tables name := by simp [howners]
    obtain ⟨t', -, hc⟩ := List.mem_filterMap.1 hmem
    obtain ⟨c', hcolumn, hpair⟩ := Option.map_eq_some_iff.1 hc
    cases hpair
    exact Term.readsOnly_column (TableSymbol.column?_name hcolumn ▸ hP _)
  · cases h

theorem bindProperty_reads {base t : Term} {name : String} (hbase : base.ReadsOnly P)
    (h : bindProperty env base name = .ok t) : t.ReadsOnly P := by
  obtain ⟨type, rfl⟩ := bindProperty_eq_ok h
  exact Term.readsOnly_of_children rfl fun c hc => List.mem_singleton.1 hc ▸ hbase

/-- A qualified name is a column of its qualifier, or else the qualifier is a column. -/
theorem bindQualified_reads {scopes : Scopes} {tables : List TableSymbol}
    {qualifier name : String} {t : Term} (hP : P qualifier name ∧ ∀ a, P a qualifier)
    (h : bindQualified env scopes ctx tables qualifier name = .ok t) : t.ReadsOnly P := by
  unfold bindQualified at h
  split at h
  · rename_i owner howner
    split at h
    · rename_i c hcolumn
      cases h
      have halias : owner.aliasName = qualifier := by simpa using List.find?_some howner
      refine Term.readsOnly_column ?_
      rw [halias, TableSymbol.column?_name hcolumn]
      exact hP.1
    · cases h
  · split at h
    · obtain ⟨base, hbase, hproperty⟩ := except_bind_ok.1 h
      exact bindProperty_reads (bindName_reads hP.2 hbase) hproperty
    · obtain ⟨found, -, h⟩ := except_bind_ok.1 h
      split at h <;> cases h

theorem nameRules_of_admits {I : State → Prop} {refs : List (Option String × String)}
    (hP : Admits P refs) : NameRules env I (Term.ReadsOnly P) refs := by
  intro table name hmem ctx s t _ h
  cases table with
  | none =>
    obtain ⟨tables, -, h⟩ := except_bind_ok.1 h
    exact bindName_reads (hP.1 name hmem) h
  | some q =>
    obtain ⟨tables, -, h⟩ := except_bind_ok.1 h
    exact bindQualified_reads (hP.2 q name hmem) h

/-! ## Other terms -/

theorem binaryTerm_reads {types : TypeRegistry} {op : BinaryOp} {left right t : Term}
    (hl : left.ReadsOnly P) (hr : right.ReadsOnly P)
    (h : binaryTerm types op left right = .ok t) : t.ReadsOnly P := by
  obtain ⟨type, -, h⟩ := except_bind_ok.1 h
  obtain rfl := except_pure_ok.1 h
  have hoperand {b : Bool} {t : Term} (h : t.ReadsOnly P) :
      (if b then t.asPredicate else t).ReadsOnly P := by
    split
    · exact Term.readsOnly_asPredicate h
    · exact h
  refine Term.readsOnly_of_children rfl fun c hc => ?_
  simp only [Term.children, List.mem_cons, List.not_mem_nil, or_false] at hc
  rcases hc with rfl | rfl
  · exact hoperand hl
  · exact hoperand hr

theorem unaryTerm_reads {op : UnaryOp} {operand t : Term} (ho : operand.ReadsOnly P)
    (h : unaryTerm op operand = .ok t) : t.ReadsOnly P := by
  cases op with
  | not =>
    simp only [unaryTerm] at h
    split at h <;> cases h
    exact Term.readsOnly_of_children rfl fun c hc =>
      List.mem_singleton.1 hc ▸ Term.readsOnly_asPredicate ho
  | neg =>
    simp only [unaryTerm] at h
    split at h <;> cases h
    exact Term.readsOnly_of_children rfl fun c hc => List.mem_singleton.1 hc ▸ ho

theorem castTerm_reads {operand t : Term} {typeName : String} (ho : operand.ReadsOnly P)
    (h : castTerm operand typeName = .ok t) : t.ReadsOnly P := by
  unfold castTerm at h
  split at h <;> cases h
  exact Term.readsOnly_of_children rfl fun c hc => List.mem_singleton.1 hc ▸ ho

theorem predicateTerm_reads {clause : String} {t p : Term} (h : t.ReadsOnly P)
    (hp : predicateTerm clause t = .ok p) : p.ReadsOnly P := by
  unfold predicateTerm at hp
  simp only at hp
  split at hp
  · cases hp
    exact Term.readsOnly_asPredicate h
  · cases hp

/-- Terms read what their parts read, and binding them makes no requests. -/
theorem readRules (env : Env) (P : String → String → Prop) (rs : List TableRequest) :
    TermRules env (fun s => s.requests = rs) (Term.ReadsOnly P) (Term.ReadsOnly P) where
  registers hs _ := hs
  literal v := Term.readsOnly_of_children rfl (by simp [Term.children])
  property := bindProperty_reads
  binary := binaryTerm_reads
  unary := unaryTerm_reads
  cast := castTerm_reads
  predicate := predicateTerm_reads
  case hbranches hother :=
    Term.readsOnly_of_children rfl (Term.forall_children_case hbranches hother)
  list h := Term.readsOnly_of_children rfl h
  call := by
    intro ctx s tables sources name args target _ _ _ hargs _
    cases target with
    | aggregate => exact Term.readsOnly_of_children rfl hargs
    | method => exact Term.readsOnly_of_children rfl hargs

/-! ## Clauses -/

theorem bindAll_reads {es : List Expr} {ts : List Term} (hP : Admits P (Expr.referencesAll es))
    (hlinks : ∀ k ∈ ctx.groupBy, k.ReadsOnly P)
    (h : (bindAll env es).mapM (fun bind => bind ctx) s = .ok ts s') :
    s'.requests = s.requests ∧ ∀ t ∈ ts, t.ReadsOnly P :=
  bindList_keeps (bindAll_keeps (readRules env P s.requests) es (nameRules_of_admits hP)) rfl hlinks
    h

theorem bindPredicate_reads {e : Expr} {p : Term} (hP : Admits P e.references)
    (hlinks : ∀ k ∈ ctx.groupBy, k.ReadsOnly P) (h : bindPredicate env e ctx s = .ok p s') :
    s'.requests = s.requests ∧ p.ReadsOnly P :=
  bindPredicate_keeps (readRules env P s.requests) (nameRules_of_admits hP) rfl hlinks h

/-- The terms of a block read what the block has written. -/
theorem bindBlock_reads {w : WrittenBlock} {scope : Nat} {src : BoundSource} {b : BoundSelect}
    {order : List SortKey} (hsrc : ∀ t ∈ src.clauses, t.ReadsOnly w.MayRead)
    (h : bindBlock env scope w.select src w.orderBy s = .ok (b, order) s') :
    s'.requests = s.requests ∧ b.source = src ∧ ∀ t ∈ b.clauses order, t.ReadsOnly w.MayRead := by
  have hspreads : ∀ item ∈ w.select.projection,
      SpreadRules (fun u => u.requests = s.requests) (Term.ReadsOnly w.MayRead) item := by
    intro item hitem ctx u tables _ _ t _ hspreads c _
    exact Term.readsOnly_column (w.mayRead_of_spreads hitem hspreads _)
  obtain ⟨hsame, hterms⟩ := bindBlock_keeps (readRules env w.MayRead s.requests) w
    (nameRules_of_admits w.admits) hspreads rfl h
  obtain ⟨-, -, -, -, -, -, -, -, -, -, -, -, rfl, -⟩ := run_bindBlock_ok h
  refine ⟨hsame, rfl, ?_⟩
  simp only [BoundSelect.clauses, List.forall_mem_append, List.forall_mem_map, Option.mem_toList]
  exact ⟨⟨⟨⟨⟨hsrc, hterms.filter⟩, hterms.groupBy⟩, hterms.fields⟩, hterms.having⟩, hterms.order⟩

end Resolve

end SchemaQuery
